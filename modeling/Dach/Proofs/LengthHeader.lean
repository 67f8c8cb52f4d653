/-
Module: Dach.Proofs.LengthHeader
Layer: Proofs
Purpose: The block size a coder is made with, and the one a decoder reads from the header the coder wrote.
  Each counts its symbols against its own.
Imports: Dach.Proofs.DecoderSafety, Dach.Proofs.Renorm
Trusted boundary: none
Main exports: encodeLoop_counts, decodeCalls_counts, LengthAgrees, dachNewArcoder_length_iff
-/
import Dach.Proofs.DecoderSafety
import Dach.Proofs.Renorm

namespace Dach

open Outcome

/-! ### Symbols an encoder counts -/

/-- Any abort. -/
def AnyStop (_ : Abort) : Prop := True

section Encoder

variable (host : Host)

theorem encodePass_same (arc : Arc) :
    Yields AnyStop (encodePass host arc) fun next => ∀ t, next = some t → arc.SameModel t := by
  refine Yields.ite (fun _ => ?_) fun _ => Yields.ite (fun _ => ?_) fun _ => ?_
  · have hwrite : Yields AnyStop (dachWriteStream host arc (u32 (arc.high >>> 31))) arc.BitsOut := by
      by_cases hbit : u32 (arc.high >>> 31) = 1 ∨ u32 (arc.high >>> 31) = 0
      · exact (dachWriteStream_yields host arc hbit).weaken fun _ _ => trivial
      · rw [dachWriteStream, cassert_neg _ hbit]
        exact Yields.error trivial
    refine hwrite.bind fun mid h => Yields.ok fun t heq => ?_
    cases heq
    exact ⟨h.mod, h.scale, h.totalSyms, h.blocksize, h.stop⟩
  · refine Yields.ok fun t heq => ?_
    cases heq
    exact ⟨rfl, rfl, rfl, rfl, rfl⟩
  · exact Yields.ok fun t heq => (by cases heq)

/-- A call that returns counts one symbol. -/
theorem dachEncode_counts (arc : Arc) (chr : Nat) :
    Yields AnyStop (dachEncode host arc chr) fun result =>
      result.2.totalSyms = u64 (arc.totalSyms + 1) ∧ result.2.blocksize = arc.blocksize := by
  have hany : ∀ e, AnyStop e := fun _ => trivial
  have hstep : ∀ sym, Yields AnyStop (dachEncodeStep arc sym) arc.SameModel := by
    intro sym
    rcases hcall : dachEncodeStep arc sym with e | mid
    · trivial
    · exact ((dachEncodeStep_ends arc sym).2 mid hcall).2
  refine (Yields.any _ hany).bind fun sym _ => (hstep sym).bind fun mid hmid => ?_
  refine (Yields.forever_invariant trivial
    (I := Arc.SameModel { mid with totalSyms := u64 (mid.totalSyms + 1) })
    (fun s hs => (encodePass_same host s).mono fun next hnext t heq => hs.trans (hnext t heq))
    (Arc.SameModel.refl _)).bind fun result hresult => ?_
  refine (Yields.any _ hany).bind fun updated _ => Yields.ok ⟨?_, ?_⟩
  · exact hresult.totalSyms.trans (by rw [← hmid.totalSyms])
  · exact hresult.blocksize.trans hmid.blocksize

/-- The loop of `encode` counts one symbol for every byte. -/
theorem encodeLoop_counts {data : List UInt8} : ∀ arc : Arc, arc.totalSyms + data.length < 2 ^ 64 →
    Yields AnyStop (encodeLoop host data arc) fun result =>
      result.2.totalSyms = arc.totalSyms + data.length ∧ result.2.blocksize = arc.blocksize := by
  induction data with
  | nil =>
      intro arc _
      exact Yields.ok ⟨rfl, rfl⟩
  | cons c data ih =>
      intro arc hlt
      rw [List.length_cons] at hlt
      rw [encodeLoop]
      apply (dachEncode_counts host arc c.toNat).bind
      rintro ⟨shifts, mid⟩ ⟨htotal, hblock⟩
      have htotal' : mid.totalSyms = arc.totalSyms + 1 := htotal.trans (u64_of_lt (by omega))
      apply (ih mid (by omega)).bind
      rintro ⟨later, last⟩ ⟨hlast, hblock'⟩
      refine Yields.ok ⟨?_, ?_⟩
      · show last.totalSyms = _
        rw [List.length_cons]
        have : last.totalSyms = mid.totalSyms + data.length := hlast
        omega
      · exact hblock'.trans hblock

end Encoder

/-! ### Symbols a decoder counts -/

/-- A decoder between two calls: it has stopped exactly when it has counted its block size. -/
structure DecodeCount (arc : Arc) (n : Nat) : Prop where
  totalSyms : arc.totalSyms = n
  le : n ≤ arc.blocksize
  stop : arc.stop = true ↔ 0 < n ∧ n = arc.blocksize

/-- Every call counts one symbol, and no call returns once the decoder has stopped. -/
theorem decodeCalls_counts (host : Host) {calls : Nat} : ∀ {arc : Arc} {n : Nat}, DecodeCount arc n →
    arc.blocksize < 2 ^ 32 → ∀ chrs arc', decodeCalls host calls arc = .ok (chrs, arc') →
      DecodeCount arc' (n + calls) ∧ arc'.blocksize = arc.blocksize := by
  induction calls with
  | zero =>
      intro arc n h _ chrs arc' hrun
      cases hrun
      exact ⟨h, rfl⟩
  | succ calls ih =>
      intro arc n h hsmall chrs arc' hrun
      simp only [decodeCalls, bind_eq_ok, pure_eq_ok] at hrun
      rcases hrun with ⟨⟨chr, mid⟩, hcall, ⟨rest, last⟩, hrest, hend⟩
      cases hend
      have hone : CountsOne arc mid := (dachDecode_ends arc).2 _ hcall
      have hle := h.le
      have htotal : mid.totalSyms = n + 1 := by
        rw [hone.totalSyms, h.totalSyms]
        exact u64_of_lt (by omega)
      have hlast := hone.le
      have hmid : DecodeCount mid (n + 1) := by
        refine ⟨htotal, by rw [hone.blocksize]; omega, ?_⟩
        rw [hone.stop, h.stop, htotal, hone.blocksize]
        omega
      rcases ih hmid (by rw [hone.blocksize]; exact hsmall) rest last hrest with ⟨hcount, hblock⟩
      rw [show n + (calls + 1) = n + 1 + calls by omega]
      exact ⟨hcount, hblock.trans hone.blocksize⟩

/-! ### The header -/

/-- Both coders start the same. -/
structure SameStart (enc dec : Arc) : Prop where
  low : dec.low = enc.low
  high : dec.high = enc.high
  scale : dec.scale = enc.scale
  underflow : dec.underflow = enc.underflow
  mod : dec.mod = enc.mod

/-- `dach_stop_encoder` takes the encoder after `s` symbols only, and the decoder stops after `s` symbols
    and not before. -/
def StopsAfter (host : Host) (enc dec : Arc) (s : Nat) : Prop :=
  (∀ data shifts arc last, data.length < 2 ^ 64 → encodeLoop host data enc = .ok (shifts, arc) →
    dachStopEncoder host arc = .ok last → data.length = s) ∧
  ∀ start calls chrs arc, dachStartDecoder host dec = .ok start →
    decodeCalls host calls start = .ok (chrs, arc) → (dachEof arc = true ↔ calls = s)

/-- An encoder made for `s` bytes, if the constructor makes one, writes four bytes from which a decoder
    learns `s`, whatever follows them. -/
def LengthAgrees (host : Host) (mod : Ppm0) (inp out : CFile) (s : Nat) : Prop :=
  ∀ enc, dachNewArcoder host mod inp out s = .ok enc →
    ∃ hdr : List UInt8, hdr.length = 4 ∧ enc.io = .files inp (out.fwrite hdr) ∧
      ∀ payload out', ∃ dec,
        dachNewArcoder host mod (CFile.reading (hdr ++ payload)) out' 0 = .ok dec ∧
          dec.blocksize = s ∧ SameStart enc dec ∧ StopsAfter host enc dec s

/-- The constructor of an encoder. -/
theorem dachNewArcoder_encoder (host : Host) {mod : Ppm0} (hscale : mod.scale ≠ 0) (inp out : CFile)
    {s : Nat} (hs : 1 ≤ s) :
    dachNewArcoder host mod inp out s
      = .ok (arcFresh mod (.files inp (out.fwrite (dachWriteHdrU32 host.order (u32 s)))) s) := by
  rw [dachNewArcoder, if_neg (by omega)]
  exact arcInit_ok hscale _ _

/-- For every block size of an encoder: the decoder learns it from the header exactly when it fits into
    32 bits. The constructor rejects no size. -/
theorem dachNewArcoder_length_iff (host : Host) (mod : Ppm0) (inp out : CFile) (s : Nat)
    (hscale : mod.scale ≠ 0) (hs : 1 ≤ s) (hs64 : s < 2 ^ 64) :
    LengthAgrees host mod inp out s ↔ s < 2 ^ 32 := by
  have henc := dachNewArcoder_encoder host hscale inp out hs
  constructor
  · intro h
    rcases h _ henc with ⟨hdr, _, hio, hdec⟩
    -- the header is what the constructor wrote
    have hwritten := congrArg CFile.written (ArcIo.files.inj hio).2
    obtain rfl : dachWriteHdrU32 host.order (u32 s) = hdr := List.append_cancel_left hwritten
    rcases hdec [] (CFile.reading []) with ⟨dec, hdec, hsize, _⟩
    have hcut : u32 s < 2 ^ 32 := Nat.mod_lt _ (Nat.two_pow_pos 32)
    have hdec' := dachNewArcoder_decoder host hscale (CFile.reading []) hcut []
    rw [withHeader, hdec] at hdec'
    cases hdec'
    rw [← hsize]
    exact hcut
  · intro hlt enc hnew
    rw [henc] at hnew
    cases hnew
    refine ⟨_, length_u32Bytes _ _, rfl, fun payload out' => ?_⟩
    have hsize : u32 s = s := u32_of_lt hlt
    have hdec := dachNewArcoder_decoder host hscale out' (show u32 s < 2 ^ 32 by omega) payload
    refine ⟨_, hdec, hsize, ⟨rfl, rfl, rfl, rfl, rfl⟩, ?_, ?_⟩
    · intro data shifts arc last hdata hloop hstop
      have hcount := (encodeLoop_counts host _ (by show 0 + data.length < _; omega)).of_ok hloop
      have htotal : arc.totalSyms = 0 + data.length := hcount.1
      have hblock : arc.blocksize = s := hcount.2
      by_contra hne
      rw [dachStopEncoder, cassert_neg _ (by omega)] at hstop
      cases hstop
    · intro start calls chrs arc hstart hcalls
      have hsame := (startLoop_ends _).2 start hstart
      have hgo : start.stop = false := hsame.stop
      have hfresh : DecodeCount start 0 := by
        refine ⟨hsame.totalSyms, Nat.zero_le _, ?_⟩
        rw [hgo]
        exact iff_of_false Bool.false_ne_true fun h => absurd h.1 (Nat.lt_irrefl 0)
      have hblock : start.blocksize = s := hsame.blocksize.trans hsize
      rcases decodeCalls_counts host hfresh (by omega) chrs arc hcalls with ⟨hcount, hblock'⟩
      rw [dachEof, hcount.stop, hblock', hblock]
      omega

theorem dachNewArcoder_length_iff_three : ∃ mod, dachPpm0New = .ok mod ∧
    LengthAgrees littleHost mod (CFile.reading []) (CFile.reading []) 3 := by
  rcases dachPpm0New_fresh with ⟨mod, hnew, fresh⟩
  exact ⟨mod, hnew, (dachNewArcoder_length_iff littleHost mod _ _ 3 fresh.scale_ne (by decide)
    (by decide)).mpr (by decide)⟩

/-- A block size of 4 GiB and one byte: the decoder learns 1. -/
theorem dachNewArcoder_length_cut : ∃ mod enc dec, dachPpm0New = .ok mod ∧
    ¬ LengthAgrees littleHost mod (CFile.reading []) (CFile.reading []) 4294967297 ∧
    dachNewArcoder littleHost mod (CFile.reading []) (CFile.reading []) 4294967297 = .ok enc ∧
    enc.fileWritten = [1, 0, 0, 0] ∧ enc.blocksize = 4294967297 ∧
    dachNewArcoder littleHost mod (CFile.reading [1, 0, 0, 0]) (CFile.reading []) 0 = .ok dec ∧
    dec.blocksize = 1 := by
  rcases dachPpm0New_fresh with ⟨mod, hnew, fresh⟩
  have henc := dachNewArcoder_encoder littleHost fresh.scale_ne (CFile.reading []) (CFile.reading [])
    (s := 4294967297) (by decide)
  have hdec := dachNewArcoder_decoder littleHost fresh.scale_ne (CFile.reading [])
    (show u32 4294967297 < 2 ^ 32 by decide) []
  refine ⟨mod, _, _, hnew, fun h => ?_, henc, rfl, rfl, hdec, rfl⟩
  rcases h _ henc with ⟨hdr, _, hio, hagree⟩
  have hwritten := congrArg CFile.written (ArcIo.files.inj hio).2
  obtain rfl : dachWriteHdrU32 .little (u32 4294967297) = hdr := List.append_cancel_left hwritten
  rcases hagree [] (CFile.reading []) with ⟨dec, hdec', hsize, _⟩
  have hsame := hdec.symm.trans hdec'
  cases hsame
  exact absurd (show 1 = 4294967297 from hsize) (by decide)

end Dach
