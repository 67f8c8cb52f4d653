/-
Module: Dach.Proofs.DecoderSafety
Layer: Proofs
Purpose: The decoder on files nobody encoded. Every reachable state keeps the code value inside the
  interval and the run can end early in two ways only; and the reserved symbol, rejected at every
  position before the last, is let through at the last one.
Imports: Dach.Proofs.Decoder
Trusted boundary: none
Main exports: decoderNew_ready, dachDecode_ok, dachDecode_error, decodeCalls_ready, decode_safe,
  EmitsOnlyData, decode_emitsOnlyData_iff
-/
import Dach.Proofs.Decoder

namespace Dach

open IntervalCoder

/-! ### A fresh decoder -/

/-- The input file of `decode` behind its header. -/
def decodeSource (host : Host) (payload : List UInt8) : Source host :=
  fileSource host payload (CFile.reading [])

/-- A file with a header of `n` symbols. -/
def withHeader (host : Host) (n : Nat) (payload : List UInt8) : List UInt8 :=
  dachWriteHdrU32 host.order n ++ payload

theorem drop_withHeader (host : Host) (n : Nat) (payload : List UInt8) :
    (withHeader host n payload).drop 4 = payload := List.drop_left' (length_u32Bytes _ _)

/-- The first window holds every code value. -/
theorem within_start {host : Host} (src : Source host) :
    src.code.Within (Frame.start (2 ^ 30)) := by
  have hlt := Bits.prefixVal_lt src.bit 32
  constructor
  · exact Nat.zero_le _
  · show Bits.prefixVal src.bit (0 + 32) < 0 + (4 * 2 ^ 30 - 1) + 1
    rw [Nat.zero_add]
    omega

/-- `dach_start_decoder` makes a fresh coder on a source ready. -/
theorem dachStartDecoder_ready {host : Host} (src : Source host) {mod : Ppm0}
    (fresh : FreshTables mod) (blocksize : Nat) :
    ∃ arc, dachStartDecoder host (arcFresh mod (src.io 0) blocksize) = .ok arc ∧
      DecoderReady src (Frame.start (2 ^ 30)) arc ∧ arc.mod = mod ∧ arc.totalSyms = 0 ∧
      arc.blocksize = blocksize ∧ arc.stop = false := by
  obtain ⟨io, eofIn, buffer, full, esym, hrun, hreading, hesym⟩ :=
    dachStartDecoder_spec src (show _ = arcFresh mod (src.io 0) blocksize from rfl)
  refine ⟨_, hrun, ⟨⟨⟨rfl, ?_⟩, hreading, ?_, within_start src⟩, ⟨fresh.wf, fresh.reserved, rfl⟩,
    Frame.start_normal (by norm_num), ?_⟩, rfl, rfl, rfl, rfl⟩
  · exact (arcFresh_registers mod (src.io 0) blocksize).high
  · show esym + 0 = Bits.prefixVal src.bit (0 + 32)
    rw [hesym]
    rfl
  · intro j hj
    obtain rfl : j = 0 := by
      have : 32 * j < 0 + 32 := hj
      omega
    exact src.eof_zero

/-- The constructor of a decoder on a file that starts with a header: the size comes from the header, and
    the payload is what is left. -/
theorem dachNewArcoder_decoder (host : Host) {mod : Ppm0} (hscale : mod.scale ≠ 0) (out : CFile)
    {n : Nat} (hn : n < 2 ^ 32) (payload : List UInt8) :
    dachNewArcoder host mod (CFile.reading (withHeader host n payload)) out 0
      = .ok (arcFresh mod (.files (CFile.reading payload) out) n) := by
  have hlen : (dachWriteHdrU32 host.order n).length = 4 := length_u32Bytes _ _
  have hread : (CFile.reading (withHeader host n payload)).fread 4
      = (dachWriteHdrU32 host.order n, CFile.reading payload) := by
    simp only [CFile.fread, CFile.reading, withHeader, Bool.false_or, List.length_append, hlen]
    rw [List.take_left' hlen, List.drop_left' hlen, decide_eq_false (by omega)]
  have hsize : dachReadHdrU32 host.order (dachWriteHdrU32 host.order n) = n := by
    rw [dachReadHdrU32, dachWriteHdrU32, u32OfBytes_u32Bytes, u32_of_lt hn]
  rw [dachNewArcoder, if_pos rfl, hread]
  simp only [hsize, arcInit_ok hscale]

theorem decodeSource_io_zero (host : Host) (payload : List UInt8) :
    ArcIo.files (CFile.reading payload) (CFile.reading []) = (decodeSource host payload).io 0 := by
  simp [decodeSource, fileSource, CFile.reading]

theorem decoderNew_ready (host : Host) {n : Nat} (hn : n < 2 ^ 32) (payload : List UInt8) :
    ∃ mod arc, dachPpm0New = .ok mod ∧ FreshTables mod ∧
      decoderNew host (withHeader host n payload) = .ok arc ∧
      DecoderReady (decodeSource host payload) (Frame.start (2 ^ 30)) arc ∧ arc.mod = mod ∧
      arc.totalSyms = 0 ∧ arc.blocksize = n ∧ arc.stop = false := by
  obtain ⟨mod, hnew, fresh⟩ := dachPpm0New_fresh
  obtain ⟨arc, hstart, hready⟩ := dachStartDecoder_ready (decodeSource host payload) fresh n
  refine ⟨mod, arc, hnew, fresh, ?_, hready⟩
  rw [decoderNew, hnew, ok_bind, dachNewArcoder_decoder host fresh.scale_ne _ hn payload, ok_bind,
    decodeSource_io_zero]
  exact hstart

section Run

variable {host : Host} {src : Source host} {arc arc' : Arc} {f : Frame} {chr : Nat}

/-- A scale of less than 32 bits never wraps. -/
theorem DecoderReady.noWrap (h : DecoderReady src f arc) (hscale : arc.mod.scale < 2 ^ 32) :
    arc.NoWrap := by
  unfold Arc.NoWrap
  rw [h.place.registers.range, h.model.scale]
  exact range_mul_lt h.normal.valid hscale

/-- In terms of the frame. -/
theorem DecoderReady.noWrap_iff (h : DecoderReady src f arc) :
    arc.NoWrap ↔ f.range * arc.scale < 2 ^ 64 := by
  rw [Arc.NoWrap, h.place.registers.range]

/-! ### One call -/

/-- A slice of fewer than two values trips an assertion of the renormalisation loop. -/
theorem dachDecode_pinched (h : DecoderReady src f arc) {sym : Nat} (hsel : Selected f arc sym)
    (hsym : sym ≤ 256) (hwrap : f.range * arc.scale < 2 ^ 64)
    (hmore : arc.totalSyms + 1 < arc.blocksize) (hblock : arc.blocksize < 2 ^ 64)
    (hv : ¬ (f.narrow (h.model.wf.slice hsel.pos hsel.le)).Valid (2 ^ 30)) :
    dachDecode host arc = .error .decodeInterval := by
  have hpinched : ¬ (f.narrow (h.model.wf.slice hsel.pos hsel.le)).high
      > (f.narrow (h.model.wf.slice hsel.pos hsel.le)).low := by
    intro hlt
    refine hv ⟨hlt, ?_⟩
    have htop := Frame.narrow_top_le f (h.model.wf.slice hsel.pos hsel.le)
    have hlow := h.normal.valid.1
    have hbound := h.normal.valid.2
    simp only [Frame.narrow]
    unfold Frame.range at htop ⊢
    omega
  rw [dachDecode_narrow h hsel hsym hwrap hmore hblock]
  simp only [decodeRenorm, loopFuel, Loop.forever, decodePass, cassert_neg _ hpinched, error_bind]

/-- What a call that returns before the last position has done. -/
structure Decoded (src : Source host) (f : Frame) (arc : Arc) (chr : Nat) (g : Frame) (arc' : Arc) :
    Prop where
  sym : ∃ sym, Selected f arc sym ∧ sym ≤ 256 ∧ chr = arc.mod.symToChr sym
  ready : DecoderReady src g arc'
  scale : arc'.mod.scale = arc.mod.scale + 1
  totalSyms : arc'.totalSyms = arc.totalSyms + 1
  blocksize : arc'.blocksize = arc.blocksize
  stop : arc'.stop = arc.stop

theorem dachDecode_ok (h : DecoderReady src f arc) (hwrap : arc.NoWrap)
    (hscale : arc.mod.scale ≤ 2 ^ 32 + 254) (hmore : arc.totalSyms + 1 < arc.blocksize)
    (hblock : arc.blocksize < 2 ^ 64) (hrun : dachDecode host arc = .ok (chr, arc')) :
    ∃ g, Decoded src f arc chr g arc' := by
  have hprod := h.noWrap_iff.mp hwrap
  obtain ⟨sym, hsel⟩ := h.selected hprod
  by_cases hsym : sym ≤ 256
  · by_cases hv : (f.narrow (h.model.wf.slice hsel.pos hsel.le)).Valid (2 ^ 30)
    · obtain ⟨k, g, run⟩ := renorm_exists hv
      obtain ⟨hok, hstop⟩ := dachDecode_more h hsel hsym hprod hscale hmore hblock hv run
      by_cases hread : src.Readable (g.shifts + 32)
      · obtain ⟨arc'', hcall, hready, _, hscale', htotal, hblock', hstop'⟩ := hok hread
        rw [hcall] at hrun
        cases hrun
        exact ⟨g, ⟨sym, hsel, hsym, rfl⟩, hready, hscale', htotal, hblock', hstop'⟩
      · rw [hstop hread] at hrun
        cases hrun
    · rw [dachDecode_pinched h hsel hsym hprod hmore hblock hv] at hrun
      cases hrun
  · have hreserved : sym = 257 := by
      have := hsel.le
      omega
    subst hreserved
    rw [dachDecode_reserved h hsel hmore hblock] at hrun
    cases hrun

/-- Inside the working range a call fails in two ways only. -/
theorem dachDecode_error (h : DecoderReady src f arc) (hfits : 2 * arc.mod.scale ≤ 2 ^ 30 + 2)
    (htotal : arc.totalSyms + 1 ≤ arc.blocksize) (hblock : arc.blocksize < 2 ^ 64) {e : Abort}
    (hrun : dachDecode host arc = .error e) : e = .decodeReserved ∨ e = .bitinEof := by
  have hwrap := h.noWrap (by omega)
  have hprod := h.noWrap_iff.mp hwrap
  obtain ⟨sym, hsel⟩ := h.selected hprod
  rcases Nat.eq_or_lt_of_le htotal with hlast | hmore
  · rw [dachDecode_last h hsel hlast hblock] at hrun
    cases hrun
  · by_cases hsym : sym ≤ 256
    · have hv := Frame.narrow_valid_of_normal (s := h.model.wf.slice hsel.pos hsel.le) h.normal hfits
      obtain ⟨k, g, run⟩ := renorm_exists hv
      obtain ⟨hok, hstop⟩ := dachDecode_more h hsel hsym hprod (by omega) hmore hblock hv run
      by_cases hread : src.Readable (g.shifts + 32)
      · obtain ⟨_, hcall, _⟩ := hok hread
        rw [hcall] at hrun
        cases hrun
      · rw [hstop hread] at hrun
        cases hrun
        exact Or.inr rfl
    · have hreserved : sym = 257 := by
        have := hsel.le
        omega
      subst hreserved
      rw [dachDecode_reserved h hsel hmore hblock] at hrun
      cases hrun
      exact Or.inl rfl

/-! ### Runs -/

/-- None of the next `k` calls computes a wrapped product. Where the scale stays below 32 bits this
    needs no look at the run. -/
def WrapFree (host : Host) (arc : Arc) (k : Nat) : Prop :=
  arc.mod.scale + k ≤ 2 ^ 32 ∨
    ∀ j < k, ∀ chrs mid, decodeCalls host j arc = .ok (chrs, mid) → mid.NoWrap

/-- A ready decoder stays ready over any number of calls before the last position. -/
theorem decodeCalls_ready {k : Nat} : ∀ {arc arc' : Arc} {f : Frame} {chrs : List Nat},
    DecoderReady src f arc → WrapFree host arc k → arc.mod.scale + k ≤ 2 ^ 32 + 255 →
    arc.totalSyms + k < arc.blocksize → arc.blocksize < 2 ^ 64 →
    decodeCalls host k arc = .ok (chrs, arc') →
      ∃ g, DecoderReady src g arc' ∧ arc'.mod.scale = arc.mod.scale + k ∧
        arc'.totalSyms = arc.totalSyms + k ∧ arc'.blocksize = arc.blocksize ∧
        arc'.stop = arc.stop := by
  induction k with
  | zero =>
      intro arc arc' f chrs h _ _ _ _ hrun
      cases hrun
      exact ⟨f, h, rfl, rfl, rfl, rfl⟩
  | succ k ih =>
      intro arc arc' f chrs h hfree hscale htotal hblock hrun
      rw [decodeCalls, bind_eq_ok] at hrun
      obtain ⟨⟨chr, mid⟩, hcall, hrest⟩ := hrun
      rw [bind_eq_ok] at hrest
      obtain ⟨⟨later, last⟩, hcalls, hret⟩ := hrest
      cases hret
      have hwrap : arc.NoWrap := by
        rcases hfree with hsmall | hrun
        · exact h.noWrap (by omega)
        · exact hrun 0 (Nat.succ_pos k) [] arc rfl
      obtain ⟨g, hdec⟩ := dachDecode_ok h hwrap (by omega) (by omega) hblock hcall
      have hscale' := hdec.scale
      have htotal' := hdec.totalSyms
      have hblock' := hdec.blocksize
      have hfree' : WrapFree host mid k := by
        rcases hfree with hsmall | hrun
        · exact Or.inl (by omega)
        · refine Or.inr fun j hj chrs mid' hj' => hrun (j + 1) (by omega) (chr :: chrs) mid' ?_
          simp only [decodeCalls, hcall, hj', ok_bind, pure_eq_ok]
      obtain ⟨g', hready, hs, ht, hb, hst⟩ :=
        ih hdec.ready hfree' (by omega) (by omega) (by omega) hcalls
      exact ⟨g', hready, by omega, by omega, by omega, hst.trans hdec.stop⟩

/-- The loop of `decode` from a ready state with `left + 1` symbols to go. -/
theorem decodeLoop_error {left : Nat} : ∀ {arc : Arc} {f : Frame} {buf : List UInt8} {fdOut : CFile}
    {e : Abort}, DecoderReady src f arc → 2 * (arc.mod.scale + left) ≤ 2 ^ 30 + 2 →
    arc.totalSyms + (left + 1) = arc.blocksize → arc.blocksize < 2 ^ 64 → arc.stop = false →
    decodeLoop host (left + 2) arc buf fdOut = .error e → e = .decodeReserved ∨ e = .bitinEof := by
  induction left with
  | zero =>
      intro arc f buf fdOut e h hscale htotal hblock hstop hrun
      have hprod := h.noWrap_iff.mp (h.noWrap (by omega))
      obtain ⟨sym, hsel⟩ := h.selected hprod
      -- the last call sets `stop`, and the loop leaves
      rw [decodeLoop, dachEof, hstop, if_neg (by decide), dachDecode_last h hsel htotal hblock,
        ok_bind] at hrun
      dsimp only at hrun
      split at hrun
      · rw [decodeLoop, dachEof, if_pos rfl] at hrun
        cases hrun
      · rw [decodeLoop, dachEof, if_pos rfl] at hrun
        cases hrun
  | succ left ih =>
      intro arc f buf fdOut e h hscale htotal hblock hstop hrun
      rw [decodeLoop, dachEof, hstop, if_neg (by decide)] at hrun
      cases hcall : dachDecode host arc with
      | error e' =>
          rw [hcall, error_bind] at hrun
          cases hrun
          exact dachDecode_error h (by omega) (by omega) hblock hcall
      | ok result =>
          obtain ⟨chr, mid⟩ := result
          obtain ⟨g, hdec⟩ := dachDecode_ok h (h.noWrap (by omega)) (by omega) (by omega) hblock hcall
          have hscale' := hdec.scale
          have htotal' := hdec.totalSyms
          have hblock' := hdec.blocksize
          rw [hcall, ok_bind] at hrun
          dsimp only at hrun
          split at hrun
          · exact ih hdec.ready (by omega) (by omega) (by omega) (hdec.stop.trans hstop) hrun
          · exact ih hdec.ready (by omega) (by omega) (by omega) (hdec.stop.trans hstop) hrun

end Run

/-- The start of a `dach_decode` call with the code value inside the interval; the call finds a symbol,
    its interval arithmetic does not exit, and it can only be stopped by the reserved symbol or by the
    end of the file. -/
structure DecodesSafely (host : Host) (arc : Arc) : Prop where
  interval : arc.low < arc.high
  esym : arc.low ≤ arc.esym ∧ arc.esym ≤ arc.high
  range : dachCalcRange arc = .ok (arc.high - arc.low + 1)
  symbol : ∃ sym, dachPpm0FindSym arc.mod
      (decodeCount { arc with range := arc.high - arc.low + 1 }) = .ok sym ∧
    (sym ≤ 256 → ∃ arc', dachEncodeStep arc sym = .ok arc')
  abort : ∀ e, dachDecode host arc = .error e → e = .decodeReserved ∨ e = .bitinEof

theorem DecoderReady.decodesSafely {host : Host} {src : Source host} {f : Frame} {arc : Arc}
    (h : DecoderReady src f arc) (hfits : 2 * arc.mod.scale ≤ 2 ^ 30 + 2)
    (htotal : arc.totalSyms + 1 ≤ arc.blocksize) (hblock : arc.blocksize < 2 ^ 64) :
    DecodesSafely host arc := by
  have hwidth := h.place.registers.range
  obtain ⟨hlo, hhi⟩ := h.place.esym_bounds
  have hge := h.normal.range_ge
  have hprod := h.noWrap_iff.mp (h.noWrap (by omega))
  obtain ⟨sym, hsel⟩ := h.selected hprod
  constructor
  · rw [h.place.registers.low, h.place.registers.high]
    exact h.normal.valid.1
  · rw [h.place.registers.low, h.place.registers.high]
    exact ⟨hlo, hhi⟩
  · rw [hwidth]
    exact dachCalcRange_eq h.place.registers h.normal.valid
  · rw [hwidth]
    exact ⟨sym, hsel.found, fun hsym => ⟨_, dachEncodeStep_fits arc h.model.wf h.model.scale
      h.place.registers h.normal.valid (by omega) hsel.pos hsym⟩⟩
  · exact fun e hrun => dachDecode_error h hfits htotal hblock hrun

/-- The decoder on arbitrary input: every call starts with the code value inside the interval, and a
    run ends early only at the reserved symbol or at the end of the file. -/
theorem decode_safe (host : Host) (payload : List UInt8) (n : Nat) (hpos : 1 ≤ n)
    (hlen : n ≤ 2 ^ 29 - 256) :
    ∃ new, decoderNew host (withHeader host n payload) = .ok new ∧
      (∀ i < n, ∀ chrs arc, decodeCalls host i new = .ok (chrs, arc) → DecodesSafely host arc) ∧
      ∀ e, decode host (withHeader host n payload) = .error e →
        e = .decodeReserved ∨ e = .bitinEof := by
  obtain ⟨mod, new, _, fresh, hnew, hready, hmod, htotal, hblock, hstop⟩ :=
    decoderNew_ready host (n := n) (by omega) payload
  have hscale : new.mod.scale = 257 := by rw [hmod, fresh.scale_eq]
  refine ⟨new, hnew, ?_, ?_⟩
  · intro i hi chrs arc hrun
    obtain ⟨g, hat, hscale', htotal', hblock', _⟩ :=
      decodeCalls_ready hready (Or.inl (by omega)) (by omega) (by omega) (by omega) hrun
    exact hat.decodesSafely (by omega) (by omega) (by omega)
  · intro e hrun
    rw [decode, hnew, ok_bind] at hrun
    cases hloop : decodeLoop host (new.blocksize + 1) new [] (CFile.reading []) with
    | error e' =>
        rw [hloop, error_bind] at hrun
        cases hrun
        obtain ⟨left, hleft⟩ : ∃ left, n = left + 1 := ⟨n - 1, by omega⟩
        rw [hblock, hleft] at hloop
        exact decodeLoop_error hready (by omega) (by omega) (by omega) hstop hloop
    | ok result =>
        rw [hloop, ok_bind] at hrun
        cases hrun

/-- Four zero bytes with a header of two symbols. -/
theorem decode_safe_zeros : ∃ new,
    decoderNew littleHost (withHeader littleHost 2 [0, 0, 0, 0]) = .ok new ∧
      DecodesSafely littleHost new := by
  obtain ⟨new, hnew, hsafe, _⟩ := decode_safe littleHost [0, 0, 0, 0] 2 (by decide) (by decide)
  exact ⟨new, hnew, hsafe 0 (by decide) [] new rfl⟩

/-! ### The reserved symbol -/

/-- If the call returns a character, it is the one of the symbol that was found, this symbol is one of
    1..256, and the code value lies in the interval an encoder gives it. -/
def EmitsOnlyData (host : Host) (arc : Arc) : Prop :=
  ∀ chr arc', dachDecode host arc = .ok (chr, arc') →
    ∃ sym enc, dachPpm0FindSym arc.mod
        (decodeCount { arc with range := arc.high - arc.low + 1 }) = .ok sym ∧
      1 ≤ sym ∧ sym ≤ 256 ∧ dachSymToChr arc.mod sym = .ok chr ∧
      dachEncodeStep arc sym = .ok enc ∧ enc.low ≤ arc.esym ∧ arc.esym ≤ enc.high

section Reserved

variable {host : Host} {src : Source host} {arc : Arc} {f : Frame}

/-- The reserved symbol takes one count at the bottom of the scale. -/
theorem Arc.Model.cumAt_reserved (model : arc.Model) : arc.mod.cumAt 257 = 1 := by
  rw [model.wf.cum_step 257 (by omega) (by omega), model.reserved.2, Ppm0.cumAt_symCount]

/-- The slices of the symbols 1..256 lie above it. -/
theorem Arc.Model.cumAt_pos (model : arc.Model) {sym : Nat} (hsym : sym ≤ 256) :
    1 ≤ arc.mod.cumAt (sym + 1) := by
  have hgap := model.wf.cum_gap (s := sym + 1) (t := 257) (by omega) (by omega) (by omega)
  rw [model.cumAt_reserved] at hgap
  omega

/-- A symbol is one of 1..256 exactly when the code value is above the reserved interval. -/
theorem Selected.le_256_iff (model : arc.Model) {sym : Nat} (hsel : Selected f arc sym) :
    sym ≤ 256 ↔ f.low + f.range / arc.mod.scale ≤ arc.esym := by
  have hle := hsel.le
  have hlo := hsel.lower
  have hhi := hsel.upper
  constructor
  · intro hsym
    have hmono : f.range / arc.mod.scale ≤ f.range * arc.mod.cumAt (sym + 1) / arc.mod.scale := by
      apply Nat.div_le_div_right
      exact Nat.le_mul_of_pos_right _ (model.cumAt_pos hsym)
    omega
  · intro hesym
    by_contra hgt
    obtain rfl : sym = 257 := by omega
    rw [model.cumAt_reserved, Nat.mul_one] at hhi
    omega

/-- The encoder's interval of the selected symbol holds the code value. -/
theorem Selected.encodeStep (h : DecoderReady src f arc) {sym : Nat} (hsel : Selected f arc sym)
    (hsym : sym ≤ 256) (hprod : f.range * arc.scale < 2 ^ 64) :
    ∃ enc, dachEncodeStep arc sym = .ok enc ∧ enc.low ≤ arc.esym ∧ arc.esym ≤ enc.high := by
  have hstep := dachEncodeStep_eq arc h.model.wf h.model.scale h.place.registers h.normal.valid hprod
    hsel.pos hsym
  rw [if_pos hsel.narrows] at hstep
  refine ⟨_, hstep, hsel.lower, ?_⟩
  have hhi := hsel.upper
  show arc.esym ≤ f.low + f.range * arc.mod.cumAt sym / arc.mod.scale - 1
  omega

/-- The characters of the symbols 1..256 are bytes. -/
theorem Arc.Model.symToChr_lt (model : arc.Model) {sym : Nat} (hpos : 1 ≤ sym) (hsym : sym ≤ 256) :
    arc.mod.symToChr sym < 2 ^ 8 := by
  have hle := model.wf.chr_le sym hpos (by omega)
  have hne : arc.mod.symToChr sym ≠ 256 := by
    intro heq
    have := model.wf.symToChr_inj hpos (by omega) (by omega) (by omega)
      (heq.trans model.reserved.1.symm)
    omega
  omega

/-- One call emits only data, unless it is the last one and the code value is in the reserved
    interval. -/
theorem DecoderReady.emitsOnlyData_iff (h : DecoderReady src f arc) (hwrap : arc.NoWrap)
    (hscale : arc.totalSyms + 1 < arc.blocksize → arc.mod.scale ≤ 2 ^ 32 + 254)
    (htotal : arc.totalSyms + 1 ≤ arc.blocksize) (hblock : arc.blocksize < 2 ^ 64) :
    EmitsOnlyData host arc ↔ (arc.totalSyms + 1 < arc.blocksize ∨
      arc.low + (arc.high - arc.low + 1) / arc.scale ≤ arc.esym) := by
  have hwidth := h.place.registers.range
  have hprod := h.noWrap_iff.mp hwrap
  obtain ⟨sym, hsel⟩ := h.selected hprod
  have hiff := hsel.le_256_iff h.model
  rw [hwidth, h.place.registers.low, h.model.scale, ← hiff]
  constructor
  · intro hemits
    rcases Nat.eq_or_lt_of_le htotal with hlast | hmore
    · obtain ⟨t, _, hfound, _, ht, _⟩ := hemits _ _ (dachDecode_last h hsel hlast hblock)
      rw [hwidth, hsel.found] at hfound
      cases hfound
      exact Or.inr ht
    · exact Or.inl hmore
  · intro hcond chr arc' hrun
    rw [hwidth]
    by_cases hmore : arc.totalSyms + 1 < arc.blocksize
    · obtain ⟨g, hdec⟩ := dachDecode_ok h hwrap (hscale hmore) hmore hblock hrun
      obtain ⟨t, hsel', ht, hchr⟩ := hdec.sym
      obtain ⟨enc, hstep, hlow, hhigh⟩ := hsel'.encodeStep h ht hprod
      exact ⟨t, enc, hsel'.found, hsel'.pos, ht, by rw [hchr]; exact dachSymToChr_eq (by omega),
        hstep, hlow, hhigh⟩
    · have hsym : sym ≤ 256 := hcond.resolve_left hmore
      rw [dachDecode_last h hsel (by omega) hblock] at hrun
      cases hrun
      obtain ⟨enc, hstep, hlow, hhigh⟩ := hsel.encodeStep h hsym hprod
      have hchr : u8 (arc.mod.symToChr sym) = arc.mod.symToChr sym :=
        Nat.mod_eq_of_lt (h.model.symToChr_lt hsel.pos hsym)
      exact ⟨sym, enc, hsel.found, hsel.pos, hsym, by rw [hchr]; exact dachSymToChr_eq (by omega),
        hstep, hlow, hhigh⟩

end Reserved

/-- At every position of every file the decoder emits only data, except at the last position when the
    code value lies in the interval of the reserved symbol, the lowest `range / scale` values. -/
theorem decode_emitsOnlyData_iff (host : Host) (payload : List UInt8) (n i : Nat) (hn : n < 2 ^ 32)
    (hi : 1 ≤ i) (hi' : i ≤ n) (new arc : Arc) (chrs : List Nat)
    (hnew : decoderNew host (withHeader host n payload) = .ok new) (hfree : WrapFree host new i)
    (hrun : decodeCalls host (i - 1) new = .ok (chrs, arc)) :
    EmitsOnlyData host arc ↔
      (i < n ∨ arc.low + (arc.high - arc.low + 1) / arc.scale ≤ arc.esym) := by
  obtain ⟨mod, new', _, fresh, hnew', hready, hmod, htotal, hblock, _⟩ :=
    decoderNew_ready host hn payload
  obtain rfl : new' = new := ok_unique hnew' hnew
  have hscale : new'.mod.scale = 257 := by rw [hmod, fresh.scale_eq]
  have hfree' : WrapFree host new' (i - 1) := by
    rcases hfree with hsmall | hrun
    · exact Or.inl (by omega)
    · exact Or.inr fun j hj => hrun j (by omega)
  obtain ⟨g, hat, hscale', htotal', hblock', _⟩ :=
    decodeCalls_ready hready hfree' (by omega) (by omega) (by omega) hrun
  have hwrap : arc.NoWrap := by
    rcases hfree with hsmall | hruns
    · exact hat.noWrap (by omega)
    · exact hruns (i - 1) (by omega) chrs arc hrun
  have hiff := hat.emitsOnlyData_iff hwrap (fun hmore => by omega) (by omega) (by omega)
  rw [hiff, htotal', htotal, hblock', hblock, show 0 + (i - 1) + 1 = i by omega]

/-- The last position of a file of two bytes, after one call: the code value lies above the reserved
    interval. -/
theorem decode_emitsOnlyData_iff_two : ∃ new arc,
    decoderNew littleHost (withHeader littleHost 2 [0, 0, 254, 190]) = .ok new ∧
      decodeCalls littleHost 1 new = .ok ([65], arc) ∧ EmitsOnlyData littleHost arc := by
  obtain ⟨_, new, _, fresh, hnew, _, hmod, _⟩ :=
    decoderNew_ready littleHost (n := 2) (by decide) [0, 0, 254, 190]
  have hscale : new.mod.scale = 257 := by rw [hmod, fresh.scale_eq]
  have hcall : (decoderNew littleHost (withHeader littleHost 2 [0, 0, 254, 190]) >>=
      decodeCalls littleHost 1).map (fun r => (r.1,
        decide (r.2.low + (r.2.high - r.2.low + 1) / r.2.scale ≤ r.2.esym))) = .ok ([65], true) := by
    decide +kernel
  rw [hnew, ok_bind] at hcall
  rcases hrun : decodeCalls littleHost 1 new with site | ⟨chrs, arc⟩
  · rw [hrun] at hcall
    cases hcall
  · rw [hrun] at hcall
    obtain ⟨rfl, habove⟩ := Prod.ext_iff.mp (Except.ok.inj hcall)
    refine ⟨new, arc, hnew, hrun, ?_⟩
    exact (decode_emitsOnlyData_iff littleHost [0, 0, 254, 190] 2 2 (by decide) (by decide) (by decide)
      new arc [65] hnew (Or.inl (by omega)) hrun).mpr (Or.inr (of_decide_eq_true habove))

/-- A file of one symbol whose payload is all zeros: the decoder emits the reserved character, cut to
    the byte 0. -/
theorem decode_emits_reserved : ∃ new arc',
    decoderNew littleHost (withHeader littleHost 1 [0, 0, 0, 0]) = .ok new ∧
      dachDecode littleHost new = .ok (0, arc') ∧ ¬ EmitsOnlyData littleHost new := by
  obtain ⟨_, new, _, fresh, hnew, hready, hmod, htotal, hblock, _⟩ :=
    decoderNew_ready littleHost (n := 1) (by decide) [0, 0, 0, 0]
  have hscale : new.mod.scale = 257 := by rw [hmod, fresh.scale_eq]
  have hesym : new.esym = 0 := by
    have hvalue : (decodeSource littleHost [0, 0, 0, 0]).code.value 0 = 0 := by
      have hword : (decodeSource littleHost [0, 0, 0, 0]).word 0 = 0 := rfl
      rw [Source.code_value_zero, hword]
    have hplace := hready.place.esym
    rw [show (Frame.start (2 ^ 30)).shifts = 0 from rfl, hvalue] at hplace
    exact (Nat.add_eq_zero_iff.mp hplace).1
  have hiff := hready.emitsOnlyData_iff (hready.noWrap (by omega)) (fun _ => by omega) (by omega)
    (by omega)
  have hlow := hready.place.registers.low
  have hwidth := hready.place.registers.range
  have hprod := hready.noWrap_iff.mp (hready.noWrap (by omega))
  obtain ⟨sym, hsel⟩ := hready.selected hprod
  have hle := hsel.le_256_iff hready.model
  have hreserved : ¬ (Frame.start (2 ^ 30)).low
      + (Frame.start (2 ^ 30)).range / new.mod.scale ≤ new.esym := by
    rw [hesym, hscale]
    norm_num [Frame.start, Frame.range]
  have hsym : sym = 257 := by
    have := hsel.le
    omega
  subst hsym
  refine ⟨new, { new with range := (Frame.start (2 ^ 30)).range
                          totalSyms := new.totalSyms + 1, stop := true }, hnew, ?_, ?_⟩
  · rw [dachDecode_last hready hsel (by omega) (by omega), hready.model.reserved.1]
    rfl
  · rw [hiff, htotal, hblock, hwidth, hlow, hready.model.scale]
    rintro (hlt | hcond)
    · exact absurd hlt (by decide)
    · exact hreserved hcond

end Dach
