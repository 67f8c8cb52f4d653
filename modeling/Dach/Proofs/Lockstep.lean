/-
Module: Dach.Proofs.Lockstep
Layer: Proofs
Purpose: The decoder on the encoder's output. The stop sequence makes the file a code value of the last
  frame, hence of every frame on the way, and so the decoder selects the encoder's symbol and narrows
  to the encoder's interval at every step.
Imports: Dach.Proofs.DecoderSafety
Trusted boundary: none
Main exports: wordAt_append, wordAt_wordBytes, Stopped.value, dachDecode_codes, decodeCalls_codes,
  decodeUntilEof_codes, decodeLoop_of_untilEof, encode_spec, encode_exact, Lockstep, decode_lockstep,
  Nested, encode_nested, decode_encodedFile, decode_encode
-/
import Dach.Proofs.DecoderSafety

namespace Dach

open IntervalCoder

/-! ### The words of a file -/

/-- The refills of bytes that start with whole words bring back these words. -/
theorem wordAt_append (host : Host) {words : List Nat} (hlt : ∀ w ∈ words, w < 2 ^ 32)
    (later : List UInt8) {j : Nat} (hj : j < words.length) :
    wordAt host (wordBytes host words ++ later) j = words.getD j 0 := by
  induction words generalizing j with
  | nil => cases hj
  | cons w words ih =>
      have hsplit : wordBytes host (w :: words) ++ later
          = u32Bytes host.order w ++ (wordBytes host words ++ later) := List.append_assoc _ _ _
      have hlen : (u32Bytes host.order w).length = 4 := length_u32Bytes _ _
      cases j with
      | zero =>
          rw [wordAt, hsplit, Nat.mul_zero, List.drop_zero, ← u32OfBytes_take, List.take_left' hlen,
            u32OfBytes_u32Bytes, u32_of_lt (hlt w (by simp)), List.getD_cons_zero]
      | succ j =>
          rw [wordAt, hsplit, show 4 * (j + 1) = 4 + 4 * j by omega, ← List.drop_drop,
            List.drop_left' hlen, List.getD_cons_succ]
          exact ih (fun v hv => hlt v (by simp [hv])) (Nat.lt_of_succ_lt_succ hj)

/-- The refills of a file of whole words bring back these words, and zeros after them. -/
theorem wordAt_wordBytes (host : Host) {words : List Nat} (hlt : ∀ w ∈ words, w < 2 ^ 32) (j : Nat) :
    wordAt host (wordBytes host words) j = words.getD j 0 := by
  by_cases hj : j < words.length
  · rw [← List.append_nil (wordBytes host words)]
    exact wordAt_append host hlt [] hj
  · have hle := Nat.le_of_not_lt hj
    rw [wordAt, List.drop_of_length_le (by rw [length_wordBytes]; omega),
      List.getD_eq_default _ _ hle]
    cases host.order <;> rfl

section Stopped

variable {host : Host} {f : Frame} {words : List Nat} {src : Source host}

/-- The words of the stop sequence spell the middle of the window, and the word behind them, as far as
    the window reaches into it, what to add to it. -/
theorem Stopped.value (h : Stopped f words)
    (hword : ∀ j < words.length, src.word j = words.getD j 0) :
    src.code.value f.shifts
      = f.base + 2 ^ 31 + src.word words.length / 2 ^ (32 * words.length - f.shifts) := by
  have hge := h.length_ge
  have hlong : Bits.prefixVal src.bit (32 * words.length + 32)
      = Bits.pack 32 words * 2 ^ 32 + src.word words.length := by
    have hnext := Bits.prefixVal_ofWords src.word words.length (src.word_lt _) (Nat.le_refl 32)
    rw [Nat.sub_self, pow_zero, Nat.div_one, Bits.prefixVal_ofWords_take h.words_lt hword] at hnext
    exact hnext
  have hdrop := Bits.prefixVal_add_div src.bit (f.shifts + 32) (32 * words.length - f.shifts)
  rw [show f.shifts + 32 + (32 * words.length - f.shifts) = 32 * words.length + 32 by omega,
    hlong] at hdrop
  have hmiddle : Bits.pack 32 words * 2 ^ 32
      = (f.base + 2 ^ 31) * 2 ^ (32 * words.length - f.shifts) := by
    apply Nat.eq_of_mul_eq_mul_right (Nat.two_pow_pos f.shifts)
    rw [Nat.mul_assoc, ← pow_add, Nat.add_comm 32 f.shifts, h.middle, Nat.mul_assoc, ← pow_add]
    congr 2
    omega
  rw [hmiddle, Nat.mul_comm, Nat.mul_add_div (Nat.two_pow_pos _)] at hdrop
  exact hdrop.symm

/-- Followed by zeros the words are a code value of the frame. -/
theorem Stopped.within (h : Stopped f words) (hn : f.Normal (2 ^ 30))
    (hword : ∀ j, src.word j = words.getD j 0) : src.code.Within f := by
  refine within_of_middle hn ?_
  rw [h.value fun j _ => hword j, hword, List.getD_eq_default _ _ (Nat.le_refl _), Nat.zero_div]
  omega

end Stopped

/-- The words of the stop sequence are determined by the last frame. -/
theorem Stopped.unique {g : Frame} {one two : List Nat} (h : Stopped g one) (h' : Stopped g two) :
    one = two := by
  have hlen : one.length = two.length := by
    have hge := h.length_ge
    have hlt := h.length_lt
    have hge' := h'.length_ge
    have hlt' := h'.length_lt
    omega
  refine Bits.pack_inj h.words_lt h'.words_lt hlen ?_
  have hmiddle := h'.middle
  rw [← hlen, ← h.middle] at hmiddle
  exact Nat.eq_of_mul_eq_mul_right (Nat.two_pow_pos _) hmiddle.symm

/-! ### Decoding a coded byte -/

theorem ByteSlice.eq_slice {mod mod' : Ppm0} {c : UInt8} {s : Slice} (h : ByteSlice mod c s mod')
    (wf : mod.WF) (hsym : 1 ≤ mod.chrToSym c.toNat) (hsym' : mod.chrToSym c.toNat ≤ 257) :
    s = wf.slice hsym hsym' :=
  Slice.ext h.lo h.hi h.scale

section Codes

variable {host : Host} {src : Source host} {arc : Arc} {f g : Frame} {mod' : Ppm0} {s : Slice}
  {c : UInt8}

/-- A symbol whose slice holds the code value is the one that is found. -/
theorem Selected.of_within (h : DecoderReady src f arc) (hfits : 2 * arc.mod.scale ≤ 2 ^ 30 + 2)
    {sym : Nat} (hpos : 1 ≤ sym) (hle : sym ≤ 257)
    (hwithin : src.code.Within (f.narrow (h.model.wf.slice hpos hle))) : Selected f arc sym := by
  have hge := h.normal.range_ge
  have hprod := h.noWrap_iff.mp (h.noWrap (by omega))
  obtain ⟨t, hsel⟩ := h.selected hprod
  have hwidth := Frame.narrow_width (f := f) (s := h.model.wf.slice hpos hle) (Nat.le_trans hfits hge)
  obtain ⟨hlower, hupper⟩ := (within_narrow_iff (by omega) h.place.esym).mp hwithin
  obtain rfl := h.model.wf.sym_of_bounds hpos hle hsel.pos hsel.le hlower hupper hsel.lower hsel.upper
  exact hsel

/-- The symbol of a byte is found when its slice holds the code value. -/
theorem ByteSlice.selected (hslice : ByteSlice arc.mod c s mod') (h : DecoderReady src f arc)
    (hfits : 2 * s.scale ≤ 2 ^ 30 + 2) (hwithin : src.code.Within (f.narrow s)) :
    Selected f arc (arc.mod.chrToSym c.toNat) ∧ arc.mod.chrToSym c.toNat ≤ 256 ∧
      arc.mod.symToChr (arc.mod.chrToSym c.toNat) = c.toNat := by
  obtain ⟨hpos, hle⟩ := h.model.sym_of_byte c
  rw [hslice.eq_slice h.model.wf hpos (by omega)] at hwithin
  rw [hslice.scale] at hfits
  exact ⟨Selected.of_within h hfits hpos (by omega) hwithin, hle,
    h.model.wf.chr_sym _ (Nat.le_of_lt (Nat.lt_of_lt_of_le c.toNat_lt (by norm_num)))⟩

/-- `dach_decode` returns the coded byte and moves to the frame the encoder moved to. -/
theorem dachDecode_codes (h : DecoderReady src f arc) (hslice : ByteSlice arc.mod c s mod')
    (hfits : 2 * s.scale ≤ 2 ^ 30 + 2) (hencodes : Encodes (2 ^ 30) f s g)
    (hwithin : src.code.Within g) (hread : src.Readable (g.shifts + 32))
    (hmore : arc.totalSyms + 1 < arc.blocksize) (hblock : arc.blocksize < 2 ^ 64) :
    ∃ arc', dachDecode host arc = .ok (c.toNat, arc') ∧ DecoderReady src g arc' ∧ arc'.mod = mod' ∧
      arc'.totalSyms = arc.totalSyms + 1 ∧ arc'.blocksize = arc.blocksize ∧ arc'.stop = arc.stop := by
  have hnarrow := (hencodes.within_iff h.normal hfits).mp hwithin
  obtain ⟨hsel, hsym, hchr⟩ := hslice.selected h hfits hnarrow
  obtain rfl := hslice.eq_slice h.model.wf hsel.pos hsel.le
  obtain ⟨k, run⟩ := hencodes
  have hscale : 2 * arc.mod.scale ≤ 2 ^ 30 + 2 := hfits
  have hprod := h.noWrap_iff.mp (h.noWrap (by omega))
  obtain ⟨arc', hcall, hready, hupdate, _, htotal, hblock', hstop⟩ :=
    (dachDecode_more h hsel hsym hprod (by omega) hmore hblock
      (Frame.narrow_valid_of_normal h.normal hfits) run).1 hread
  have hmod := ok_unique hupdate hslice.update
  exact ⟨arc', by rw [hcall, hchr], hready, (Prod.ext_iff.mp hmod).2, htotal, hblock', hstop⟩

/-- The last byte. -/
theorem dachDecode_codes_last (h : DecoderReady src f arc) (hslice : ByteSlice arc.mod c s mod')
    (hfits : 2 * s.scale ≤ 2 ^ 30 + 2) (hwithin : src.code.Within (f.narrow s))
    (hlast : arc.totalSyms + 1 = arc.blocksize) (hblock : arc.blocksize < 2 ^ 64) :
    ∃ arc', dachDecode host arc = .ok (c.toNat, arc') ∧ arc'.stop = true := by
  obtain ⟨hsel, _, hchr⟩ := hslice.selected h hfits hwithin
  have hrun := dachDecode_last h hsel hlast hblock
  rw [hchr, u8, Nat.mod_eq_of_lt c.toNat_lt] at hrun
  exact ⟨_, hrun, rfl⟩

/-- A run of `dach_decode` over coded bytes. -/
theorem decodeCalls_codes {data : List UInt8} {mod : Ppm0}
    (codes : Codes (2 ^ 30) ByteSlice mod f data mod' g) : ∀ {arc : Arc}, arc.mod = mod →
    DecoderReady src f arc → src.code.Within g → src.Readable (g.shifts + 32) →
    arc.totalSyms + data.length < arc.blocksize → arc.blocksize < 2 ^ 64 →
      ∃ arc', decodeCalls host data.length arc = .ok (data.map UInt8.toNat, arc') ∧
        DecoderReady src g arc' ∧ arc'.mod = mod' ∧ arc'.totalSyms = arc.totalSyms + data.length ∧
        arc'.blocksize = arc.blocksize ∧ arc'.stop = arc.stop := by
  induction codes with
  | nil mod f =>
      intro arc hmod h _ _ _ _
      exact ⟨arc, rfl, h, hmod, rfl, rfl, rfl⟩
  | @cons mod mid mod' f f' g c data s hslice hfits hencodes tail ih =>
      intro arc hmod h hwithin hread htotal hblock
      subst hmod
      rw [List.length_cons] at htotal
      have hnormal := hencodes.normal h.normal hfits
      have hshifts := (tail.shifts_le (m := 31) hnormal (by norm_num)).1
      obtain ⟨arc₁, hcall, hready, hmod₁, htotal₁, hblock₁, hstop₁⟩ :=
        dachDecode_codes h hslice hfits hencodes (tail.within hnormal hwithin)
          (hread.mono (by omega)) (by omega) hblock
      obtain ⟨arc', hcalls, hready', hmod', htotal', hblock', hstop'⟩ :=
        ih hmod₁ hready hwithin hread (by omega) (by omega)
      refine ⟨arc', ?_, hready', hmod', ?_, hblock'.trans hblock₁, hstop'.trans hstop₁⟩
      · simp only [List.length_cons, decodeCalls, hcall, hcalls, ok_bind, pure_eq_ok, List.map_cons]
      · rw [htotal', htotal₁, List.length_cons]
        omega

/-- Decoding coded bytes until `dach_eof`. -/
theorem decodeUntilEof_codes {data : List UInt8} {mod : Ppm0}
    (codes : Codes (2 ^ 30) ByteSlice mod f data mod' g) : ∀ {arc : Arc}, data ≠ [] →
    arc.mod = mod → DecoderReady src f arc → src.code.Within g → src.Readable (g.shifts + 32) →
    arc.totalSyms + data.length = arc.blocksize → arc.blocksize < 2 ^ 64 → arc.stop = false →
      decodeUntilEof host (data.length + 1) arc = .ok data := by
  induction codes with
  | nil mod f =>
      intro arc hne
      exact absurd rfl hne
  | @cons mod mid mod' f f' g c data s hslice hfits hencodes tail ih =>
      intro arc _ hmod h hwithin hread htotal hblock hstop
      subst hmod
      rw [List.length_cons] at htotal ⊢
      have hnormal := hencodes.normal h.normal hfits
      have hmid := tail.within hnormal hwithin
      have hchr : UInt8.ofNat c.toNat = c := UInt8.ofNat_toNat
      rw [decodeUntilEof, dachEof, hstop, if_neg (by decide)]
      cases data with
      | nil =>
          obtain ⟨arc₁, hcall, hstop₁⟩ := dachDecode_codes_last h hslice hfits
            ((hencodes.within_iff h.normal hfits).mp hmid) (by simpa using htotal) hblock
          simp only [hcall, ok_bind, List.length_nil, decodeUntilEof, dachEof, hstop₁, if_true,
            pure_eq_ok, hchr]
      | cons d data =>
          have hshifts := (tail.shifts_le (m := 31) hnormal (by norm_num)).1
          rw [List.length_cons] at htotal
          obtain ⟨arc₁, hcall, hready, hmod₁, htotal₁, hblock₁, hstop₁⟩ :=
            dachDecode_codes h hslice hfits hencodes hmid (hread.mono (by omega)) (by omega) hblock
          have hrest := ih (List.cons_ne_nil d data) hmod₁ hready hwithin hread
            (by rw [List.length_cons]; omega) (by omega) (hstop₁.trans hstop)
          simp only [hcall, ok_bind, hrest, pure_eq_ok, hchr]

/-- The loop of `decode` collects the same characters in its buffer and its file. -/
theorem decodeLoop_of_untilEof {fuel : Nat} : ∀ {arc : Arc} {chrs : List UInt8} (buf : List UInt8)
    (fdOut : CFile), decodeUntilEof host fuel arc = .ok chrs →
      ∃ buf' fdOut', decodeLoop host fuel arc buf fdOut = .ok (buf', fdOut') ∧
        fdOut'.written ++ buf' = fdOut.written ++ buf ++ chrs := by
  induction fuel with
  | zero =>
      intro arc chrs buf fdOut hrun
      rw [decodeUntilEof] at hrun
      split at hrun
      · cases hrun
        exact ⟨buf, fdOut, by rw [decodeLoop, if_pos ‹_›], by simp⟩
      · cases hrun
  | succ fuel ih =>
      intro arc chrs buf fdOut hrun
      rw [decodeUntilEof] at hrun
      split at hrun
      · cases hrun
        exact ⟨buf, fdOut, by rw [decodeLoop, if_pos ‹_›], by simp⟩
      · rw [bind_eq_ok] at hrun
        obtain ⟨⟨chr, mid⟩, hcall, hrest⟩ := hrun
        rw [bind_eq_ok] at hrest
        obtain ⟨later, htail, hret⟩ := hrest
        cases hret
        rw [decodeLoop, if_neg ‹_›, hcall, ok_bind]
        dsimp only
        split
        · obtain ⟨buf', fdOut', hloop, hwritten⟩ :=
            ih [] (fdOut.fwrite (buf ++ [UInt8.ofNat chr])) htail
          refine ⟨buf', fdOut', hloop, ?_⟩
          rw [hwritten]
          simp [CFile.fwrite]
        · obtain ⟨buf', fdOut', hloop, hwritten⟩ := ih (buf ++ [UInt8.ofNat chr]) fdOut htail
          refine ⟨buf', fdOut', hloop, ?_⟩
          rw [hwritten]
          simp

end Codes

/-! ### The encoder's output -/

/-- A run of `encode` stopped after the bytes `pre` and again at its end. -/
structure EncodedFile (host : Host) (pre post : List UInt8) (new arc : Arc) (shifts : Nat)
    (f : Frame) (words : List Nat) (g : Frame) (out : List Nat) : Prop where
  fresh : encoderNew host (pre ++ post).length = .ok new
  loop : encodeLoop host pre new = .ok (shifts, arc)
  before : EncodeRun (encodeSink host (pre ++ post).length) (Frame.start (2 ^ 30)) new pre shifts
    words f arc
  after : ∃ mod', Codes (2 ^ 30) ByteSlice arc.mod f post mod' g
  normal : g.Normal (2 ^ 30)
  stopped : Stopped g out
  shifts_le : g.shifts ≤ 31 * (pre ++ post).length
  file : encode host (pre ++ post) = .ok (withHeader host (pre ++ post).length (wordBytes host out))

theorem encode_spec (host : Host) (pre post : List UInt8) (hpos : 1 ≤ (pre ++ post).length)
    (hlen : (pre ++ post).length ≤ 2 ^ 27) :
    ∃ mod new arc shifts f words g out, dachPpm0New = .ok mod ∧ new.mod = mod ∧
      EncodedFile host pre post new arc shifts f words g out := by
  obtain ⟨mod, hmod, fresh, hnew⟩ := encoderNew_eq host (pre ++ post).length hpos
  have hready := arcFresh_ready (encodeSink host (pre ++ post).length) fresh (pre ++ post).length
  have hscale : mod.scale = 257 := fresh.scale_eq
  have hsplit : (pre ++ post).length = pre.length + post.length := List.length_append
  obtain ⟨shifts, words, f, arc, hloop, hrun⟩ := encodeLoop_spec pre hready
    (by show 2 * (mod.scale + _) ≤ _; omega) (by show 0 + _ < _; omega) trivial
  have hscale₁ : arc.mod.scale = mod.scale + pre.length := hrun.scale
  have htotal₁ : arc.totalSyms = 0 + pre.length := hrun.totalSyms
  obtain ⟨later, words', g, arc', hloop', hrun'⟩ := encodeLoop_spec post hrun.ready
    (by omega) (by omega) trivial
  have htotal : arc'.totalSyms = arc'.blocksize := by
    have hblock : arc.blocksize = (pre ++ post).length := hrun.blocksize
    rw [hrun'.totalSyms, hrun'.blocksize]
    omega
  have hshifts : g.shifts ≤ 31 * (pre ++ post).length := by
    have hone := hrun.shifts_eq
    have htwo := hrun'.shifts_eq
    have hle := hrun.shifts_le
    have hle' := hrun'.shifts_le
    have hstart : (Frame.start (2 ^ 30)).shifts = 0 := rfl
    omega
  obtain ⟨last, hstop, hwords⟩ :=
    dachStopEncoder_spec hrun'.ready.place hrun'.ready.normal htotal trivial
  obtain ⟨out, hio, hstopped⟩ := hwords (by omega)
  refine ⟨mod, _, arc, shifts, f, words, g, out, hmod, rfl, hnew, hloop, hrun,
    ⟨arc'.mod, hrun'.codes⟩, hrun'.ready.normal, hstopped, hshifts, ?_⟩
  have hfile : last.fileWritten = withHeader host (pre ++ post).length (wordBytes host out) := by
    have hheader : dachWriteHdrU32 host.order (u32 (pre ++ post).length)
        = dachWriteHdrU32 host.order (pre ++ post).length := by
      rw [u32_of_lt (by omega)]
    rw [Arc.fileWritten, hio]
    simp only [encodeSink, fileSink, withHeader, hheader]
  rw [encode, if_pos (show (pre ++ post).length > 0 from hpos), hnew]
  simp only [ok_bind, encodeLoop_append hloop hloop', hstop, pure_eq_ok, hfile]

/-- Nothing has been encoded before the first byte. -/
theorem EncodedFile.at_start {host : Host} {post : List UInt8} {new arc : Arc} {shifts : Nat}
    {f g : Frame} {words out : List Nat}
    (h : EncodedFile host [] post new arc shifts f words g out) :
    arc = new ∧ f = Frame.start (2 ^ 30) := by
  have hloop := h.loop
  have hcodes := h.before.codes
  cases hloop
  cases hcodes
  exact ⟨rfl, rfl⟩

/-- The file that `encode` writes, from the exact code. -/
theorem encode_exact (host : Host) (data : List UInt8) (hpos : 1 ≤ data.length)
    (hlen : data.length ≤ 2 ^ 27) :
    ∃ mod mod' g words, dachPpm0New = .ok mod ∧
      Codes (2 ^ 30) ByteSlice mod (Frame.start (2 ^ 30)) data mod' g ∧ Stopped g words ∧
      g.shifts ≤ 31 * data.length ∧
      encode host data = .ok (u32Bytes host.order data.length ++ wordBytes host words) := by
  obtain ⟨mod, new, arc, shifts, f, words, g, out, hmod, hnewMod, h⟩ :=
    encode_spec host [] data hpos hlen
  rcases h.at_start with ⟨rfl, rfl⟩
  obtain ⟨mod', hafter⟩ := h.after
  rw [hnewMod] at hafter
  exact ⟨mod, mod', g, out, hmod, hafter, h.stopped, h.shifts_le, h.file⟩

namespace EncodedFile

variable {host : Host} {pre post : List UInt8} {new arc : Arc} {shifts : Nat} {f g : Frame}
  {words out : List Nat}

/-- The payload as a source brings back its words. -/
theorem word (h : EncodedFile host pre post new arc shifts f words g out) (j : Nat) :
    (decodeSource host (wordBytes host out)).word j = out.getD j 0 :=
  wordAt_wordBytes host h.stopped.words_lt j

/-- The payload is a code value of the last frame. -/
theorem within (h : EncodedFile host pre post new arc shifts f words g out) :
    (decodeSource host (wordBytes host out)).code.Within g :=
  h.stopped.within h.normal h.word

/-- The payload is long enough for every refill up to the last frame. -/
theorem readable (h : EncodedFile host pre post new arc shifts f words g out) :
    (decodeSource host (wordBytes host out)).Readable (g.shifts + 32) := by
  intro j hj
  have hge := h.stopped.length_ge
  refine decide_eq_false ?_
  rw [length_wordBytes]
  omega

end EncodedFile

/-- The bits of the payload of a file, zeros after its end. -/
def payloadBit (host : Host) (content : List UInt8) : Nat → Bool :=
  Bits.ofWords 32 (wordAt host (content.drop 4))

/-- The window of the payload of an encoded file as a code value of its words. -/
theorem payload_value (host : Host) (n : Nat) (payload : List UInt8) (k : Nat) :
    Bits.prefixVal (payloadBit host (withHeader host n payload)) (k + 32)
      = (decodeSource host payload).code.value k := by
  rw [payloadBit, drop_withHeader]
  rfl

/-- An encoder after `shifts` doublings. With `B` the integer of the bits already emitted, in the words
    of the file and in the buffer, and `u` the bits still pending, its interval starts at
    `B * 2 ^ (u + 32) + (2 ^ u - 1) * 2 ^ 31` plus `low`. -/
structure EmittedAt (host : Host) (n shifts : Nat) (arc : Arc) (words : List Nat) (base : Nat) :
    Prop where
  written : arc.fileWritten = withHeader host n (wordBytes host words)
  words_lt : ∀ w ∈ words, w < 2 ^ 32
  count : bitCount words arc.out + arc.underflow = shifts
  base_eq : base = bitVal words arc.out * 2 ^ (arc.underflow + 32) + (2 ^ arc.underflow - 1) * 2 ^ 31

theorem EncodedFile.emittedAt {host : Host} {pre post : List UInt8} {new arc : Arc} {shifts : Nat}
    {f g : Frame} {words out : List Nat}
    (h : EncodedFile host pre post new arc shifts f words g out)
    (hlen : (pre ++ post).length ≤ 2 ^ 27) :
    f.shifts = shifts ∧ EmittedAt host (pre ++ post).length shifts arc words f.base := by
  have hplace := h.before.ready.place
  obtain ⟨_, hafter⟩ := h.after
  have hmono := (hafter.shifts_le (m := 31) h.before.ready.normal (by norm_num)).1
  have hbound := h.shifts_le
  have hshifts : f.shifts = shifts := h.before.shifts_eq.trans (Nat.zero_add _)
  obtain ⟨hcount, hbase⟩ := hplace.exact (by omega)
  have hheader : dachWriteHdrU32 host.order (u32 (pre ++ post).length)
      = dachWriteHdrU32 host.order (pre ++ post).length := by
    rw [u32_of_lt (by omega)]
  have hio : arc.io = (encodeSink host (pre ++ post).length).io words := hplace.emitted.io
  refine ⟨hshifts, ?_, hplace.emitted.words_lt, by rw [hcount, hshifts], hbase⟩
  rw [Arc.fileWritten, hio]
  simp only [encodeSink, fileSink, withHeader, hheader]

/-- The payload stays a code value back to the frame where the run was stopped first. -/
theorem EncodedFile.within_before {host : Host} {pre post : List UInt8} {new arc : Arc} {shifts : Nat}
    {f g : Frame} {words out : List Nat}
    (h : EncodedFile host pre post new arc shifts f words g out) :
    (decodeSource host (wordBytes host out)).code.Within f := by
  obtain ⟨_, hafter⟩ := h.after
  exact hafter.within h.before.ready.normal h.within

/-! ### Lockstep -/

/-- An encoder after `shifts` doublings and a decoder at the same point of its output. With `B` the
    integer of the bits already emitted, in the words of the file and in the buffer, and `u` the bits
    still pending, `esym` is the window of the payload from there, less the place
    `B * 2 ^ (u + 32) + (2 ^ u - 1) * 2 ^ 31` where the interval starts. -/
structure Lockstep (host : Host) (content : List UInt8) (n shifts : Nat) (enc dec : Arc) : Prop where
  low : dec.low = enc.low
  high : dec.high = enc.high
  scale : dec.scale = enc.scale
  mod : dec.mod = enc.mod
  esym : ∃ words, enc.fileWritten = withHeader host n (wordBytes host words) ∧
    (∀ w ∈ words, w < 2 ^ 32) ∧ bitCount words enc.out + enc.underflow = shifts ∧
    bitVal words enc.out * 2 ^ (enc.underflow + 32) + (2 ^ enc.underflow - 1) * 2 ^ 31
      ≤ Bits.prefixVal (payloadBit host content) (shifts + 32) ∧
    dec.esym = Bits.prefixVal (payloadBit host content) (shifts + 32)
      - (bitVal words enc.out * 2 ^ (enc.underflow + 32) + (2 ^ enc.underflow - 1) * 2 ^ 31)
  bounds : dec.low ≤ dec.esym ∧ dec.esym ≤ dec.high

/-- After `i` bytes the decoder holds the encoder's interval and tables, and `esym` is what the payload
    says beyond the bits the encoder has emitted or still owes. -/
theorem decode_lockstep (host : Host) (data : List UInt8) (hpos : 1 ≤ data.length)
    (hlen : data.length ≤ 2 ^ 27) (i : Nat) (hi : i < data.length) :
    ∃ content enc₀ shifts enc dec₀ dec, encode host data = .ok content ∧
      encoderNew host data.length = .ok enc₀ ∧
      encodeLoop host (data.take i) enc₀ = .ok (shifts, enc) ∧
      decoderNew host content = .ok dec₀ ∧
      decodeCalls host i dec₀ = .ok ((data.take i).map UInt8.toNat, dec) ∧
      Lockstep host content data.length shifts enc dec := by
  have hdata : data.take i ++ data.drop i = data := List.take_append_drop i data
  have htake : (data.take i).length = i := by
    rw [List.length_take]
    omega
  obtain ⟨mod, enc₀, enc, shifts, f, words, g, out, hmod, hencMod, h⟩ :=
    encode_spec host (data.take i) (data.drop i) (by rw [hdata]; exact hpos)
      (by rw [hdata]; exact hlen)
  have hnew := h.fresh
  have hbefore := h.before
  have hfile := h.file
  rw [hdata] at hnew hbefore hfile
  obtain ⟨mod', dec₀, hmod', _, hdec, hready, hdecMod, htotal, hblock, _⟩ :=
    decoderNew_ready host (n := data.length) (by omega) (wordBytes host out)
  obtain rfl : mod = mod' := ok_unique hmod hmod'
  obtain ⟨_, hafter⟩ := h.after
  have hshifts := (hafter.shifts_le (m := 31) hbefore.ready.normal (by norm_num)).1
  have hcodes := hbefore.codes
  rw [hencMod] at hcodes
  obtain ⟨dec, hcalls, hat, hsameMod, _⟩ := decodeCalls_codes hcodes hdecMod hready h.within_before
    (h.readable.mono (by omega)) (by omega) (by omega)
  rw [htake] at hcalls
  obtain ⟨hshiftsEq, hemitted⟩ := h.emittedAt (by rw [hdata]; exact hlen)
  rw [hdata] at hemitted
  have hplace := hbefore.ready.place
  have hvalue : Bits.prefixVal (payloadBit host (withHeader host data.length (wordBytes host out)))
      (shifts + 32) = dec.esym + f.base := by
    rw [payload_value, hat.place.esym, hshiftsEq]
  refine ⟨_, enc₀, shifts, enc, dec₀, dec, hfile, hnew, h.loop, hdec, hcalls, ?_⟩
  exact
    { low := by rw [hat.place.registers.low, hplace.registers.low]
      high := by rw [hat.place.registers.high, hplace.registers.high]
      scale := by rw [hat.model.scale, hbefore.ready.model.scale, hsameMod]
      mod := hsameMod
      esym := by
        refine ⟨words, hemitted.written, hemitted.words_lt, hemitted.count, ?_, ?_⟩
        · rw [hvalue, ← hemitted.base_eq]
          omega
        · rw [hvalue, ← hemitted.base_eq]
          omega
      bounds := by
        rw [hat.place.registers.low, hat.place.registers.high]
        exact hat.place.esym_bounds }

/-- The second of two bytes. -/
theorem decode_lockstep_two : ∃ content enc₀ shifts enc dec₀ dec,
    encode littleHost [65, 66] = .ok content ∧ encoderNew littleHost 2 = .ok enc₀ ∧
      encodeLoop littleHost [65] enc₀ = .ok (shifts, enc) ∧
      decoderNew littleHost content = .ok dec₀ ∧ decodeCalls littleHost 1 dec₀ = .ok ([65], dec) ∧
      Lockstep littleHost content 2 shifts enc dec :=
  decode_lockstep littleHost [65, 66] (by decide) (by decide) 1 (by decide)

/-! ### Nested intervals -/

/-- The bits already emitted are the first ones of the payload, and the window that follows them and the
    pending ones lies between `low` and `high`. -/
structure Nested (host : Host) (content : List UInt8) (n shifts : Nat) (arc : Arc) (words : List Nat) :
    Prop where
  written : arc.fileWritten = withHeader host n (wordBytes host words)
  words_lt : ∀ w ∈ words, w < 2 ^ 32
  count : bitCount words arc.out + arc.underflow = shifts
  emitted : Bits.prefixVal (payloadBit host content) (bitCount words arc.out) = bitVal words arc.out
  lower : bitVal words arc.out * 2 ^ (arc.underflow + 32) + (2 ^ arc.underflow - 1) * 2 ^ 31 + arc.low
    ≤ Bits.prefixVal (payloadBit host content) (shifts + 32)
  upper : Bits.prefixVal (payloadBit host content) (shifts + 32)
    ≤ bitVal words arc.out * 2 ^ (arc.underflow + 32) + (2 ^ arc.underflow - 1) * 2 ^ 31 + arc.high

/-- A window between the ends of an interval starts with the bits emitted before it. -/
theorem emitted_of_window {bits u base low high value : Nat}
    (hbase : base = bits * 2 ^ (u + 32) + (2 ^ u - 1) * 2 ^ 31) (hhigh : high < 2 ^ 32)
    (hlo : base + low ≤ value) (hhi : value ≤ base + high) : value / 2 ^ (u + 32) = bits := by
  have hpos : 1 ≤ 2 ^ u := Nat.two_pow_pos u
  have hpow : 2 ^ (u + 32) = 2 ^ u * 2 ^ 32 := pow_add 2 u 32
  rw [Nat.div_eq_iff (Nat.two_pow_pos _)]
  omega

/-- The emitted bits stay inside every interval on the way: after any prefix of the bytes, the final
    payload starts with the bits emitted by then, and its next window lies in the interval. -/
theorem encode_nested (host : Host) (data : List UInt8) (hpos : 1 ≤ data.length)
    (hlen : data.length ≤ 2 ^ 27) (i : Nat) :
    ∃ content new shifts arc words, encode host data = .ok content ∧
      encoderNew host data.length = .ok new ∧
      encodeLoop host (data.take i) new = .ok (shifts, arc) ∧
      Nested host content data.length shifts arc words := by
  have hdata : data.take i ++ data.drop i = data := List.take_append_drop i data
  obtain ⟨mod, new, arc, shifts, f, words, g, out, _, _, h⟩ :=
    encode_spec host (data.take i) (data.drop i) (by rw [hdata]; exact hpos)
      (by rw [hdata]; exact hlen)
  obtain ⟨hshifts, hemitted⟩ := h.emittedAt (by rw [hdata]; exact hlen)
  obtain ⟨hlower, hupper⟩ := h.within_before
  have hregs := h.before.ready.place.registers
  have hbound := h.before.ready.normal.valid.2
  have hnew := h.fresh
  have hfile := h.file
  rw [hdata] at hnew hfile hemitted
  rw [hshifts, ← payload_value host data.length] at hlower hupper
  rw [Frame.lower, ← hregs.low] at hlower
  rw [Frame.upper, ← hregs.high] at hupper
  have hupper' := Nat.le_of_lt_succ hupper
  refine ⟨_, new, shifts, arc, words, hfile, hnew, h.loop, hemitted.written, hemitted.words_lt,
    hemitted.count, ?_, ?_, ?_⟩
  · have hwindow := emitted_of_window hemitted.base_eq (by rw [hregs.high]; exact hbound) hlower hupper'
    have hsplit : shifts + 32 = bitCount words arc.out + (arc.underflow + 32) := by
      rw [← hemitted.count, Nat.add_assoc]
    rw [hsplit, Bits.prefixVal_add_div] at hwindow
    exact hwindow
  · rw [← hemitted.base_eq]
    exact hlower
  · rw [← hemitted.base_eq]
    exact hupper'

/-- Two bytes, after both of them. -/
theorem encode_nested_two : ∃ content new shifts arc words,
    encode littleHost [65, 66] = .ok content ∧ encoderNew littleHost 2 = .ok new ∧
      encodeLoop littleHost [65, 66] new = .ok (shifts, arc) ∧
      Nested littleHost content 2 shifts arc words :=
  encode_nested littleHost [65, 66] (by decide) (by decide) 2

/-! ### Round trip -/

/-- `decode` gives back what `encode` has been given. -/
theorem decode_encodedFile (host : Host) (data : List UInt8) (hpos : 1 ≤ data.length)
    (hlen : data.length ≤ 2 ^ 27) :
    ∃ out, encode host data = .ok (withHeader host data.length (wordBytes host out)) ∧
      decode host (withHeader host data.length (wordBytes host out)) = .ok data := by
  obtain ⟨mod, enc₀, enc, shifts, f, words, g, out, hmod, hencMod, h⟩ :=
    encode_spec host [] data hpos hlen
  obtain ⟨mod', dec₀, hmod', _, hdec, hready, hdecMod, htotal, hblock, hstop⟩ :=
    decoderNew_ready host (n := data.length) (by omega) (wordBytes host out)
  obtain rfl : mod = mod' := ok_unique hmod hmod'
  obtain ⟨mod', hafter⟩ := h.after
  rcases h.at_start with ⟨rfl, rfl⟩
  rw [hencMod] at hafter
  have hrun := decodeUntilEof_codes hafter (List.ne_nil_of_length_pos hpos) hdecMod hready h.within
    h.readable (by omega) (by omega) hstop
  obtain ⟨buf, fdOut, hloop, hwritten⟩ := decodeLoop_of_untilEof [] (CFile.reading []) hrun
  refine ⟨out, h.file, ?_⟩
  rw [decode, hdec, ok_bind, hblock, hloop, ok_bind]
  have hall : (fdOut.fwrite buf).written = data := hwritten
  simp only [hall, pure_eq_ok]

/-- Decoding an encoded file gives the file back. The encoded file is a header of four bytes and whole
    words. -/
theorem decode_encode (host : Host) (bs : List UInt8) (hpos : 1 ≤ bs.length)
    (hlen : bs.length ≤ 2 ^ 27) :
    ∃ (words : List Nat) (content : List UInt8), encode host bs = .ok content ∧
      content = dachWriteHdrU32 host.order bs.length ++ words.flatMap (u32Bytes host.order) ∧
      decode host content = .ok bs := by
  obtain ⟨out, hfile, hdecode⟩ := decode_encodedFile host bs hpos hlen
  exact ⟨out, _, hfile, rfl, hdecode⟩

/-- Three bytes there and back. -/
theorem decode_encode_three : ∃ content,
    encode littleHost [72, 105, 33] = .ok content ∧
      decode littleHost content = .ok [72, 105, 33] := by
  obtain ⟨_, content, hencode, _, hdecode⟩ :=
    decode_encode littleHost [72, 105, 33] (by decide) (by decide)
  exact ⟨content, hencode, hdecode⟩

end Dach
