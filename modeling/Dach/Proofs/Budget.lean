/-
Module: Dach.Proofs.Budget
Layer: Proofs
Purpose: How long the payload of `encode` is, to the bit, and how much of it `decode` asks for. The bits of
  the code, one that picks the middle of the interval and the zeros around it are padded to whole words;
  the decoder looks 32 bits ahead and leaves out its last renormalisation.
Imports: Dach.Proofs.Meter
Trusted boundary: none
Main exports: payloadBits, Arc.emittedBits, Stopped.bits, EncodedFile.payload, EncodedFile.refills, Budget,
  encode_budget
-/
import Dach.Proofs.Meter

namespace Dach

open IntervalCoder

/-! ### Bits of a file -/

/-- The bits of the words behind the header of a file. -/
def payloadBits (host : Host) (content : List UInt8) : List Bool :=
  (List.range (8 * (content.length - 4))).map (payloadBit host content)

/-- The bits that a coder on a file has emitted: those of the words in the file, and those that wait in
    `io_buffer`. -/
def Arc.emittedBits (host : Host) (arc : Arc) : List Bool :=
  payloadBits host arc.fileWritten ++ Bits.digits (32 - arc.ioBufferFull) arc.ioBuffer

theorem length_withHeader (host : Host) (n : Nat) (words : List Nat) :
    (withHeader host n (wordBytes host words)).length = 4 + 4 * words.length :=
  length_encoded host n words

theorem payloadBits_words (host : Host) (n : Nat) {words : List Nat} (hlt : ∀ w ∈ words, w < 2 ^ 32) :
    payloadBits host (withHeader host n (wordBytes host words))
      = Bits.digits (32 * words.length) (Bits.pack 32 words) := by
  have hsize : 8 * ((withHeader host n (wordBytes host words)).length - 4) = 32 * words.length := by
    rw [length_withHeader]
    omega
  have hpack : Bits.prefixVal (payloadBit host (withHeader host n (wordBytes host words)))
      (32 * words.length) = Bits.pack 32 words := by
    rw [payloadBit, drop_withHeader]
    exact Bits.prefixVal_ofWords_take hlt fun j _ => wordAt_wordBytes host hlt j
  rw [payloadBits, hsize, ← hpack, Bits.digits_prefixVal]

/-- The emitted bits of an encoder are the bits of the words and the buffer. -/
theorem EmittedAt.bits {host : Host} {n shifts base : Nat} {arc : Arc} {words : List Nat}
    (h : EmittedAt host n shifts arc words base)
    (hbuffer : arc.ioBuffer < 2 ^ (32 - arc.ioBufferFull)) :
    arc.emittedBits host = Bits.digits (bitCount words arc.out) (bitVal words arc.out) := by
  rw [Arc.emittedBits, h.written, payloadBits_words host n h.words_lt]
  exact (Bits.digits_add _ _ hbuffer).symm

/-- The stop sequence as bits: a one, the pending zeros with one more, a zero, and the padding. -/
theorem Stopped.bits {f : Frame} {out : List Nat} (h : Stopped f out) {count val pending : Nat}
    (hcount : count + pending = f.shifts)
    (hbase : f.base = val * 2 ^ (pending + 32) + (2 ^ pending - 1) * 2 ^ 31) :
    ∃ pad < 32, 32 * out.length = f.shifts + 3 + pad ∧
      Bits.digits (32 * out.length) (Bits.pack 32 out)
        = Bits.digits count val ++ true :: List.replicate (pending + 2) false
          ++ List.replicate pad false := by
  have hge := h.length_ge
  have hlt := h.length_lt
  obtain ⟨pad, hpad⟩ : ∃ pad, 32 * out.length = f.shifts + 3 + pad :=
    ⟨32 * out.length - (f.shifts + 3), by omega⟩
  refine ⟨pad, by omega, hpad, ?_⟩
  -- the number that the words spell
  have hpack : Bits.pack 32 out = (val * 2 ^ 1 + 1) * 2 ^ (pending + 2 + pad) + 0 := by
    refine Nat.eq_of_mul_eq_mul_right (Nat.two_pow_pos (f.shifts + 32)) ?_
    obtain ⟨m, hm⟩ : ∃ m, 2 ^ pending = m + 1 := Nat.exists_eq_add_of_le' (Nat.two_pow_pos pending)
    rw [h.middle, hbase, hpad, pow_add _ pending 32, pow_add _ (f.shifts + 3), pow_add _ f.shifts 3,
      pow_add _ (pending + 2), pow_add _ pending 2, pow_add _ f.shifts 32, hm, Nat.add_sub_cancel]
    ring
  have hsplit : 32 * out.length = count + 1 + (pending + 2 + pad) := by omega
  rw [hsplit, hpack, Bits.digits_add _ _ (Nat.two_pow_pos _), Bits.digits_add _ _ (by norm_num),
    Bits.digits_zero, List.replicate_add (pending + 2) pad, List.append_assoc, List.append_assoc]
  rfl

/-- The payload of `encode`, bit by bit. -/
theorem EncodedFile.payload {host : Host} {data : List UInt8} {new last : Arc} {shifts : Nat}
    {f g : Frame} {words out : List Nat}
    (h : EncodedFile host data [] new last shifts f words g out) (hlen : data.length ≤ 2 ^ 27) :
    out.length = (shifts + 3 + 31) / 32 ∧ (last.emittedBits host).length + last.underflow = shifts ∧
      ∃ pad < 32, payloadBits host (withHeader host data.length (wordBytes host out))
        = last.emittedBits host ++ true :: List.replicate (last.underflow + 2) false
          ++ List.replicate pad false := by
  have hat := h.emittedAt (by rw [List.append_nil]; exact hlen)
  rw [List.append_nil] at hat
  rcases hat with ⟨hshifts, hemitted⟩
  obtain rfl : f = g := by
    rcases h.after with ⟨_, hafter⟩
    cases hafter
    rfl
  have hbits := hemitted.bits h.before.ready.place.emitted.buffer_lt
  have hcount := hemitted.count
  rcases h.stopped.bits (by rw [hshifts]; exact hcount) hemitted.base_eq with ⟨pad, hpad, hwords, hall⟩
  refine ⟨by omega, ?_, pad, hpad, ?_⟩
  · rw [hbits, Bits.length_digits]
    exact hcount
  · rw [payloadBits_words host _ h.stopped.words_lt, hall, hbits]

/-! ### Refills -/

/-- The words cover the look-ahead at every point of the run but for one word. -/
theorem EncodedFile.refills_le {host : Host} {pre post : List UInt8} {new arc : Arc} {shifts : Nat}
    {f g : Frame} {words out : List Nat}
    (h : EncodedFile host pre post new arc shifts f words g out) (hlen : (pre ++ post).length ≤ 2 ^ 27) :
    1 + (shifts + 31) / 32 ≤ out.length + 1 := by
  rcases h.after with ⟨_, hafter⟩
  have hmono := (hafter.shifts_le (m := 31) h.before.ready.normal (by norm_num)).1
  have hge := h.stopped.length_ge
  have hshifts := (h.emittedAt hlen).1
  omega

/-- The refills of `decode` on an encoded file: one for the start, and one for 32 doublings before the
    last byte. -/
theorem EncodedFile.refills {host : Host} {pre : List UInt8} {c : UInt8} {new arc : Arc} {shifts : Nat}
    {f g : Frame} {words out : List Nat}
    (h : EncodedFile host pre [c] new arc shifts f words g out) {mod : Ppm0}
    (hmod : dachPpm0New = .ok mod) (hnewMod : new.mod = mod) (hlen : (pre ++ [c]).length ≤ 2 ^ 27) :
    ∃ data, meteredDecodeFile host (withHeader host (pre ++ [c]).length (wordBytes host out))
      = .ok (1 + (shifts + 31) / 32, data) := by
  have hlength : (pre ++ [c]).length = pre.length + 1 := List.length_append
  rcases dachPpm0New_fresh with ⟨mod', hmod', fresh⟩
  obtain rfl : mod = mod' := ok_unique hmod hmod'
  have hconstructor := dachNewArcoder_decoder host fresh.scale_ne (CFile.reading [])
    (show (pre ++ [c]).length < 2 ^ 32 by omega) (wordBytes host out)
  rw [decodeSource_io_zero] at hconstructor
  rcases meteredStartDecoder_ready (decodeSource host (wordBytes host out)) fresh (pre ++ [c]).length
    with ⟨m, hstart, hready, hone, hdecMod, htotal, hblock, hstop⟩
  -- the bytes before the last one
  have hbefore := h.before.codes
  rw [hnewMod] at hbefore
  rcases h.after with ⟨mod', hafter⟩
  have hnormal := h.before.ready.normal
  have hmono := (hafter.shifts_le (m := 31) hnormal (by norm_num)).1
  rcases meteredDecodeLoop_codes hbefore [] (CFile.reading []) 2 hdecMod hready
    (hone.trans (show 1 = (0 + 32 + 31) / 32 from rfl)) h.within_before (h.readable.mono (by omega))
    (by omega) (by omega) hstop
    with ⟨m', buf, fdOut, hpre, hready', hrefills, hmod', htotal', hblock', hstop'⟩
  -- the last one
  rw [← hmod'] at hafter
  cases hafter with
  | cons hslice hfits hencodes tail =>
      cases tail
      rcases meteredDecodeLoop_last buf fdOut hready' hslice hfits
        ((hencodes.within_iff hnormal hfits).mp h.within) (by omega) (by omega) hstop'
        with ⟨buf', fdOut', hlast⟩
      have hcount : m'.refills = 1 + (shifts + 31) / 32 := by
        rw [hrefills, (h.emittedAt hlen).1]
        omega
      refine ⟨(fdOut'.fwrite buf').written, ?_⟩
      rw [meteredDecodeFile, hmod, ok_bind, hconstructor, ok_bind, hstart, ok_bind, hblock, hlength]
      simp only [show pre.length + 1 + 1 = pre.length + 2 from rfl, hpre, hlast, hcount, ok_bind,
        pure_eq_ok]

/-! ### The budget -/

/-- The payload of a file and what the decoder asks for, where `encode` makes `shifts` doublings and ends
    in the state `last`, and `before` is the number of doublings without the last byte. All bits that
    the coder has emitted are there, then the bits of the stop sequence, `shifts + 3` together, then
    less than a word of zeros; the refills of `decode` are at most one more than the words, and so the
    check of the end-of-file flag never fails. -/
structure Budget (host : Host) (data content : List UInt8) (shifts before : Nat) (last : Arc) :
    Prop where
  size : content.length = 4 + 4 * ((shifts + 3 + 31) / 32)
  emitted : (last.emittedBits host).length + last.underflow = shifts
  bits : ∃ pad < 32, payloadBits host content
    = last.emittedBits host ++ true :: List.replicate (last.underflow + 2) false
      ++ List.replicate pad false
  refills : meteredDecodeFile host content = .ok (1 + (before + 31) / 32, data)
  refills_le : 1 + (before + 31) / 32 ≤ (content.length - 4) / 4 + 1
  decodes : decode host content = .ok data

/-- The length of the payload to the bit, and the exact look-ahead of the decoder. -/
theorem encode_budget (host : Host) (data : List UInt8) (hpos : 1 ≤ data.length)
    (hlen : data.length ≤ 2 ^ 27) :
    ∃ content new shifts last before prev, encode host data = .ok content ∧
      encoderNew host data.length = .ok new ∧ encodeLoop host data new = .ok (shifts, last) ∧
      encodeLoop host data.dropLast new = .ok (before, prev) ∧
      Budget host data content shifts before last := by
  obtain ⟨pre, c, rfl⟩ : ∃ pre c, data = pre ++ [c] := by
    rcases List.eq_nil_or_concat data with rfl | ⟨pre, c, rfl⟩
    · exact absurd hpos (by decide)
    · exact ⟨pre, c, List.concat_eq_append⟩
  rcases decode_encodedFile host (pre ++ [c]) hpos hlen with ⟨out, hfile, hdecode⟩
  rcases encode_spec host pre [c] hpos hlen
    with ⟨mod, new, prev, before, f, words, g, out₁, hmod, hnewMod, h⟩
  rcases encode_spec host (pre ++ [c]) [] (by rw [List.append_nil]; exact hpos)
    (by rw [List.append_nil]; exact hlen)
    with ⟨_, new₂, last, shifts, f₂, words₂, g₂, out₂, _, _, h₂⟩
  -- the two runs are the same run, stopped at two places
  have hfresh₂ := h₂.fresh
  have hfile₂ := h₂.file
  rw [List.append_nil] at hfresh₂ hfile₂
  obtain rfl : new₂ = new := ok_unique hfresh₂ h.fresh
  have hsame₁ := ok_unique hfile h.file
  have hsame₂ := ok_unique hfile hfile₂
  rcases h₂.payload hlen with ⟨hwords, hemitted, hbits⟩
  rw [← hsame₂] at hbits
  have hsize₁ := length_withHeader host (pre ++ [c]).length out₁
  have hsize₂ := length_withHeader host (pre ++ [c]).length out₂
  rw [← hsame₁] at hsize₁
  rw [← hsame₂] at hsize₂
  have hcover := h.refills_le hlen
  have hmetered : meteredDecodeFile host (withHeader host (pre ++ [c]).length (wordBytes host out))
      = .ok (1 + (before + 31) / 32, pre ++ [c]) := by
    rcases h.refills hmod hnewMod hlen with ⟨data, hrun⟩
    rw [← hsame₁] at hrun
    rcases (meteredDecodeFile_projects host _).exists_ok hdecode with ⟨result, hrun', hdata⟩
    obtain rfl : (1 + (before + 31) / 32, data) = result := ok_unique hrun hrun'
    rw [hrun, ← hdata]
  refine ⟨_, new₂, shifts, last, before, prev, hfile, h.fresh, h₂.loop, ?_, ?_⟩
  · rw [List.dropLast_concat]
    exact h.loop
  · exact
      { size := by rw [hsize₂, hwords]
        emitted := hemitted
        bits := hbits
        refills := hmetered
        refills_le := by
          rw [hsize₁]
          omega
        decodes := hdecode }

/-- Two bytes. -/
theorem encode_budget_two : ∃ content new shifts last before prev,
    encode littleHost [65, 66] = .ok content ∧ encoderNew littleHost 2 = .ok new ∧
      encodeLoop littleHost [65, 66] new = .ok (shifts, last) ∧
      encodeLoop littleHost [65] new = .ok (before, prev) ∧
      Budget littleHost [65, 66] content shifts before last :=
  encode_budget littleHost [65, 66] (by decide) (by decide)

end Dach
