/-
Module: Dach.Proofs.BitPacking
Layer: Proofs
Purpose: Bits written and read back. The writer counts the free bits of its buffer and writes a full one
  only with the bit behind it; the reader counts the unread ones and refills before it returns a bit. What
  is written as a sequence of bits and completed with zeros is read back as that sequence, then zeros to
  the end of a word, then one word of zeros behind the end of the file.
Imports: Dach.Core.Bitio, Dach.Proofs.Encoder, Dach.Proofs.Lockstep, Dach.Proofs.Readers
Trusted boundary: none
Main exports: outBits, dachBitout_outBits, dachBitouts_spec, dachStopBits_spec, dachStopEncoder_completes,
  packedWords, dachBitins_wordBytes, dachBitouts_roundTrip
-/
import Dach.Core.Bitio
import Dach.Proofs.Encoder
import Dach.Proofs.Lockstep
import Dach.Proofs.Readers

namespace Dach

/-! ### Writing -/

/-- The bits in the words and the buffer, in the order in which they were emitted. -/
def outBits (words : List Nat) (o : Out) : List Bool :=
  Bits.digits (bitCount words o) (bitVal words o)

/-- The words that this many bits are padded to. -/
def packedWords (count : Nat) : Nat := max 1 ((count + 31) / 32)

section Writing

variable {host : Host} {sink : Sink host} {words : List Nat}

/-- A bit goes behind the bits emitted so far. -/
theorem dachBitout_outBits {arc : Arc} (h : Emitted sink words arc.out) (hsize : arc.ioBufferSize = 32)
    (hroom : sink.Room (bitCount words arc.out)) (bit : Bool) :
    ∃ o words', dachBitout host arc bit.toNat = .ok (arc.withOut o) ∧ Emitted sink words' o ∧
      bitCount words' o = bitCount words arc.out + 1 ∧
      outBits words' o = outBits words arc.out ++ [bit] := by
  rcases dachBitout_spec arc h hsize (Bool.toNat_le bit) hroom with ⟨o, words', hrun, hout, hcount, hval⟩
  refine ⟨o, words', hrun, hout, hcount, ?_⟩
  have hone : Bits.digits 1 bit.toNat = [bit] := by
    cases bit <;> rfl
  have hsplit := Bits.digits_add (bitCount words arc.out) (bitVal words arc.out)
    (j := 1) (Bool.toNat_lt bit)
  rw [hone, pow_one, Nat.mul_comm] at hsplit
  rw [outBits, hcount, hval, hsplit, outBits]

/-- So does a sequence of bits. -/
theorem dachBitouts_spec (bits : List Bool) : ∀ (arc : Arc) {words : List Nat},
    Emitted sink words arc.out → arc.ioBufferSize = 32 →
    sink.Room (bitCount words arc.out + bits.length) →
      ∃ o words', dachBitouts host (bits.map Bool.toNat) arc = .ok (arc.withOut o) ∧
        Emitted sink words' o ∧ bitCount words' o = bitCount words arc.out + bits.length ∧
        outBits words' o = outBits words arc.out ++ bits := by
  induction bits with
  | nil =>
      intro arc words h _ _
      exact ⟨arc.out, words, rfl, h, rfl, (List.append_nil _).symm⟩
  | cons bit bits ih =>
      intro arc words h hsize hroom
      rw [List.length_cons] at hroom ⊢
      rcases dachBitout_outBits h hsize (sink.room_mono (Nat.le_add_right _ _) hroom) bit with
        ⟨o, mid, hrun, hmid, hcount, hbits⟩
      have hroom' : sink.Room (bitCount mid o + bits.length) := by
        rw [hcount]
        exact sink.room_mono (by omega) hroom
      rcases ih (arc.withOut o) hmid hsize hroom' with ⟨o', words', hrest, hout, hcount', hbits'⟩
      refine ⟨o', words', ?_, hout, ?_, ?_⟩
      · rw [List.map_cons, dachBitouts, hrun, ok_bind, hrest, Arc.withOut_withOut]
      · rw [hcount']
        show bitCount mid o + bits.length = _
        omega
      · rw [hbits']
        show outBits mid o ++ bits = _
        rw [hbits, List.append_assoc, List.singleton_append]

/-- The completion leaves the bits emitted so far and the zeros of the padding in the words. -/
theorem dachStopBits_spec (arc : Arc) (h : Emitted sink words arc.out) (hsize : arc.ioBufferSize = 32)
    (hu : arc.underflow = 0) (hroom : sink.Room (bitCount words arc.out + arc.ioBufferFull)) :
    ∃ last words', dachStopBits host arc = .ok last ∧ last.io = sink.io words' ∧
      (∀ w ∈ words', w < 2 ^ 32) ∧
      32 * words'.length = bitCount words arc.out + arc.ioBufferFull ∧
      Bits.digits (32 * words'.length) (Bits.pack 32 words')
        = outBits words arc.out ++ List.replicate arc.ioBufferFull false := by
  rcases dachStopBits_words arc h hsize hu hroom with ⟨o, words', hrun, hout, hcount, hpack⟩
  refine ⟨arc.withOut o, words', hrun, hout.io, hout.words_lt, hcount, ?_⟩
  rw [hcount, hpack, ← Nat.add_zero (_ * _), Bits.digits_add _ _ (Nat.two_pow_pos _), Bits.digits_zero,
    outBits]

/-- A run of `dach_stop_encoder` is two bits, with the pending ones, and the completion. -/
theorem dachStopEncoder_completes {arc last : Arc} (hrun : dachStopEncoder host arc = .ok last) :
    ∃ one two, dachWriteStream host { arc with underflow := u32 (arc.underflow + 1) } 1 = .ok one ∧
      dachWriteStream host one 0 = .ok two ∧ dachStopBits host two = .ok last := by
  have hbit : u32 arc.low &&& 0xFFFFFFFF &&& 1 <<< 31 ≠ 1 := by
    intro hone
    have hlast := congrArg (Nat.testBit · 0) hone
    simp at hlast
  simp only [dachStopEncoder] at hrun
  rw [bind_eq_ok] at hrun
  rcases hrun with ⟨_, _, hrun⟩
  by_cases hzero : u32 arc.low &&& 0xFFFFFFFF &&& 1 <<< 31 = 0
  · simp only [hzero, bind_eq_ok] at hrun
    rcases hrun with ⟨_, _, one, hone, two, htwo, hrest⟩
    refine ⟨one, two, hone, htwo, ?_⟩
    rw [dachStopBits, bind_eq_ok]
    exact hrest
  · rw [cassert_neg _ (not_or.mpr ⟨hbit, hzero⟩), error_bind] at hrun
    cases hrun

/-- Padding takes the bits to the next end of a word, and no bits to the end of the first. -/
theorem packedWords_eq {o : Out} (h : Emitted sink words o) {total : Nat}
    (htotal : 32 * total = bitCount words o + o.full) : total = packedWords (bitCount words o) := by
  have hfull := h.full_le
  have hcount : bitCount words o = 32 * words.length + (32 - o.full) := rfl
  rw [packedWords, hcount]
  rw [hcount] at htotal
  rcases List.eq_nil_or_concat words with rfl | ⟨init, w, rfl⟩
  · rw [List.length_nil] at htotal ⊢
    omega
  · have hpending := h.pending (by simp)
    omega

/-- A sequence of bits with its completion. The words hold the bits, and zeros behind them. -/
theorem dachBitouts_stopBits (sink : Sink host) (hroom : ∀ bits, sink.Room bits) (mod : Ppm0)
    (blocksize : Nat) (bits : List Bool) :
    ∃ mid last words, dachBitouts host (bits.map Bool.toNat) (arcFresh mod (sink.io []) blocksize)
        = .ok mid ∧ dachStopBits host mid = .ok last ∧ last.io = sink.io words ∧
      (∀ w ∈ words, w < 2 ^ 32) ∧ words.length = packedWords bits.length ∧
      Bits.digits (32 * words.length) (Bits.pack 32 words)
        = bits ++ List.replicate (32 * packedWords bits.length - bits.length) false := by
  rcases dachBitouts_spec bits _ (emitted_fresh sink mod blocksize) rfl (hroom _) with
    ⟨o, words, hrun, hout, hcount, hbits⟩
  have hcount' : bitCount words o = bits.length := hcount.trans (Nat.zero_add _)
  have hbits' : outBits words o = bits := hbits
  rcases dachStopBits_spec ((arcFresh mod (sink.io []) blocksize).withOut o) hout rfl rfl (hroom _) with
    ⟨last, words', hstop, hio, hlt, htotal, hdigits⟩
  have htotal' : 32 * words'.length = bitCount words o + o.full := htotal
  have hlength := packedWords_eq hout htotal'
  rw [hcount'] at htotal' hlength
  have hpad : o.full = 32 * packedWords bits.length - bits.length := by
    rw [← hlength, htotal', Nat.add_sub_cancel_left]
  refine ⟨_, last, words', hrun, hstop, hio, hlt, hlength, ?_⟩
  rw [hdigits, ← hpad]
  show outBits words o ++ _ = _
  rw [hbits']
  rfl

end Writing

/-! ### Reading back -/

/-- A file of whole words is read as their bits and one word of zeros. -/
theorem dachBitins_wordBytes (host : Host) {words : List Nat} (hlt : ∀ w ∈ words, w < 2 ^ 32)
    (mod : Ppm0) (out : CFile) (blocksize : Nat) :
    ∃ rest, dachBitins host (32 * (words.length + 1))
        (arcFresh mod (.files (CFile.reading (wordBytes host words)) out) blocksize).atRefill
          = .ok ((Bits.digits (32 * words.length) (Bits.pack 32 words)).map Bool.toNat
            ++ List.replicate 32 0, rest) ∧
      dachBitin host rest = .error .bitinEof := by
  have hread : ∀ bits, (fileSource host (wordBytes host words) out).Readable bits ↔
      bits ≤ 32 * (words.length + 1) := by
    intro bits
    rw [fileSource_readable_iff, length_wordBytes, Nat.mul_div_cancel_left _ (by norm_num)]
  have hbits : (List.range (32 * words.length)).map (fileSource host (wordBytes host words) out).bit
      = Bits.digits (32 * words.length) (Bits.pack 32 words) := by
    have hpack : Bits.prefixVal (fileSource host (wordBytes host words) out).bit (32 * words.length)
        = Bits.pack 32 words :=
      Bits.prefixVal_ofWords_take hlt fun j _ => wordAt_wordBytes host hlt j
    rw [← Bits.digits_prefixVal, hpack]
  have hbehind : ∀ i < 32,
      (fileSource host (wordBytes host words) out).bit (32 * words.length + i) = false := by
    intro i hi
    have hword : (fileSource host (wordBytes host words) out).word words.length = 0 := by
      show wordAt host (wordBytes host words) words.length = 0
      rw [wordAt_wordBytes host hlt, List.getD_eq_default _ _ (Nat.le_refl _)]
    rw [Source.bit_eq _ _ hi, hword, Nat.zero_testBit]
  have hstart := reading_atRefill (fileSource host (wordBytes host words) out) mod blocksize
  rw [fileSource_io_zero] at hstart
  have hall : (fileSource host (wordBytes host words) out).Readable (0 + 32 * (words.length + 1)) := by
    rw [hread, Nat.zero_add]
  rcases dachBitins_spec hstart hall with ⟨rest, hrun, hdone⟩
  refine ⟨rest, ?_, ?_⟩
  · have hzeros : (List.range 32).map (fun i =>
        ((fileSource host (wordBytes host words) out).bit (32 * words.length + i)).toNat)
          = List.replicate 32 0 := by
      rw [List.map_congr_left fun i hi => by rw [hbehind i (List.mem_range.mp hi)], List.map_const']
      rfl
    rw [hrun, Nat.mul_succ, List.range_add, List.map_append, List.map_map, ← hbits, List.map_map,
      ← hzeros]
    simp only [Function.comp_def, Nat.zero_add]
  · rw [Nat.zero_add] at hdone
    exact dachBitin_eof hdone ((hread _).mpr (Nat.le_refl _)) (by rw [hread]; omega)

/-! ### The round trip -/

/-- Any bits that a fresh coder on a file writes, and completes as `dach_stop_encoder` does, are read back
    from the words it has written: first the bits, then zeros to the end of the last word, then 32 zeros
    more; the call behind them fails at the end-of-file check. -/
theorem dachBitouts_roundTrip (host : Host) (mod mod' : Ppm0) (inp out : CFile) (before : List UInt8)
    (blocksize blocksize' : Nat) (bits : List Bool) :
    ∃ mid last payload rest,
      dachBitouts host (bits.map Bool.toNat)
          (arcFresh mod (.files inp { unread := [], feof := false, written := before }) blocksize)
        = .ok mid ∧
      dachStopBits host mid = .ok last ∧
      last.fileWritten = before ++ payload ∧ payload.length = 4 * packedWords bits.length ∧
      dachBitins host (32 * (packedWords bits.length + 1))
          (arcFresh mod' (.files (CFile.reading payload) out) blocksize').atRefill
        = .ok (bits.map Bool.toNat ++ List.replicate (32 * packedWords bits.length - bits.length) 0
            ++ List.replicate 32 0, rest) ∧
      dachBitin host rest = .error .bitinEof := by
  have hio : ArcIo.files inp { unread := [], feof := false, written := before }
      = (fileSink host inp before).io [] := by
    simp [fileSink]
  rcases dachBitouts_stopBits (fileSink host inp before) (fun _ => trivial) mod blocksize bits with
    ⟨mid, last, words, hwrite, hstop, hlast, hlt, hlength, hdigits⟩
  rcases dachBitins_wordBytes host hlt mod' out blocksize' with ⟨rest, hread, hend⟩
  refine ⟨mid, last, wordBytes host words, rest, ?_, hstop, ?_, ?_, ?_, hend⟩
  · rw [hio]
    exact hwrite
  · rw [Arc.fileWritten, hlast]
    rfl
  · rw [length_wordBytes, hlength]
  · rw [← hlength, hread, hdigits, hlength, List.map_append, List.map_replicate]
    rfl

end Dach
