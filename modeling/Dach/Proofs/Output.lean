/-
Module: Dach.Proofs.Output
Layer: Proofs
Purpose: The bit output of the coder. A sink is a file or a block seen as the list of words written to
  it; together with the buffer these words are the bits emitted so far, as a count and as an integer.
Imports: Dach.Core.Ar64, Dach.Lib.Bits
Trusted boundary: none
Main exports: Sink, fileSink, Out, Emitted, dachBitout_full, dachBitout_room, dachBitout_spec,
  dachWriteStream_spec, padLoop_spec
-/
import Dach.Core.Ar64
import Dach.Lib.Bits

namespace Dach

/-! ### Sinks -/

/-- Something `dach_bitout` can write its buffer to. `io` is its state after these words, and `Room`
    says how many bits of them it can take. -/
structure Sink (host : Host) where
  io : List Nat → ArcIo
  Room : Nat → Prop
  room_mono : ∀ {m n}, m ≤ n → Room n → Room m
  write : ∀ (arc : Arc) {words : List Nat}, arc.io = io words → Room (32 * (words.length + 1)) →
    bitoutWord host arc = .ok { arc with io := io (words ++ [arc.ioBuffer]) }

/-- The words of a file, after its header. -/
def wordBytes (host : Host) (words : List Nat) : List UInt8 :=
  words.flatMap (u32Bytes host.order)

@[simp] theorem wordBytes_nil (host : Host) : wordBytes host [] = [] := rfl

theorem wordBytes_append (host : Host) (words : List Nat) (w : Nat) :
    wordBytes host (words ++ [w]) = wordBytes host words ++ u32Bytes host.order w := by
  simp [wordBytes]

@[simp] theorem length_wordBytes (host : Host) (words : List Nat) :
    (wordBytes host words).length = 4 * words.length := by
  induction words with
  | nil => rfl
  | cons w words ih =>
      have hsplit : wordBytes host (w :: words) = u32Bytes host.order w ++ wordBytes host words := rfl
      rw [hsplit, List.length_append, length_u32Bytes, ih, List.length_cons]
      omega

/-- A length word and the words behind it. -/
theorem length_encoded (host : Host) (n : Nat) (words : List Nat) :
    (u32Bytes host.order n ++ wordBytes host words).length = 4 + 4 * words.length := by
  rw [List.length_append, length_u32Bytes, length_wordBytes]

/-- The output file of `dach_new_arcoder`, which takes any number of words. -/
def fileSink (host : Host) (inp : CFile) (header : List UInt8) : Sink host where
  io := fun words =>
    .files inp { unread := [], feof := false, written := header ++ wordBytes host words }
  Room := fun _ => True
  room_mono := fun _ _ => trivial
  write := by
    intro arc words hio _
    simp only [bitoutWord, hio, CFile.fwrite, pure_eq_ok]
    rw [wordBytes_append, List.append_assoc]

/-! ### Emitted bits -/

/-- The part of the coder that bit output changes. -/
structure Out where
  io : ArcIo
  buffer : Nat
  full : Nat

namespace Arc

/-- The output part of the coder. -/
def out (arc : Arc) : Out :=
  { io := arc.io, buffer := arc.ioBuffer, full := arc.ioBufferFull }

/-- The coder with another output part. -/
def withOut (arc : Arc) (o : Out) : Arc :=
  { arc with io := o.io, ioBuffer := o.buffer, ioBufferFull := o.full }

@[simp] theorem withOut_withOut (arc : Arc) (o o' : Out) :
    (arc.withOut o).withOut o' = arc.withOut o' := rfl

@[simp] theorem withOut_underflow (arc : Arc) (o : Out) :
    (arc.withOut o).underflow = arc.underflow := rfl

end Arc

/-- The number of bits in the words and the buffer. -/
def bitCount (words : List Nat) (o : Out) : Nat :=
  32 * words.length + (32 - o.full)

/-- The bits in the words and the buffer as an integer. -/
def bitVal (words : List Nat) (o : Out) : Nat :=
  Bits.pack 32 words * 2 ^ (32 - o.full) + o.buffer

/-- The output part once these words have reached the sink. The buffer holds the bits after them, and
    a word is written only when there are any. -/
structure Emitted {host : Host} (sink : Sink host) (words : List Nat) (o : Out) : Prop where
  io : o.io = sink.io words
  full_le : o.full ≤ 32
  buffer_lt : o.buffer < 2 ^ (32 - o.full)
  words_lt : ∀ w ∈ words, w < 2 ^ 32
  pending : words ≠ [] → o.full < 32

section Output

variable {host : Host} {sink : Sink host} {words : List Nat} (arc : Arc) {bit : Nat}

/-- A full buffer becomes the next word, and the bit is the first one after it. -/
theorem dachBitout_full (h : Emitted sink words arc.out) (hsize : arc.ioBufferSize = 32)
    (hzero : arc.ioBufferFull = 0) (hbit : bit ≤ 1) (hroom : sink.Room (bitCount words arc.out)) :
    ∃ o words', dachBitout host arc bit = .ok (arc.withOut o) ∧ Emitted sink words' o ∧
      bitCount words' o = bitCount words arc.out + 1 ∧
      bitVal words' o = 2 * bitVal words arc.out + bit := by
  have hio : arc.io = sink.io words := h.io
  have hbuffer : arc.ioBuffer < 2 ^ (32 - arc.ioBufferFull) := h.buffer_lt
  rw [hzero] at hbuffer
  have hcount : bitCount words arc.out = 32 * (words.length + 1) := by
    simp only [bitCount, Arc.out, hzero]
    omega
  rw [hcount] at hroom
  have hwrite := sink.write { arc with ioBufferFull := arc.ioBufferSize } hio hroom
  have hbit' : u32 (u32 (0 <<< 1) + bit) = bit := by
    simp only [u32, Nat.zero_shiftLeft]
    omega
  have hfull' : u32 (2 ^ 32 - 1 + 32) = 31 := rfl
  refine ⟨{ io := sink.io (words ++ [arc.ioBuffer]), buffer := bit, full := 31 },
    words ++ [arc.ioBuffer], ?_, ?_, ?_, ?_⟩
  · simp only [dachBitout, if_pos hzero, hwrite, ok_bind, pure_eq_ok]
    simp only [hsize, hbit', hfull', Arc.withOut]
  · constructor
    · rfl
    · show 31 ≤ 32
      omega
    · show bit < 2 ^ (32 - 31)
      omega
    · intro w hw
      rcases List.mem_append.mp hw with hw | hw
      · exact h.words_lt w hw
      · rw [List.mem_singleton.mp hw]
        exact hbuffer
    · intro _
      show 31 < 32
      omega
  · rw [hcount]
    simp [bitCount]
  · simp only [bitVal, Arc.out, hzero, Bits.pack_append_singleton]
    omega

/-- In a buffer with room the bit goes behind the others. -/
theorem dachBitout_room (h : Emitted sink words arc.out) {room : Nat}
    (hfull : arc.ioBufferFull = room + 1) (hbit : bit ≤ 1) :
    ∃ o, dachBitout host arc bit = .ok (arc.withOut o) ∧ Emitted sink words o ∧
      bitCount words o = bitCount words arc.out + 1 ∧
      bitVal words o = 2 * bitVal words arc.out + bit := by
  have hfull_le : arc.ioBufferFull ≤ 32 := h.full_le
  have hbuffer : arc.ioBuffer < 2 ^ (32 - arc.ioBufferFull) := h.buffer_lt
  have hpow : 2 ^ (32 - room) = 2 * 2 ^ (32 - arc.ioBufferFull) := by
    rw [hfull, ← pow_succ', show 32 - (room + 1) + 1 = 32 - room by omega]
  have hle : 2 ^ (32 - room) ≤ 2 ^ 32 := Nat.pow_le_pow_right (by omega) (by omega)
  have hbuffer' : u32 (u32 (arc.ioBuffer <<< 1) + bit) = 2 * arc.ioBuffer + bit := by
    simp only [u32, Nat.shiftLeft_eq]
    omega
  have hfull' : u32 (2 ^ 32 - 1 + arc.ioBufferFull) = room := by
    simp only [u32]
    omega
  have hnonzero : ¬ arc.ioBufferFull = 0 := by
    rw [hfull]
    exact Nat.succ_ne_zero room
  refine ⟨{ io := arc.io, buffer := 2 * arc.ioBuffer + bit, full := room }, ?_, ?_, ?_, ?_⟩
  · simp only [dachBitout, if_neg hnonzero, ok_bind, pure_eq_ok, hbuffer', hfull', Arc.withOut]
  · constructor
    · exact h.io
    · show room ≤ 32
      omega
    · show 2 * arc.ioBuffer + bit < 2 ^ (32 - room)
      omega
    · exact h.words_lt
    · intro _
      show room < 32
      omega
  · simp only [bitCount, Arc.out]
    omega
  · simp only [bitVal, Arc.out, hpow]
    ring

/-- A bit goes to the end of what has been emitted, whether or not the buffer has to be written
    first. -/
theorem dachBitout_spec (h : Emitted sink words arc.out) (hsize : arc.ioBufferSize = 32)
    (hbit : bit ≤ 1) (hroom : sink.Room (bitCount words arc.out)) :
    ∃ o words', dachBitout host arc bit = .ok (arc.withOut o) ∧ Emitted sink words' o ∧
      bitCount words' o = bitCount words arc.out + 1 ∧
      bitVal words' o = 2 * bitVal words arc.out + bit := by
  rcases hfull : arc.ioBufferFull with _ | room
  · exact dachBitout_full arc h hsize hfull hbit hroom
  · rcases dachBitout_room arc h hfull hbit with ⟨o, hout⟩
    exact ⟨o, words, hout⟩

/-- The pending bits, all alike, and the counter that goes down to 0. -/
theorem writeUnderflow_spec (hbit : bit ≤ 1) {pending : Nat} :
    ∀ (arc : Arc) {words : List Nat}, arc.underflow = pending → Emitted sink words arc.out →
      arc.ioBufferSize = 32 → (pending ≠ 0 → sink.Room (bitCount words arc.out + pending - 1)) →
      ∃ o words', writeUnderflow host bit pending arc
          = .ok (Arc.withOut { arc with underflow := 0 } o) ∧
        Emitted sink words' o ∧ bitCount words' o = bitCount words arc.out + pending ∧
        bitVal words' o = bitVal words arc.out * 2 ^ pending + bit * (2 ^ pending - 1) := by
  induction pending with
  | zero =>
      intro arc words hu h _ _
      refine ⟨arc.out, words, ?_, h, rfl, by simp⟩
      rw [writeUnderflow, ← hu]
      rfl
  | succ pending ih =>
      intro arc words _ h hsize hroom
      have hroom' := hroom (Nat.succ_ne_zero _)
      obtain ⟨o, mid, hrun, hmid, hcount, hval⟩ :=
        dachBitout_spec arc h hsize hbit (sink.room_mono (by omega) hroom')
      obtain ⟨o', words', hrun', hout, hcount', hval'⟩ :=
        ih { arc.withOut o with underflow := pending } rfl hmid hsize
          (fun _ => by
            refine sink.room_mono ?_ hroom'
            show bitCount mid o + pending - 1 ≤ _
            omega)
      refine ⟨o', words', ?_, hout, ?_, ?_⟩
      · rw [writeUnderflow, hrun, ok_bind, hrun']
        rfl
      · rw [hcount']
        show bitCount mid o + pending = _
        omega
      · rw [hval']
        show bitVal mid o * 2 ^ pending + bit * (2 ^ pending - 1) = _
        obtain ⟨m, hm⟩ : ∃ m, 2 ^ pending = m + 1 :=
          Nat.exists_eq_add_of_le' (Nat.two_pow_pos pending)
        rw [hval, pow_succ, hm, Nat.add_sub_cancel, show (m + 1) * 2 - 1 = 2 * m + 1 by omega]
        ring

/-- A bit and the pending bits after it, which are its complement. -/
theorem dachWriteStream_spec (h : Emitted sink words arc.out) (hsize : arc.ioBufferSize = 32)
    (hbit : bit ≤ 1) (hroom : sink.Room (bitCount words arc.out + arc.underflow)) :
    ∃ o words', dachWriteStream host arc bit = .ok (Arc.withOut { arc with underflow := 0 } o) ∧
      Emitted sink words' o ∧
      bitCount words' o = bitCount words arc.out + 1 + arc.underflow ∧
      bitVal words' o = (2 * bitVal words arc.out + bit) * 2 ^ arc.underflow
        + (1 - bit) * (2 ^ arc.underflow - 1) := by
  obtain ⟨o, mid, hrun, hmid, hcount, hval⟩ :=
    dachBitout_spec arc h hsize hbit (sink.room_mono (by omega) hroom)
  have hcompl : (if bit = 0 then 1 else 0) = 1 - bit := by
    split <;> omega
  obtain ⟨o', words', hrun', hout, hcount', hval'⟩ :=
    writeUnderflow_spec (show 1 - bit ≤ 1 by omega) (arc.withOut o)
      (show (arc.withOut o).underflow = arc.underflow from rfl) hmid hsize
      (fun _ => by
        refine sink.room_mono ?_ hroom
        show bitCount mid o + arc.underflow - 1 ≤ _
        omega)
  refine ⟨o', words', ?_, hout, ?_, ?_⟩
  · rw [dachWriteStream, cassert_pos _ (show bit = 1 ∨ bit = 0 by omega), ok_bind, hrun, ok_bind,
      hcompl, Arc.withOut_underflow, hrun']
    rfl
  · rw [hcount']
    show bitCount mid o + arc.underflow = _
    omega
  · rw [hval', ← hval]
    rfl

/-- Without pending bits the stream gets the bit alone. -/
theorem dachWriteStream_idle {o : Out} (hu : arc.underflow = 0) (hbit : bit ≤ 1)
    (hrun : dachBitout host arc bit = .ok (arc.withOut o)) :
    dachWriteStream host arc bit = .ok (arc.withOut o) := by
  have hcheck : bit = 1 ∨ bit = 0 := by omega
  rw [dachWriteStream, cassert_pos _ hcheck, ok_bind, hrun, ok_bind, Arc.withOut_underflow, hu]
  rfl

/-- A zero without pending bits. -/
theorem dachWriteStream_zero (h : Emitted sink words arc.out) (hsize : arc.ioBufferSize = 32)
    (hu : arc.underflow = 0) (hroom : sink.Room (bitCount words arc.out)) :
    ∃ o words', dachWriteStream host arc 0 = .ok (arc.withOut o) ∧ Emitted sink words' o ∧
      bitCount words' o = bitCount words arc.out + 1 ∧
      bitVal words' o = 2 * bitVal words arc.out := by
  rcases dachBitout_spec arc h hsize (Nat.zero_le 1) hroom with ⟨o, words', hrun, hout⟩
  exact ⟨o, words', dachWriteStream_idle arc hu (Nat.zero_le 1) hrun, hout⟩

/-- The padding loop, started at `start` and with this many places left to fill. It writes no word. -/
def Padding (sink : Sink host) (words : List Nat) (start : Arc) (left : Nat) (arc : Arc) : Prop :=
  ∃ o, arc = start.withOut o ∧ Emitted sink words o ∧ o.full = left ∧
    bitCount words o + left = bitCount words start.out + start.ioBufferFull ∧
    bitVal words o * 2 ^ left = bitVal words start.out * 2 ^ start.ioBufferFull

/-- A full buffer ends the loop. -/
theorem padPass_break {start : Arc} (h : Padding sink words start 0 arc) :
    padPass host 0 arc = .ok none := by
  rcases h with ⟨o, rfl, _, hzero, _⟩
  have hfull : (start.withOut o).ioBufferFull = 0 := hzero
  simp only [padPass, hfull, ne_eq, not_true_eq_false, if_false, pure_eq_ok]

/-- A pass fills one place with a zero. -/
theorem padPass_next {start : Arc} (hu : start.underflow = 0) {left : Nat}
    (h : Padding sink words start (left + 1) arc) :
    ∃ t, padPass host 0 arc = .ok (some t) ∧ Padding sink words start left t := by
  rcases h with ⟨o, rfl, hout, hleft, hcount, hval⟩
  have hfull : (start.withOut o).ioBufferFull = left + 1 := hleft
  rcases dachBitout_room (start.withOut o) hout hfull (Nat.zero_le 1) with
    ⟨o', hrun, hout', hcount', hval'⟩
  have hwrite := dachWriteStream_idle (start.withOut o) hu (Nat.zero_le 1) hrun
  have hcount'' : bitCount words o' = bitCount words o + 1 := hcount'
  have hval'' : bitVal words o' = 2 * bitVal words o := hval'
  have hleft' : o'.full = left := by
    have hle := hout'.full_le
    have hle' := hout.full_le
    unfold bitCount at hcount''
    omega
  refine ⟨start.withOut o', ?_, o', rfl, hout', hleft', ?_, ?_⟩
  · simp only [padPass, hfull, ne_eq, Nat.succ_ne_zero, not_false_eq_true, if_true, hwrite, ok_bind,
      pure_eq_ok, Arc.withOut_withOut]
  · rw [hcount'', ← hcount]
    ring
  · rw [hval'', ← hval, pow_succ]
    ring

/-- The padding loop of `dach_stop_encoder` fills the buffer with zeros. -/
theorem padLoop_spec (h : Emitted sink words arc.out) (hu : arc.underflow = 0) {fuel : Nat}
    (hfuel : arc.ioBufferFull < fuel) :
    ∃ o, Loop.forever .loopForever (padPass host 0) fuel arc = .ok (arc.ioBufferFull, arc.withOut o) ∧
      Emitted sink words o ∧ o.full = 0 ∧
      bitCount words o = bitCount words arc.out + arc.ioBufferFull ∧
      bitVal words o = bitVal words arc.out * 2 ^ arc.ioBufferFull := by
  have hbegin : Padding sink words arc arc.ioBufferFull arc := ⟨arc.out, rfl, h, rfl, rfl, rfl⟩
  rcases Loop.forever_countdown .loopForever (padPass host 0) (fun t => padPass_break t)
    (fun _ t => padPass_next t hu) hfuel hbegin with ⟨_, hloop, o, rfl, hout, hzero, hcount, hval⟩
  rw [pow_zero, Nat.mul_one] at hval
  exact ⟨o, hloop, hout, hzero, hcount, hval⟩

end Output

end Dach
