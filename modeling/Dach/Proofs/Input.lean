/-
Module: Dach.Proofs.Input
Layer: Proofs
Purpose: The bit input of the coder. A source is a file or a block seen as an endless stream of words,
  zero where its bytes have run out, together with the refills at which the end-of-file check of
  `dach_bitin` fires.
Imports: Dach.Core.Bitio, Dach.Lib.Bits, Dach.Lib.IntervalCoder, Dach.Proofs.Interval
Trusted boundary: none
Main exports: Source, Source.bit, Source.Readable, Source.code, fileSource, Reading, dachBitin_spec,
  dachBitin_eof, reading_atRefill, dachStartDecoder_spec
-/
import Dach.Core.Bitio
import Dach.Lib.Bits
import Dach.Lib.IntervalCoder
import Dach.Proofs.Interval

namespace Dach

open IntervalCoder

/-! ### Sources -/

/-- Something `dach_bitin` can refill its buffer from. `io` is its state after this many refills,
    `word` the word the next one brings, and `eof` the end-of-file flag of the coder by then. -/
structure Source (host : Host) where
  io : Nat → ArcIo
  word : Nat → Nat
  eof : Nat → Bool
  word_lt : ∀ j, word j < 2 ^ 32
  eof_zero : eof 0 = false
  refill : ∀ {arc : Arc} {j : Nat}, arc.io = io j → arc.eofIn = eof j → eof j = false →
    bitinWord host arc = .ok { arc with
      io := io (j + 1)
      eofIn := eof (j + 1)
      ioBuffer := word j
      ioBufferFull := arc.ioBufferSize }

namespace Source

variable {host : Host}

/-- The bits of the source. -/
def bit (src : Source host) : Nat → Bool :=
  Bits.ofWords 32 src.word

/-- None of the refills needed for this many bits runs into the end-of-file check. -/
def Readable (src : Source host) (bits : Nat) : Prop :=
  ∀ j, 32 * j < bits → src.eof j = false

theorem Readable.mono {src : Source host} {m n : Nat} (h : src.Readable n) (hle : m ≤ n) :
    src.Readable m :=
  fun j hj => h j (Nat.lt_of_lt_of_le hj hle)

/-- The bits of the source as a code value for the 32-bit window. -/
def code (src : Source host) : CodeValue where
  value := fun k => Bits.prefixVal src.bit (k + 32)
  half := fun k => by
    rw [Nat.add_right_comm]
    exact Bits.prefixVal_succ_div_two src.bit (k + 32)

/-- The first window is the first word. -/
theorem code_value_zero (src : Source host) : src.code.value 0 = src.word 0 := by
  have hprefix := Bits.prefixVal_ofWords src.word 0 (src.word_lt 0) (Nat.le_refl 32)
  rw [Nat.mul_zero, Bits.prefixVal, Nat.zero_mul, Nat.zero_add, Nat.zero_add, Nat.sub_self, pow_zero,
    Nat.div_one] at hprefix
  exact hprefix

end Source

/-- The bytes of a file from word `j` on, as the word a refill reads there. -/
def wordAt (host : Host) (bytes : List UInt8) (j : Nat) : Nat :=
  u32OfBytes host.order (bytes.drop (4 * j))

/-- Loading a word looks at four bytes only. -/
theorem u32OfBytes_take (order : ByteOrder) (bytes : List UInt8) :
    u32OfBytes order (bytes.take 4) = u32OfBytes order bytes := by
  have hget : ∀ i < 4, (bytes.take 4).getD i 0 = bytes.getD i 0 := by
    intro i hi
    rw [List.getD_eq_getElem?_getD, List.getD_eq_getElem?_getD, List.getElem?_take_of_lt hi]
  cases order <;>
    simp only [u32OfBytes, hget 0 (by omega), hget 1 (by omega), hget 2 (by omega),
      hget 3 (by omega)]

/-- The input file of `decode` behind its header. The flag is raised by the first refill that gets
    fewer than four bytes. -/
def fileSource (host : Host) (payload : List UInt8) (out : CFile) : Source host where
  io := fun j => .files
    { unread := payload.drop (4 * j), feof := decide (payload.length < 4 * j), written := [] } out
  word := wordAt host payload
  eof := fun j => decide (payload.length < 4 * j)
  word_lt := fun j => u32OfBytes_lt _ _
  eof_zero := by simp
  refill := by
    intro arc j hio heof hfalse
    have heofIn : arc.eofIn = false := heof.trans hfalse
    have hle : 4 * j ≤ payload.length := by simpa using hfalse
    have hshort : decide ((payload.drop (4 * j)).length < 4)
        = decide (payload.length < 4 * (j + 1)) := by
      rw [List.length_drop]
      exact decide_eq_decide.mpr (by omega)
    simp only [bitinWord, cassert_pos _ heofIn, ok_bind, hio, CFile.fread, pure_eq_ok, hshort,
      u32OfBytes_take, List.drop_drop]
    simp only [heofIn, hfalse, Bool.false_or, Nat.mul_succ]
    rfl

/-! ### Reading bits -/

/-- The coder has read this many bits of the source. -/
structure Reading {host : Host} (src : Source host) (bits : Nat) (arc : Arc) : Prop where
  io : arc.io = src.io ((bits + 31) / 32)
  eof : arc.eofIn = src.eof ((bits + 31) / 32)
  size : arc.ioBufferSize = 32
  full : arc.ioBufferFull = 32 * ((bits + 31) / 32) - bits
  buffer : 0 < bits → arc.ioBuffer
    = src.word ((bits - 1) / 32) * 2 ^ (32 - arc.ioBufferFull) % 2 ^ 32

/-- The bit under the top of a word that has been shifted up `r` times. -/
theorem top_of_shifted {w r : Nat} (hr : r < 32) :
    w * 2 ^ r % 2 ^ 32 / 2 ^ 31 = (w.testBit (31 - r)).toNat := by
  have hpow : 2 ^ 32 = 2 ^ (32 - r) * 2 ^ r := by
    rw [← pow_add, Nat.sub_add_cancel (Nat.le_of_lt hr)]
  have hhalf : 2 ^ 31 = 2 ^ r * 2 ^ (31 - r) := by
    rw [← pow_add]
    congr 1
    omega
  have hsucc : 2 ^ (32 - r) = 2 ^ (31 - r) * 2 := by
    rw [← pow_succ]
    congr 1
    omega
  rw [Nat.toNat_testBit, hpow, Nat.mul_mod_mul_right, hhalf, ← Nat.div_div_eq_div_mul,
    Nat.mul_div_cancel _ (Nat.two_pow_pos r), hsucc, Nat.mod_mul_right_div_self]

section Input

variable {host : Host} {src : Source host} {arc : Arc} {bits : Nat}

/-- The top bit of the buffer is the next bit of its word. -/
theorem bitinTop_eq (arc : Arc) {w r : Nat} (hfull : arc.ioBufferFull = 32 - r) (hr : r < 32)
    (hbuffer : arc.ioBuffer = w * 2 ^ r % 2 ^ 32) :
    bitinTop arc = .ok ((w.testBit (31 - r)).toNat, { arc with
      ioBuffer := w * 2 ^ (r + 1) % 2 ^ 32
      ioBufferFull := 32 - (r + 1) }) := by
  have hlt : arc.ioBuffer < 2 ^ 32 := by
    rw [hbuffer]
    exact Nat.mod_lt _ (Nat.two_pow_pos 32)
  have htop := top_of_shifted (w := w) hr
  have hbit : (arc.ioBuffer &&& 0x80000000) >>> 31 = (w.testBit (31 - r)).toNat := by
    rw [and_msb hlt, ← htop, ← hbuffer, Nat.shiftRight_eq_div_pow]
    split <;> omega
  have hshift : u32 (arc.ioBuffer <<< 1) = w * 2 ^ (r + 1) % 2 ^ 32 := by
    rw [u32, Nat.shiftLeft_eq, hbuffer, pow_succ 2 r, ← Nat.mul_assoc, Nat.mod_mul_mod]
  have hfull' : u32 (2 ^ 32 - 1 + arc.ioBufferFull) = 32 - (r + 1) := by
    rw [hfull]
    unfold u32
    omega
  have hle := Bool.toNat_le (w.testBit (31 - r))
  have hcheck : (w.testBit (31 - r)).toNat = 0 ∨ (w.testBit (31 - r)).toNat = 1 := by omega
  simp only [bitinTop, hbit, cassert_pos _ hcheck, ok_bind, pure_eq_ok, hshift, hfull']

/-- A bit inside a word. -/
theorem Source.bit_eq (src : Source host) (j : Nat) {r : Nat} (hr : r < 32) :
    src.bit (32 * j + r) = (src.word j).testBit (31 - r) := by
  unfold Source.bit Bits.ofWords
  rw [show (32 * j + r) / 32 = j by omega, show (32 * j + r) % 32 = r by omega]

/-- The top of a buffer that holds word `j`, with `r` bits of it returned before. -/
theorem bitinTop_spec (arc : Arc) {j r : Nat} (hr : r < 32) (hio : arc.io = src.io (j + 1))
    (heof : arc.eofIn = src.eof (j + 1)) (hsize : arc.ioBufferSize = 32)
    (hfull : arc.ioBufferFull = 32 - r) (hbuffer : arc.ioBuffer = src.word j * 2 ^ r % 2 ^ 32) :
    ∃ buffer full, bitinTop arc = .ok ((src.bit (32 * j + r)).toNat, { arc with
        ioBuffer := buffer, ioBufferFull := full }) ∧
      Reading src (32 * j + r + 1) { arc with ioBuffer := buffer, ioBufferFull := full } := by
  have hrefills : (32 * j + r + 1 + 31) / 32 = j + 1 := by omega
  refine ⟨src.word j * 2 ^ (r + 1) % 2 ^ 32, 32 - (r + 1), ?_, ?_⟩
  · rw [src.bit_eq j hr]
    exact bitinTop_eq arc hfull hr hbuffer
  · constructor
    · rw [hrefills]
      exact hio
    · rw [hrefills]
      exact heof
    · exact hsize
    · rw [hrefills]
      show 32 - (r + 1) = _
      omega
    · intro _
      rw [show (32 * j + r + 1 - 1) / 32 = j by omega]
      show src.word j * 2 ^ (r + 1) % 2 ^ 32 = src.word j * 2 ^ (32 - (32 - (r + 1))) % 2 ^ 32
      rw [show 32 - (32 - (r + 1)) = r + 1 by omega]

/-- `dach_bitin` returns the next bit of the source, unless it needs a refill after the end of the
    file. -/
theorem dachBitin_spec (arc : Arc) (h : Reading src bits arc) (hread : src.Readable (bits + 1)) :
    ∃ io eofIn buffer full, dachBitin host arc = .ok ((src.bit bits).toNat, { arc with
        io := io, eofIn := eofIn, ioBuffer := buffer, ioBufferFull := full }) ∧
      Reading src (bits + 1) { arc with
        io := io, eofIn := eofIn, ioBuffer := buffer, ioBufferFull := full } := by
  obtain ⟨j, r, hr, rfl⟩ : ∃ j r, r < 32 ∧ bits = 32 * j + r :=
    ⟨bits / 32, bits % 32, by omega, by omega⟩
  have hio := h.io
  have heof := h.eof
  have hfull := h.full
  by_cases hzero : r = 0
  · -- the buffer is empty: refill it
    subst hzero
    have hrefills : (32 * j + 0 + 31) / 32 = j := by omega
    rw [hrefills] at hio heof hfull
    have hempty : arc.ioBufferFull = 0 := by omega
    have hrefill : bitinWord host arc = .ok { arc with io := src.io (j + 1), eofIn := src.eof (j + 1),
                                                       ioBuffer := src.word j, ioBufferFull := 32 } := by
      rw [src.refill hio heof (hread j (by omega)), h.size]
    have hword : src.word j = src.word j * 2 ^ 0 % 2 ^ 32 := by
      rw [pow_zero, Nat.mul_one, Nat.mod_eq_of_lt (src.word_lt j)]
    rcases bitinTop_spec
      { arc with io := src.io (j + 1), eofIn := src.eof (j + 1), ioBuffer := src.word j,
                 ioBufferFull := 32 }
      hr rfl rfl h.size rfl hword with ⟨buffer, full, hbit, hnext⟩
    refine ⟨src.io (j + 1), src.eof (j + 1), buffer, full, ?_, hnext⟩
    rw [dachBitin, if_pos hempty, hrefill, ok_bind]
    exact hbit
  · have hrefills : (32 * j + r + 31) / 32 = j + 1 := by omega
    rw [hrefills] at hio heof hfull
    have hleft : arc.ioBufferFull = 32 - r := by omega
    have hbuffer := h.buffer (by omega)
    rw [show (32 * j + r - 1) / 32 = j by omega, show 32 - arc.ioBufferFull = r by omega] at hbuffer
    rcases bitinTop_spec arc hr hio heof h.size hleft hbuffer with ⟨buffer, full, hbit, hnext⟩
    have hbuffered : ¬ arc.ioBufferFull = 0 := by omega
    refine ⟨arc.io, arc.eofIn, buffer, full, ?_, hnext⟩
    rw [dachBitin, if_neg hbuffered, pure_eq_ok, ok_bind]
    exact hbit

/-- A refill after the end of the file is the only way `dach_bitin` can fail. -/
theorem dachBitin_eof (h : Reading src bits arc) (hread : src.Readable bits)
    (hstop : ¬ src.Readable (bits + 1)) : dachBitin host arc = .error .bitinEof := by
  obtain ⟨j, hj, heof⟩ : ∃ j, 32 * j < bits + 1 ∧ src.eof j = true := by
    by_contra hnone
    refine hstop fun j hj => ?_
    by_contra htrue
    exact hnone ⟨j, hj, by simpa using htrue⟩
  have hbits : bits = 32 * j := by
    by_contra hne
    have := hread j (by omega)
    rw [this] at heof
    cases heof
  subst hbits
  have hrefills : (32 * j + 31) / 32 = j := by omega
  have hfull := h.full
  have heofIn := h.eof
  rw [hrefills] at hfull heofIn
  have hempty : arc.ioBufferFull = 0 := by omega
  have hset : ¬ arc.eofIn = false := by
    rw [heofIn, heof]
    decide
  simp only [dachBitin, if_pos hempty, bitinWord, cassert_neg _ hset, error_bind]

/-! ### Starting a decoder -/

theorem startLoop_spec {left : Nat} : ∀ (arc : Arc) (bits : Nat), bits + left = 32 →
    Reading src bits arc → arc.esym = Bits.prefixVal src.bit bits →
      ∃ io eofIn buffer full esym, startLoop host left arc = .ok { arc with
          io := io, eofIn := eofIn, ioBuffer := buffer, ioBufferFull := full, esym := esym } ∧
        Reading src 32 { arc with
          io := io, eofIn := eofIn, ioBuffer := buffer, ioBufferFull := full, esym := esym } ∧
        esym = Bits.prefixVal src.bit 32 := by
  induction left with
  | zero =>
      intro arc bits hbits h hesym
      obtain rfl : bits = 32 := by omega
      exact ⟨arc.io, arc.eofIn, arc.ioBuffer, arc.ioBufferFull, arc.esym, rfl, h, hesym⟩
  | succ left ih =>
      intro arc bits hbits h hesym
      have hread : src.Readable (bits + 1) := by
        intro j hj
        obtain rfl : j = 0 := by omega
        exact src.eof_zero
      have hsmall : 2 * arc.esym + (src.bit bits).toNat < 2 ^ 32 := by
        have hlt := Bits.prefixVal_lt src.bit (bits + 1)
        have hpow : 2 ^ (bits + 1) ≤ 2 ^ 32 := Nat.pow_le_pow_right (by omega) (by omega)
        rw [Bits.prefixVal, ← hesym] at hlt
        omega
      have hdouble : u32 (arc.esym * 2) = 2 * arc.esym := by
        rw [u32_of_lt (by omega), Nat.mul_comm]
      have hsum : u32 (2 * arc.esym + (src.bit bits).toNat) = 2 * arc.esym + (src.bit bits).toNat :=
        u32_of_lt hsmall
      obtain ⟨io, eofIn, buffer, full, hbit, hreading⟩ :=
        dachBitin_spec { arc with esym := 2 * arc.esym }
          ⟨h.io, h.eof, h.size, h.full, h.buffer⟩ hread
      obtain ⟨io', eofIn', buffer', full', esym', hloop, hdone, hval⟩ :=
        ih { arc with
              io := io, eofIn := eofIn, ioBuffer := buffer, ioBufferFull := full
              esym := 2 * arc.esym + (src.bit bits).toNat }
          (bits + 1) (by omega)
          ⟨hreading.io, hreading.eof, hreading.size, hreading.full, hreading.buffer⟩ (by
            show 2 * arc.esym + (src.bit bits).toNat = _
            rw [Bits.prefixVal, hesym])
      refine ⟨io', eofIn', buffer', full', esym', ?_, hdone, hval⟩
      simp only [startLoop, hdouble, hbit, ok_bind, hsum]
      exact hloop

/-- A fresh coder with an empty buffer has read nothing. -/
theorem reading_atRefill (src : Source host) (mod : Ppm0) (blocksize : Nat) :
    Reading src 0 (arcFresh mod (src.io 0) blocksize).atRefill where
  io := rfl
  eof := src.eof_zero.symm
  size := rfl
  full := rfl
  buffer := fun h => absurd h (Nat.lt_irrefl 0)

/-- `dach_start_decoder` fills `esym` with the first window of the source. -/
theorem dachStartDecoder_spec (src : Source host) {mod : Ppm0} {blocksize : Nat}
    (hio : arc = arcFresh mod (src.io 0) blocksize) :
    ∃ io eofIn buffer full esym, dachStartDecoder host arc = .ok { arc with
        io := io, eofIn := eofIn, ioBuffer := buffer, ioBufferFull := full, esym := esym } ∧
      Reading src 32 { arc with
        io := io, eofIn := eofIn, ioBuffer := buffer, ioBufferFull := full, esym := esym } ∧
      esym = Bits.prefixVal src.bit 32 := by
  subst hio
  exact startLoop_spec (arcFresh mod (src.io 0) blocksize).atRefill 0 rfl
    (reading_atRefill src mod blocksize) rfl

end Input

end Dach
