/-
Module: Dach.Proofs.Readers
Layer: Proofs
Purpose: Bits read in a row. They are the bits of the source for as long as its refills pass the
  end-of-file check; a file passes it once more than it has whole words, and a block, which has no such
  check, always, so that the two readers of the same bytes part where the file ends.
Imports: Dach.Core.Bitio, Dach.Proofs.BlockCoder
Trusted boundary: none
Main exports: dachBitins_spec, dachBitins_eof, fileSource_readable_iff, bitsRead,
  BitsAgree, bitsAgree_iff_readable, bitsAgree_block_file_iff
-/
import Dach.Core.Bitio
import Dach.Proofs.BlockCoder

namespace Dach

/-! ### Calls in a row -/

section Calls

variable {host : Host} {src : Source host}

theorem Source.readable_zero (src : Source host) : src.Readable 0 :=
  fun j hj => absurd hj (Nat.not_lt_zero (32 * j))

/-- Calls that need no refill past the end return the bits of the source. -/
theorem dachBitins_spec {calls : Nat} : ∀ {arc : Arc} {bits : Nat}, Reading src bits arc →
    src.Readable (bits + calls) →
      ∃ arc', dachBitins host calls arc
          = .ok ((List.range calls).map fun i => (src.bit (bits + i)).toNat, arc') ∧
        Reading src (bits + calls) arc' := by
  induction calls with
  | zero =>
      intro arc bits h _
      exact ⟨arc, rfl, h⟩
  | succ calls ih =>
      intro arc bits h hread
      rw [← Nat.add_assoc, Nat.add_right_comm] at hread ⊢
      rcases dachBitin_spec arc h (hread.mono (Nat.le_add_right _ _)) with
        ⟨io, eofIn, buffer, full, hbit, hnext⟩
      rcases ih hnext hread with ⟨arc', hrest, hdone⟩
      refine ⟨arc', ?_, hdone⟩
      simp only [dachBitins, hbit, ok_bind, hrest, pure_eq_ok, List.range_succ_eq_map, List.map_cons,
        List.map_map]
      simp [Function.comp_def, Nat.add_assoc, Nat.add_comm 1]

/-- Calls that need a refill past the end fail at the end-of-file check. -/
theorem dachBitins_eof {calls : Nat} : ∀ {arc : Arc} {bits : Nat}, Reading src bits arc →
    src.Readable bits → ¬ src.Readable (bits + calls) →
      dachBitins host calls arc = .error .bitinEof := by
  induction calls with
  | zero =>
      intro arc bits _ hread hstop
      exact absurd hread hstop
  | succ calls ih =>
      intro arc bits h hread hstop
      rw [← Nat.add_assoc, Nat.add_right_comm] at hstop
      by_cases hone : src.Readable (bits + 1)
      · rcases dachBitin_spec arc h hone with ⟨io, eofIn, buffer, full, hbit, hnext⟩
        simp only [dachBitins, hbit, ok_bind, ih hnext hone hstop, error_bind]
      · rw [dachBitins, dachBitin_eof h hread hone, error_bind]

end Calls

/-- A file can be read up to the word behind its last whole one. -/
theorem fileSource_readable_iff (host : Host) (content : List UInt8) (out : CFile) {bits : Nat} :
    (fileSource host content out).Readable bits ↔ bits ≤ 32 * (content.length / 4 + 1) := by
  have heof : ∀ j, (fileSource host content out).eof j = false ↔ 4 * j ≤ content.length := by
    intro j
    exact decide_eq_false_iff_not.trans Nat.not_lt
  constructor
  · intro hread
    by_contra hlong
    have hlast := (heof _).mp (hread (content.length / 4 + 1) (by omega))
    omega
  · intro hle j hj
    rw [heof]
    omega

theorem fileSource_io_zero (host : Host) (content : List UInt8) (out : CFile) :
    (fileSource host content out).io 0 = .files (CFile.reading content) out := by
  simp [fileSource, CFile.reading]

/-! ### Two readers -/

/-- What calls of `dach_bitin` show: the bits, unless one of the calls aborts. -/
def bitsRead (host : Host) (calls : Nat) (arc : Arc) : Option (List Nat) :=
  (dachBitins host calls arc).toOption.map Prod.fst

/-- The coders return the same bits in this many calls, and where one of them aborts, so does the
    other at the same call. -/
def BitsAgree (host : Host) (calls : Nat) (arc arc' : Arc) : Prop :=
  ∀ k ≤ calls, bitsRead host k arc = bitsRead host k arc'

section Agree

variable {host : Host}

theorem bitsRead_readable {src : Source host} {calls : Nat} (hread : src.Readable calls) (mod : Ppm0)
    (blocksize : Nat) :
    bitsRead host calls (arcFresh mod (src.io 0) blocksize).atRefill
      = some ((List.range calls).map fun i => (src.bit i).toNat) := by
  rw [← Nat.zero_add calls] at hread
  rcases dachBitins_spec (reading_atRefill src mod blocksize) hread with ⟨arc', hrun, _⟩
  rw [bitsRead, hrun]
  simp [Except.toOption]

theorem bitsRead_exhausted {src : Source host} {calls : Nat} (hstop : ¬ src.Readable calls) (mod : Ppm0)
    (blocksize : Nat) : bitsRead host calls (arcFresh mod (src.io 0) blocksize).atRefill = none := by
  rw [← Nat.zero_add calls] at hstop
  rw [bitsRead, dachBitins_eof (reading_atRefill src mod blocksize) src.readable_zero hstop]
  rfl

/-- A reader that never ends agrees with a reader of the same words exactly as far as that one gets. -/
theorem bitsAgree_iff_readable {src src' : Source host} (hword : src.word = src'.word)
    (hread : ∀ bits, src.Readable bits) (mod mod' : Ppm0) (blocksize blocksize' calls : Nat) :
    BitsAgree host calls (arcFresh mod (src.io 0) blocksize).atRefill
        (arcFresh mod' (src'.io 0) blocksize').atRefill ↔
      src'.Readable calls := by
  have hbit : src.bit = src'.bit := by
    rw [Source.bit, Source.bit, hword]
  constructor
  · intro hagree
    by_contra hstop
    have hsame := hagree calls (Nat.le_refl calls)
    rw [bitsRead_readable (hread calls), bitsRead_exhausted hstop] at hsame
    cases hsame
  · intro hread' k hk
    rw [bitsRead_readable (hread k), bitsRead_readable (hread'.mono hk), hbit]

/-- The content of a readable block, read from its start. -/
theorem readableBlock_source (host : Host) (content behind : List UInt8) (bid : Nat) {blk : Block}
    (hnew : dachBlockNew host
      { length := content.length, bid := bid, mode := .readable, data := some (content ++ behind) }
        = .ok blk) :
    ∃ src : Source host, src.io 0 = .block blk ∧ src.word = wordAt host content ∧
      ∀ bits, src.Readable bits := by
  cases hnew
  have hdata : content.length ≤ (content ++ behind).length := by
    rw [List.length_append]
    exact Nat.le_add_right _ _
  refine ⟨blockSource host { id := bid, mode := .readable, pos := 0, bytesWritten := 0,
                              data := content ++ behind, size := content.length,
                              length := content.length } hdata, ?_, ?_, blockSource_readable hdata⟩
  · simp [blockSource]
  · show wordAt host ((content ++ behind).take content.length) = _
    rw [List.take_left]

end Agree

/-- The coder on a readable block and the coder on a file with the same bytes agree up to the word
    behind the last whole one, and no further: the file reader stops there, the block reader goes on. -/
theorem bitsAgree_block_file_iff (host : Host) (mod mod' : Ppm0) (content behind : List UInt8)
    (out : CFile) (bid blocksize blocksize' calls : Nat) {blk : Block}
    (hnew : dachBlockNew host
      { length := content.length, bid := bid, mode := .readable, data := some (content ++ behind) }
        = .ok blk) :
    BitsAgree host calls (arcFresh mod (.block blk) blocksize).atRefill
        (arcFresh mod' (.files (CFile.reading content) out) blocksize').atRefill ↔
      calls ≤ 32 * (content.length / 4 + 1) := by
  rcases readableBlock_source host content behind bid hnew with ⟨src, hio, hword, hread⟩
  rw [← hio, ← fileSource_io_zero host content out, ← fileSource_readable_iff host content out]
  exact bitsAgree_iff_readable hword hread mod mod' blocksize blocksize' calls

/-- One byte, and the 32 bits that its word has. -/
theorem bitsAgree_block_file_iff_one : ∃ mod blk, dachPpm0New = .ok mod ∧
    dachBlockNew littleHost { length := 1, bid := 0, mode := .readable, data := some [65] } = .ok blk ∧
    (BitsAgree littleHost 32 (arcFresh mod (.block blk) 1).atRefill
        (arcFresh mod (.files (CFile.reading [65]) (CFile.reading [])) 1).atRefill ↔
      32 ≤ 32 * (1 / 4 + 1)) := by
  rcases dachPpm0New_fresh with ⟨mod, hnew, _⟩
  exact ⟨mod, _, hnew, rfl, bitsAgree_block_file_iff littleHost mod mod [65] [] _ 0 1 1 32 rfl⟩

/-- The bit behind the only word of one byte: the block reader returns it, and the file reader aborts. -/
theorem bitsAgree_block_file_past : ∃ mod blk, dachPpm0New = .ok mod ∧
    dachBlockNew littleHost { length := 1, bid := 0, mode := .readable, data := some [65] } = .ok blk ∧
    ¬ BitsAgree littleHost 33 (arcFresh mod (.block blk) 1).atRefill
        (arcFresh mod (.files (CFile.reading [65]) (CFile.reading [])) 1).atRefill := by
  rcases dachPpm0New_fresh with ⟨mod, hnew, _⟩
  rcases readableBlock_source littleHost [65] [] 0 rfl with ⟨src, hio, hword, hread⟩
  refine ⟨mod, _, hnew, rfl, fun hagree => ?_⟩
  have hpast : ¬ 33 ≤ 32 * (([65] : List UInt8).length / 4 + 1) := by decide
  rw [← fileSource_readable_iff littleHost [65] (CFile.reading [])] at hpast
  rw [← fileSource_io_zero littleHost [65]] at hagree
  exact hpast ((bitsAgree_iff_readable hword hread mod mod 1 1 33).mp (by rw [hio]; exact hagree))

end Dach
