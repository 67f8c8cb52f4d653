/-
Module: Dach.Lib.Chunks
Layer: Lib
Purpose: A list cut into chunks of one size, the last one shorter unless the size divides the length.
  The number of chunks is the length divided by the size, rounded up.
Imports: Mathlib
Trusted boundary: none
Main exports: Chunks.chunk, Chunks.lt_ceilDiv_iff, Chunks.ceilDiv_eq, Chunks.flatten_chunks,
  Chunks.length_chunk_of_succ_lt, Chunks.length_chunk_last
-/
import Mathlib

namespace Chunks

variable {α : Type}

/-! ### How many chunks there are -/

theorem lt_ceilDiv_iff {n : Nat} (hn : 0 < n) (len j : Nat) : j < len ⌈/⌉ n ↔ j * n < len := by
  rw [← Nat.not_le, ceilDiv_le_iff_le_mul hn, Nat.not_le, Nat.mul_comm]

theorem ceilDiv_pos {n len : Nat} (hn : 0 < n) (hlen : 0 < len) : 0 < len ⌈/⌉ n := by
  rw [lt_ceilDiv_iff hn, Nat.zero_mul]
  exact hlen

/-- The rounded quotient is the only number of chunks that covers the length without an empty one. -/
theorem ceilDiv_eq {n len k : Nat} (hn : 0 < n) (hlt : k * n < len) (hle : len ≤ (k + 1) * n) :
    len ⌈/⌉ n = k + 1 := by
  apply Nat.le_antisymm
  · rw [ceilDiv_le_iff_le_mul hn, Nat.mul_comm]
    exact hle
  · exact (lt_ceilDiv_iff hn len k).mpr hlt

/-! ### The chunks -/

/-- Chunk `j` of a list cut into chunks of `n`. -/
def chunk (n : Nat) (l : List α) (j : Nat) : List α := (l.drop (j * n)).take n

theorem length_chunk (n : Nat) (l : List α) (j : Nat) :
    (chunk n l j).length = min n (l.length - j * n) := by
  rw [chunk, List.length_take, List.length_drop]

/-- A chunk is a prefix of what is left at its start. -/
theorem take_length_chunk (n : Nat) (l : List α) (j : Nat) :
    (l.drop (j * n)).take (chunk n l j).length = chunk n l j := by
  rw [chunk, List.length_take]
  exact List.take_eq_take_min.symm

/-- Every chunk but the last has the full size. -/
theorem length_chunk_of_succ_lt {n : Nat} (hn : 0 < n) {l : List α} {j : Nat}
    (hj : j + 1 < l.length ⌈/⌉ n) : (chunk n l j).length = n := by
  rw [lt_ceilDiv_iff hn, Nat.succ_mul] at hj
  rw [length_chunk]
  omega

/-- No chunk is empty or longer than the size. -/
theorem length_chunk_bounds {n : Nat} (hn : 0 < n) {l : List α} {j : Nat}
    (hj : j < l.length ⌈/⌉ n) : 1 ≤ (chunk n l j).length ∧ (chunk n l j).length ≤ n := by
  rw [lt_ceilDiv_iff hn] at hj
  rw [length_chunk]
  omega

/-- The last chunk has what the division leaves over, or the full size when it leaves nothing. -/
theorem length_chunk_last {n : Nat} (hn : 0 < n) {l : List α} {j : Nat}
    (hj : j + 1 = l.length ⌈/⌉ n) :
    (chunk n l j).length = if l.length % n = 0 then n else l.length % n := by
  have hlt : j * n < l.length := (lt_ceilDiv_iff hn _ _).mp (by omega)
  have hle : ¬ (j + 1) * n < l.length := by
    rw [← lt_ceilDiv_iff hn]
    omega
  rw [Nat.succ_mul] at hle
  obtain ⟨d, hd⟩ := Nat.exists_eq_add_of_lt hlt
  have hmod : l.length % n = (d + 1) % n := by
    rw [hd, Nat.add_assoc, Nat.mul_comm, Nat.mul_add_mod]
  rw [length_chunk, hmod]
  by_cases hfull : d + 1 = n
  · rw [hfull, Nat.mod_self, if_pos rfl]
    omega
  · rw [Nat.mod_eq_of_lt (by omega), if_neg (Nat.succ_ne_zero d)]
    omega

/-- The first `k` chunks are the first `k * n` elements. -/
theorem flatten_map_chunk (n : Nat) (l : List α) (k : Nat) :
    ((List.range k).map (chunk n l)).flatten = l.take (k * n) := by
  induction k with
  | zero => simp
  | succ k ih =>
      rw [List.range_succ, List.map_append, List.flatten_append, ih, Nat.succ_mul, List.take_add]
      simp [chunk]

/-- The chunks in order are the list. -/
theorem flatten_chunks {n : Nat} (hn : 0 < n) (l : List α) :
    ((List.range (l.length ⌈/⌉ n)).map (chunk n l)).flatten = l := by
  rw [flatten_map_chunk, Nat.mul_comm]
  exact List.take_of_length_le (le_smul_ceilDiv hn)

end Chunks
