/-
Module: Dach.Lib.Search
Layer: Lib
Purpose: Two searches for something longest. The common beginning of two lists, and the first of the
  candidates in a range that has the best score, as a scan with a strict comparison finds it.
Imports: Mathlib
Trusted boundary: none
Main exports: Search.commonLen, Search.getElem?_of_lt_commonLen, Search.ne_of_getElem?_commonLen,
  Search.le_commonLen_iff, Search.FirstBest, FirstBest.empty, FirstBest.keep, FirstBest.replace,
  FirstBest.isGreatest, FirstBest.isLeast
-/
import Mathlib

namespace Search

/-! ### The common beginning of two lists -/

section CommonLen

variable {α : Type} [DecidableEq α]

/-- The length of the longest common beginning. -/
def commonLen : List α → List α → Nat
  | x :: xs, y :: ys => if x = y then commonLen xs ys + 1 else 0
  | _, _ => 0

@[simp] theorem commonLen_nil_left (ys : List α) : commonLen [] ys = 0 := by
  simp [commonLen]

@[simp] theorem commonLen_nil_right (xs : List α) : commonLen xs [] = 0 := by
  simp [commonLen]

theorem commonLen_cons (x y : α) (xs ys : List α) :
    commonLen (x :: xs) (y :: ys) = if x = y then commonLen xs ys + 1 else 0 := by
  rw [commonLen]

/-- The lists agree up to the length of their common beginning. -/
theorem getElem?_of_lt_commonLen {xs ys : List α} {i : Nat} (h : i < commonLen xs ys) :
    ∃ x, xs[i]? = some x ∧ ys[i]? = some x := by
  induction xs generalizing ys i with
  | nil =>
      rw [commonLen_nil_left] at h
      cases h
  | cons x xs ih =>
      cases ys with
      | nil =>
          rw [commonLen_nil_right] at h
          cases h
      | cons y ys =>
          rw [commonLen_cons] at h
          by_cases hxy : x = y
          · rw [if_pos hxy] at h
            cases i with
            | zero => exact ⟨x, rfl, by rw [hxy]; rfl⟩
            | succ i => exact ih (Nat.lt_of_succ_lt_succ h)
          · rw [if_neg hxy] at h
            cases h

/-- Behind their common beginning the lists differ, unless one of them has ended. -/
theorem ne_of_getElem?_commonLen {xs ys : List α} {x y : α} (hx : xs[commonLen xs ys]? = some x)
    (hy : ys[commonLen xs ys]? = some y) : x ≠ y := by
  induction xs generalizing ys with
  | nil => cases hx
  | cons a xs ih =>
      cases ys with
      | nil => cases hy
      | cons b ys =>
          rw [commonLen_cons] at hx hy
          by_cases hab : a = b
          · rw [if_pos hab] at hx hy
            exact ih hx hy
          · rw [if_neg hab] at hx hy
            rw [← Option.some.inj hx, ← Option.some.inj hy]
            exact hab

/-- The lengths at which two lists begin alike are those up to the longest one. -/
theorem le_commonLen_iff {xs ys : List α} {n : Nat} :
    n ≤ commonLen xs ys ↔ n ≤ xs.length ∧ n ≤ ys.length ∧ xs.take n = ys.take n := by
  induction xs generalizing ys n with
  | nil =>
      rw [commonLen_nil_left, List.length_nil]
      constructor
      · intro h
        obtain rfl : n = 0 := Nat.le_zero.mp h
        simp
      · intro h
        exact h.1
  | cons x xs ih =>
      cases ys with
      | nil =>
          rw [commonLen_nil_right, List.length_nil]
          constructor
          · intro h
            obtain rfl : n = 0 := Nat.le_zero.mp h
            simp
          · intro h
            exact h.2.1
      | cons y ys =>
          rw [commonLen_cons]
          cases n with
          | zero => simp
          | succ n =>
              by_cases hxy : x = y
              · simp [hxy, ih]
              · simp [hxy]

end CommonLen

/-! ### The first best candidate -/

section FirstBest

variable {β : Type} [LinearOrder β] [OrderBot β]

/-- `value` is the best score of the candidates from `lo` up to `hi`, and `place` the first one with this
    score. A score counts only above the bottom; while there is none, the place is 0. -/
structure FirstBest (score : Nat → β) (lo hi place : Nat) (value : β) : Prop where
  upper : ∀ i, lo ≤ i → i < hi → score i ≤ value
  earlier : ∀ i, lo ≤ i → i < place → score i < value
  attained : value ≠ ⊥ → lo ≤ place ∧ place < hi ∧ score place = value
  absent : value = ⊥ → place = 0

namespace FirstBest

variable {score : Nat → β} {lo hi place : Nat} {value : β}

/-- Nothing has been looked at. -/
theorem empty (score : Nat → β) (lo : Nat) : FirstBest score lo lo 0 ⊥ where
  upper := fun _ hlo hhi => absurd hhi (Nat.not_lt.mpr hlo)
  earlier := fun i _ hi => absurd hi (Nat.not_lt_zero i)
  attained := fun h => absurd rfl h
  absent := fun _ => rfl

/-- A candidate that is not better is passed over. -/
theorem keep (h : FirstBest score lo hi place value) (hle : score hi ≤ value) :
    FirstBest score lo (hi + 1) place value where
  upper := by
    intro i hlo hi'
    rcases Nat.lt_succ_iff_lt_or_eq.mp hi' with hlt | rfl
    · exact h.upper i hlo hlt
    · exact hle
  earlier := h.earlier
  attained := by
    intro hne
    rcases h.attained hne with ⟨hlo, hhi, hscore⟩
    exact ⟨hlo, Nat.lt_succ_of_lt hhi, hscore⟩
  absent := h.absent

/-- A better candidate takes the place. -/
theorem replace (h : FirstBest score lo hi place value) (hlo : lo ≤ hi) (hlt : value < score hi) :
    FirstBest score lo (hi + 1) hi (score hi) where
  upper := by
    intro i hlo' hi'
    rcases Nat.lt_succ_iff_lt_or_eq.mp hi' with hi'' | rfl
    · exact (h.upper i hlo' hi'').trans hlt.le
    · exact le_refl _
  earlier := fun i hlo' hi' => (h.upper i hlo' hi').trans_lt hlt
  attained := fun _ => ⟨hlo, Nat.lt_succ_self hi, rfl⟩
  absent := fun hbot => absurd hbot (bot_le.trans_lt hlt).ne'

/-- The best score is the greatest value that a candidate reaches. -/
theorem isGreatest (h : FirstBest score lo hi place value) (hne : value ≠ ⊥) :
    IsGreatest {v | ∃ i, lo ≤ i ∧ i < hi ∧ v ≤ score i} value := by
  constructor
  · rcases h.attained hne with ⟨hlo, hhi, hscore⟩
    exact ⟨place, hlo, hhi, hscore.ge⟩
  · rintro v ⟨i, hlo, hhi, hv⟩
    exact hv.trans (h.upper i hlo hhi)

/-- The place is the least candidate that reaches the best score. -/
theorem isLeast (h : FirstBest score lo hi place value) (hne : value ≠ ⊥) :
    IsLeast {i | lo ≤ i ∧ i < hi ∧ value ≤ score i} place := by
  constructor
  · rcases h.attained hne with ⟨hlo, hhi, hscore⟩
    exact ⟨hlo, hhi, hscore.ge⟩
  · rintro i ⟨hlo, _, hv⟩
    by_contra hlt
    exact absurd (h.earlier i hlo (Nat.not_le.mp hlt)) (not_lt.mpr hv)

end FirstBest

end FirstBest

end Search
