/-
Module: Dach.Lib.CountBounds
Layer: Lib
Purpose: Closed bounds for what the cost of an adaptive code is made of: the factorials of the letter
  counts of a text against the size of its alphabet, the factorial of the last total, and the powers of
  the rounding loss.
Imports: Mathlib only
Trusted boundary: none
Main exports: Counts.factorial_length_le, Counts.factorial_add_le, Counts.succ_pow_le
-/
import Mathlib.Algebra.BigOperators.Group.Finset.Basic
import Mathlib.Analysis.Complex.ExponentialBounds
import Mathlib.Data.Nat.Choose.Multinomial
import Mathlib.Data.Fintype.BigOperators

namespace Counts

open scoped Nat

/-- A multinomial coefficient is one term of a power of the number of letters. -/
theorem multinomial_le {α : Type} [DecidableEq α] (s : Finset α) {f : α → Nat}
    (hsupport : ∀ a, f a ≠ 0 → a ∈ s) : Nat.multinomial s f ≤ s.card ^ ∑ a ∈ s, f a := by
  have hpow := Finset.sum_pow_eq_sum_piAntidiag s (fun _ => 1) (∑ a ∈ s, f a)
  have hmem : f ∈ Finset.piAntidiag s (∑ a ∈ s, f a) :=
    Finset.mem_piAntidiag.mpr ⟨rfl, hsupport⟩
  have hterm := Finset.single_le_sum (f := fun k => Nat.multinomial s k * ∏ a ∈ s, 1 ^ k a)
    (fun _ _ => Nat.zero_le _) hmem
  simp only [Nat.cast_id] at hpow
  rw [← hpow] at hterm
  simpa using hterm

/-- The arrangements of a text over `k` letters are at most the texts of its length. -/
theorem factorial_length_le {α : Type} [Fintype α] [DecidableEq α] {k : Nat} (as : List α)
    (hcard : as.toFinset.card ≤ k) : as.length ! ≤ k ^ as.length * ∏ a, (as.count a)! := by
  have hsum : ∑ a ∈ as.toFinset, as.count a = as.length := by
    rw [List.sum_toFinset_count_eq_length]
  have hspec := Nat.multinomial_spec as.toFinset as.count
  have hle := multinomial_le as.toFinset (f := as.count) (by
    intro a ha
    exact List.mem_toFinset.mpr (List.count_pos_iff.mp (Nat.pos_of_ne_zero ha)))
  have hall : ∏ a ∈ as.toFinset, (as.count a)! = ∏ a, (as.count a)! := by
    apply Finset.prod_subset (Finset.subset_univ _)
    intro a _ ha
    rw [List.count_eq_zero.mpr (by simpa using ha), Nat.factorial_zero]
  rw [hsum] at hspec hle
  rw [← hspec, hall, Nat.mul_comm]
  exact Nat.mul_le_mul_right _ (hle.trans (Nat.pow_le_pow_left hcard _))

theorem factorial_add_le {n s l : Nat} (h : n + s ≤ 2 ^ l) : (s + n)! ≤ n ! * 2 ^ (s * l) := by
  have hdesc : (n + s)! = n ! * (n + s).descFactorial s := by
    rw [← Nat.factorial_mul_descFactorial (Nat.le_add_left s n), Nat.add_sub_cancel]
  rw [Nat.add_comm s n, hdesc]
  refine Nat.mul_le_mul_left _ ?_
  calc (n + s).descFactorial s ≤ (n + s) ^ s := Nat.descFactorial_le_pow _ _
    _ ≤ (2 ^ l) ^ s := Nat.pow_le_pow_left h s
    _ = 2 ^ (s * l) := by rw [← pow_mul, Nat.mul_comm]

/-- `n` losses of one part in `k + 1` are at most `3 / 2` bits for every `k` of them. -/
theorem succ_pow_le {k : Nat} (hk : 1 ≤ k) (n : Nat) :
    (k + 1) ^ n ≤ 2 ^ (3 * n / (2 * k) + 1) * k ^ n := by
  have hpos : (0 : ℝ) < k := by exact_mod_cast hk
  have hlog : (2 / 3 : ℝ) ≤ Real.log 2 := by
    have := Real.log_two_gt_d9
    linarith
  have hfloor : (3 * n : ℝ) ≤ 2 * k * ((3 * n / (2 * k) + 1 : ℕ) : ℝ) := by
    have hlt := Nat.lt_mul_div_succ (3 * n) (show 0 < 2 * k by omega)
    exact_mod_cast hlt.le
  have hexp : (n : ℝ) / k ≤ (3 * n / (2 * k) + 1 : ℕ) * Real.log 2 := by
    rw [div_le_iff₀ hpos]
    nlinarith
  have hone : (1 + 1 / k : ℝ) ^ n ≤ 2 ^ (3 * n / (2 * k) + 1) := by
    calc (1 + 1 / k : ℝ) ^ n ≤ Real.exp (1 / k) ^ n := by
          gcongr
          rw [add_comm]
          exact Real.add_one_le_exp _
      _ = Real.exp (n / k) := by rw [← Real.exp_nat_mul, mul_one_div]
      _ ≤ Real.exp ((3 * n / (2 * k) + 1 : ℕ) * Real.log 2) := Real.exp_le_exp.mpr hexp
      _ = 2 ^ (3 * n / (2 * k) + 1) := by rw [Real.exp_nat_mul, Real.exp_log two_pos]
  have hreal : ((k + 1 : ℕ) : ℝ) ^ n ≤ ((2 ^ (3 * n / (2 * k) + 1) * k ^ n : ℕ) : ℝ) := by
    have hfactor : ((k + 1 : ℕ) : ℝ) = (1 + 1 / k) * k := by
      push_cast
      field_simp
    rw [hfactor, mul_pow]
    push_cast
    gcongr
  exact_mod_cast hreal

end Counts
