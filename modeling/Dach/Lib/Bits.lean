/-
Module: Dach.Lib.Bits
Layer: Lib
Purpose: Bit streams read most significant bit first, their prefixes as integers and integers as
  bits, and streams cut into words of a fixed width.
Imports: Mathlib
Trusted boundary: none
Main exports: Bits.prefixVal, Bits.prefixVal_add, Bits.ofWords, Bits.prefixVal_ofWords, Bits.pack,
  Bits.pack_inj, Bits.prefixVal_ofWords_take, Bits.digits, Bits.digits_add
-/
import Mathlib

namespace Bits

/-- The integer formed by the first `k` bits of a stream. -/
def prefixVal (s : Nat → Bool) : Nat → Nat
  | 0 => 0
  | k + 1 => 2 * prefixVal s k + (s k).toNat

theorem prefixVal_lt (s : Nat → Bool) (k : Nat) : prefixVal s k < 2 ^ k := by
  induction k with
  | zero => simp [prefixVal]
  | succ k ih =>
      have hbit := Bool.toNat_le (s k)
      rw [prefixVal, pow_succ]
      omega

/-- The value of a prefix and the value of what follows it, put together. -/
theorem prefixVal_add (s : Nat → Bool) (k j : Nat) :
    prefixVal s (k + j) = prefixVal s k * 2 ^ j + prefixVal (fun i => s (k + i)) j := by
  induction j with
  | zero => simp [prefixVal]
  | succ j ih =>
      rw [← Nat.add_assoc, prefixVal, ih, prefixVal, pow_succ]
      ring

/-- Dropping the last bits of a prefix leaves the shorter prefix. -/
theorem prefixVal_add_div (s : Nat → Bool) (k j : Nat) :
    prefixVal s (k + j) / 2 ^ j = prefixVal s k := by
  rw [prefixVal_add, Nat.add_comm, Nat.add_mul_div_right _ _ (Nat.two_pow_pos j),
    Nat.div_eq_of_lt (prefixVal_lt _ j), Nat.zero_add]

theorem prefixVal_succ_div_two (s : Nat → Bool) (k : Nat) :
    prefixVal s (k + 1) / 2 = prefixVal s k := by
  simpa using prefixVal_add_div s k 1

theorem prefixVal_congr {s t : Nat → Bool} {k : Nat} (h : ∀ i < k, s i = t i) :
    prefixVal s k = prefixVal t k := by
  induction k with
  | zero => rfl
  | succ k ih =>
      rw [prefixVal, prefixVal, ih fun i hi => h i (Nat.lt_succ_of_lt hi), h k (Nat.lt_succ_self k)]

/-- A stream that ends in zeros, beside one that agrees with it in front of them. -/
theorem prefixVal_zeros {s t : Nat → Bool} {k : Nat} (h : ∀ i < k, s i = t i)
    (hzero : ∀ i, k ≤ i → t i = false) (j : Nat) :
    prefixVal t (k + j) = prefixVal s (k + j) / 2 ^ j * 2 ^ j := by
  have htail : ∀ j, prefixVal (fun i => t (k + i)) j = 0 := by
    intro j
    induction j with
    | zero => rfl
    | succ j ih => rw [prefixVal, ih, hzero _ (Nat.le_add_right _ _)]; rfl
  rw [prefixVal_add_div, prefixVal_add, htail, Nat.add_zero, prefixVal_congr h]

/-- Clearing low bits, beside a number that has none of them. -/
theorem shiftRight_shiftLeft_add {e base s : Nat} (h : 2 ^ s ∣ base) :
    e >>> s <<< s + base = (e + base) / 2 ^ s * 2 ^ s := by
  rcases h with ⟨c, rfl⟩
  rw [Nat.shiftRight_eq_div_pow, Nat.shiftLeft_eq, Nat.add_mul_div_left _ _ (Nat.two_pow_pos s),
    Nat.add_mul, Nat.mul_comm c]

/-! ### Streams of words -/

/-- The bits of a sequence of words of width `w`, most significant first. -/
def ofWords (w : Nat) (word : Nat → Nat) (j : Nat) : Bool :=
  (word (j / w)).testBit (w - 1 - j % w)

/-- The first `r` bits of one word. -/
theorem prefixVal_testBit {w x : Nat} (hx : x < 2 ^ w) :
    ∀ {r : Nat}, r ≤ w → prefixVal (fun i => x.testBit (w - 1 - i)) r = x / 2 ^ (w - r)
  | 0, _ => by simp [prefixVal, Nat.div_eq_of_lt hx]
  | r + 1, hr => by
      have hsucc : w - r = (w - (r + 1)) + 1 := by omega
      have hbit : (x.testBit (w - 1 - r)).toNat = x / 2 ^ (w - (r + 1)) % 2 := by
        rw [Nat.toNat_testBit, show w - 1 - r = w - (r + 1) by omega]
      have hhalf : x / 2 ^ (w - r) = x / 2 ^ (w - (r + 1)) / 2 := by
        rw [hsucc, pow_succ, Nat.div_div_eq_div_mul]
      rw [prefixVal, prefixVal_testBit hx (Nat.le_of_succ_le hr), hbit, hhalf]
      omega

/-- A prefix that ends `r` bits into word `m`. -/
theorem prefixVal_ofWords {w : Nat} (word : Nat → Nat) (m : Nat) (hword : word m < 2 ^ w) {r : Nat}
    (hr : r ≤ w) :
    prefixVal (ofWords w word) (w * m + r) =
      prefixVal (ofWords w word) (w * m) * 2 ^ r + word m / 2 ^ (w - r) := by
  rw [prefixVal_add]
  congr 1
  rw [← prefixVal_testBit hword hr]
  refine prefixVal_congr fun i hi => ?_
  have hlt : i < w := Nat.lt_of_lt_of_le hi hr
  simp only [ofWords]
  rw [Nat.mul_add_div (by omega), Nat.div_eq_of_lt hlt, Nat.mul_add_mod, Nat.mod_eq_of_lt hlt,
    Nat.add_zero]

/-- The integer whose digits in base `2 ^ w` are the words. -/
def pack (w : Nat) (words : List Nat) : Nat :=
  words.foldl (fun acc x => acc * 2 ^ w + x) 0

@[simp] theorem pack_nil (w : Nat) : pack w [] = 0 := rfl

@[simp] theorem pack_append_singleton (w : Nat) (words : List Nat) (x : Nat) :
    pack w (words ++ [x]) = pack w words * 2 ^ w + x := by
  simp [pack, List.foldl_append]

/-- The number of a sequence determines its words. -/
theorem pack_inj {w : Nat} {xs ys : List Nat} (hx : ∀ x ∈ xs, x < 2 ^ w) (hy : ∀ y ∈ ys, y < 2 ^ w)
    (hlen : xs.length = ys.length) (h : pack w xs = pack w ys) : xs = ys := by
  induction xs using List.reverseRecOn generalizing ys with
  | nil => exact (List.length_eq_zero_iff.mp hlen.symm).symm
  | append_singleton xs x ih =>
      rcases List.eq_nil_or_concat ys with rfl | ⟨ys, y, rfl⟩
      · simp at hlen
      · rw [List.concat_eq_append] at hy hlen h ⊢
        rw [pack_append_singleton, pack_append_singleton] at h
        have hxlt : x < 2 ^ w := hx x (by simp)
        have hylt : y < 2 ^ w := hy y (by simp)
        have hdiv := congrArg (· / 2 ^ w) h
        have hmod := congrArg (· % 2 ^ w) h
        simp only [Nat.mul_comm _ (2 ^ w), Nat.mul_add_mod,
          Nat.mul_add_div (Nat.two_pow_pos w), Nat.mod_eq_of_lt hxlt, Nat.mod_eq_of_lt hylt,
          Nat.div_eq_of_lt hxlt, Nat.div_eq_of_lt hylt, Nat.add_zero] at hdiv hmod
        rw [ih (fun z hz => hx z (by simp [hz])) (fun z hz => hy z (by simp [hz]))
          (by simpa using hlen) hdiv, hmod]

/-- The whole words of a finite sequence, whatever the stream holds after them. -/
theorem prefixVal_ofWords_take {w : Nat} {word : Nat → Nat} {words : List Nat}
    (hbound : ∀ x ∈ words, x < 2 ^ w) (hword : ∀ m < words.length, word m = words.getD m 0) :
    prefixVal (ofWords w word) (w * words.length) = pack w words := by
  induction words using List.reverseRecOn with
  | nil => simp [prefixVal]
  | append_singleton words x ih =>
      have hx : word words.length = x := by
        rw [hword _ (by simp)]
        simp
      have hxlt : x < 2 ^ w := hbound x (by simp)
      have hinit : ∀ m < words.length, word m = words.getD m 0 := by
        intro m hm
        rw [hword m (by simp; omega), List.getD_eq_getElem?_getD, List.getD_eq_getElem?_getD,
          List.getElem?_append_left hm]
      have hlast := prefixVal_ofWords word words.length (by rw [hx]; exact hxlt)
        (Nat.le_refl w)
      rw [ih (fun y hy => hbound y (by simp [hy])) hinit, hx] at hlast
      rw [pack_append_singleton, List.length_append, List.length_singleton, Nat.mul_add, Nat.mul_one,
        hlast]
      simp

/-! ### Digits -/

/-- The `k` low bits of an integer, most significant first. -/
def digits : Nat → Nat → List Bool
  | 0, _ => []
  | k + 1, v => digits k (v / 2) ++ [decide (v % 2 = 1)]

@[simp] theorem length_digits (k v : Nat) : (digits k v).length = k := by
  induction k generalizing v with
  | zero => rfl
  | succ k ih => rw [digits, List.length_append, ih, List.length_singleton]

/-- The bits of two numbers, one behind the other. -/
theorem digits_add (k a : Nat) : ∀ {j b : Nat}, b < 2 ^ j →
    digits (k + j) (a * 2 ^ j + b) = digits k a ++ digits j b
  | 0, b, hb => by
      obtain rfl : b = 0 := by simpa using hb
      simp [digits]
  | j + 1, b, hb => by
      have hhalf : (a * 2 ^ (j + 1) + b) / 2 = a * 2 ^ j + b / 2 := by
        rw [pow_succ, ← Nat.mul_assoc]
        omega
      have hlast : (a * 2 ^ (j + 1) + b) % 2 = b % 2 := by
        rw [pow_succ, ← Nat.mul_assoc]
        omega
      rw [← Nat.add_assoc, digits, hhalf, hlast, digits_add k a (by rw [pow_succ] at hb; omega), digits,
        List.append_assoc]

theorem digits_zero (k : Nat) : digits k 0 = List.replicate k false := by
  induction k with
  | zero => rfl
  | succ k ih => simp [digits, ih, List.replicate_succ']

/-- A prefix of a stream, as bits. -/
theorem digits_prefixVal (s : Nat → Bool) (k : Nat) :
    digits k (prefixVal s k) = (List.range k).map s := by
  induction k with
  | zero => rfl
  | succ k ih =>
      have hbit := Bool.toNat_le (s k)
      have hhalf : (2 * prefixVal s k + (s k).toNat) / 2 = prefixVal s k := by omega
      have hlast : decide ((2 * prefixVal s k + (s k).toNat) % 2 = 1) = s k := by
        rw [Nat.mul_add_mod]
        cases s k <;> rfl
      rw [prefixVal, digits, hhalf, hlast, ih, List.range_succ, List.map_append]
      rfl

end Bits
