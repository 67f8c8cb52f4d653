/-
Module: Dach.Lib.IntervalCoder
Layer: Lib
Purpose: Arithmetic coding over an integer window of length `4 * q`. A frame is an interval of the
  window together with the window's place on the number line, so that a frame always stands for one
  interval of exact numbers; renormalisation changes the frame and not that interval. A code value is
  decoded by the slice whose part of the interval holds it.
Imports: Dach.Lib.Loop
Trusted boundary: none
Main exports: IntervalCoder.Slice, Frame, Frame.shift?, Frame.narrow, Frame.Normal, renorm_exists,
  renorm_spec, Frame.target, le_target_iff, CodeValue, CodeValue.Within, within_renorm_iff,
  CodeValue.Above, Encodes, Codes, Codes.within,
  Codes.deterministic
-/
import Dach.Lib.Loop

namespace IntervalCoder

/-- The part of a total `scale` that belongs to one symbol. -/
@[ext] structure Slice where
  lo : Nat
  hi : Nat
  scale : Nat
  lt : lo < hi
  le : hi ≤ scale

theorem Slice.scale_pos (s : Slice) : 0 < s.scale :=
  Nat.lt_of_lt_of_le (Nat.zero_lt_of_lt s.lt) s.le

/-- An interval `[low, high]` of the window, and the window's origin `base` in units of the window's
    resolution after `shifts` doublings. -/
@[ext] structure Frame where
  low : Nat
  high : Nat
  base : Nat
  shifts : Nat

namespace Frame

/-- The number of values in the interval. -/
def range (f : Frame) : Nat := f.high - f.low + 1

/-- The lower end of the exact interval. -/
def lower (f : Frame) : Nat := f.base + f.low

/-- The upper end of the exact interval, which does not belong to it. -/
def upper (f : Frame) : Nat := f.base + f.high + 1

/-- The whole window. -/
def start (q : Nat) : Frame := { low := 0, high := 4 * q - 1, base := 0, shifts := 0 }

/-- The interval lies in the window and has at least two values. -/
def Valid (q : Nat) (f : Frame) : Prop := f.low < f.high ∧ f.high < 4 * q

/-- The interval lies in no half of the window and not in its middle half. -/
def Normal (q : Nat) (f : Frame) : Prop :=
  f.low < 2 * q ∧ 2 * q ≤ f.high ∧ f.high < 4 * q ∧ (f.low < q ∨ 3 * q ≤ f.high)

theorem Normal.valid {q : Nat} {f : Frame} (h : f.Normal q) : f.Valid q :=
  ⟨Nat.lt_of_lt_of_le h.1 h.2.1, h.2.2.1⟩

/-- A normal interval is longer than a quarter of the window. -/
theorem Normal.range_ge {q : Nat} {f : Frame} (h : f.Normal q) : q + 2 ≤ f.range := by
  obtain ⟨hlow, hhigh, _, hquarter⟩ := h
  unfold range
  omega

theorem start_normal {q : Nat} (hq : 0 < q) : (start q).Normal q := by
  simp only [Normal, start]
  omega

end Frame

/-! ### Renormalisation -/

/-- The start of the half window that holds `[low, high]`, among those that start at a multiple of
    `q`. -/
def halfOffset (q low high : Nat) : Option Nat :=
  if high < 2 * q then some 0
  else if 2 * q ≤ low then some (2 * q)
  else if q ≤ low ∧ high < 3 * q then some q
  else none

theorem halfOffset_eq_some {q low high off : Nat} (h : halfOffset q low high = some off)
    (hbound : high < 4 * q) : off ≤ low ∧ high < off + 2 * q := by
  unfold halfOffset at h
  split at h
  · cases h
    omega
  · split at h
    · cases h
      omega
    · split at h
      · cases h
        omega
      · cases h

namespace Frame

/-- Double the half window that starts at `off`. -/
def shiftBy (f : Frame) (off : Nat) : Frame :=
  { low := 2 * (f.low - off), high := 2 * (f.high - off) + 1, base := 2 * (f.base + off),
    shifts := f.shifts + 1 }

/-- One renormalisation shift, if a half window holds the interval. -/
def shift? (q : Nat) (f : Frame) : Option Frame :=
  (halfOffset q f.low f.high).map f.shiftBy

theorem normal_of_shift?_eq_none {q : Nat} {f : Frame} (h : f.shift? q = none)
    (hf : f.Valid q) : f.Normal q := by
  simp only [shift?, Option.map_eq_none_iff, halfOffset] at h
  obtain ⟨hlt, hbound⟩ := hf
  unfold Normal
  split at h
  · cases h
  · split at h
    · cases h
    · split at h
      · cases h
      · omega

/-- What one shift does: the frame stays valid, its range doubles, and its exact interval is the old
    one at twice the resolution. -/
theorem shift?_spec {q : Nat} {f g : Frame} (h : f.shift? q = some g) (hf : f.Valid q) :
    g.Valid q ∧ g.range = 2 * f.range ∧ g.shifts = f.shifts + 1 ∧
      g.lower = 2 * f.lower ∧ g.upper = 2 * f.upper := by
  obtain ⟨off, hoff, rfl⟩ := Option.map_eq_some_iff.mp h
  obtain ⟨hlow, hhigh⟩ := halfOffset_eq_some hoff hf.2
  obtain ⟨hlt, hbound⟩ := hf
  simp only [Valid, range, lower, upper, shiftBy]
  refine ⟨⟨?_, ?_⟩, ?_, trivial, ?_, ?_⟩ <;> omega

end Frame

/-- Renormalisation ends in a normal frame. -/
theorem renorm_exists {q : Nat} {f : Frame} (hf : f.Valid q) :
    ∃ k g, Loop.HaltsIn (Frame.shift? q) k f g := by
  refine Loop.HaltsIn.exists_of_measure (I := Frame.Valid q) (m := Frame.range) (4 * q) ?_ ?_ f hf
  · intro a b h ha
    obtain ⟨hb, hrange, _⟩ := Frame.shift?_spec h ha
    refine ⟨hb, ?_⟩
    rw [hrange]
    unfold Frame.range
    omega
  · intro a ha
    obtain ⟨hlt, hbound⟩ := ha
    unfold Frame.range
    omega

/-- What a whole renormalisation does. -/
theorem renorm_spec {q k : Nat} {f g : Frame} (run : Loop.HaltsIn (Frame.shift? q) k f g)
    (hf : f.Valid q) :
    g.Normal q ∧ g.range = 2 ^ k * f.range ∧ g.shifts = f.shifts + k ∧
      g.lower = 2 ^ k * f.lower ∧ g.upper = 2 ^ k * f.upper := by
  induction run with
  | halt h => exact ⟨Frame.normal_of_shift?_eq_none h hf, by simp⟩
  | next h _ ih =>
      obtain ⟨hb, hrange, hshifts, hlower, hupper⟩ := Frame.shift?_spec h hf
      obtain ⟨hc, hrange', hshifts', hlower', hupper'⟩ := ih hb
      refine ⟨hc, ?_, by omega, ?_, ?_⟩
      · rw [hrange', hrange, pow_succ, Nat.mul_assoc]
      · rw [hlower', hlower, pow_succ, Nat.mul_assoc]
      · rw [hupper', hupper, pow_succ, Nat.mul_assoc]

/-- In a window of length `2 ^ (m + 1)` a renormalisation makes at most `m` shifts. -/
theorem renorm_shifts_le {q k m : Nat} {f g : Frame} (run : Loop.HaltsIn (Frame.shift? q) k f g)
    (hf : f.Valid q) (hq : 4 * q ≤ 2 ^ (m + 1)) : k ≤ m := by
  obtain ⟨hg, hrange, _⟩ := renorm_spec run hf
  have hwide : 2 ≤ f.range := by
    have := hf.1
    unfold Frame.range
    omega
  have hfits : g.range ≤ 4 * q := by
    have := hg.valid.2
    unfold Frame.range
    omega
  have hpow : 2 ^ (k + 1) ≤ 2 ^ (m + 1) := by
    calc 2 ^ (k + 1) = 2 ^ k * 2 := pow_succ 2 k
      _ ≤ 2 ^ k * f.range := Nat.mul_le_mul_left _ hwide
      _ ≤ 2 ^ (m + 1) := by omega
  have := (Nat.pow_le_pow_iff_right (by omega : 1 < 2)).mp hpow
  omega

/-! ### Narrowing -/

namespace Frame

/-- The part of the interval that a slice takes, its ends rounded down. -/
def narrow (f : Frame) (s : Slice) : Frame :=
  { f with
    low := f.low + f.range * s.lo / s.scale
    high := f.low + f.range * s.hi / s.scale - 1 }

/-- A slice of a range at least twice its scale takes at least two values. -/
theorem narrow_width {f : Frame} {s : Slice} (hscale : 2 * s.scale ≤ f.range) :
    f.range * s.lo / s.scale + 2 ≤ f.range * s.hi / s.scale := by
  have hpos := s.scale_pos
  rw [← Nat.add_mul_div_left _ _ hpos]
  apply Nat.div_le_div_right
  have hstep : f.range * s.lo + f.range ≤ f.range * s.hi := by
    rw [← Nat.mul_succ]
    exact Nat.mul_le_mul_left _ s.lt
  omega

theorem narrow_top_le (f : Frame) (s : Slice) : f.range * s.hi / s.scale ≤ f.range :=
  Nat.div_le_of_le_mul (by rw [Nat.mul_comm s.scale]; exact Nat.mul_le_mul_left _ s.le)

theorem narrow_valid {q : Nat} {f : Frame} {s : Slice} (hf : f.Valid q)
    (hscale : 2 * s.scale ≤ f.range) : (f.narrow s).Valid q := by
  have hwidth := narrow_width hscale
  have htop := narrow_top_le f s
  obtain ⟨hlt, hbound⟩ := hf
  unfold range at hwidth htop
  simp only [Valid, narrow, range]
  omega

theorem narrow_valid_of_normal {q : Nat} {f : Frame} {s : Slice} (hf : f.Normal q)
    (hscale : 2 * s.scale ≤ q + 2) : (f.narrow s).Valid q :=
  narrow_valid hf.valid (Nat.le_trans hscale hf.range_ge)

/-- Where a value of the interval lies on the scale of a slice. -/
def target (f : Frame) (v scale : Nat) : Nat :=
  ((v - f.low + 1) * scale - 1) / f.range

end Frame

/-- The two rounding directions agree: the scaled value reaches a count exactly when the value reaches
    the rounded end of that count. -/
theorem le_target_iff {f : Frame} {v scale : Nat} (hv : f.low ≤ v) (hscale : 0 < scale) (c : Nat) :
    c ≤ f.target v scale ↔ f.low + f.range * c / scale ≤ v := by
  have hrange : 0 < f.range := Nat.succ_pos _
  unfold Frame.target
  rw [Nat.le_div_iff_mul_le hrange]
  have hpos : 0 < (v - f.low + 1) * scale := Nat.mul_pos (Nat.succ_pos _) hscale
  constructor
  · intro h
    have hlt : f.range * c / scale < v - f.low + 1 := by
      rw [Nat.div_lt_iff_lt_mul hscale, Nat.mul_comm f.range]
      omega
    omega
  · intro h
    have hlt : f.range * c / scale < v - f.low + 1 := by omega
    rw [Nat.div_lt_iff_lt_mul hscale, Nat.mul_comm f.range] at hlt
    omega

theorem target_lt {f : Frame} {v scale : Nat} (hv : v ≤ f.high) (hscale : 0 < scale) :
    f.target v scale < scale := by
  have hrange : 0 < f.range := Nat.succ_pos _
  unfold Frame.target
  rw [Nat.div_lt_iff_lt_mul hrange]
  have hle : (v - f.low + 1) * scale ≤ scale * f.range := by
    rw [Nat.mul_comm]
    apply Nat.mul_le_mul_left
    unfold Frame.range
    omega
  have hpos : 0 < (v - f.low + 1) * scale := Nat.mul_pos (Nat.succ_pos _) hscale
  omega

/-! ### Code values -/

/-- A number given by its prefixes: `value k` is its window-sized prefix after `k` doublings. -/
structure CodeValue where
  value : Nat → Nat
  half : ∀ k, value (k + 1) / 2 = value k

/-- The prefix of the code value at the resolution of the frame lies in the frame's interval. -/
def CodeValue.Within (d : CodeValue) (f : Frame) : Prop :=
  f.lower ≤ d.value f.shifts ∧ d.value f.shifts < f.upper

theorem within_shift_iff {d : CodeValue} {q : Nat} {f g : Frame} (h : f.shift? q = some g)
    (hf : f.Valid q) : d.Within g ↔ d.Within f := by
  obtain ⟨_, _, hshifts, hlower, hupper⟩ := Frame.shift?_spec h hf
  have hhalf := d.half f.shifts
  unfold CodeValue.Within
  rw [hshifts, hlower, hupper]
  omega

/-- Renormalisation does not change which code values a frame holds. -/
theorem within_renorm_iff {d : CodeValue} {q k : Nat} {f g : Frame}
    (run : Loop.HaltsIn (Frame.shift? q) k f g) (hf : f.Valid q) : d.Within g ↔ d.Within f := by
  induction run with
  | halt _ => exact Iff.rfl
  | next h _ ih => exact (ih (Frame.shift?_spec h hf).1).trans (within_shift_iff h hf)

/-- The prefix of the code value is not below the frame's interval. -/
def CodeValue.Above (d : CodeValue) (f : Frame) : Prop :=
  f.lower ≤ d.value f.shifts

/-- Renormalisation does not change which code values are below a frame. -/
theorem above_renorm_iff {d : CodeValue} {q k : Nat} {f g : Frame}
    (run : Loop.HaltsIn (Frame.shift? q) k f g) (hf : f.Valid q) : d.Above g ↔ d.Above f := by
  induction run with
  | halt _ => exact Iff.rfl
  | @next a b _ _ h _ ih =>
      obtain ⟨hb, _, hshifts, hlower, _⟩ := Frame.shift?_spec h hf
      refine (ih hb).trans ?_
      have hhalf := d.half a.shifts
      unfold CodeValue.Above
      rw [hshifts, hlower]
      omega

/-- Narrowing keeps only code values the frame had. -/
theorem within_of_narrow {d : CodeValue} {f : Frame} {s : Slice} (hlt : f.low < f.high)
    (h : d.Within (f.narrow s)) : d.Within f := by
  have htop := Frame.narrow_top_le f s
  obtain ⟨hlo, hhi⟩ := h
  simp only [Frame.lower, Frame.upper, Frame.narrow] at hlo hhi
  simp only [CodeValue.Within, Frame.lower, Frame.upper]
  generalize f.range * s.hi / s.scale = top at htop hhi
  generalize f.range * s.lo / s.scale = bottom at hlo
  unfold Frame.range at htop
  omega

/-- The code values of a slice, seen from the window. -/
theorem within_narrow_iff {d : CodeValue} {f : Frame} {s : Slice} {v : Nat}
    (hwidth : f.range * s.lo / s.scale < f.range * s.hi / s.scale) (hv : v + f.base = d.value f.shifts) :
    d.Within (f.narrow s) ↔
      f.low + f.range * s.lo / s.scale ≤ v ∧ v < f.low + f.range * s.hi / s.scale := by
  simp only [CodeValue.Within, Frame.lower, Frame.upper, Frame.narrow]
  generalize f.range * s.hi / s.scale = top at hwidth ⊢
  generalize f.range * s.lo / s.scale = bottom at hwidth ⊢
  omega

/-- Every offset is a quarter of the window or half of it, so doubling keeps the base a multiple of half
    the window. -/
theorem base_dvd_of_shift? {q : Nat} {f g : Frame} (h : f.shift? q = some g) (hf : 2 * q ∣ f.base) :
    2 * q ∣ g.base := by
  obtain ⟨off, hoff, rfl⟩ := Option.map_eq_some_iff.mp h
  have hdvd : 2 * q ∣ 2 * off := by
    unfold halfOffset at hoff
    split at hoff
    · cases hoff
      exact Nat.dvd_zero _
    · split at hoff
      · cases hoff
        exact Nat.dvd_mul_left _ _
      · split at hoff
        · cases hoff
          exact Nat.dvd_refl _
        · cases hoff
  show 2 * q ∣ 2 * (f.base + off)
  rw [Nat.mul_add]
  exact Nat.dvd_add (hf.trans (Nat.dvd_mul_left _ _)) hdvd

/-! ### Coding a sequence -/

/-- Coding one slice: narrow to it, then renormalise. -/
def Encodes (q : Nat) (f : Frame) (s : Slice) (g : Frame) : Prop :=
  ∃ k, Loop.HaltsIn (Frame.shift? q) k (f.narrow s) g

theorem Encodes.normal {q : Nat} {f g : Frame} {s : Slice} (h : Encodes q f s g)
    (hf : f.Normal q) (fits : 2 * s.scale ≤ q + 2) : g.Normal q := by
  obtain ⟨_, run⟩ := h
  exact (renorm_spec run (Frame.narrow_valid_of_normal hf fits)).1

/-- The code values of the coded frame are those of the slice. -/
theorem Encodes.within_iff {d : CodeValue} {q : Nat} {f g : Frame} {s : Slice}
    (h : Encodes q f s g) (hf : f.Normal q) (fits : 2 * s.scale ≤ q + 2) :
    d.Within g ↔ d.Within (f.narrow s) := by
  obtain ⟨_, run⟩ := h
  exact within_renorm_iff run (Frame.narrow_valid_of_normal hf fits)

/-- The code values not below the coded frame are those not below the slice. -/
theorem Encodes.above_iff {d : CodeValue} {q : Nat} {f g : Frame} {s : Slice}
    (h : Encodes q f s g) (hf : f.Normal q) (fits : 2 * s.scale ≤ q + 2) :
    d.Above g ↔ d.Above (f.narrow s) := by
  obtain ⟨_, run⟩ := h
  exact above_renorm_iff run (Frame.narrow_valid_of_normal hf fits)

theorem Encodes.base_dvd {q : Nat} {f g : Frame} {s : Slice} (h : Encodes q f s g)
    (hf : 2 * q ∣ f.base) : 2 * q ∣ g.base := by
  obtain ⟨_, run⟩ := h
  exact run.invariant (I := fun f => 2 * q ∣ f.base) (fun _ _ => base_dvd_of_shift?) hf

theorem Encodes.deterministic {q : Nat} {f g h : Frame} {s : Slice} (one : Encodes q f s g)
    (two : Encodes q f s h) : g = h := by
  obtain ⟨_, run⟩ := one
  obtain ⟨_, run'⟩ := two
  exact (run.deterministic run').2

/-- Coding a slice makes at most `m` shifts in a window of length `2 ^ (m + 1)`. -/
theorem Encodes.shifts_le {q m : Nat} {f g : Frame} {s : Slice} (h : Encodes q f s g)
    (hf : f.Normal q) (fits : 2 * s.scale ≤ q + 2) (hq : 4 * q ≤ 2 ^ (m + 1)) :
    f.shifts ≤ g.shifts ∧ g.shifts ≤ f.shifts + m := by
  obtain ⟨k, run⟩ := h
  have hvalid := Frame.narrow_valid_of_normal hf fits
  have hk := renorm_shifts_le run hvalid hq
  obtain ⟨_, _, hshifts, _⟩ := renorm_spec run hvalid
  have hkeep : (f.narrow s).shifts = f.shifts := rfl
  omega

/-- Coding a sequence of letters under an adaptive model: `M s a sl t` says that the letter `a` has
    the slice `sl` in the state `s` and leads to the state `t`. Each slice is on at most half the scale
    a normal range allows. -/
inductive Codes {σ α : Type} (q : Nat) (M : σ → α → Slice → σ → Prop) :
    σ → Frame → List α → σ → Frame → Prop where
  | nil (s : σ) (f : Frame) : Codes q M s f [] s f
  | cons {s t u : σ} {f g h : Frame} {a : α} {as : List α} {sl : Slice} (letter : M s a sl t)
      (fits : 2 * sl.scale ≤ q + 2) (head : Encodes q f sl g) (tail : Codes q M t g as u h) :
      Codes q M s f (a :: as) u h

namespace Codes

variable {σ α : Type} {q : Nat} {M : σ → α → Slice → σ → Prop} {s t u : σ} {f g h : Frame}
  {as : List α}

theorem normal (run : Codes q M s f as t g) (hf : f.Normal q) : g.Normal q := by
  induction run with
  | nil => exact hf
  | cons _ fits head _ ih => exact ih (head.normal hf fits)

/-- Under a functional model the letters determine the frame. -/
theorem deterministic
    (hM : ∀ {s a sl t sl' t'}, M s a sl t → M s a sl' t' → sl = sl' ∧ t = t')
    (one : Codes q M s f as t g) (two : Codes q M s f as u h) : t = u ∧ g = h := by
  induction one with
  | nil =>
      cases two
      exact ⟨rfl, rfl⟩
  | cons letter _ head _ ih =>
      cases two with
      | cons letter' _ head' tail' =>
          obtain ⟨rfl, rfl⟩ := hM letter letter'
          obtain rfl := head.deterministic head'
          exact ih tail'

/-- A code value of the final frame is one of every frame on the way. -/
theorem within (run : Codes q M s f as t g) (hf : f.Normal q) {d : CodeValue} (hd : d.Within g) :
    d.Within f := by
  induction run with
  | nil => exact hd
  | cons _ fits head _ ih =>
      have hmid := ih (head.normal hf fits) hd
      exact within_of_narrow hf.valid.1 ((head.within_iff hf fits).mp hmid)

theorem shifts_le {m : Nat} (run : Codes q M s f as t g) (hf : f.Normal q)
    (hq : 4 * q ≤ 2 ^ (m + 1)) : f.shifts ≤ g.shifts ∧ g.shifts ≤ f.shifts + m * as.length := by
  induction run with
  | nil => simp
  | cons _ fits head _ ih =>
      obtain ⟨hmono, hbound⟩ := head.shifts_le hf fits hq
      obtain ⟨hmono', hbound'⟩ := ih (head.normal hf fits)
      rw [List.length_cons, Nat.mul_succ]
      omega

end Codes

/-! ### Ending a code -/

/-- The middle of the window belongs to every normal interval. -/
theorem within_of_middle {q : Nat} {f : Frame} (hf : f.Normal q) {d : CodeValue}
    (hd : d.value f.shifts = f.base + 2 * q) : d.Within f := by
  obtain ⟨hlow, hhigh, _⟩ := hf
  unfold CodeValue.Within Frame.lower Frame.upper
  omega

end IntervalCoder
