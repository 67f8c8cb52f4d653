/-
Module: Dach.Lib.CodeLength
Layer: Lib
Purpose: How many doublings arithmetic coding over an integer window makes. A slice whose scale fits
  `m` times into the range keeps at least `(m - 1) / m` and at most `(m + 1) / m` of its exact share, so a
  code is at most `log2 (m / (m - 1))` bits per letter longer than the exact one, and at most
  `log2 ((m + 1) / m)` shorter. For an adaptive model the exact
  length is carried by two potentials, the products of the slice widths and of the scales so far.
Imports: Dach.Lib.IntervalCoder
Trusted boundary: none
Main exports: IntervalCoder.Frame.narrow_share, IntervalCoder.Encodes.cost,
  IntervalCoder.Counting, IntervalCoder.Codes.cost, IntervalCoder.Codes.cost_ge
-/
import Dach.Lib.IntervalCoder

namespace IntervalCoder

/-- The number of counts in a slice. -/
def Slice.width (s : Slice) : Nat := s.hi - s.lo

theorem Slice.width_pos (s : Slice) : 0 < s.width := Nat.sub_pos_of_lt s.lt

/-- The range of a slice is what lies between its two ends. -/
theorem Frame.narrow_range {f : Frame} {s : Slice} (hfits : 2 * s.scale ≤ f.range) :
    (f.narrow s).range = f.range * s.hi / s.scale - f.range * s.lo / s.scale := by
  have hwidth := narrow_width (f := f) (s := s) hfits
  simp only [Frame.range, Frame.narrow] at hwidth ⊢
  omega

/-- Rounding costs a slice at most one part in `m` of its share of the range. -/
theorem Frame.narrow_share {f : Frame} {s : Slice} {m : Nat} (hm : 2 ≤ m)
    (hfits : m * s.scale ≤ f.range) :
    (m - 1) * (f.range * s.width) ≤ m * (s.scale * (f.narrow s).range) := by
  have hpos := s.scale_pos
  have hrange := Frame.narrow_range (Nat.le_trans (Nat.mul_le_mul_right _ hm) hfits)
  -- the upper end is rounded down by less than one value, the lower end only helps
  have htop : f.range * s.hi < s.scale * (f.range * s.hi / s.scale) + s.scale :=
    Nat.lt_mul_div_succ _ hpos
  have hbottom : s.scale * (f.range * s.lo / s.scale) ≤ f.range * s.lo := Nat.mul_div_le _ _
  have hshare : f.range * s.width ≤ s.scale * (f.narrow s).range + s.scale := by
    rw [hrange, Slice.width, Nat.mul_sub, Nat.mul_sub]
    omega
  obtain ⟨l, rfl⟩ : ∃ l, m = l + 1 := ⟨m - 1, by omega⟩
  rw [Nat.add_sub_cancel]
  have hone : f.range ≤ f.range * s.width := Nat.le_mul_of_pos_right _ s.width_pos
  have hscaled := Nat.mul_le_mul_left (l + 1) hshare
  rw [Nat.mul_add, Nat.succ_mul l (f.range * s.width)] at hscaled
  omega

/-- Rounding gives a slice at most one part in `m` more than its share of the range. -/
theorem Frame.narrow_share_ge {f : Frame} {s : Slice} {m : Nat} (hm : 2 ≤ m)
    (hfits : m * s.scale ≤ f.range) :
    m * (s.scale * (f.narrow s).range) ≤ (m + 1) * (f.range * s.width) := by
  have hpos := s.scale_pos
  have hrange := Frame.narrow_range (Nat.le_trans (Nat.mul_le_mul_right _ hm) hfits)
  -- the lower end is rounded down by less than one value, the upper end only helps
  have hbottom : f.range * s.lo < s.scale * (f.range * s.lo / s.scale) + s.scale :=
    Nat.lt_mul_div_succ _ hpos
  have htop : s.scale * (f.range * s.hi / s.scale) ≤ f.range * s.hi := Nat.mul_div_le _ _
  have hshare : s.scale * (f.narrow s).range ≤ f.range * s.width + s.scale := by
    rw [hrange, Slice.width, Nat.mul_sub, Nat.mul_sub]
    omega
  have hone : f.range ≤ f.range * s.width := Nat.le_mul_of_pos_right _ s.width_pos
  have hscaled := Nat.mul_le_mul_left m hshare
  rw [Nat.mul_add] at hscaled
  rw [Nat.succ_mul]
  omega

/-- The doublings that coding one slice makes, against the exact share of the slice. -/
theorem Encodes.cost {q m : Nat} {f g : Frame} {s : Slice} (h : Encodes q f s g) (hf : f.Normal q)
    (hm : 2 ≤ m) (hfits : m * s.scale ≤ q + 2) :
    2 ^ g.shifts * (m - 1) * (f.range * s.width) ≤ 2 ^ f.shifts * m * (s.scale * g.range) := by
  obtain ⟨k, run⟩ := h
  have htwo : 2 * s.scale ≤ q + 2 := Nat.le_trans (Nat.mul_le_mul_right _ hm) hfits
  obtain ⟨_, hrange, hshifts, _⟩ := renorm_spec run (Frame.narrow_valid_of_normal hf htwo)
  have hkeep : (f.narrow s).shifts = f.shifts := rfl
  have hshare := Frame.narrow_share (f := f) (s := s) hm (Nat.le_trans hfits hf.range_ge)
  rw [hshifts, hkeep, hrange, pow_add]
  calc 2 ^ f.shifts * 2 ^ k * (m - 1) * (f.range * s.width)
      = 2 ^ f.shifts * 2 ^ k * ((m - 1) * (f.range * s.width)) := by ring
    _ ≤ 2 ^ f.shifts * 2 ^ k * (m * (s.scale * (f.narrow s).range)) := Nat.mul_le_mul_left _ hshare
    _ = 2 ^ f.shifts * m * (s.scale * (2 ^ k * (f.narrow s).range)) := by ring

/-- Coding a slice makes no fewer doublings than its share asks for. -/
theorem Encodes.cost_ge {q m : Nat} {f g : Frame} {s : Slice} (h : Encodes q f s g) (hf : f.Normal q)
    (hm : 2 ≤ m) (hfits : m * s.scale ≤ q + 2) :
    2 ^ f.shifts * m * (s.scale * g.range) ≤ 2 ^ g.shifts * (m + 1) * (f.range * s.width) := by
  obtain ⟨k, run⟩ := h
  have htwo : 2 * s.scale ≤ q + 2 := Nat.le_trans (Nat.mul_le_mul_right _ hm) hfits
  obtain ⟨_, hrange, hshifts, _⟩ := renorm_spec run (Frame.narrow_valid_of_normal hf htwo)
  have hkeep : (f.narrow s).shifts = f.shifts := rfl
  have hshare := Frame.narrow_share_ge (f := f) (s := s) hm (Nat.le_trans hfits hf.range_ge)
  rw [hshifts, hkeep, hrange, pow_add]
  calc 2 ^ f.shifts * m * (s.scale * (2 ^ k * (f.narrow s).range))
      = 2 ^ f.shifts * 2 ^ k * (m * (s.scale * (f.narrow s).range)) := by ring
    _ ≤ 2 ^ f.shifts * 2 ^ k * ((m + 1) * (f.range * s.width)) := Nat.mul_le_mul_left _ hshare
    _ = 2 ^ f.shifts * 2 ^ k * (m + 1) * (f.range * s.width) := by ring

/-- An adaptive model that counts its letters: the scale of a state is its total, which grows by one
    with each letter. `widths` and `totals` are the products of the slice widths and of the scales
    that led to a state, up to a factor. -/
structure Counting {σ α : Type} (q : Nat) (M : σ → α → Slice → σ → Prop) (I : σ → Prop)
    (total widths totals : σ → Nat) : Prop where
  scale : ∀ {s a sl t}, I s → M s a sl t → sl.scale = total s
  inv : ∀ {s a sl t}, I s → M s a sl t → 2 * sl.scale ≤ q + 2 → I t
  total : ∀ {s a sl t}, I s → M s a sl t → 2 * sl.scale ≤ q + 2 → total t = total s + 1
  widths : ∀ {s a sl t}, I s → M s a sl t → 2 * sl.scale ≤ q + 2 → widths t = sl.width * widths s
  totals : ∀ {s a sl t}, I s → M s a sl t → 2 * sl.scale ≤ q + 2 → totals t = sl.scale * totals s

/-- Where the last slice of a text fits `m` times into the range, so does the first one. -/
theorem Counting.fits {σ α : Type} {q m n : Nat} {M : σ → α → Slice → σ → Prop} {I : σ → Prop}
    {total widths totals : σ → Nat} (model : Counting q M I total widths totals) {s t : σ} {a : α}
    {sl : Slice} (hs : I s) (letter : M s a sl t) (fits : 2 * sl.scale ≤ q + 2)
    (hfits : m * (total s + (n + 1)) ≤ q + 2 + m) :
    m * sl.scale ≤ q + 2 ∧ m * (total t + n) ≤ q + 2 + m := by
  have hscale := model.scale hs letter
  have htotal := model.total hs letter fits
  constructor
  · rw [hscale]
    have hle : m * (total s + 1) ≤ m * (total s + (n + 1)) := Nat.mul_le_mul_left _ (by omega)
    rw [Nat.mul_succ] at hle
    omega
  · rw [htotal, Nat.add_assoc, Nat.add_comm 1]
    exact hfits

/-- The doublings of a whole run against the potentials of its two ends. -/
theorem Codes.cost {σ α : Type} {q m : Nat} {M : σ → α → Slice → σ → Prop} {I : σ → Prop}
    {total widths totals : σ → Nat} (model : Counting q M I total widths totals) (hm : 2 ≤ m)
    {s t : σ} {f g : Frame} {as : List α} (run : Codes q M s f as t g) (hs : I s)
    (hf : f.Normal q) (hfits : m * (total s + as.length) ≤ q + 2 + m) :
    2 ^ g.shifts * (m - 1) ^ as.length * f.range * (widths t * totals s)
      ≤ 2 ^ f.shifts * m ^ as.length * g.range * (widths s * totals t) := by
  induction run with
  | nil s f => exact Nat.le_refl _
  | @cons s mid t f f₁ g a as sl letter fits head tail ih =>
      obtain ⟨hslice, htail⟩ := model.fits hs letter fits hfits
      have hone := head.cost hf hm hslice
      have hrest := ih (model.inv hs letter fits) (head.normal hf fits) htail
      rw [model.widths hs letter fits, model.totals hs letter fits] at hrest
      -- the two inequalities share the frame in the middle
      have hshared : 0 < 2 ^ f₁.shifts * f₁.range * (sl.width * sl.scale) :=
        Nat.mul_pos (Nat.mul_pos (Nat.two_pow_pos _) (Nat.succ_pos _))
          (Nat.mul_pos sl.width_pos sl.scale_pos)
      refine Nat.le_of_mul_le_mul_left ?_ hshared
      rw [List.length_cons, pow_succ, pow_succ]
      calc 2 ^ f₁.shifts * f₁.range * (sl.width * sl.scale) *
            (2 ^ g.shifts * ((m - 1) ^ as.length * (m - 1)) * f.range * (widths t * totals s))
          = 2 ^ f₁.shifts * (m - 1) * (f.range * sl.width) *
              (2 ^ g.shifts * (m - 1) ^ as.length * f₁.range *
                (widths t * (sl.scale * totals s))) := by ring
        _ ≤ 2 ^ f.shifts * m * (sl.scale * f₁.range) *
              (2 ^ f₁.shifts * m ^ as.length * g.range *
                (sl.width * widths s * totals t)) := Nat.mul_le_mul hone hrest
        _ = 2 ^ f₁.shifts * f₁.range * (sl.width * sl.scale) *
              (2 ^ f.shifts * (m ^ as.length * m) * g.range * (widths s * totals t)) := by ring

/-- The doublings of a whole run are no fewer than the exact length, up to what rounding gives. -/
theorem Codes.cost_ge {σ α : Type} {q m : Nat} {M : σ → α → Slice → σ → Prop} {I : σ → Prop}
    {total widths totals : σ → Nat} (model : Counting q M I total widths totals) (hm : 2 ≤ m)
    {s t : σ} {f g : Frame} {as : List α} (run : Codes q M s f as t g) (hs : I s)
    (hf : f.Normal q) (hfits : m * (total s + as.length) ≤ q + 2 + m) :
    2 ^ f.shifts * m ^ as.length * g.range * (widths s * totals t)
      ≤ 2 ^ g.shifts * (m + 1) ^ as.length * f.range * (widths t * totals s) := by
  induction run with
  | nil s f => exact Nat.le_refl _
  | @cons s mid t f f₁ g a as sl letter fits head tail ih =>
      have hmid := model.inv hs letter fits
      obtain ⟨hslice, htail⟩ := model.fits hs letter fits hfits
      have hone := head.cost_ge hf hm hslice
      have hrest := ih hmid (head.normal hf fits) htail
      rw [model.widths hs letter fits, model.totals hs letter fits] at hrest
      have hshared : 0 < 2 ^ f₁.shifts * f₁.range * (sl.width * sl.scale) :=
        Nat.mul_pos (Nat.mul_pos (Nat.two_pow_pos _) (Nat.succ_pos _))
          (Nat.mul_pos sl.width_pos sl.scale_pos)
      refine Nat.le_of_mul_le_mul_left ?_ hshared
      rw [List.length_cons, pow_succ, pow_succ]
      calc 2 ^ f₁.shifts * f₁.range * (sl.width * sl.scale) *
            (2 ^ f.shifts * (m ^ as.length * m) * g.range * (widths s * totals t))
          = 2 ^ f.shifts * m * (sl.scale * f₁.range) *
              (2 ^ f₁.shifts * m ^ as.length * g.range * (sl.width * widths s * totals t)) := by ring
        _ ≤ 2 ^ f₁.shifts * (m + 1) * (f.range * sl.width) *
              (2 ^ g.shifts * (m + 1) ^ as.length * f₁.range *
                (widths t * (sl.scale * totals s))) := Nat.mul_le_mul hone hrest
        _ = 2 ^ f₁.shifts * f₁.range * (sl.width * sl.scale) *
              (2 ^ g.shifts * ((m + 1) ^ as.length * (m + 1)) * f.range *
                (widths t * totals s)) := by ring

end IntervalCoder
