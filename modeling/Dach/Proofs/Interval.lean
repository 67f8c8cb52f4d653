/-
Module: Dach.Proofs.Interval
Layer: Proofs
Purpose: The registers of the coder as a frame of the abstract interval coder. The masks of the two
  renormalisation loops pick the half of the 32-bit window that holds the interval, and
  `dach_encode_step` narrows to the slice the model gives a symbol.
Imports: Dach.Core.Ar64, Dach.Lib.IntervalCoder, Dach.Proofs.Ppm0
Trusted boundary: none
Main exports: Arc.Registers, sameMsb_iff, straddle_iff, shiftInterval_half, shiftInterval_middle,
  shift?_cases, encodePass_eq_half, decodePass_eq_half, encodePass_eq_middle, decodePass_eq_middle,
  encodePass_break, decodePass_break, Ppm0.WF.slice, range_mul_lt, dachEncodeStep_eq,
  decodeCount_eq
-/
import Dach.Core.Ar64
import Dach.Lib.IntervalCoder
import Dach.Proofs.Ppm0

namespace Dach

open IntervalCoder

/-! ### Masks -/

theorem and_msb {x : Nat} (h : x < 2 ^ 32) :
    x &&& 0x80000000 = if 2 ^ 31 ≤ x then 0x80000000 else 0 := by
  have hmask := Nat.and_two_pow x 31
  rw [Nat.testBit_eq_decide_div_mod_eq] at hmask
  rw [show (0x80000000 : Nat) = 2 ^ 31 by norm_num, hmask]
  by_cases hx : 2 ^ 31 ≤ x
  · rw [if_pos hx, show x / 2 ^ 31 % 2 = 1 by omega]
    rfl
  · rw [if_neg hx, show x / 2 ^ 31 % 2 = 0 by omega]
    rfl

theorem and_bit30 (x : Nat) : x &&& 0x40000000 = x / 2 ^ 30 % 2 * 2 ^ 30 := by
  have hmask := Nat.and_two_pow x 30
  rw [Nat.toNat_testBit] at hmask
  exact hmask

theorem and_low32 (x : Nat) : x &&& 0xFFFFFFFF = x % 2 ^ 32 :=
  Nat.and_two_pow_sub_one_eq_mod x 32

theorem and_low30 (x : Nat) : x &&& 0x3FFFFFFF = x % 2 ^ 30 :=
  Nat.and_two_pow_sub_one_eq_mod x 30

/-- Setting bit 30 of a value in the third quarter of the window. -/
theorem or_bit30 {x : Nat} (hlo : 2 ^ 31 ≤ x) (hhi : x < 3 * 2 ^ 30) :
    x ||| 0x40000000 = x + 2 ^ 30 := by
  have hsplit := Nat.two_pow_add_eq_or_of_lt (i := 31) (b := x - 2 ^ 31) (by omega) 1
  have hset := Nat.two_pow_add_eq_or_of_lt (i := 31) (b := x - 2 ^ 31 + 2 ^ 30) (by omega) 1
  have hlow := Nat.or_two_pow_eq_add_of_lt (a := x - 2 ^ 31) (n := 30) (by omega)
  rw [show 2 ^ 31 * 1 + (x - 2 ^ 31) = x by omega] at hsplit
  calc x ||| 0x40000000 = 2 ^ 31 * 1 ||| (x - 2 ^ 31) ||| 2 ^ 30 := by
        rw [← hsplit, show (0x40000000 : Nat) = 2 ^ 30 by norm_num]
    _ = 2 ^ 31 * 1 ||| (x - 2 ^ 31 + 2 ^ 30) := by rw [Nat.or_assoc, hlow]
    _ = x + 2 ^ 30 := by rw [← hset]; omega

/-- Flipping bit 30. -/
theorem xor_bit30 (x : Nat) :
    x ^^^ 0x40000000 = if x / 2 ^ 30 % 2 = 0 then x + 2 ^ 30 else x - 2 ^ 30 := by
  have hdiv : (x ^^^ 2 ^ 30) / 2 ^ 30 = x / 2 ^ 30 ^^^ 1 := by
    rw [Nat.xor_div_two_pow, Nat.div_self (Nat.two_pow_pos 30)]
  have hmod : (x ^^^ 2 ^ 30) % 2 ^ 30 = x % 2 ^ 30 := by
    rw [Nat.xor_mod_two_pow, Nat.mod_self, Nat.xor_zero]
  have hflip := Nat.xor_mod_two_pow (a := x / 2 ^ 30) (b := 1) (n := 1)
  have hrest := Nat.xor_div_two_pow (a := x / 2 ^ 30) (b := 1) (n := 1)
  rw [show (1 : Nat) / 2 ^ 1 = 0 from rfl, Nat.xor_zero] at hrest
  rw [show (1 : Nat) % 2 ^ 1 = 1 from rfl] at hflip
  have hjoin := Nat.div_add_mod (x ^^^ 2 ^ 30) (2 ^ 30)
  rw [hdiv, hmod] at hjoin
  rw [show (0x40000000 : Nat) = 2 ^ 30 by norm_num]
  by_cases h : x / 2 ^ 30 % 2 = 0
  · rw [if_pos h]
    rw [show x / 2 ^ 30 % 2 ^ 1 = 0 from h, Nat.zero_xor] at hflip
    omega
  · rw [if_neg h]
    rw [show x / 2 ^ 30 % 2 ^ 1 = 1 by omega, Nat.xor_self] at hflip
    omega

/-- The interval lies in one half of the window. -/
theorem sameMsb_iff {low high : Nat} (hlt : low < high) (hbound : high < 2 ^ 32) :
    high &&& 0x80000000 = low &&& 0x80000000 ↔ high < 2 ^ 31 ∨ 2 ^ 31 ≤ low := by
  rw [and_msb hbound, and_msb (Nat.lt_trans hlt hbound)]
  by_cases hh : 2 ^ 31 ≤ high
  · by_cases hl : 2 ^ 31 ≤ low
    · rw [if_pos hh, if_pos hl]
      omega
    · rw [if_pos hh, if_neg hl]
      omega
  · rw [if_neg hh, if_neg (by omega)]
    omega

/-- The interval lies in the middle half of the window. -/
theorem straddle_iff {low high : Nat} (hlow : low < 2 ^ 31) (hhigh : 2 ^ 31 ≤ high)
    (hbound : high < 2 ^ 32) :
    (low &&& 0x40000000 ≠ 0 ∧ high &&& 0x40000000 = 0) ↔ 2 ^ 30 ≤ low ∧ high < 3 * 2 ^ 30 := by
  rw [and_bit30, and_bit30]
  omega

/-! ### Registers -/

/-- The interval registers hold this frame. -/
structure Arc.Registers (arc : Arc) (f : Frame) : Prop where
  low : arc.low = f.low
  high : arc.high = f.high

theorem shiftInterval_low (arc : Arc) : (shiftInterval arc).low = 2 * arc.low % 2 ^ 32 := by
  simp only [shiftInterval, and_low32, Nat.shiftLeft_eq]
  omega

theorem shiftInterval_high (arc : Arc) : (shiftInterval arc).high = (2 * arc.high + 1) % 2 ^ 32 := by
  have hor := Nat.two_pow_add_eq_or_of_lt (i := 1) (b := 1) (by omega) arc.high
  simp only [shiftInterval, and_low32, Nat.shiftLeft_eq]
  rw [Nat.mul_comm, ← hor]

/-- Shifting an interval of the lower or of the upper half. -/
theorem shiftInterval_half (arc : Arc) {f : Frame} (hr : arc.Registers f)
    (hv : f.Valid (2 ^ 30)) {off : Nat}
    (hoff : off = 0 ∧ f.high < 2 ^ 31 ∨ off = 2 * 2 ^ 30 ∧ 2 ^ 31 ≤ f.low) :
    (shiftInterval arc).Registers (f.shiftBy off) := by
  obtain ⟨hlt, hbound⟩ := hv
  constructor
  · rw [shiftInterval_low, hr.low]
    simp only [Frame.shiftBy]
    omega
  · rw [shiftInterval_high, hr.high]
    simp only [Frame.shiftBy]
    omega

/-- Shifting an interval of the middle half, after the masks have folded it. -/
theorem shiftInterval_middle {arc : Arc} {f : Frame} (hlow : arc.low = f.low &&& 0x3FFFFFFF)
    (hhigh : arc.high = f.high ||| 0x40000000) (hlo : 2 ^ 30 ≤ f.low) (hlo' : f.low < 2 ^ 31)
    (hhi : 2 ^ 31 ≤ f.high) (hhi' : f.high < 3 * 2 ^ 30) :
    (shiftInterval arc).Registers (f.shiftBy (2 ^ 30)) := by
  constructor
  · rw [shiftInterval_low, hlow, and_low30]
    simp only [Frame.shiftBy]
    omega
  · rw [shiftInterval_high, hhigh, or_bit30 hhi hhi']
    simp only [Frame.shiftBy]
    omega

/-- What the two tests of a renormalisation loop decide. -/
theorem shift?_cases {f : Frame} (hv : f.Valid (2 ^ 30)) :
    ((f.high < 2 ^ 31 ∧ f.shift? (2 ^ 30) = some (f.shiftBy 0)) ∨
      (2 ^ 31 ≤ f.low ∧ f.shift? (2 ^ 30) = some (f.shiftBy (2 * 2 ^ 30)))) ∨
    ((f.low < 2 ^ 31 ∧ 2 ^ 31 ≤ f.high) ∧
      ((2 ^ 30 ≤ f.low ∧ f.high < 3 * 2 ^ 30 ∧ f.shift? (2 ^ 30) = some (f.shiftBy (2 ^ 30))) ∨
        (¬ (2 ^ 30 ≤ f.low ∧ f.high < 3 * 2 ^ 30) ∧ f.shift? (2 ^ 30) = none))) := by
  obtain ⟨hlt, hbound⟩ := hv
  unfold Frame.shift? halfOffset
  by_cases hlower : f.high < 2 ^ 31
  · exact Or.inl (Or.inl ⟨hlower, by rw [if_pos (by omega), Option.map_some]⟩)
  · rw [if_neg (by omega)]
    by_cases hupper : 2 ^ 31 ≤ f.low
    · exact Or.inl (Or.inr ⟨hupper, by rw [if_pos (by omega), Option.map_some]⟩)
    · rw [if_neg (by omega)]
      refine Or.inr ⟨by omega, ?_⟩
      by_cases hmid : 2 ^ 30 ≤ f.low ∧ f.high < 3 * 2 ^ 30
      · exact Or.inl ⟨hmid.1, hmid.2, by rw [if_pos hmid, Option.map_some]⟩
      · exact Or.inr ⟨hmid, by rw [if_neg hmid, Option.map_none]⟩

/-! ### Passes -/

section Pass

variable (host : Host) {arc : Arc} {f : Frame}

/-- A pass of the encoder on an interval in one half of the window writes the bit of that half. -/
theorem encodePass_eq_half (hr : arc.Registers f) (hv : f.Valid (2 ^ 30)) {bit : Nat}
    (hside : bit = 0 ∧ f.high < 2 ^ 31 ∨ bit = 1 ∧ 2 ^ 31 ≤ f.low) :
    encodePass host arc
      = dachWriteStream host arc bit >>= fun arc => .ok (some (shiftInterval arc)) := by
  obtain ⟨hlt, hbound⟩ := hv
  have hsame : arc.high &&& 0x80000000 = arc.low &&& 0x80000000 := by
    rw [hr.low, hr.high]
    exact (sameMsb_iff hlt hbound).mpr (by omega)
  have hbit : u32 (arc.high >>> 31) = bit := by
    rw [hr.high, Nat.shiftRight_eq_div_pow]
    unfold u32
    omega
  rw [encodePass, if_pos hsame, hbit]
  rfl

/-- A pass of the decoder on such an interval only shifts. -/
theorem decodePass_eq_half (hr : arc.Registers f) (hv : f.Valid (2 ^ 30))
    (hside : f.high < 2 ^ 31 ∨ 2 ^ 31 ≤ f.low) : decodePass host arc = decodeShift host arc := by
  obtain ⟨hlt, hbound⟩ := hv
  have hsame : arc.high &&& 0x80000000 = arc.low &&& 0x80000000 := by
    rw [hr.low, hr.high]
    exact (sameMsb_iff hlt hbound).mpr hside
  have hgt : arc.high > arc.low := by
    rw [hr.low, hr.high]
    exact hlt
  rw [decodePass, cassert_pos _ hgt, ok_bind, if_pos hsame]

theorem not_sameMsb (hr : arc.Registers f) (hlo : f.low < 2 ^ 31) (hhi : 2 ^ 31 ≤ f.high)
    (hbound : f.high < 2 ^ 32) : ¬ arc.high &&& 0x80000000 = arc.low &&& 0x80000000 := by
  rw [hr.low, hr.high, sameMsb_iff (by omega) hbound]
  omega

theorem straddle_of_middle (hr : arc.Registers f) (hlo : 2 ^ 30 ≤ f.low) (hlo' : f.low < 2 ^ 31)
    (hhi : 2 ^ 31 ≤ f.high) (hhi' : f.high < 3 * 2 ^ 30) :
    arc.low &&& 0x40000000 ≠ 0 ∧ arc.high &&& 0x40000000 = 0 := by
  rw [hr.low, hr.high]
  exact (straddle_iff hlo' hhi (by omega)).mpr ⟨hlo, hhi'⟩

/-- A pass of the encoder on an interval in the middle half counts an underflow. -/
theorem encodePass_eq_middle (hr : arc.Registers f) (hlo : 2 ^ 30 ≤ f.low) (hlo' : f.low < 2 ^ 31)
    (hhi : 2 ^ 31 ≤ f.high) (hhi' : f.high < 3 * 2 ^ 30) :
    encodePass host arc = .ok (some (shiftInterval { arc with
      underflow := u32 (arc.underflow + 1)
      low := arc.low &&& 0x3FFFFFFF
      high := arc.high ||| 0x40000000 })) := by
  rw [encodePass, if_neg (not_sameMsb hr hlo' hhi (by omega)),
    if_pos (straddle_of_middle hr hlo hlo' hhi hhi')]
  rfl

/-- A pass of the decoder on such an interval takes bit 30 out of the code value. -/
theorem decodePass_eq_middle (hr : arc.Registers f) (hlo : 2 ^ 30 ≤ f.low) (hlo' : f.low < 2 ^ 31)
    (hhi : 2 ^ 31 ≤ f.high) (hhi' : f.high < 3 * 2 ^ 30) :
    decodePass host arc = decodeShift host { arc with
      esym := arc.esym ^^^ 0x40000000
      low := arc.low &&& 0x3FFFFFFF
      high := arc.high ||| 0x40000000 } := by
  have hgt : arc.high > arc.low := by
    rw [hr.low, hr.high]
    omega
  have hgt' : arc.high ||| 0x40000000 > arc.low &&& 0x3FFFFFFF := by
    rw [hr.low, hr.high, or_bit30 hhi hhi', and_low30]
    omega
  rw [decodePass, cassert_pos _ hgt, ok_bind, if_neg (not_sameMsb hr hlo' hhi (by omega)),
    if_pos (straddle_of_middle hr hlo hlo' hhi hhi')]
  simp only [cassert_pos _ hgt', ok_bind]

theorem not_straddle (hr : arc.Registers f) (hn : f.Normal (2 ^ 30)) :
    ¬ (arc.low &&& 0x40000000 ≠ 0 ∧ arc.high &&& 0x40000000 = 0) := by
  obtain ⟨hlow, hhigh, hbound, hquarter⟩ := hn
  rw [hr.low, hr.high, straddle_iff (by omega) (by omega) (by omega)]
  omega

/-- Both loops break at a normal interval. -/
theorem encodePass_break (hr : arc.Registers f) (hn : f.Normal (2 ^ 30)) :
    encodePass host arc = .ok none := by
  rw [encodePass, if_neg (not_sameMsb hr hn.1 hn.2.1 hn.2.2.1), if_neg (not_straddle hr hn)]
  rfl

theorem decodePass_break (hr : arc.Registers f) (hn : f.Normal (2 ^ 30)) :
    decodePass host arc = .ok none := by
  have hgt : arc.high > arc.low := by
    rw [hr.low, hr.high]
    exact hn.valid.1
  rw [decodePass, cassert_pos _ hgt, ok_bind, if_neg (not_sameMsb hr hn.1 hn.2.1 hn.2.2.1),
    if_neg (not_straddle hr hn)]
  rfl

end Pass

/-! ### Slices -/

/-- The part of the scale that belongs to a symbol. -/
def Ppm0.WF.slice {ppm : Ppm0} (wf : ppm.WF) {sym : Nat} (hsym : 1 ≤ sym) (hsym' : sym ≤ 257) :
    Slice :=
  { lo := ppm.cumAt (sym + 1), hi := ppm.cumAt sym, scale := ppm.scale,
    lt := wf.cum_lt hsym hsym', le := wf.cum_le_scale (by omega) }

/-- A product with a count of the scale does not wrap when the product with the scale does not. -/
theorem count_mul_lt {range count scale : Nat} (hcount : count ≤ scale)
    (hwrap : range * scale < 2 ^ 64) : range * count < 2 ^ 64 :=
  Nat.lt_of_le_of_lt (Nat.mul_le_mul_left _ hcount) hwrap

theorem Arc.Registers.range {arc : Arc} {f : Frame} (h : arc.Registers f) :
    arc.high - arc.low + 1 = f.range := by
  rw [h.low, h.high]
  rfl

/-- The registers hold 32 bits. -/
theorem range_le {f : Frame} (hv : f.Valid (2 ^ 30)) : f.range ≤ 2 ^ 32 := by
  have hlow := hv.1
  have hbound := hv.2
  unfold Frame.range
  omega

/-- A scale of less than 32 bits never wraps. -/
theorem range_mul_lt {f : Frame} (hv : f.Valid (2 ^ 30)) {scale : Nat} (hscale : scale < 2 ^ 32) :
    f.range * scale < 2 ^ 64 :=
  calc f.range * scale ≤ 2 ^ 32 * (2 ^ 32 - 1) := Nat.mul_le_mul (range_le hv) (by omega)
    _ < 2 ^ 64 := by norm_num

/-- The range a valid frame gives `dach_calc_range`. -/
theorem dachCalcRange_eq {arc : Arc} {f : Frame} (hr : arc.Registers f) (hv : f.Valid (2 ^ 30)) :
    dachCalcRange arc = .ok f.range := by
  obtain ⟨hlt, hbound⟩ := hv
  unfold dachCalcRange
  rw [hr.low, hr.high, if_neg (by omega), u64sub_of_le (by omega) (by omega), u64_of_lt (by omega)]
  simp only [cassert_pos _ (Nat.succ_ne_zero _), ok_bind, pure_eq_ok, Frame.range]

section Step

variable (arc : Arc) {f : Frame} {sym : Nat}

theorem dachLowScale_eq (wf : arc.mod.WF) (hscale : arc.scale = arc.mod.scale)
    (hr : arc.Registers f) (hv : f.Valid (2 ^ 30)) (hrange : arc.range = f.range)
    (hwrap : f.range * arc.scale < 2 ^ 64) (hsym : 1 ≤ sym) (hsym' : sym ≤ 256) :
    dachLowScale arc sym = .ok (f.narrow (wf.slice hsym (by omega))).low := by
  have hcum : arc.mod.cumAt (sym + 1) ≤ arc.scale := by
    rw [hscale]
    exact wf.cum_le_scale (by omega)
  have hstrict : f.range * arc.mod.cumAt (sym + 1) / arc.scale < f.range := by
    have hlt : arc.mod.cumAt (sym + 1) < arc.scale := by
      have := wf.cum_lt hsym (by omega)
      have := wf.cum_le_scale (s := sym) (by omega)
      omega
    rw [Nat.div_lt_iff_lt_mul (by omega)]
    exact Nat.mul_lt_mul_of_pos_left hlt (Nat.succ_pos _)
  have hsum : f.low + f.range * arc.mod.cumAt (sym + 1) / arc.scale < 2 ^ 32 := by
    have hlow := hv.1
    have hbound := hv.2
    unfold Frame.range at hstrict ⊢
    omega
  simp only [dachLowScale, cassert_pos _ hsym', cassert_pos _ (show sym ≠ 0 by omega), ok_bind,
    dachPpm0Cumfreq_eq (show sym + 1 ≤ 258 by omega), hrange, hr.low,
    u64_of_lt (count_mul_lt hcum hwrap), u64_of_lt (Nat.lt_trans hsum (by omega)), u32_of_lt hsum]
  rw [if_neg (by omega)]
  simp [Frame.narrow, Ppm0.WF.slice, hscale]

theorem dachHighScale_eq (wf : arc.mod.WF) (hscale : arc.scale = arc.mod.scale)
    (hr : arc.Registers f) (hv : f.Valid (2 ^ 30)) (hrange : arc.range = f.range)
    (hwrap : f.range * arc.scale < 2 ^ 64) (hsym : 1 ≤ sym) (hsym' : sym ≤ 256) :
    dachHighScale arc sym =
      if f.low + f.range * arc.mod.cumAt sym / arc.mod.scale = 0 then .error .highScaleExit
      else .ok (f.narrow (wf.slice hsym (by omega))).high := by
  have hcum : arc.mod.cumAt sym ≤ arc.scale := by
    rw [hscale]
    exact wf.cum_le_scale (by omega)
  have hpos : arc.scale ≠ 0 := by
    have := wf.cum_lt hsym (by omega)
    omega
  have htop : f.range * arc.mod.cumAt sym / arc.scale ≤ f.range :=
    Nat.div_le_of_le_mul (by rw [Nat.mul_comm arc.scale]; exact Nat.mul_le_mul_left _ hcum)
  have hsum : f.low + f.range * arc.mod.cumAt sym / arc.scale ≤ 2 ^ 32 := by
    have hlow := hv.1
    have hbound := hv.2
    unfold Frame.range at htop ⊢
    omega
  have hwide : f.low + f.range * arc.mod.cumAt sym / arc.scale < 2 ^ 64 := by omega
  have hwrap' : f.range * arc.mod.cumAt sym < 2 ^ 64 := count_mul_lt hcum hwrap
  simp only [dachHighScale, cassert_pos _ hsym', cassert_pos _ hpos, ok_bind,
    dachPpm0Cumfreq_eq (show sym ≤ 258 by omega), hrange, hr.low, u64_of_lt hwrap', u64_of_lt hwide]
  simp only [Frame.narrow, Ppm0.WF.slice, ← hscale]
  by_cases hzero : f.low + f.range * arc.mod.cumAt sym / arc.scale = 0
  · have hborrow : u64sub 0 1 ≠ u32 (u64sub 0 1) := by simp [u64sub, u64, u32]
    rw [if_pos hzero, hzero, if_pos hborrow]
  · generalize f.low + f.range * arc.mod.cumAt sym / arc.scale = top at hsum hzero hwide
    have hsub : u64sub top 1 = top - 1 := u64sub_of_le (by omega) hwide
    rw [if_neg hzero, hsub, u32_of_lt (by omega), if_neg (by omega), pure_eq_ok]

/-- `dach_encode_step` narrows the interval to the symbol's slice, unless the slice has shrunk to
    nothing; then it leaves through an `exit(1)`. -/
theorem dachEncodeStep_eq (wf : arc.mod.WF) (hscale : arc.scale = arc.mod.scale)
    (hr : arc.Registers f) (hv : f.Valid (2 ^ 30)) (hwrap : f.range * arc.scale < 2 ^ 64)
    (hsym : 1 ≤ sym) (hsym' : sym ≤ 256) :
    dachEncodeStep arc sym =
      if f.range * arc.mod.cumAt (sym + 1) / arc.mod.scale
          < f.range * arc.mod.cumAt sym / arc.mod.scale then
        .ok { arc with
          range := f.range
          high := (f.narrow (wf.slice hsym (by omega))).high
          low := (f.narrow (wf.slice hsym (by omega))).low }
      else
        .error (if f.low + f.range * arc.mod.cumAt sym / arc.mod.scale = 0 then .highScaleExit
          else .encodeStepExit) := by
  have hlt : arc.high > arc.low := by
    rw [hr.low, hr.high]
    exact hv.1
  have hrange : f.range ≠ 0 := Nat.succ_ne_zero _
  have hr' : Arc.Registers { arc with range := f.range } f := ⟨hr.low, hr.high⟩
  have hhigh := dachHighScale_eq { arc with range := f.range } wf hscale hr' hv rfl hwrap
    hsym hsym'
  have hlow := dachLowScale_eq { arc with range := f.range } wf hscale hr' hv rfl hwrap
    hsym hsym'
  simp only [dachEncodeStep, cassert_pos _ (show sym ≠ 0 ∧ sym ≤ 256 by omega), cassert_pos _ hlt,
    dachCalcRange_eq hr hv, ok_bind, if_neg hrange, hhigh, hlow]
  have hbottom := Nat.zero_le (f.range * arc.mod.cumAt (sym + 1) / arc.mod.scale)
  have htop := Nat.zero_le (f.range * arc.mod.cumAt sym / arc.mod.scale)
  by_cases hzero : f.low + f.range * arc.mod.cumAt sym / arc.mod.scale = 0
  · rw [if_pos hzero, if_neg (by omega), if_pos hzero]
    rfl
  · have hcmp : (f.narrow (wf.slice hsym (by omega))).high < (f.narrow (wf.slice hsym (by omega))).low
        ↔ ¬ f.range * arc.mod.cumAt (sym + 1) / arc.mod.scale
          < f.range * arc.mod.cumAt sym / arc.mod.scale := by
      simp only [Frame.narrow, Ppm0.WF.slice]
      omega
    rw [if_neg hzero, if_neg hzero]
    simp only [ok_bind]
    by_cases hroom : f.range * arc.mod.cumAt (sym + 1) / arc.mod.scale
        < f.range * arc.mod.cumAt sym / arc.mod.scale
    · rw [if_pos hroom, if_neg (fun h => hcmp.mp h hroom)]
      rfl
    · rw [if_neg hroom, if_pos (hcmp.mpr hroom)]

/-- A range at least twice the scale leaves every symbol at least two values. -/
theorem dachEncodeStep_fits (wf : arc.mod.WF) (hscale : arc.scale = arc.mod.scale)
    (hr : arc.Registers f) (hv : f.Valid (2 ^ 30)) (hfits : 2 * arc.mod.scale ≤ f.range)
    (hsym : 1 ≤ sym) (hsym' : sym ≤ 256) :
    dachEncodeStep arc sym =
      .ok { arc with
        range := f.range
        high := (f.narrow (wf.slice hsym (by omega))).high
        low := (f.narrow (wf.slice hsym (by omega))).low } := by
  have hrange := range_le hv
  have hwrap : f.range * arc.scale < 2 ^ 64 := by
    calc f.range * arc.scale ≤ 2 ^ 32 * 2 ^ 31 := Nat.mul_le_mul hrange (by omega)
      _ < 2 ^ 64 := by omega
  have hwidth := Frame.narrow_width (f := f) (s := wf.slice hsym (by omega)) hfits
  simp only [Ppm0.WF.slice] at hwidth
  rw [dachEncodeStep_eq arc wf hscale hr hv hwrap hsym hsym', if_pos (by omega)]

/-- The count `dach_decode` computes. -/
theorem decodeCount_eq (hr : arc.Registers f) (hv : f.Valid (2 ^ 30)) (hrange : arc.range = f.range)
    (hscale : 0 < arc.scale) (hwrap : f.range * arc.scale < 2 ^ 64) (hlo : f.low ≤ arc.esym)
    (hhi : arc.esym ≤ f.high) : decodeCount arc = f.target arc.esym arc.scale := by
  have hbound := hv.2
  have hwidth : arc.esym - f.low + 1 ≤ f.range := by
    unfold Frame.range
    omega
  have hprod : (arc.esym - f.low + 1) * arc.scale < 2 ^ 64 :=
    Nat.lt_of_le_of_lt (Nat.mul_le_mul_right _ hwidth) hwrap
  have hpos : 1 ≤ (arc.esym - f.low + 1) * arc.scale := Nat.mul_pos (Nat.succ_pos _) hscale
  unfold decodeCount Frame.target
  rw [hr.low, hrange, u64sub_of_le hlo (by omega), u64_of_lt (by omega : arc.esym - f.low + 1 < _),
    u64_of_lt hprod, u64sub_of_le hpos hprod]

end Step

end Dach
