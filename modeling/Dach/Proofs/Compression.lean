/-
Module: Dach.Proofs.Compression
Layer: Proofs
Purpose: How long the code of a file is. Every slice of the model is as wide as the frequency of its
  byte, so the widths multiply up to the factorials of the byte counts and the scales to a factorial of
  the length; the coder loses at most one part in seven of each slice to rounding.
Imports: Dach.Lib.CodeLength, Dach.Proofs.Encoder, Dach.Proofs.Profile
Trusted boundary: none
Main exports: Ppm0.widths, Ppm0.totals, byteSlice_counting, encode_shifts_bound
-/
import Dach.Lib.CodeLength
import Dach.Proofs.Encoder
import Dach.Proofs.Profile

namespace Dach

open IntervalCoder

open scoped Nat

/-! ### The model as a counter -/

/-- The product of the slices that the counted bytes have had. -/
def Ppm0.widths (ppm : Ppm0) : Nat :=
  ∏ c : UInt8, (ppm.freq c.toNat - 1)!

/-- The product of the scales up to now, from 1 on. -/
def Ppm0.totals (ppm : Ppm0) : Nat :=
  (ppm.scale - 1)!

/-- The tables are a ranking with character 256 last. -/
def Ppm0.Ranked (ppm : Ppm0) : Prop :=
  ppm.WF ∧ ppm.Reserved

/-- The slice of a byte is as wide as its frequency. -/
theorem ByteSlice.width {mod mod' : Ppm0} {c : UInt8} {s : Slice} (h : ByteSlice mod c s mod')
    (ranked : mod.Ranked) : s.width = mod.freq c.toNat := by
  obtain ⟨wf, hres⟩ := ranked
  have hc : c.toNat ≤ 255 := Nat.le_of_lt_succ c.toNat_lt
  obtain ⟨hsym, hsym'⟩ := wf.sym_of_byte hres hc
  have hstep := wf.cum_step _ hsym (Nat.le_trans hsym' (by omega))
  have hfreq : dachGetFreq mod (mod.chrToSym c.toNat) = mod.freq c.toNat := by
    rw [dachGetFreq, wf.chr_sym _ (by omega)]
  rw [Slice.width, h.lo, h.hi]
  omega

/-- Coding a byte counts it. -/
theorem ByteSlice.fed {mod mod' : Ppm0} {c : UInt8} {s : Slice} (h : ByteSlice mod c s mod')
    (ranked : mod.Ranked) (hfits : 2 * s.scale ≤ 2 ^ 30 + 2) : Fed mod [c] mod' := by
  rw [h.scale] at hfits
  obtain ⟨ppm, hupdate, hfed⟩ := feed_byte ranked.1 ranked.2 (by omega) c
  obtain rfl : mod' = ppm := congrArg Prod.snd (ok_unique h.update hupdate)
  exact hfed

/-- One factor of the product of the widths grows with its byte. -/
theorem Fed.widths {ppm ppm' : Ppm0} {c : UInt8} (h : Fed ppm [c] ppm')
    (hpos : 1 ≤ ppm.freq c.toNat) : ppm'.widths = ppm.freq c.toNat * ppm.widths := by
  have hsame : ppm'.freq c.toNat = ppm.freq c.toNat + 1 := by
    rw [h.freq, List.map_singleton, List.count_singleton_self]
  have hother : ∀ d ∈ Finset.univ.erase c,
      (ppm'.freq d.toNat - 1)! = (ppm.freq d.toNat - 1)! := by
    intro d hd
    have hne : d ≠ c := Finset.ne_of_mem_erase hd
    rw [h.freq, List.count_eq_zero_of_not_mem, Nat.add_zero]
    simpa [UInt8.toNat_inj] using hne
  rw [Ppm0.widths, Ppm0.widths, ← Finset.mul_prod_erase _ _ (Finset.mem_univ c),
    ← Finset.mul_prod_erase _ _ (Finset.mem_univ c), Finset.prod_congr rfl hother, hsame,
    Nat.add_sub_cancel, ← Nat.mul_factorial_pred (Nat.ne_of_gt hpos), Nat.mul_assoc]

theorem Fed.totals {ppm ppm' : Ppm0} {c : UInt8} (h : Fed ppm [c] ppm') (hpos : ppm.scale ≠ 0) :
    ppm'.totals = ppm.scale * ppm.totals := by
  have hscale : ppm'.scale = ppm.scale + 1 := h.scale
  rw [Ppm0.totals, Ppm0.totals, hscale, Nat.add_sub_cancel, Nat.mul_factorial_pred hpos]

/-- The adaptive model counts its bytes. -/
theorem byteSlice_counting :
    Counting (2 ^ 30) ByteSlice Ppm0.Ranked Ppm0.scale Ppm0.widths Ppm0.totals where
  scale _ h := h.scale
  inv ranked h hfits := ⟨(h.fed ranked hfits).wf, (h.fed ranked hfits).reserved⟩
  total ranked h hfits := (h.fed ranked hfits).scale
  widths {mod c sl mod'} ranked h hfits := by
    have hpos := sl.width_pos
    rw [h.width ranked] at hpos ⊢
    exact (h.fed ranked hfits).widths hpos
  totals {mod c sl mod'} ranked h hfits := by
    have hpos := sl.scale_pos
    rw [h.scale] at hpos ⊢
    exact (h.fed ranked hfits).totals (Nat.ne_of_gt hpos)

/-! ### The bound -/

/-- What a run has counted. -/
theorem Codes.fed {s t : Ppm0} {f g : Frame} {data : List UInt8}
    (run : Codes (2 ^ 30) ByteSlice s f data t g) (ranked : s.Ranked) : Fed s data t := by
  induction run with
  | nil s f => exact ⟨ranked.1, ranked.2, rfl, fun _ => rfl⟩
  | @cons s mid t f f₁ g c data sl letter fits head tail ih =>
      have hone := letter.fed ranked fits
      have hrest := ih ⟨hone.wf, hone.reserved⟩
      have hscale : mid.scale = s.scale + 1 := hone.scale
      refine ⟨hrest.wf, hrest.reserved, ?_, fun d => ?_⟩
      · rw [hrest.scale, hscale, List.length_cons]
        omega
      · rw [hrest.freq, hone.freq, Nat.add_assoc, ← List.count_append, ← List.map_append]
        rfl

theorem FreshTables.widths {mod : Ppm0} (fresh : FreshTables mod) : mod.widths = 1 := by
  rw [Ppm0.widths]
  apply Finset.prod_eq_one
  intro c _
  have hc := c.toNat_lt
  rw [fresh.freq _ (by omega)]
  rfl

theorem Fed.widths_fresh {mod mod' : Ppm0} {data : List UInt8} (h : Fed mod data mod')
    (fresh : FreshTables mod) : mod'.widths = ∏ c : UInt8, (data.count c)! := by
  rw [Ppm0.widths]
  apply Finset.prod_congr rfl
  intro c _
  have hc := c.toNat_lt
  rw [h.freq, fresh.freq _ (by omega), List.count_map_of_injective _ _ fun _ _ => UInt8.toNat_inj.mp,
    Nat.add_sub_cancel_left]

/-- The shifts of `dach_encode` over a file, against the ideal adaptive code for its byte counts. -/
theorem encode_shifts_bound (host : Host) (data : List UInt8) (hpos : 1 ≤ data.length)
    (hlen : data.length ≤ 2 ^ 27) :
    ∃ new shifts arc, encoderNew host data.length = .ok new ∧
      encodeLoop host data new = .ok (shifts, arc) ∧
      2 ^ shifts * 6 ^ data.length * 256 ! * ∏ c : UInt8, (data.count c)!
        ≤ 7 ^ data.length * (256 + data.length)! := by
  obtain ⟨mod, hnew, fresh, hencoder⟩ := encoderNew_eq host data.length hpos
  have hready := arcFresh_ready (encodeSink host data.length) fresh data.length
  have hscale : mod.scale = 257 := fresh.scale_eq
  obtain ⟨shifts, words, g, arc, hloop, hrun⟩ := encodeLoop_spec data hready
    (by show 2 * (mod.scale + _) ≤ _; omega) (by show 0 + data.length < _; omega) trivial
  refine ⟨_, shifts, arc, hencoder, hloop, ?_⟩
  have hranked : mod.Ranked := ⟨fresh.wf, fresh.reserved⟩
  have hcost := Codes.cost byteSlice_counting (m := 7) (by omega) hrun.codes hranked hready.normal
    (by show 7 * (mod.scale + _) ≤ _; omega)
  have hfed : Fed mod data arc.mod := Codes.fed hrun.codes hranked
  have htotals : arc.mod.totals = (256 + data.length)! := by
    rw [Ppm0.totals, hfed.scale, hscale, Nat.sub_add_comm (by omega)]
  have hstart : mod.totals = 256 ! := by rw [Ppm0.totals, hscale]
  have hshifts : g.shifts = shifts := hrun.shifts_eq.trans (Nat.zero_add _)
  have hrange := range_le hrun.ready.normal.valid
  have hbound : 2 ^ shifts * 6 ^ data.length * 2 ^ 32 * ((∏ c : UInt8, (data.count c)!) * 256 !)
      ≤ 2 ^ 0 * 7 ^ data.length * g.range * (1 * (256 + data.length)!) := by
    rw [← hshifts, ← hfed.widths_fresh fresh, ← htotals, ← hstart, ← fresh.widths]
    exact hcost
  refine Nat.le_of_mul_le_mul_left ?_ (Nat.two_pow_pos 32)
  calc 2 ^ 32 * (2 ^ shifts * 6 ^ data.length * 256 ! * ∏ c : UInt8, (data.count c)!)
      = 2 ^ shifts * 6 ^ data.length * 2 ^ 32 * ((∏ c : UInt8, (data.count c)!) * 256 !) := by ring
    _ ≤ 2 ^ 0 * 7 ^ data.length * g.range * (1 * (256 + data.length)!) := hbound
    _ = g.range * (7 ^ data.length * (256 + data.length)!) := by ring
    _ ≤ 2 ^ 32 * (7 ^ data.length * (256 + data.length)!) := Nat.mul_le_mul_right _ hrange

/-- Two equal bytes. -/
theorem encode_shifts_bound_two : ∃ new shifts arc, encoderNew littleHost 2 = .ok new ∧
    encodeLoop littleHost [65, 65] new = .ok (shifts, arc) ∧
    2 ^ shifts * 6 ^ 2 * 256 ! * ∏ c : UInt8, ([65, 65].count c)! ≤ 7 ^ 2 * (256 + 2)! := by
  obtain ⟨new, shifts, arc, hnew, hloop, hbound⟩ :=
    encode_shifts_bound littleHost [65, 65] (by decide) (by decide)
  rw [show ([65, 65] : List UInt8).length = 2 from rfl] at hnew hbound
  exact ⟨new, shifts, arc, hnew, hloop, hbound⟩

end Dach
