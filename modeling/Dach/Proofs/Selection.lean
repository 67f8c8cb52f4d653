/-
Module: Dach.Proofs.Selection
Layer: Proofs
Purpose: The decoder's search inverts the encoder's narrowing. The subintervals that `dach_low_scale`
  and `dach_high_scale` give to the symbols 1..256 cut the interval into pieces above a reserved gap,
  and the scaled position of a code value picks the piece it lies in.
Imports: Dach.Proofs.BlockCoder
Trusted boundary: none
Main exports: Selection, EncoderReady.selection, findSym_inverts_narrowing
-/
import Dach.Proofs.BlockCoder

namespace Dach

open IntervalCoder

/-- The subintervals of the symbols in a coder whose range is up to date, and the symbol that is found
    for a code value. -/
structure Selection (arc : Arc) (lo hi : Nat → Nat) : Prop where
  low_scale : ∀ s, 1 ≤ s → s ≤ 256 → dachLowScale arc s = .ok (lo s)
  high_scale : ∀ s, 1 ≤ s → s ≤ 256 → dachHighScale arc s = .ok (hi s)
  nonempty : ∀ s, 1 ≤ s → s ≤ 256 → arc.low ≤ lo s ∧ lo s ≤ hi s ∧ hi s ≤ arc.high
  disjoint : ∀ s t, 1 ≤ s → s < t → t ≤ 256 → hi t < lo s
  cover : ∀ v, arc.low ≤ v → v ≤ arc.high → v < lo 256 ∨ ∃ s, 1 ≤ s ∧ s ≤ 256 ∧ lo s ≤ v ∧ v ≤ hi s
  count : ∀ v, arc.low ≤ v → v ≤ arc.high →
    decodeCount { arc with esym := v } = ((v - arc.low + 1) * arc.scale - 1) / arc.range
  found : ∀ v, arc.low ≤ v → v ≤ arc.high →
    ∃ sym, dachPpm0FindSym arc.mod (((v - arc.low + 1) * arc.scale - 1) / arc.range) = .ok sym ∧
      (∀ s, 1 ≤ s → s ≤ 256 → (sym = s ↔ lo s ≤ v ∧ v ≤ hi s)) ∧ (sym = 257 ↔ v < lo 256)

/-- The lower end of what a count of the scale takes of the interval. -/
def countEnd (f : Frame) (mod : Ppm0) (s : Nat) : Nat :=
  f.low + f.range * mod.cumAt s / mod.scale

section Ends

variable {f : Frame} {mod : Ppm0} {s t v : Nat}

/-- Lower symbols end higher. -/
theorem countEnd_anti (wf : mod.WF) (hs : 1 ≤ s) (hst : s ≤ t) (ht : t ≤ 258) :
    countEnd f mod t ≤ countEnd f mod s := by
  have hgap := wf.cum_gap hs hst ht
  exact Nat.add_le_add_left (Nat.div_le_div_right (Nat.mul_le_mul_left _ (by omega))) _

/-- Every symbol has at least two values in a range twice the scale. -/
theorem countEnd_succ (wf : mod.WF) (hfits : 2 * mod.scale ≤ f.range) (hs : 1 ≤ s) (hs' : s ≤ 257) :
    countEnd f mod (s + 1) + 2 ≤ countEnd f mod s := by
  have hwidth := Frame.narrow_width (f := f) (s := wf.slice hs hs') hfits
  have hwidth' : f.range * mod.cumAt (s + 1) / mod.scale + 2 ≤ f.range * mod.cumAt s / mod.scale :=
    hwidth
  unfold countEnd
  omega

/-- The first symbol ends behind the interval. -/
theorem countEnd_one (wf : mod.WF) : countEnd f mod 1 = f.low + f.range := by
  rw [countEnd, ← wf.scale_eq, Nat.mul_div_cancel _ wf.scale_pos]

/-- The part of a symbol is not empty and lies in the interval. -/
theorem countEnd_part (wf : mod.WF) (hfits : 2 * mod.scale ≤ f.range) (hs : 1 ≤ s) (hs' : s ≤ 256) :
    f.low ≤ countEnd f mod (s + 1) ∧ countEnd f mod (s + 1) ≤ countEnd f mod s - 1 ∧
      countEnd f mod s - 1 < f.low + f.range := by
  have hsucc := countEnd_succ (f := f) wf hfits hs (Nat.le_succ_of_le hs')
  have htop := countEnd_anti (f := f) wf (Nat.le_refl 1) hs (by omega)
  have hbottom : f.low ≤ countEnd f mod (s + 1) := Nat.le_add_right _ _
  rw [countEnd_one wf] at htop
  omega

/-- The part of a higher symbol lies below that of a lower one. -/
theorem countEnd_below (wf : mod.WF) (hfits : 2 * mod.scale ≤ f.range) (hs : 1 ≤ s) (hst : s < t)
    (ht : t ≤ 256) : countEnd f mod t - 1 < countEnd f mod (s + 1) := by
  have hsucc := countEnd_succ (f := f) wf hfits (s := t) (by omega) (by omega)
  have hanti := countEnd_anti (f := f) wf (s := s + 1) (t := t) (by omega) hst (by omega)
  omega

/-- The symbol found for a code value is the one whose part holds it. -/
theorem findSym_target (wf : mod.WF) (hlo : f.low ≤ v) (hhi : v ≤ f.high) :
    ∃ sym, dachPpm0FindSym mod (f.target v mod.scale) = .ok sym ∧ 1 ≤ sym ∧ sym ≤ 257 ∧
      countEnd f mod (sym + 1) ≤ v ∧ v < countEnd f mod sym := by
  have hpos := wf.scale_pos
  obtain ⟨sym, hfind, hsym, hsym', hle, hlt⟩ :=
    dachPpm0FindSym_spec wf (target_lt (f := f) hhi hpos)
  refine ⟨sym, hfind, hsym, hsym', (le_target_iff hlo hpos _).mp hle, ?_⟩
  by_contra hge
  have hreach := (le_target_iff hlo hpos (mod.cumAt sym)).mpr (Nat.le_of_not_lt hge)
  omega

/-- A code value lies in the part of one symbol only. -/
theorem eq_iff_between (wf : mod.WF) {sym : Nat} (hsym : 1 ≤ sym) (hsym' : sym ≤ 257)
    (hlo : countEnd f mod (sym + 1) ≤ v) (hhi : v < countEnd f mod sym) (hs : 1 ≤ s) (hs' : s ≤ 257) :
    sym = s ↔ countEnd f mod (s + 1) ≤ v ∧ v < countEnd f mod s := by
  constructor
  · rintro rfl
    exact ⟨hlo, hhi⟩
  · rintro ⟨hlo', hhi'⟩
    exact wf.sym_of_bounds hsym hsym' hs hs' hlo hhi hlo' hhi'

end Ends

section Ready

variable {host : Host} {sink : Sink host} {words : List Nat} {f : Frame} {arc : Arc}

/-- Between two calls of `dach_encode`, with the scale below half of the smallest range. -/
theorem EncoderReady.selection (h : EncoderReady sink words f arc)
    (hfits : 2 * arc.mod.scale ≤ 2 ^ 30 + 2) :
    Selection { arc with range := arc.high - arc.low + 1 } (fun s => countEnd f arc.mod (s + 1))
      (fun s => countEnd f arc.mod s - 1) := by
  have wf := h.model.wf
  have hv := h.normal.valid
  have hscale := h.model.scale
  have hroom : 2 * arc.mod.scale ≤ f.range := Nat.le_trans hfits h.normal.range_ge
  have hpos := wf.scale_pos
  have hwrap : f.range * arc.scale < 2 ^ 64 := by
    calc f.range * arc.scale ≤ 2 ^ 32 * 2 ^ 30 := Nat.mul_le_mul (range_le hv) (by omega)
      _ < 2 ^ 64 := by norm_num
  have hwide : arc.high - arc.low + 1 = f.range := h.place.registers.range
  have hregs : Arc.Registers { arc with range := f.range } f :=
    ⟨h.place.registers.low, h.place.registers.high⟩
  have hlow : arc.low = f.low := h.place.registers.low
  have hhigh : arc.high = f.high := h.place.registers.high
  have hend : f.low + f.range = f.high + 1 := by
    have := hv.1
    unfold Frame.range
    omega
  rw [hwide]
  have htarget : ∀ v, ((v - arc.low + 1) * arc.scale - 1) / f.range = f.target v arc.mod.scale := by
    intro v
    rw [hlow, hscale, Frame.target]
  constructor
  · intro s hs hs'
    exact dachLowScale_eq { arc with range := f.range } wf hscale hregs hv rfl hwrap hs hs'
  · intro s hs hs'
    have hsucc := countEnd_succ (f := f) wf hroom hs (by omega)
    have hhs := dachHighScale_eq { arc with range := f.range } wf hscale hregs hv rfl hwrap hs hs'
    have hne : countEnd f arc.mod s ≠ 0 := by omega
    exact hhs.trans (if_neg hne)
  · intro s hs hs'
    obtain ⟨hbottom, hpart, htop⟩ := countEnd_part (f := f) wf hroom hs hs'
    rw [hend] at htop
    exact ⟨hlow.trans_le hbottom, hpart,
      (Nat.le_of_lt_succ htop).trans_eq hhigh.symm⟩
  · intro s t hs hst ht
    exact countEnd_below (f := f) wf hroom hs hst ht
  · intro v hlo hhi
    obtain ⟨sym, _, hsym, hsym', hbottom, htop⟩ :=
      findSym_target (f := f) (v := v) wf (hlow ▸ hlo) (hhigh ▸ hhi)
    rcases Nat.eq_or_lt_of_le hsym' with rfl | hlt
    · exact Or.inl htop
    · exact Or.inr ⟨sym, hsym, Nat.le_of_lt_succ hlt, hbottom, Nat.le_sub_one_of_lt htop⟩
  · intro v hlo hhi
    rw [decodeCount_eq { arc with range := f.range, esym := v } ⟨hlow, hhigh⟩ hv rfl
      (by rw [hscale]; exact hpos) hwrap (hlow ▸ hlo) (hhigh ▸ hhi), htarget, hscale]
  · intro v hlo hhi
    obtain ⟨sym, hfind, hsym, hsym', hbottom, htop⟩ :=
      findSym_target (f := f) (v := v) wf (hlow ▸ hlo) (hhigh ▸ hhi)
    refine ⟨sym, by rw [htarget]; exact hfind, fun s hs hs' => ?_, ?_⟩
    · rw [eq_iff_between wf hsym hsym' hbottom htop hs (by omega)]
      have hsucc := countEnd_succ (f := f) wf hroom hs (by omega)
      show _ ↔ countEnd f arc.mod (s + 1) ≤ v ∧ v ≤ countEnd f arc.mod s - 1
      omega
    · rw [eq_iff_between wf hsym hsym' hbottom htop (by omega) (Nat.le_refl 257)]
      have hgap : countEnd f arc.mod 258 = f.low := by simp [countEnd]
      show countEnd f arc.mod 258 ≤ v ∧ _ ↔ v < countEnd f arc.mod 257
      have hlo' : arc.low ≤ v := hlo
      omega

end Ready

/-- A range that is up to date, as `dach_encode_step` and `dach_decode` make it before they use it. -/
def Arc.ranged (arc : Arc) : Arc :=
  { arc with range := arc.high - arc.low + 1 }

/-- In every state a coder reaches, on a file or on a block, the symbol found for a code value is the
    one whose subinterval holds it. -/
theorem findSym_inverts_narrowing (host : Host) (data : List UInt8)
    (hlen : data.length ≤ 2 ^ 29 - 257) :
    (∀ fsize, 1 ≤ fsize → ∃ new shifts arc, encoderNew host fsize = .ok new ∧
      encodeLoop host data new = .ok (shifts, arc) ∧ ∃ lo hi, Selection arc.ranged lo hi) ∧
    (∀ bid length, ∃ new shifts arc, blockEncoderNew host bid length = .ok new ∧
      encodeLoop host data new = .ok (shifts, arc) ∧ ∃ lo hi, Selection arc.ranged lo hi) := by
  have hrun : ∀ (sink : Sink host) (mod : Ppm0) (blocksize : Nat), FreshTables mod →
      sink.Room (31 * data.length) → ∃ shifts arc,
        encodeLoop host data (arcFresh mod (sink.io []) blocksize) = .ok (shifts, arc) ∧
          ∃ lo hi, Selection arc.ranged lo hi := by
    intro sink mod blocksize fresh hroom
    have hscale : mod.scale = 257 := fresh.scale_eq
    obtain ⟨shifts, words, f, arc, hloop, hrun⟩ := encodeLoop_spec data
      (arcFresh_ready sink fresh blocksize) (by show 2 * (mod.scale + _) ≤ _; omega)
      (by show 0 + data.length < _; omega)
      (sink.room_mono (by show 0 + 31 * data.length ≤ _; omega) hroom)
    have hscale' : arc.mod.scale = mod.scale + data.length := hrun.scale
    exact ⟨shifts, arc, hloop, _, _, hrun.ready.selection (by omega)⟩
  constructor
  · intro fsize hpos
    obtain ⟨mod, _, fresh, hnew⟩ := encoderNew_eq host fsize hpos
    obtain ⟨shifts, arc, hloop, hsel⟩ := hrun (encodeSink host fsize) mod fsize fresh trivial
    exact ⟨_, shifts, arc, hnew, hloop, hsel⟩
  · intro bid length
    obtain ⟨mod, hmod, fresh⟩ := dachPpm0New_fresh
    obtain ⟨shifts, arc, hloop, hsel⟩ := hrun (blockSink host bid length) mod length fresh
      (show 31 * data.length < 2 ^ 60 by omega)
    exact ⟨_, shifts, arc, blockEncoderNew_eq host bid length hmod fresh, hloop, hsel⟩

/-- After seven bytes of three values, of nine. -/
theorem findSym_inverts_narrowing_seven : ∃ new shifts arc, encoderNew littleHost 9 = .ok new ∧
    encodeLoop littleHost [65, 66, 65, 67, 66, 65, 65] new = .ok (shifts, arc) ∧
      ∃ lo hi, Selection arc.ranged lo hi :=
  (findSym_inverts_narrowing littleHost [65, 66, 65, 67, 66, 65, 65] (by decide)).1 9 (by decide)

end Dach
