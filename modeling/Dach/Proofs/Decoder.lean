/-
Module: Dach.Proofs.Decoder
Layer: Proofs
Purpose: The decoder follows the abstract interval coder on the code value its source spells, whatever
  the bytes are. `esym` is the code value seen from the start of the window, and the symbol the model
  finds is the one whose slice holds it.
Imports: Dach.Core.Command, Dach.Proofs.Encoder, Dach.Proofs.Input
Trusted boundary: none
Main exports: DecoderAt, DecoderReady, decodeRenorm_spec, Selected, exists_selected,
  DecoderReady.selected, dachDecode_last, dachDecode_reserved, dachDecode_more
-/
import Dach.Core.Command
import Dach.Proofs.Encoder
import Dach.Proofs.Input

namespace Dach

open IntervalCoder

/-! ### Decoder states -/

/-- A decoder at a frame: it has read one window more than the doublings made, `esym` is the code
    value relative to the window, and the frame holds it. -/
structure DecoderAt {host : Host} (src : Source host) (f : Frame) (arc : Arc) : Prop where
  registers : arc.Registers f
  reading : Reading src (f.shifts + 32) arc
  esym : arc.esym + f.base = src.code.value f.shifts
  within : src.code.Within f

theorem DecoderAt.esym_bounds {host : Host} {src : Source host} {f : Frame} {arc : Arc}
    (h : DecoderAt src f arc) : f.low ≤ arc.esym ∧ arc.esym ≤ f.high := by
  obtain ⟨hlo, hhi⟩ := h.within
  rw [← h.esym] at hlo hhi
  unfold Frame.lower at hlo
  unfold Frame.upper at hhi
  omega

section Decoder

variable {host : Host} {src : Source host} {arc : Arc} {f g : Frame}

/-! ### Renormalisation -/

/-- The end of a pass: the interval has been shifted to `g`, and `esym` follows with the next bit. -/
theorem decodeShift_spec (f : Frame) (arc : Arc) (rest : Nat) (hregs : (shiftInterval arc).Registers g)
    (hv : g.Valid (2 ^ 30)) (hreading : Reading src (f.shifts + 32) arc)
    (hshifts : g.shifts = f.shifts + 1) (hrest : u32 (arc.esym <<< 1) = 2 * rest)
    (hvalue : 2 * rest + g.base = 2 * src.code.value f.shifts) (hwithin : src.code.Within g) :
    (src.Readable (g.shifts + 32) → ∃ arc', decodeShift host arc = .ok (some arc') ∧
      DecoderAt src g arc' ∧ arc.SameModel arc') ∧
    (src.Readable (f.shifts + 32) → ¬ src.Readable (g.shifts + 32) →
      decodeShift host arc = .error .bitinEof) := by
  have hlt : (shiftInterval arc).high > (shiftInterval arc).low := by
    rw [hregs.low, hregs.high]
    exact hv.1
  have hmask : u32 (arc.esym <<< 1) &&& 0xFFFFFFFF = 2 * rest := by
    have hsmall : u32 (arc.esym <<< 1) < 2 ^ 32 := Nat.mod_lt _ (Nat.two_pow_pos 32)
    rw [and_low32, Nat.mod_eq_of_lt hsmall, hrest]
  have hesym : (shiftInterval arc).esym = arc.esym := rfl
  have hreading' : Reading src (f.shifts + 32)
      { shiftInterval arc with esym := 2 * rest } :=
    ⟨hreading.io, hreading.eof, hreading.size, hreading.full, hreading.buffer⟩
  rw [hshifts, Nat.add_right_comm]
  constructor
  · intro hready
    obtain ⟨io, eofIn, buffer, full, hbit, hnext⟩ := dachBitin_spec _ hreading' hready
    have hbitLe := Bool.toNat_le (src.bit (f.shifts + 32))
    have hor : 2 * rest ||| (src.bit (f.shifts + 32)).toNat
        = 2 * rest + (src.bit (f.shifts + 32)).toNat :=
      (Nat.two_pow_add_eq_or_of_lt (i := 1) (by omega) rest).symm
    refine ⟨{ shiftInterval arc with
      io := io, eofIn := eofIn, ioBuffer := buffer, ioBufferFull := full
      esym := 2 * rest + (src.bit (f.shifts + 32)).toNat }, ?_,
      ⟨⟨hregs.low, hregs.high⟩, ?_, ?_, hwithin⟩, ⟨rfl, rfl, rfl, rfl, rfl⟩⟩
    · simp only [decodeShift, cassert_pos _ hlt, ok_bind, hesym, hmask, hbit, pure_eq_ok, hor]
    · rw [hshifts, Nat.add_right_comm]
      exact ⟨hnext.io, hnext.eof, hnext.size, hnext.full, hnext.buffer⟩
    · have hvalue' : src.code.value (f.shifts + 1)
          = 2 * src.code.value f.shifts + (src.bit (f.shifts + 32)).toNat := by
        show Bits.prefixVal src.bit (f.shifts + 1 + 32) = _
        rw [Nat.add_right_comm, Bits.prefixVal]
        rfl
      show 2 * rest + (src.bit (f.shifts + 32)).toNat + g.base = src.code.value g.shifts
      rw [hshifts, hvalue']
      omega
  · intro hready hstop
    simp only [decodeShift, cassert_pos _ hlt, ok_bind, hesym, hmask,
      dachBitin_eof hreading' hready hstop, error_bind]

theorem DecoderAt.low_lt_high (h : DecoderAt src f arc) (hv : f.Valid (2 ^ 30)) :
    arc.high > arc.low := by
  rw [h.registers.low, h.registers.high]
  exact hv.1

/-- A pass when the interval lies in one half of the window. -/
theorem decodePass_half (h : DecoderAt src f arc) (hv : f.Valid (2 ^ 30)) {off : Nat}
    (hside : off = 0 ∧ f.high < 2 * 2 ^ 30 ∨ off = 2 * 2 ^ 30 ∧ 2 * 2 ^ 30 ≤ f.low)
    (step : f.shift? (2 ^ 30) = some (f.shiftBy off)) :
    (src.Readable ((f.shiftBy off).shifts + 32) → ∃ arc', decodePass host arc = .ok (some arc') ∧
      DecoderAt src (f.shiftBy off) arc' ∧ arc.SameModel arc') ∧
    (src.Readable (f.shifts + 32) → ¬ src.Readable ((f.shiftBy off).shifts + 32) →
      decodePass host arc = .error .bitinEof) := by
  obtain ⟨hlo, hhi⟩ := h.esym_bounds
  have hbound := hv.2
  have hesym := h.esym
  rw [decodePass_eq_half host h.registers hv (hside.imp And.right And.right)]
  refine decodeShift_spec f arc (arc.esym - off) (shiftInterval_half arc h.registers hv hside)
    (Frame.shift?_spec step hv).1 h.reading rfl ?_ ?_ ((within_shift_iff step hv).mpr h.within)
  · unfold u32
    rw [Nat.shiftLeft_eq]
    omega
  · show 2 * (arc.esym - off) + 2 * (f.base + off) = _
    omega

/-- A pass when it lies in the middle half: the exclusive or takes a quarter of the window from
    `esym`. -/
theorem decodePass_middle (h : DecoderAt src f arc) (hv : f.Valid (2 ^ 30)) (hlo : 2 ^ 30 ≤ f.low)
    (hlo' : f.low < 2 * 2 ^ 30) (hhi : 2 * 2 ^ 30 ≤ f.high) (hhi' : f.high < 3 * 2 ^ 30)
    (step : f.shift? (2 ^ 30) = some (f.shiftBy (2 ^ 30))) :
    (src.Readable ((f.shiftBy (2 ^ 30)).shifts + 32) → ∃ arc',
      decodePass host arc = .ok (some arc') ∧ DecoderAt src (f.shiftBy (2 ^ 30)) arc' ∧
        arc.SameModel arc') ∧
    (src.Readable (f.shifts + 32) → ¬ src.Readable ((f.shiftBy (2 ^ 30)).shifts + 32) →
      decodePass host arc = .error .bitinEof) := by
  obtain ⟨hlower, hupper⟩ := h.esym_bounds
  have hesym := h.esym
  have hregs : (shiftInterval { arc with
      esym := arc.esym ^^^ 0x40000000
      low := arc.low &&& 0x3FFFFFFF
      high := arc.high ||| 0x40000000 }).Registers (f.shiftBy (2 ^ 30)) := by
    refine shiftInterval_middle ?_ ?_ hlo hlo' hhi hhi'
    · rw [h.registers.low]
    · rw [h.registers.high]
  have hspec := decodeShift_spec f _ (arc.esym - 2 ^ 30) hregs (Frame.shift?_spec step hv).1
    ⟨h.reading.io, h.reading.eof, h.reading.size, h.reading.full, h.reading.buffer⟩ rfl ?_ ?_
    ((within_shift_iff step hv).mpr h.within)
  · rw [decodePass_eq_middle host h.registers hlo hlo' hhi hhi']
    refine ⟨fun hready => ?_, hspec.2⟩
    obtain ⟨arc', hrun, hat, hsame⟩ := hspec.1 hready
    exact ⟨arc', hrun, hat, hsame.mod, hsame.scale, hsame.totalSyms, hsame.blocksize, hsame.stop⟩
  · show u32 ((arc.esym ^^^ 0x40000000) <<< 1) = 2 * (arc.esym - 2 ^ 30)
    rw [xor_bit30, u32, Nat.shiftLeft_eq]
    split <;> omega
  · show 2 * (arc.esym - 2 ^ 30) + 2 * (f.base + 2 ^ 30) = _
    omega

/-- One pass of the renormalisation loop makes one shift, or stops at the end of the file. -/
theorem decodePass_spec (h : DecoderAt src f arc) (hv : f.Valid (2 ^ 30))
    (step : f.shift? (2 ^ 30) = some g) :
    (src.Readable (g.shifts + 32) → ∃ arc', decodePass host arc = .ok (some arc') ∧
      DecoderAt src g arc' ∧ arc.SameModel arc') ∧
    (src.Readable (f.shifts + 32) → ¬ src.Readable (g.shifts + 32) →
      decodePass host arc = .error .bitinEof) := by
  rcases shift?_cases hv with (⟨hside, hstep⟩ | ⟨hside, hstep⟩) | ⟨⟨hlo', hhi⟩, hmid | hnone⟩
  · obtain rfl : f.shiftBy 0 = g := Option.some.inj (hstep.symm.trans step)
    exact decodePass_half h hv (Or.inl ⟨rfl, hside⟩) step
  · obtain rfl : f.shiftBy (2 * 2 ^ 30) = g := Option.some.inj (hstep.symm.trans step)
    exact decodePass_half h hv (Or.inr ⟨rfl, hside⟩) step
  · obtain ⟨hlo, hhi', hstep⟩ := hmid
    obtain rfl : f.shiftBy (2 ^ 30) = g := Option.some.inj (hstep.symm.trans step)
    exact decodePass_middle h hv hlo hlo' hhi hhi' step
  · rw [hnone.2] at step
    cases step

/-- The renormalisation loop of `dach_decode` makes the shifts of the abstract coder if the file is
    long enough for them, and stops at the end of the file if it is not. -/
theorem decodeRenorm_spec {k : Nat} (h : DecoderAt src f arc) (hv : f.Valid (2 ^ 30))
    (hread : src.Readable (f.shifts + 32)) (run : Loop.HaltsIn (Frame.shift? (2 ^ 30)) k f g) :
    (src.Readable (g.shifts + 32) → ∃ arc', decodeRenorm host arc = .ok (k, arc') ∧
      DecoderAt src g arc' ∧ arc.SameModel arc') ∧
    (¬ src.Readable (g.shifts + 32) → decodeRenorm host arc = .error .bitinEof) := by
  have hk := renorm_shifts_le (m := 31) run hv (by norm_num)
  have hrule := Loop.forever_of_haltsIn Abort.loopForever .bitinEof (decodePass host)
    (fun b => src.Readable (b.shifts + 32))
    (R := fun a b => b.Valid (2 ^ 30) ∧ DecoderAt src b a ∧ arc.SameModel a ∧
      src.Readable (b.shifts + 32))
    (fun s a ⟨hva, hat, _, _⟩ hnone =>
      decodePass_break host hat.registers (Frame.normal_of_shift?_eq_none hnone hva))
    (fun s a b ⟨hva, hat, hsame, _⟩ hstep hready => by
      obtain ⟨t, hpass, hat', hsame'⟩ := (decodePass_spec hat hva hstep).1 hready
      exact ⟨t, hpass, (Frame.shift?_spec hstep hva).1, hat', hsame.trans hsame', hready⟩)
    (fun s a b ⟨hva, hat, _, hready⟩ hstep hstop => (decodePass_spec hat hva hstep).2 hready hstop)
    (fun a b hstep hready => by
      obtain ⟨off, _, rfl⟩ := Option.map_eq_some_iff.mp hstep
      exact hready.mono (by show a.shifts + 32 ≤ a.shifts + 1 + 32; omega))
    run (show k < loopFuel by unfold loopFuel; omega)
    ⟨hv, h, Arc.SameModel.refl arc, hread⟩ hread
  refine ⟨fun hready => ?_, hrule.2⟩
  obtain ⟨arc', hloop, _, hat, hsame, _⟩ := hrule.1 hready
  exact ⟨arc', hloop, hat, hsame⟩

/-! ### Symbols -/

/-- A decoder between two calls of `dach_decode`. -/
structure DecoderReady (src : Source host) (f : Frame) (arc : Arc) : Prop where
  place : DecoderAt src f arc
  model : arc.Model
  normal : f.Normal (2 ^ 30)
  readable : src.Readable (f.shifts + 32)

/-- `dach_ppm0_find_sym` returns this symbol for the current code value, which lies in its part of the
    interval. -/
structure Selected (f : Frame) (arc : Arc) (sym : Nat) : Prop where
  pos : 1 ≤ sym
  le : sym ≤ 257
  found : dachPpm0FindSym arc.mod (decodeCount { arc with range := f.range }) = .ok sym
  lower : f.low + f.range * arc.mod.cumAt (sym + 1) / arc.mod.scale ≤ arc.esym
  upper : arc.esym < f.low + f.range * arc.mod.cumAt sym / arc.mod.scale

/-- Some symbol is found for every value of `esym` in the interval, as long as the product with the scale
    does not wrap. -/
theorem exists_selected (regs : arc.Registers f) (model : arc.Model) (hn : f.Normal (2 ^ 30))
    (hwrap : f.range * arc.scale < 2 ^ 64) (hlo : f.low ≤ arc.esym) (hhi : arc.esym ≤ f.high) :
    ∃ sym, Selected f arc sym := by
  have hpos := model.wf.scale_pos
  have hcount := decodeCount_eq { arc with range := f.range } ⟨regs.low, regs.high⟩ hn.valid rfl
    (by rw [model.scale]; exact hpos) hwrap hlo hhi
  have hcount' := hcount.trans (congrArg (f.target arc.esym) model.scale)
  obtain ⟨sym, hfind, hsym, hsym', hle, hlt⟩ :=
    dachPpm0FindSym_spec model.wf (target_lt (f := f) hhi hpos)
  refine ⟨sym, hsym, hsym', ?_, ?_, ?_⟩
  · rw [hcount']
    exact hfind
  · exact (le_target_iff hlo hpos _).mp hle
  · by_contra hge
    have := (le_target_iff hlo hpos (arc.mod.cumAt sym)).mpr (by omega)
    omega

theorem DecoderReady.selected (h : DecoderReady src f arc) (hwrap : f.range * arc.scale < 2 ^ 64) :
    ∃ sym, Selected f arc sym := by
  obtain ⟨hlo, hhi⟩ := h.place.esym_bounds
  exact exists_selected h.place.registers h.model h.normal hwrap hlo hhi

/-- The parts of two symbols do not overlap. -/
theorem Ppm0.WF.sym_of_bounds {ppm : Ppm0} (wf : ppm.WF) {v s t : Nat} (hs : 1 ≤ s) (hs' : s ≤ 257)
    (ht : 1 ≤ t) (ht' : t ≤ 257) (hlo : f.low + f.range * ppm.cumAt (s + 1) / ppm.scale ≤ v)
    (hhi : v < f.low + f.range * ppm.cumAt s / ppm.scale)
    (hlo' : f.low + f.range * ppm.cumAt (t + 1) / ppm.scale ≤ v)
    (hhi' : v < f.low + f.range * ppm.cumAt t / ppm.scale) : s = t := by
  have hv : f.low ≤ v := Nat.le_trans (Nat.le_add_right _ _) hlo
  have hpos := wf.scale_pos
  have hlt : ∀ c, v < f.low + f.range * c / ppm.scale → f.target v ppm.scale < c := by
    intro c hc
    by_contra hge
    have := (le_target_iff hv hpos c).mp (by omega)
    omega
  exact wf.sym_unique hs hs' ht ht' ((le_target_iff hv hpos _).mpr hlo) (hlt _ hhi)
    ((le_target_iff hv hpos _).mpr hlo') (hlt _ hhi')

namespace Selected

variable {sym : Nat}

/-- The selected slice is not empty. -/
theorem narrows (h : Selected f arc sym) :
    f.range * arc.mod.cumAt (sym + 1) / arc.mod.scale < f.range * arc.mod.cumAt sym / arc.mod.scale := by
  have hlo := h.lower
  have hhi := h.upper
  omega

/-- The selected slice holds the code value. -/
theorem within (h : Selected f arc sym) (hat : DecoderAt src f arc) (wf : arc.mod.WF) :
    src.code.Within (f.narrow (wf.slice h.pos h.le)) := by
  exact (within_narrow_iff (s := wf.slice h.pos h.le) h.narrows hat.esym).mpr ⟨h.lower, h.upper⟩

end Selected

/-- Whether a product with the scale wraps. -/
def Arc.NoWrap (arc : Arc) : Prop :=
  (arc.high - arc.low + 1) * arc.scale < 2 ^ 64

/-- The part of `dach_decode` up to the count of the symbol. -/
theorem dachDecode_start (h : DecoderReady src f arc) {sym : Nat} (hsel : Selected f arc sym)
    (htotal : arc.totalSyms + 1 ≤ arc.blocksize) (hblock : arc.blocksize < 2 ^ 64) :
    dachDecode host arc =
      if arc.totalSyms + 1 = arc.blocksize then
        .ok (u8 (arc.mod.symToChr sym),
          { arc with range := f.range, totalSyms := arc.totalSyms + 1, stop := true })
      else do
        cassert (sym ≤ 256) .decodeReserved
        let arc ← dachEncodeStep { arc with range := f.range, totalSyms := arc.totalSyms + 1 } sym
        let cf ← dachPpm0Cumfreq arc.mod sym
        cassert (cf ≤ arc.scale) .decodeCumfreq
        let (_, arc) ← decodeRenorm host arc
        let sym1 ← dachSymToChr arc.mod sym
        let (scale, mod) ← dachPpm0Update arc.mod sym
        let arc := { arc with mod := mod, scale := scale }
        cassert (arc.high > arc.low) .decodeInterval
        return (sym1, arc) := by
  have hgt := h.place.low_lt_high h.normal.valid
  have hchr : dachSymToChr arc.mod sym = .ok (arc.mod.symToChr sym) :=
    dachSymToChr_eq (Nat.le_succ_of_le hsel.le)
  have htotal' : u64 (arc.totalSyms + 1) = arc.totalSyms + 1 := u64_of_lt (by omega)
  simp only [dachDecode, cassert_pos _ hgt, dachCalcRange_eq h.place.registers h.normal.valid, ok_bind,
    hsel.found, htotal', cassert_pos _ htotal, hchr, pure_eq_ok]

/-- The last symbol of a block is returned as soon as it is found. -/
theorem dachDecode_last (h : DecoderReady src f arc) {sym : Nat} (hsel : Selected f arc sym)
    (hlast : arc.totalSyms + 1 = arc.blocksize) (hblock : arc.blocksize < 2 ^ 64) :
    dachDecode host arc = .ok (u8 (arc.mod.symToChr sym),
      { arc with range := f.range, totalSyms := arc.totalSyms + 1, stop := true }) := by
  rw [dachDecode_start h hsel (Nat.le_of_eq hlast) hblock, if_pos hlast]

/-- The reserved symbol is rejected before the last position. -/
theorem dachDecode_reserved (h : DecoderReady src f arc) (hsel : Selected f arc 257)
    (hmore : arc.totalSyms + 1 < arc.blocksize) (hblock : arc.blocksize < 2 ^ 64) :
    dachDecode host arc = .error .decodeReserved := by
  rw [dachDecode_start h hsel (Nat.le_of_lt hmore) hblock, if_neg (by omega),
    cassert_neg _ (by omega), error_bind]

/-- A symbol before the last position: the interval is narrowed to its slice, and the rest of the call
    starts from there. -/
theorem dachDecode_narrow (h : DecoderReady src f arc) {sym : Nat} (hsel : Selected f arc sym)
    (hsym : sym ≤ 256) (hwrap : f.range * arc.scale < 2 ^ 64)
    (hmore : arc.totalSyms + 1 < arc.blocksize) (hblock : arc.blocksize < 2 ^ 64) :
    dachDecode host arc = do
      let (_, arc) ← decodeRenorm host { arc with
        range := f.range
        totalSyms := arc.totalSyms + 1
        high := (f.narrow (h.model.wf.slice hsel.pos hsel.le)).high
        low := (f.narrow (h.model.wf.slice hsel.pos hsel.le)).low }
      let sym1 ← dachSymToChr arc.mod sym
      let (scale, mod) ← dachPpm0Update arc.mod sym
      let arc := { arc with mod := mod, scale := scale }
      cassert (arc.high > arc.low) .decodeInterval
      return (sym1, arc) := by
  have hstep := dachEncodeStep_eq
    { arc with range := f.range, totalSyms := arc.totalSyms + 1 }
    h.model.wf h.model.scale ⟨h.place.registers.low, h.place.registers.high⟩ h.normal.valid hwrap
    hsel.pos hsym
  rw [if_pos hsel.narrows] at hstep
  have hcf : arc.mod.cumAt sym ≤ arc.scale := by
    rw [h.model.scale]
    exact h.model.wf.cum_le_scale (by omega)
  rw [dachDecode_start h hsel (Nat.le_of_lt hmore) hblock, if_neg (by omega), cassert_pos _ hsym,
    ok_bind, hstep, ok_bind]
  simp only [dachPpm0Cumfreq_eq (show sym ≤ 258 by omega), ok_bind, cassert_pos _ hcf]

/-- A symbol before the last position: the decoder moves on to its slice, unless the file is too short
    for the renormalisation. -/
theorem dachDecode_more {k : Nat} (h : DecoderReady src f arc) {sym : Nat} (hsel : Selected f arc sym)
    (hsym : sym ≤ 256) (hwrap : f.range * arc.scale < 2 ^ 64) (hscale : arc.mod.scale ≤ 2 ^ 32 + 254)
    (hmore : arc.totalSyms + 1 < arc.blocksize) (hblock : arc.blocksize < 2 ^ 64)
    (hv : (f.narrow (h.model.wf.slice hsel.pos hsel.le)).Valid (2 ^ 30))
    (run : Loop.HaltsIn (Frame.shift? (2 ^ 30)) k (f.narrow (h.model.wf.slice hsel.pos hsel.le)) g) :
    (src.Readable (g.shifts + 32) →
      ∃ arc', dachDecode host arc = .ok (arc.mod.symToChr sym, arc') ∧ DecoderReady src g arc' ∧
        dachPpm0Update arc.mod sym = .ok (arc'.mod.scale, arc'.mod) ∧
        arc'.mod.scale = arc.mod.scale + 1 ∧ arc'.totalSyms = arc.totalSyms + 1 ∧
        arc'.blocksize = arc.blocksize ∧ arc'.stop = arc.stop) ∧
    (¬ src.Readable (g.shifts + 32) → dachDecode host arc = .error .bitinEof) := by
  have hat : DecoderAt src (f.narrow (h.model.wf.slice hsel.pos hsel.le)) { arc with
      range := f.range
      totalSyms := arc.totalSyms + 1
      high := (f.narrow (h.model.wf.slice hsel.pos hsel.le)).high
      low := (f.narrow (h.model.wf.slice hsel.pos hsel.le)).low } :=
    ⟨⟨rfl, rfl⟩, ⟨h.place.reading.io, h.place.reading.eof, h.place.reading.size,
      h.place.reading.full, h.place.reading.buffer⟩, h.place.esym, hsel.within h.place h.model.wf⟩
  obtain ⟨hok, hstop⟩ := decodeRenorm_spec hat hv h.readable run
  obtain ⟨mod', hupdate, hwf, hres, hscale'⟩ := h.model.update hsel.pos hsym hscale
  have hnormal := (renorm_spec run hv).1
  rw [dachDecode_narrow h hsel hsym hwrap hmore hblock]
  constructor
  · intro hready
    obtain ⟨arc', hloop, hat', hsame⟩ := hok hready
    have hmod : arc'.mod = arc.mod := hsame.mod
    have hchr : dachSymToChr arc.mod sym = .ok (arc.mod.symToChr sym) :=
      dachSymToChr_eq (Nat.le_succ_of_le hsel.le)
    have hgt := hat'.low_lt_high hnormal.valid
    refine ⟨{ arc' with mod := mod', scale := mod'.scale }, ?_, ⟨?_, ⟨hwf, hres, rfl⟩, hnormal, hready⟩,
      hupdate, hscale', hsame.totalSyms, hsame.blocksize, hsame.stop⟩
    · simp only [hloop, ok_bind, hmod, hchr, hupdate, cassert_pos _ hgt, pure_eq_ok]
    · exact ⟨⟨hat'.registers.low, hat'.registers.high⟩, ⟨hat'.reading.io, hat'.reading.eof,
        hat'.reading.size, hat'.reading.full, hat'.reading.buffer⟩, hat'.esym, hat'.within⟩
  · intro hready
    simp only [hstop hready, error_bind]

end Decoder

end Dach
