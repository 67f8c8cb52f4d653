/-
Module: Dach.Proofs.Meter
Layer: Proofs
Purpose: The meter changes nothing: every metered run is a run of the decoder with a number beside it, and
  it counts one refill for 32 bits that are read.
Imports: Dach.Core.Meter, Dach.Lib.Outcome, Dach.Proofs.Lockstep
Trusted boundary: none
Main exports: meteredDecodeFile_projects, MeteredAt, meteredRenorm_spec, meteredDecode_codes,
  meteredStartDecoder_ready, meteredDecodeLoop_codes, meteredDecodeLoop_last
-/
import Dach.Core.Meter
import Dach.Lib.Outcome
import Dach.Proofs.Lockstep

namespace Dach

open IntervalCoder Outcome

/-! ### The decoder behind the meter -/

/-- The refills that the next call of `dach_bitin` makes. -/
def Arc.refillsNext (arc : Arc) : Nat :=
  if arc.ioBufferFull = 0 then 1 else 0

/-- A coder with the meter moved on by the refills of one bit from here. -/
def MeteredArc.next (m : MeteredArc) (arc : Arc) : MeteredArc :=
  { arc := arc, refills := m.refills + m.arc.refillsNext }

section Projections

variable (host : Host) (m : MeteredArc)

theorem meteredBitin_eq :
    meteredBitin host m = (dachBitin host m.arc).map (Prod.map id m.next) := by
  by_cases hzero : m.arc.ioBufferFull = 0
  · have hnext : m.next = fun arc => { arc := arc, refills := m.refills + 1 } := by
      funext arc
      rw [MeteredArc.next, Arc.refillsNext, if_pos hzero]
    rw [hnext]
    simp only [meteredBitin, dachBitin, if_pos hzero]
    rcases bitinWord host m.arc with e | arc
    · rfl
    · simp only [ok_bind, pure_eq_ok]
      cases bitinTop arc <;> rfl
  · have hnext : m.next = fun arc => { m with arc := arc } := by
      funext arc
      rw [MeteredArc.next, Arc.refillsNext, if_neg hzero, Nat.add_zero]
    rw [hnext]
    simp only [meteredBitin, dachBitin, if_neg hzero, pure_eq_ok, ok_bind]
    cases bitinTop m.arc <;> rfl

theorem meteredShift_eq :
    meteredShift host m = (decodeShift host m.arc).map (Option.map m.next) := by
  by_cases hgt : (shiftInterval m.arc).high > (shiftInterval m.arc).low
  · simp only [meteredShift, decodeShift, cassert_pos _ hgt, ok_bind, meteredBitin_eq]
    rcases dachBitin host _ with e | ⟨bit, arc⟩
    · rfl
    · rfl
  · simp only [meteredShift, decodeShift, cassert_neg _ hgt, error_bind]
    rfl

/-- A pass of the loop reads one bit, or none if it breaks. -/
theorem meteredPass_eq :
    meteredPass host m = (decodePass host m.arc).map (Option.map m.next) := by
  by_cases hgt : m.arc.high > m.arc.low
  · simp only [meteredPass, decodePass, cassert_pos _ hgt, ok_bind]
    by_cases hmsb : m.arc.high &&& 0x80000000 = m.arc.low &&& 0x80000000
    · rw [if_pos hmsb, if_pos hmsb, meteredShift_eq]
    · rw [if_neg hmsb, if_neg hmsb]
      by_cases hmiddle : m.arc.low &&& 0x40000000 ≠ 0 ∧ m.arc.high &&& 0x40000000 = 0
      · rw [if_pos hmiddle, if_pos hmiddle]
        by_cases hgt' : m.arc.high ||| 0x40000000 > m.arc.low &&& 0x3FFFFFFF
        · rw [cassert_pos _ hgt', ok_bind, ok_bind, meteredShift_eq]
          rfl
        · rw [cassert_neg _ hgt', error_bind, error_bind]
          rfl
      · rw [if_neg hmiddle, if_neg hmiddle]
        rfl
  · simp only [meteredPass, decodePass, cassert_neg _ hgt, error_bind]
    rfl

theorem meteredBitin_projects :
    Projects (Prod.map id MeteredArc.arc) (meteredBitin host m) (dachBitin host m.arc) := by
  rw [meteredBitin_eq]
  cases dachBitin host m.arc <;> rfl

theorem meteredPass_projects :
    Projects (Option.map MeteredArc.arc) (meteredPass host m) (decodePass host m.arc) := by
  rw [meteredPass_eq]
  rcases decodePass host m.arc with e | _ | arc <;> rfl

theorem meteredRenorm_projects :
    Projects (Prod.map id MeteredArc.arc) (meteredRenorm host m) (decodeRenorm host m.arc) :=
  Projects.forever (meteredPass_projects host) loopFuel m

theorem meteredStartLoop_projects (left : Nat) : ∀ m : MeteredArc,
    Projects MeteredArc.arc (meteredStartLoop host left m) (startLoop host left m.arc) := by
  induction left with
  | zero =>
      intro m
      exact .ok rfl
  | succ left ih =>
      intro m
      rw [meteredStartLoop, startLoop]
      apply (meteredBitin_projects host _).bind
      rintro ⟨bit, m⟩
      exact ih _

theorem meteredDecode_projects :
    Projects (Prod.map id MeteredArc.arc) (meteredDecode host m) (dachDecode host m.arc) := by
  rw [meteredDecode, dachDecode]
  refine (Projects.same _).bind fun _ => (Projects.same _).bind fun range => ?_
  refine (Projects.same _).bind fun sym => (Projects.same _).bind fun _ => Projects.ite ?_ ?_
  · exact (Projects.same _).bind fun chr => .ok rfl
  · refine (Projects.same _).bind fun _ => (Projects.same _).bind fun _ => ?_
    refine (Projects.same _).bind fun arc => (Projects.same _).bind fun cf => ?_
    refine (Projects.same _).bind fun _ => ?_
    apply (meteredRenorm_projects host _).bind
    rintro ⟨k, m⟩
    refine (Projects.same _).bind fun sym1 => ?_
    apply (Projects.same _).bind
    rintro ⟨scale, mod⟩
    exact (Projects.same _).bind fun _ => .ok rfl

theorem meteredDecodeLoop_projects (fuel : Nat) : ∀ (m : MeteredArc) (buf : List UInt8)
    (fdOut : CFile), Projects Prod.snd (meteredDecodeLoop host fuel m buf fdOut)
      (decodeLoop host fuel m.arc buf fdOut) := by
  induction fuel with
  | zero =>
      intro m buf fdOut
      rw [meteredDecodeLoop, decodeLoop]
      exact Projects.ite (.ok rfl) rfl
  | succ fuel ih =>
      intro m buf fdOut
      rw [meteredDecodeLoop, decodeLoop]
      apply Projects.ite (.ok rfl)
      apply (meteredDecode_projects host m).bind
      rintro ⟨chr, m⟩
      exact Projects.ite (ih _ _ _) (ih _ _ _)

end Projections

/-- The metered `decode` is `decode` with a number beside it, whatever the file. -/
theorem meteredDecodeFile_projects (host : Host) (content : List UInt8) :
    Projects Prod.snd (meteredDecodeFile host content) (decode host content) := by
  rw [meteredDecodeFile, decode, decoderNew]
  rw [bind_assoc]
  refine (Projects.same _).bind fun mod => ?_
  rw [bind_assoc]
  refine (Projects.same _).bind fun arc => ?_
  refine (meteredStartLoop_projects host 32 _).bind fun m => ?_
  apply (meteredDecodeLoop_projects host _ m [] _).bind
  rintro ⟨refills, buf, fdOut⟩
  exact .ok rfl

/-! ### The count -/

/-- A coder that has read this many bits has refilled once for 32 of them. -/
theorem Reading.refillsNext {host : Host} {src : Source host} {bits : Nat} {arc : Arc}
    (h : Reading src bits arc) : (bits + 31) / 32 + arc.refillsNext = (bits + 1 + 31) / 32 := by
  have hfull := h.full
  rw [Arc.refillsNext]
  split
  · omega
  · omega

/-- A metered decoder at a frame: it has read one window more than the doublings made. -/
structure MeteredAt {host : Host} (src : Source host) (f : Frame) (m : MeteredArc) : Prop where
  place : DecoderAt src f m.arc
  refills : m.refills = (f.shifts + 32 + 31) / 32

section Count

variable {host : Host} {src : Source host} {m : MeteredArc} {f g : Frame}

/-- One pass of the renormalisation loop. -/
theorem meteredPass_spec (h : MeteredAt src f m) (hv : f.Valid (2 ^ 30))
    (step : f.shift? (2 ^ 30) = some g) (hread : src.Readable (g.shifts + 32)) :
    ∃ m', meteredPass host m = .ok (some m') ∧ MeteredAt src g m' := by
  rcases (decodePass_spec h.place hv step).1 hread with ⟨arc, hpass, hat, _⟩
  have hshifts := (Frame.shift?_spec step hv).2.2.1
  refine ⟨m.next arc, ?_, hat, ?_⟩
  · rw [meteredPass_eq, hpass]
    rfl
  · rw [hshifts, Nat.add_right_comm f.shifts, ← h.place.reading.refillsNext, ← h.refills]
    rfl

/-- The renormalisation loop. -/
theorem meteredRenorm_spec {k : Nat} (h : MeteredAt src f m) (hv : f.Valid (2 ^ 30))
    (hread : src.Readable (g.shifts + 32)) (run : Loop.HaltsIn (Frame.shift? (2 ^ 30)) k f g) :
    ∃ m', meteredRenorm host m = .ok (k, m') ∧ MeteredAt src g m' := by
  have hk := renorm_shifts_le (m := 31) run hv (by norm_num)
  have hnormal := (renorm_spec run hv).1
  rcases Loop.forever_of_haltsIn_total Abort.loopForever (meteredPass host)
      (R := fun s b => b.Valid (2 ^ 30) ∧ MeteredAt src b s)
      (fun s ⟨_, hat⟩ => by
        rw [meteredPass_eq, decodePass_break host hat.place.registers hnormal]
        rfl)
      (fun s a b j ⟨hva, hat⟩ hstep tail => by
        have hvb := (Frame.shift?_spec hstep hva).1
        have hle := shifts_le_of_haltsIn tail hvb
        rcases meteredPass_spec hat hva hstep (hread.mono (by omega)) with ⟨t, hpass, hat'⟩
        exact ⟨t, hpass, hvb, hat'⟩)
      run (show k < loopFuel by unfold loopFuel; omega) ⟨hv, h⟩ with ⟨m', hloop, _, hat⟩
  exact ⟨m', hloop, hat⟩

/-- The part of `dach_decode` up to the count of the symbol. -/
theorem meteredDecode_start (h : DecoderReady src f m.arc) {sym : Nat} (hsel : Selected f m.arc sym)
    (htotal : m.arc.totalSyms + 1 ≤ m.arc.blocksize) (hblock : m.arc.blocksize < 2 ^ 64) :
    meteredDecode host m =
      if m.arc.totalSyms + 1 = m.arc.blocksize then
        .ok (u8 (m.arc.mod.symToChr sym), { m with arc :=
          { m.arc with range := f.range, totalSyms := m.arc.totalSyms + 1, stop := true } })
      else do
        cassert (sym ≤ 256) .decodeReserved
        let arc ← dachEncodeStep { m.arc with range := f.range, totalSyms := m.arc.totalSyms + 1 } sym
        let cf ← dachPpm0Cumfreq arc.mod sym
        cassert (cf ≤ arc.scale) .decodeCumfreq
        let (_, m) ← meteredRenorm host { m with arc := arc }
        let sym1 ← dachSymToChr m.arc.mod sym
        let (scale, mod) ← dachPpm0Update m.arc.mod sym
        let arc := { m.arc with mod := mod, scale := scale }
        cassert (arc.high > arc.low) .decodeInterval
        return (sym1, { m with arc := arc }) := by
  have hgt := h.place.low_lt_high h.normal.valid
  have hchr : dachSymToChr m.arc.mod sym = .ok (m.arc.mod.symToChr sym) :=
    dachSymToChr_eq (Nat.le_succ_of_le hsel.le)
  have htotal' : u64 (m.arc.totalSyms + 1) = m.arc.totalSyms + 1 := u64_of_lt (by omega)
  simp only [meteredDecode, cassert_pos _ hgt, dachCalcRange_eq h.place.registers h.normal.valid,
    ok_bind, hsel.found, htotal', cassert_pos _ htotal, hchr, pure_eq_ok]

/-- `dach_decode` on a coded byte that is not the last one. -/
theorem meteredDecode_codes {mod' : Ppm0} {c : UInt8} {s : Slice} (h : DecoderReady src f m.arc)
    (hrefills : m.refills = (f.shifts + 32 + 31) / 32) (hslice : ByteSlice m.arc.mod c s mod')
    (hfits : 2 * s.scale ≤ 2 ^ 30 + 2) (hencodes : Encodes (2 ^ 30) f s g)
    (hwithin : src.code.Within g) (hread : src.Readable (g.shifts + 32))
    (hmore : m.arc.totalSyms + 1 < m.arc.blocksize) (hblock : m.arc.blocksize < 2 ^ 64) :
    ∃ m', meteredDecode host m = .ok (c.toNat, m') ∧ DecoderReady src g m'.arc ∧
      m'.refills = (g.shifts + 32 + 31) / 32 ∧ m'.arc.mod = mod' ∧
      m'.arc.totalSyms = m.arc.totalSyms + 1 ∧ m'.arc.blocksize = m.arc.blocksize ∧
      m'.arc.stop = m.arc.stop := by
  rcases dachDecode_codes h hslice hfits hencodes hwithin hread hmore hblock
    with ⟨arc', hcall, hready, hafter⟩
  rcases (meteredDecode_projects host m).exists_ok hcall with ⟨⟨chr, m'⟩, hrun, hproj⟩
  obtain ⟨rfl, rfl⟩ : chr = c.toNat ∧ m'.arc = arc' := Prod.ext_iff.mp hproj
  refine ⟨m', hrun, hready, ?_, hafter⟩
  -- the meter is that of the renormalisation loop
  rcases hslice.selected h hfits ((hencodes.within_iff h.normal hfits).mp hwithin)
    with ⟨hsel, hsym, _⟩
  obtain rfl := hslice.eq_slice h.model.wf hsel.pos hsel.le
  rcases hencodes with ⟨k, run⟩
  have hscale : 2 * m.arc.mod.scale ≤ 2 ^ 30 + 2 := hfits
  have hstep := dachEncodeStep_eq { m.arc with range := f.range, totalSyms := m.arc.totalSyms + 1 }
    h.model.wf h.model.scale ⟨h.place.registers.low, h.place.registers.high⟩ h.normal.valid
    (h.noWrap_iff.mp (h.noWrap (by omega))) hsel.pos hsym
  rw [if_pos hsel.narrows] at hstep
  have hcf : m.arc.mod.cumAt (m.arc.mod.chrToSym c.toNat) ≤ m.arc.scale := by
    rw [h.model.scale]
    exact h.model.wf.cum_le_scale (by omega)
  have hat : MeteredAt src (f.narrow (h.model.wf.slice hsel.pos hsel.le)) { m with arc :=
      { m.arc with
        range := f.range
        totalSyms := m.arc.totalSyms + 1
        high := (f.narrow (h.model.wf.slice hsel.pos hsel.le)).high
        low := (f.narrow (h.model.wf.slice hsel.pos hsel.le)).low } } :=
    ⟨⟨⟨rfl, rfl⟩, ⟨h.place.reading.io, h.place.reading.eof, h.place.reading.size,
      h.place.reading.full, h.place.reading.buffer⟩, h.place.esym, hsel.within h.place h.model.wf⟩,
      hrefills⟩
  rcases meteredRenorm_spec hat (Frame.narrow_valid_of_normal h.normal hfits) hread run
    with ⟨mid, hloop, hmid⟩
  rw [meteredDecode_start h hsel (Nat.le_of_lt hmore) hblock, if_neg (Nat.ne_of_lt hmore),
    cassert_pos _ hsym, ok_bind, hstep, ok_bind] at hrun
  simp only [dachPpm0Cumfreq_eq (show m.arc.mod.chrToSym c.toNat ≤ 258 by omega), ok_bind,
    cassert_pos _ hcf, hloop, bind_eq_ok] at hrun
  rcases hrun with ⟨_, _, _, _, _, _, hret⟩
  cases hret
  exact hmid.refills

/-- The last byte is found without a renormalisation. -/
theorem meteredDecode_codes_last {mod' : Ppm0} {c : UInt8} {s : Slice}
    (h : DecoderReady src f m.arc) (hslice : ByteSlice m.arc.mod c s mod')
    (hfits : 2 * s.scale ≤ 2 ^ 30 + 2) (hwithin : src.code.Within (f.narrow s))
    (hlast : m.arc.totalSyms + 1 = m.arc.blocksize) (hblock : m.arc.blocksize < 2 ^ 64) :
    ∃ m', meteredDecode host m = .ok (c.toNat, m') ∧ m'.arc.stop = true ∧ m'.refills = m.refills := by
  rcases hslice.selected h hfits hwithin with ⟨hsel, _, hchr⟩
  have hrun := meteredDecode_start h hsel (Nat.le_of_eq hlast) hblock
  rw [if_pos hlast, hchr, u8, Nat.mod_eq_of_lt c.toNat_lt] at hrun
  exact ⟨_, hrun, rfl, rfl⟩

/-! ### The start -/

/-- The 32 bits of `dach_start_decoder` take one refill. -/
theorem meteredStartLoop_refills {left : Nat} : ∀ {m m' : MeteredArc} {bits : Nat}, bits + left = 32 →
    Reading src bits m.arc → m.refills = (bits + 31) / 32 → meteredStartLoop host left m = .ok m' →
      m'.refills = 1 := by
  induction left with
  | zero =>
      intro m m' bits hbits _ hrefills hrun
      cases hrun
      omega
  | succ left ih =>
      intro m m' bits hbits h hrefills hrun
      have hread : src.Readable (bits + 1) := by
        intro j hj
        obtain rfl : j = 0 := by omega
        exact src.eof_zero
      have hreading : Reading src bits { m.arc with esym := u32 (m.arc.esym * 2) } :=
        ⟨h.io, h.eof, h.size, h.full, h.buffer⟩
      rcases dachBitin_spec _ hreading hread with ⟨io, eofIn, buffer, full, hbit, hnext⟩
      rw [meteredStartLoop, meteredBitin_eq, hbit] at hrun
      refine ih (show bits + 1 + left = 32 by omega) ?_ ?_ hrun
      · exact ⟨hnext.io, hnext.eof, hnext.size, hnext.full, hnext.buffer⟩
      · rw [← h.refillsNext, ← hrefills]
        rfl

/-- A metered decoder after `dach_start_decoder`. -/
theorem meteredStartDecoder_ready (src : Source host) {mod : Ppm0} (fresh : FreshTables mod) (n : Nat) :
    ∃ m, meteredStartDecoder host (arcFresh mod (src.io 0) n) = .ok m ∧
      DecoderReady src (Frame.start (2 ^ 30)) m.arc ∧ m.refills = 1 ∧ m.arc.mod = mod ∧
      m.arc.totalSyms = 0 ∧ m.arc.blocksize = n ∧ m.arc.stop = false := by
  rcases dachStartDecoder_ready src fresh n with ⟨arc, hstart, hready, hafter⟩
  have hproj := meteredStartLoop_projects host 32
    { arc := { arcFresh mod (src.io 0) n with ioBufferFull := 0 }, refills := 0 }
  rcases hproj.exists_ok hstart with ⟨m, hrun, rfl⟩
  have hreading : Reading src 0 { arcFresh mod (src.io 0) n with ioBufferFull := 0 } :=
    ⟨rfl, src.eof_zero.symm, rfl, rfl, fun h => absurd h (Nat.lt_irrefl 0)⟩
  exact ⟨m, hrun, hready, meteredStartLoop_refills rfl hreading rfl hrun, hafter⟩

/-! ### The loop of `decode` -/

/-- The loop of `decode` over coded bytes that are not the last ones. -/
theorem meteredDecodeLoop_codes {data : List UInt8} {mod mod' : Ppm0}
    (codes : Codes (2 ^ 30) ByteSlice mod f data mod' g) : ∀ {m : MeteredArc} (buf : List UInt8)
    (fdOut : CFile) (fuel : Nat), m.arc.mod = mod → DecoderReady src f m.arc →
    m.refills = (f.shifts + 32 + 31) / 32 → src.code.Within g → src.Readable (g.shifts + 32) →
    m.arc.totalSyms + data.length < m.arc.blocksize → m.arc.blocksize < 2 ^ 64 →
    m.arc.stop = false →
      ∃ m' buf' fdOut', meteredDecodeLoop host (data.length + fuel) m buf fdOut
          = meteredDecodeLoop host fuel m' buf' fdOut' ∧
        DecoderReady src g m'.arc ∧ m'.refills = (g.shifts + 32 + 31) / 32 ∧ m'.arc.mod = mod' ∧
        m'.arc.totalSyms = m.arc.totalSyms + data.length ∧ m'.arc.blocksize = m.arc.blocksize ∧
        m'.arc.stop = false := by
  induction codes with
  | nil mod f =>
      intro m buf fdOut fuel hmod h hrefills _ _ _ _ hstop
      refine ⟨m, buf, fdOut, ?_, h, hrefills, hmod, rfl, rfl, hstop⟩
      rw [List.length_nil, Nat.zero_add]
  | @cons mod mid mod' f f' g c data s hslice hfits hencodes tail ih =>
      intro m buf fdOut fuel hmod h hrefills hwithin hread htotal hblock hstop
      subst hmod
      rw [List.length_cons] at htotal
      have hnormal := hencodes.normal h.normal hfits
      have hshifts := (tail.shifts_le (m := 31) hnormal (by norm_num)).1
      rcases meteredDecode_codes h hrefills hslice hfits hencodes (tail.within hnormal hwithin)
        (hread.mono (by omega)) (by omega) hblock
        with ⟨m₁, hcall, hready, hrefills₁, hmod₁, htotal₁, hblock₁, hstop₁⟩
      -- the byte goes into the buffer, which may be written out
      have hentry : ∃ buf₁ fdOut₁, meteredDecodeLoop host (data.length + 1 + fuel) m buf fdOut
          = meteredDecodeLoop host (data.length + fuel) m₁ buf₁ fdOut₁ := by
        rw [Nat.add_right_comm, meteredDecodeLoop, dachEof, hstop, if_neg (by decide), hcall, ok_bind]
        dsimp only
        split
        · exact ⟨_, _, rfl⟩
        · exact ⟨_, _, rfl⟩
      rcases hentry with ⟨buf₁, fdOut₁, hentry⟩
      rcases ih buf₁ fdOut₁ fuel hmod₁ hready hrefills₁ hwithin hread (by omega) (by omega)
        (hstop₁.trans hstop)
        with ⟨m', buf', fdOut', hloop, hready', hrefills', hmod', htotal', hblock', hstop'⟩
      refine ⟨m', buf', fdOut', hentry.trans hloop, hready', hrefills', hmod', ?_,
        hblock'.trans hblock₁, hstop'⟩
      rw [htotal', htotal₁, List.length_cons]
      omega

/-- The loop of `decode` on the last byte. -/
theorem meteredDecodeLoop_last {mod' : Ppm0} {c : UInt8} {s : Slice} (buf : List UInt8) (fdOut : CFile)
    (h : DecoderReady src f m.arc) (hslice : ByteSlice m.arc.mod c s mod')
    (hfits : 2 * s.scale ≤ 2 ^ 30 + 2) (hwithin : src.code.Within (f.narrow s))
    (hlast : m.arc.totalSyms + 1 = m.arc.blocksize) (hblock : m.arc.blocksize < 2 ^ 64)
    (hstop : m.arc.stop = false) :
    ∃ buf' fdOut', meteredDecodeLoop host 2 m buf fdOut = .ok (m.refills, buf', fdOut') := by
  rcases meteredDecode_codes_last h hslice hfits hwithin hlast hblock
    with ⟨m', hcall, hstop', hrefills⟩
  rw [meteredDecodeLoop, dachEof, hstop, if_neg (by decide), hcall, ok_bind]
  simp only [meteredDecodeLoop, dachEof, hstop', if_true, hrefills]
  split
  · exact ⟨_, _, rfl⟩
  · exact ⟨_, _, rfl⟩

end Count

end Dach
