/-
Module: Dach.Proofs.Encoder
Layer: Proofs
Purpose: The encoder follows the abstract interval coder. Its emitted bits and its underflow counter
  are the place of the window on the number line, and the stop sequence writes out the middle of the
  final interval.
Imports: Dach.Core.Bitio, Dach.Core.Command, Dach.Proofs.Interval, Dach.Proofs.Output
Trusted boundary: none
Main exports: EncoderAt, ByteSlice, Arc.Model, encodeRenorm_spec, dachEncode_spec, encodeLoop_spec,
  dachStopBits_words, dachStopEncoder_spec, encode_inRange
-/
import Dach.Core.Bitio
import Dach.Core.Command
import Dach.Proofs.Interval
import Dach.Proofs.Output

namespace Dach

open IntervalCoder

/-! ### Encoder states -/

/-- The parts of the coder that bit input, bit output and renormalisation leave alone. -/
structure Arc.SameModel (arc arc' : Arc) : Prop where
  mod : arc'.mod = arc.mod
  scale : arc'.scale = arc.scale
  totalSyms : arc'.totalSyms = arc.totalSyms
  blocksize : arc'.blocksize = arc.blocksize
  stop : arc'.stop = arc.stop

theorem Arc.SameModel.refl (arc : Arc) : arc.SameModel arc := ⟨rfl, rfl, rfl, rfl, rfl⟩

theorem Arc.SameModel.trans {a b c : Arc} (h : a.SameModel b) (h' : b.SameModel c) :
    a.SameModel c where
  mod := h'.mod.trans h.mod
  scale := h'.scale.trans h.scale
  totalSyms := h'.totalSyms.trans h.totalSyms
  blocksize := h'.blocksize.trans h.blocksize
  stop := h'.stop.trans h.stop

/-- The tables are a ranking with character 256 last, and `scale` is up to date. -/
structure Arc.Model (arc : Arc) : Prop where
  wf : arc.mod.WF
  reserved : arc.mod.Reserved
  scale : arc.scale = arc.mod.scale

/-- An encoder at a frame. The emitted bits and the pending ones are the doublings made so far, and
    their value is where the window starts; the counter of the pending ones has 32 bits. -/
structure EncoderAt {host : Host} (sink : Sink host) (words : List Nat) (f : Frame) (arc : Arc) :
    Prop where
  registers : arc.Registers f
  size : arc.ioBufferSize = 32
  emitted : Emitted sink words arc.out
  behind : bitCount words arc.out + arc.underflow ≤ f.shifts
  exact : f.shifts < 2 ^ 32 → bitCount words arc.out + arc.underflow = f.shifts ∧
    f.base = bitVal words arc.out * 2 ^ (arc.underflow + 32) + (2 ^ arc.underflow - 1) * 2 ^ 31

/-- Renormalising never moves a frame back. -/
theorem shifts_le_of_haltsIn {k : Nat} {f g : Frame}
    (run : Loop.HaltsIn (Frame.shift? (2 ^ 30)) k f g) (hv : f.Valid (2 ^ 30)) :
    f.shifts ≤ g.shifts := by
  obtain ⟨_, _, hshifts, _⟩ := renorm_spec run hv
  omega

section Encoder

variable {host : Host} {sink : Sink host} {words : List Nat} {arc : Arc} {f g : Frame}

/-! ### Renormalisation -/

/-- A pass that writes a bit: the interval lies in one half of the window. -/
theorem encodePass_half (h : EncoderAt sink words f arc) (hv : f.Valid (2 ^ 30)) (bit : Nat)
    (hside : bit = 0 ∧ f.high < 2 ^ 31 ∨ bit = 1 ∧ 2 ^ 31 ≤ f.low)
    (hroom : sink.Room f.shifts) :
    ∃ arc' words', encodePass host arc = .ok (some arc') ∧
      EncoderAt sink words' (f.shiftBy (bit * (2 * 2 ^ 30))) arc' ∧ arc.SameModel arc' := by
  obtain ⟨o, words', hrun, hout, hcount, hval⟩ :=
    dachWriteStream_spec arc h.emitted h.size (show bit ≤ 1 by omega) (sink.room_mono h.behind hroom)
  have hregs : (shiftInterval (Arc.withOut { arc with underflow := 0 } o)).Registers
      (f.shiftBy (bit * (2 * 2 ^ 30))) :=
    shiftInterval_half (Arc.withOut { arc with underflow := 0 } o)
      ⟨h.registers.low, h.registers.high⟩ hv (by omega)
  refine ⟨_, words', ?_, ⟨hregs, h.size, hout, ?_, ?_⟩, ⟨rfl, rfl, rfl, rfl, rfl⟩⟩
  · rw [encodePass_eq_half host h.registers hv hside, hrun, ok_bind]
  · have hbehind := h.behind
    show bitCount words' o + 0 ≤ f.shifts + 1
    omega
  · intro hshifts
    have hshifts' : f.shifts < 2 ^ 32 := Nat.lt_of_succ_lt hshifts
    obtain ⟨hexact, hbase⟩ := h.exact hshifts'
    obtain ⟨m, hm⟩ : ∃ m, 2 ^ arc.underflow = m + 1 :=
      Nat.exists_eq_add_of_le' (Nat.two_pow_pos arc.underflow)
    constructor
    · show bitCount words' o + 0 = f.shifts + 1
      omega
    · show 2 * (f.base + bit * (2 * 2 ^ 30)) = bitVal words' o * 2 ^ (0 + 32) + (2 ^ 0 - 1) * 2 ^ 31
      rw [hval, hbase, pow_add, hm, Nat.add_sub_cancel]
      rcases (by omega : bit = 0 ∨ bit = 1) with rfl | rfl
      · ring
      · ring

/-- A pass that counts an underflow: the interval lies in the middle half. -/
theorem encodePass_middle (h : EncoderAt sink words f arc) (hlo : 2 ^ 30 ≤ f.low)
    (hlo' : f.low < 2 ^ 31) (hhi : 2 ^ 31 ≤ f.high) (hhi' : f.high < 3 * 2 ^ 30) :
    ∃ arc', encodePass host arc = .ok (some arc') ∧
      EncoderAt sink words (f.shiftBy (2 ^ 30)) arc' ∧ arc.SameModel arc' := by
  have hregs : (shiftInterval { arc with
      underflow := u32 (arc.underflow + 1)
      low := arc.low &&& 0x3FFFFFFF
      high := arc.high ||| 0x40000000 }).Registers (f.shiftBy (2 ^ 30)) := by
    refine shiftInterval_middle ?_ ?_ hlo hlo' hhi hhi'
    · rw [h.registers.low]
    · rw [h.registers.high]
  have hbehind := h.behind
  refine ⟨_, encodePass_eq_middle host h.registers hlo hlo' hhi hhi',
    ⟨hregs, h.size, h.emitted, ?_, ?_⟩, ⟨rfl, rfl, rfl, rfl, rfl⟩⟩
  · show bitCount words arc.out + u32 (arc.underflow + 1) ≤ f.shifts + 1
    have : u32 (arc.underflow + 1) ≤ arc.underflow + 1 := Nat.mod_le _ _
    omega
  · intro hshifts
    have hshifts' : f.shifts + 1 < 2 ^ 32 := hshifts
    obtain ⟨hexact, hbase⟩ := h.exact (by omega)
    have hu : u32 (arc.underflow + 1) = arc.underflow + 1 := u32_of_lt (by omega)
    obtain ⟨m, hm⟩ : ∃ m, 2 ^ arc.underflow = m + 1 :=
      Nat.exists_eq_add_of_le' (Nat.two_pow_pos arc.underflow)
    constructor
    · show bitCount words arc.out + u32 (arc.underflow + 1) = f.shifts + 1
      omega
    · show 2 * (f.base + 2 ^ 30) = bitVal words arc.out * 2 ^ (u32 (arc.underflow + 1) + 32)
        + (2 ^ u32 (arc.underflow + 1) - 1) * 2 ^ 31
      have hm' : 2 ^ (arc.underflow + 1) = 2 * m + 1 + 1 := by
        rw [pow_succ, hm]
        ring
      rw [hu, hbase, pow_add _ arc.underflow, pow_add _ (arc.underflow + 1), hm, hm',
        Nat.add_sub_cancel, Nat.add_sub_cancel]
      ring

/-- One pass of the renormalisation loop makes one shift. -/
theorem encodePass_spec (h : EncoderAt sink words f arc) (hv : f.Valid (2 ^ 30))
    (step : f.shift? (2 ^ 30) = some g) (hroom : sink.Room f.shifts) :
    ∃ arc' words', encodePass host arc = .ok (some arc') ∧ EncoderAt sink words' g arc' ∧
      arc.SameModel arc' := by
  rcases shift?_cases hv with (⟨hside, hstep⟩ | ⟨hside, hstep⟩) | ⟨⟨hlo', hhi⟩, hmid | hnone⟩
  · obtain rfl : f.shiftBy 0 = g := Option.some.inj (hstep.symm.trans step)
    obtain ⟨arc', words', hpass, hat, hsame⟩ :=
      encodePass_half h hv 0 (Or.inl ⟨rfl, hside⟩) hroom
    rw [Nat.zero_mul] at hat
    exact ⟨arc', words', hpass, hat, hsame⟩
  · obtain rfl : f.shiftBy (2 * 2 ^ 30) = g := Option.some.inj (hstep.symm.trans step)
    obtain ⟨arc', words', hpass, hat, hsame⟩ :=
      encodePass_half h hv 1 (Or.inr ⟨rfl, hside⟩) hroom
    rw [Nat.one_mul] at hat
    exact ⟨arc', words', hpass, hat, hsame⟩
  · obtain ⟨hlo, hhi', hstep⟩ := hmid
    obtain rfl : f.shiftBy (2 ^ 30) = g := Option.some.inj (hstep.symm.trans step)
    obtain ⟨arc', hpass, hat, hsame⟩ := encodePass_middle h hlo hlo' hhi hhi'
    exact ⟨arc', words, hpass, hat, hsame⟩
  · rw [hnone.2] at step
    cases step

/-- The renormalisation loop of `dach_encode` makes the shifts of the abstract coder. -/
theorem encodeRenorm_spec {k : Nat} (h : EncoderAt sink words f arc) (hv : f.Valid (2 ^ 30))
    (run : Loop.HaltsIn (Frame.shift? (2 ^ 30)) k f g) (hroom : sink.Room g.shifts) :
    ∃ arc' words', encodeRenorm host arc = .ok (k, arc') ∧ EncoderAt sink words' g arc' ∧
      arc.SameModel arc' := by
  have hk := renorm_shifts_le (m := 31) run hv (by norm_num)
  have hnormal := (renorm_spec run hv).1
  obtain ⟨arc', hloop, _, words', hat, hsame⟩ :=
    Loop.forever_of_haltsIn_total Abort.loopForever (encodePass host)
      (R := fun a b => b.Valid (2 ^ 30) ∧ ∃ w, EncoderAt sink w b a ∧ arc.SameModel a)
      (fun s ⟨_, _, hat, _⟩ => encodePass_break host hat.registers hnormal)
      (fun s a b j ⟨hva, w, hat, hsame⟩ hstep tail => by
        have hvb := (Frame.shift?_spec hstep hva).1
        have hle : a.shifts ≤ g.shifts := by
          have := shifts_le_of_haltsIn tail hvb
          have := (Frame.shift?_spec hstep hva).2.2.1
          omega
        obtain ⟨t, w', hpass, hat', hsame'⟩ :=
          encodePass_spec hat hva hstep (sink.room_mono hle hroom)
        exact ⟨t, hpass, hvb, w', hat', hsame.trans hsame'⟩)
      run (show k < loopFuel by unfold loopFuel; omega)
      ⟨hv, words, h, Arc.SameModel.refl arc⟩
  exact ⟨arc', words', hloop, hat, hsame⟩

/-! ### Symbols -/

/-- Coding a byte: the slice of its symbol, and the tables after the update. -/
structure ByteSlice (mod : Ppm0) (c : UInt8) (s : Slice) (mod' : Ppm0) : Prop where
  lo : s.lo = mod.cumAt (mod.chrToSym c.toNat + 1)
  hi : s.hi = mod.cumAt (mod.chrToSym c.toNat)
  scale : s.scale = mod.scale
  update : dachPpm0Update mod (mod.chrToSym c.toNat) = .ok (mod'.scale, mod')

/-- An encoder between two calls of `dach_encode`. -/
structure EncoderReady (sink : Sink host) (words : List Nat) (f : Frame) (arc : Arc) : Prop where
  place : EncoderAt sink words f arc
  model : arc.Model
  normal : f.Normal (2 ^ 30)

theorem Arc.Model.sym_of_byte (model : arc.Model) (c : UInt8) :
    1 ≤ arc.mod.chrToSym c.toNat ∧ arc.mod.chrToSym c.toNat ≤ 256 :=
  model.wf.sym_of_byte model.reserved (Nat.le_of_lt_succ c.toNat_lt)

/-- An update of a symbol 1..256 inside the working range. -/
theorem Arc.Model.update (model : arc.Model) {sym : Nat} (hsym : 1 ≤ sym) (hsym' : sym ≤ 256)
    (hscale : arc.mod.scale ≤ 2 ^ 32 + 254) :
    ∃ mod', dachPpm0Update arc.mod sym = .ok (mod'.scale, mod') ∧ mod'.WF ∧ mod'.Reserved ∧
      mod'.scale = arc.mod.scale + 1 := by
  obtain ⟨mod', p, hupdate, h⟩ := model.wf.update hsym (by omega) hscale
  exact ⟨mod', hupdate, h.wf model.wf (by omega), h.reserved hsym' model.reserved, h.scale⟩

/-- `dach_encode` codes the byte. -/
theorem dachEncode_spec (h : EncoderReady sink words f arc) (c : UInt8)
    (hfits : 2 * arc.mod.scale ≤ 2 ^ 30 + 2) (hroom : sink.Room (f.shifts + 31)) :
    ∃ s k g arc' words', ByteSlice arc.mod c s arc'.mod ∧
      Loop.HaltsIn (Frame.shift? (2 ^ 30)) k (f.narrow s) g ∧
      dachEncode host arc c.toNat = .ok (k, arc') ∧ EncoderReady sink words' g arc' ∧
      arc'.mod.scale = arc.mod.scale + 1 ∧ arc'.totalSyms = u64 (arc.totalSyms + 1) ∧
      arc'.blocksize = arc.blocksize := by
  obtain ⟨hsym, hsym'⟩ := h.model.sym_of_byte c
  have hrange := h.normal.range_ge
  have hstep := dachEncodeStep_fits arc h.model.wf h.model.scale h.place.registers h.normal.valid
    (by omega) hsym hsym'
  obtain ⟨mod', hupdate, hwf, hres, hscale⟩ := h.model.update hsym hsym' (by omega)
  -- the narrowed interval, then the renormalisation
  have hvalid := Frame.narrow_valid_of_normal (s := h.model.wf.slice hsym (by omega)) h.normal hfits
  have hat : EncoderAt sink words (f.narrow (h.model.wf.slice hsym (by omega)))
      { arc with
        range := f.range
        high := (f.narrow (h.model.wf.slice hsym (by omega))).high
        low := (f.narrow (h.model.wf.slice hsym (by omega))).low
        totalSyms := u64 (arc.totalSyms + 1) } :=
    ⟨⟨rfl, rfl⟩, h.place.size, h.place.emitted, h.place.behind, h.place.exact⟩
  obtain ⟨k, g, run⟩ := renorm_exists hvalid
  have hshifts : g.shifts ≤ f.shifts + 31 := by
    have hk := renorm_shifts_le (m := 31) run hvalid (by norm_num)
    obtain ⟨_, _, hshifts, _⟩ := renorm_spec run hvalid
    have hkeep : (f.narrow (h.model.wf.slice hsym (by omega))).shifts = f.shifts := rfl
    omega
  obtain ⟨arc', words', hloop, hat', hsame⟩ :=
    encodeRenorm_spec hat hvalid run (sink.room_mono hshifts hroom)
  have hmod : arc'.mod = arc.mod := hsame.mod
  refine ⟨h.model.wf.slice hsym (by omega), k, g, { arc' with mod := mod', scale := mod'.scale },
    words', ⟨rfl, rfl, rfl, hupdate⟩, run, ?_, ⟨?_, ⟨hwf, hres, rfl⟩, (renorm_spec run hvalid).1⟩,
    hscale, hsame.totalSyms, hsame.blocksize⟩
  · rw [dachEncode, dachChrToSym_eq (Nat.le_of_lt_succ c.toNat_lt), ok_bind, hstep, ok_bind]
    simp only [hloop, ok_bind, hmod, hupdate, pure_eq_ok]
  · exact ⟨⟨hat'.registers.low, hat'.registers.high⟩, hat'.size, hat'.emitted, hat'.behind,
      hat'.exact⟩

/-- What encoding a sequence of bytes leads to. -/
structure EncodeRun (sink : Sink host) (f : Frame) (arc : Arc) (data : List UInt8) (shifts : Nat)
    (words' : List Nat) (g : Frame) (arc' : Arc) : Prop where
  codes : Codes (2 ^ 30) ByteSlice arc.mod f data arc'.mod g
  ready : EncoderReady sink words' g arc'
  shifts_eq : g.shifts = f.shifts + shifts
  shifts_le : shifts ≤ 31 * data.length
  scale : arc'.mod.scale = arc.mod.scale + data.length
  totalSyms : arc'.totalSyms = arc.totalSyms + data.length
  blocksize : arc'.blocksize = arc.blocksize

/-- The loop of `encode`. -/
theorem encodeLoop_spec (data : List UInt8) : ∀ {f : Frame} {arc : Arc} {words : List Nat},
    EncoderReady sink words f arc → 2 * (arc.mod.scale + data.length) ≤ 2 ^ 30 + 4 →
    arc.totalSyms + data.length < 2 ^ 64 → sink.Room (f.shifts + 31 * data.length) →
      ∃ shifts words' g arc', encodeLoop host data arc = .ok (shifts, arc') ∧
        EncodeRun sink f arc data shifts words' g arc' := by
  induction data with
  | nil =>
      intro f arc words h _ _ _
      exact ⟨0, words, f, arc, rfl, .nil _ _, h, rfl, Nat.zero_le _, rfl, rfl, rfl⟩
  | cons c data ih =>
      intro f arc words h hscale htotal hroom
      rw [List.length_cons] at hscale htotal hroom
      obtain ⟨s, k, mid, arc₁, words₁, hslice, run, hencode, hready, hscale₁, htotal₁, hblock₁⟩ :=
        dachEncode_spec h c (by omega) (sink.room_mono (by omega) hroom)
      rw [u64_of_lt (by omega)] at htotal₁
      have hfits : 2 * s.scale ≤ 2 ^ 30 + 2 := by
        rw [hslice.scale]
        omega
      have hvalid := Frame.narrow_valid_of_normal h.normal hfits
      have hk := renorm_shifts_le (m := 31) run hvalid (by norm_num)
      have hmid : mid.shifts = f.shifts + k := (renorm_spec run hvalid).2.2.1
      obtain ⟨later, words', g, arc', hloop, hrun⟩ := ih hready (by omega) (by omega)
        (sink.room_mono (by omega) hroom)
      refine ⟨k + later, words', g, arc', ?_, ?_⟩
      · simp only [encodeLoop, hencode, hloop, ok_bind, pure_eq_ok]
      · have hshifts := hrun.shifts_eq
        have hle := hrun.shifts_le
        have hscale' := hrun.scale
        have htotal' := hrun.totalSyms
        exact
          { codes := .cons hslice hfits ⟨k, run⟩ hrun.codes
            ready := hrun.ready
            shifts_eq := by omega
            shifts_le := by rw [List.length_cons]; omega
            scale := by rw [List.length_cons]; omega
            totalSyms := by rw [List.length_cons]; omega
            blocksize := hrun.blocksize.trans hblock₁ }

/-- Two stretches of data are encoded one after the other. -/
theorem encodeLoop_append {data later : List UInt8} : ∀ {arc arc' arc'' : Arc} {k l : Nat},
    encodeLoop host data arc = .ok (k, arc') → encodeLoop host later arc' = .ok (l, arc'') →
      encodeLoop host (data ++ later) arc = .ok (k + l, arc'') := by
  induction data with
  | nil =>
      intro arc arc' arc'' k l hone htwo
      cases hone
      rw [List.nil_append, Nat.zero_add]
      exact htwo
  | cons c data ih =>
      intro arc arc' arc'' k l hone htwo
      rw [encodeLoop, bind_eq_ok] at hone
      obtain ⟨⟨j, mid⟩, hencode, hrest⟩ := hone
      rw [bind_eq_ok] at hrest
      obtain ⟨⟨i, last⟩, hloop, hret⟩ := hrest
      cases hret
      simp only [List.cons_append, encodeLoop, hencode, ih hloop htwo, ok_bind, pure_eq_ok,
        Nat.add_assoc]

/-! ### The stop sequence -/

/-- The words after the stop sequence: at least three bits more than the doublings made, and the
    middle of the window as the number they spell. -/
structure Stopped (f : Frame) (words : List Nat) : Prop where
  words_lt : ∀ w ∈ words, w < 2 ^ 32
  length_ge : f.shifts + 3 ≤ 32 * words.length
  length_lt : 32 * words.length < f.shifts + 35
  middle : Bits.pack 32 words * 2 ^ (f.shifts + 32) = (f.base + 2 ^ 31) * 2 ^ (32 * words.length)

/-- The flush writes the full buffer and leaves one zero in it. -/
theorem flush_spec (arc : Arc) (h : Emitted sink words arc.out) (hfull : arc.ioBufferFull = 0)
    (hsize : arc.ioBufferSize = 32)
    (hu : arc.underflow = 0) (hroom : sink.Room (bitCount words arc.out)) :
    ∃ o words', dachWriteStream host arc 0 = .ok (arc.withOut o) ∧ Emitted sink words' o ∧
      32 * words'.length = bitCount words arc.out ∧ Bits.pack 32 words' = bitVal words arc.out := by
  obtain ⟨o, words', hrun, hout, hcount, hval⟩ := dachWriteStream_zero arc h hsize hu hroom
  have hwhole : bitCount words arc.out = 32 * words.length + 32 := by
    simp only [bitCount, Arc.out, hfull]
  rw [hwhole] at hcount ⊢
  have hle := hout.full_le
  have hlt := hout.buffer_lt
  simp only [bitCount] at hcount
  have hone : o.full = 31 := by omega
  rw [hone] at hlt
  simp only [bitVal, hone] at hval
  refine ⟨o, words', hrun, hout, by omega, ?_⟩
  unfold bitVal
  omega

/-- The end of the stop sequence fills the buffer with zeros and writes it, so that the words are all the
    bits there are. -/
theorem dachStopBits_words (arc : Arc) (h : Emitted sink words arc.out) (hsize : arc.ioBufferSize = 32)
    (hu : arc.underflow = 0) (hroom : sink.Room (bitCount words arc.out + arc.ioBufferFull)) :
    ∃ o words', dachStopBits host arc = .ok (arc.withOut o) ∧ Emitted sink words' o ∧
      32 * words'.length = bitCount words arc.out + arc.ioBufferFull ∧
      Bits.pack 32 words' = bitVal words arc.out * 2 ^ arc.ioBufferFull := by
  have hfew : arc.ioBufferFull < loopFuel := Nat.lt_of_le_of_lt h.full_le (by decide)
  obtain ⟨o, hloop, hmid, hzero, hcount, hval⟩ := padLoop_spec arc h hu hfew
  obtain ⟨o', words', hflush, hout, hwords, hpack⟩ :=
    flush_spec (arc.withOut o) hmid hzero hsize hu (sink.room_mono (Nat.le_of_eq hcount) hroom)
  refine ⟨o', words', ?_, hout, hwords.trans hcount, hpack.trans hval⟩
  simp only [dachStopBits, hloop, ok_bind, hflush, Arc.withOut_withOut]

/-- What `dach_stop_encoder` writes after the bits emitted so far: a one, the pending zeros, a zero,
    and zeros up to the end of a word. -/
theorem dachStopEncoder_bits (h : EncoderAt sink words f arc) (hn : f.Normal (2 ^ 30))
    (htotal : arc.totalSyms = arc.blocksize) (hroom : sink.Room (f.shifts + 64)) :
    ∃ arc' words' pad, dachStopEncoder host arc = .ok arc' ∧ arc'.io = sink.io words' ∧
      (∀ w ∈ words', w < 2 ^ 32) ∧ pad < 32 ∧
      32 * words'.length = bitCount words arc.out + u32 (arc.underflow + 1) + 2 + pad ∧
      Bits.pack 32 words'
        = (2 * bitVal words arc.out + 1) * 2 ^ u32 (arc.underflow + 1) * 2 * 2 ^ pad := by
  have hlow : u32 arc.low &&& 0xFFFFFFFF &&& 1 <<< 31 = 0 := by
    have hlt := hn.1
    have hmod : arc.low % 2 ^ 32 = arc.low := by
      rw [h.registers.low]
      omega
    rw [show (1 <<< 31 : Nat) = 0x80000000 by norm_num [Nat.shiftLeft_eq], and_low32, u32, hmod, hmod,
      h.registers.low, and_msb (by omega), if_neg (by omega)]
  have hbehind := h.behind
  have hu : u32 (arc.underflow + 1) ≤ arc.underflow + 1 := Nat.mod_le _ _
  -- the bit that picks the middle, with the pending bits
  obtain ⟨o₁, w₁, hrun₁, hout₁, hcount₁, hval₁⟩ :=
    dachWriteStream_spec { arc with underflow := u32 (arc.underflow + 1) }
      h.emitted h.size (Nat.le_refl 1) (sink.room_mono (by
        show bitCount words arc.out + u32 (arc.underflow + 1) ≤ _
        omega) hroom)
  have hcount₁' : bitCount w₁ o₁ = bitCount words arc.out + 1 + u32 (arc.underflow + 1) := hcount₁
  have hval₁' : bitVal w₁ o₁ = (2 * bitVal words arc.out + 1) * 2 ^ u32 (arc.underflow + 1) := by
    rw [hval₁, Nat.sub_self, Nat.zero_mul, Nat.add_zero]
    rfl
  -- one zero, and the completion of the word
  obtain ⟨o₂, w₂, hrun₂, hout₂, hcount₂, hval₂⟩ :=
    dachWriteStream_zero (Arc.withOut { arc with underflow := 0 } o₁) hout₁ h.size rfl
      (sink.room_mono (by
        show bitCount w₁ o₁ ≤ _
        omega) hroom)
  have hcount₂' : bitCount w₂ o₂ = bitCount w₁ o₁ + 1 := hcount₂
  have hval₂' : bitVal w₂ o₂ = 2 * bitVal w₁ o₁ := hval₂
  have hroom₂ : o₂.full < 32 := by
    have hle := hout₂.full_le
    have hpending := hout₂.pending
    by_cases hnil : w₂ = []
    · subst hnil
      simp only [bitCount, List.length_nil] at hcount₂'
      omega
    · exact hpending hnil
  obtain ⟨o₃, w₃, hrun₃, hout₃, hcount₃, hpack₃⟩ :=
    dachStopBits_words (Arc.withOut { arc with underflow := 0 } o₂) hout₂ h.size rfl
      (sink.room_mono (by
        show bitCount w₂ o₂ + o₂.full ≤ _
        omega) hroom)
  refine ⟨Arc.withOut { arc with underflow := 0 } o₃, w₃, o₂.full, ?_, hout₃.io, hout₃.words_lt,
    hroom₂, ?_, ?_⟩
  · simp only [dachStopEncoder, hlow, cassert_pos _ htotal, ok_bind, if_true, hrun₁, hrun₂,
      Arc.withOut_withOut]
    exact hrun₃
  · rw [hcount₃]
    show bitCount w₂ o₂ + o₂.full = _
    omega
  · rw [hpack₃]
    show bitVal w₂ o₂ * 2 ^ o₂.full = _
    rw [hval₂', hval₁']
    ring

/-- `dach_stop_encoder` returns once every symbol has been encoded, and what it adds spells the middle
    of the window. -/
theorem dachStopEncoder_spec (h : EncoderAt sink words f arc) (hn : f.Normal (2 ^ 30))
    (htotal : arc.totalSyms = arc.blocksize) (hroom : sink.Room (f.shifts + 64)) :
    ∃ arc', dachStopEncoder host arc = .ok arc' ∧
      (f.shifts + 1 < 2 ^ 32 → ∃ words', arc'.io = sink.io words' ∧ Stopped f words') := by
  obtain ⟨arc', words', pad, hrun, hio, hlt, hpad, hcount, hpack⟩ :=
    dachStopEncoder_bits h hn htotal hroom
  refine ⟨arc', hrun, fun hshifts => ⟨words', hio, ?_⟩⟩
  obtain ⟨hexact, hbase⟩ := h.exact (by omega)
  have hu : u32 (arc.underflow + 1) = arc.underflow + 1 := u32_of_lt (by omega)
  rw [hu] at hcount hpack
  have hbits : 32 * words'.length = f.shifts + 3 + pad := by omega
  refine ⟨hlt, by omega, by omega, ?_⟩
  obtain ⟨m, hm⟩ : ∃ m, 2 ^ arc.underflow = m + 1 :=
    Nat.exists_eq_add_of_le' (Nat.two_pow_pos arc.underflow)
  rw [hpack, hbase, hbits, pow_add _ f.shifts 32, pow_add _ arc.underflow 32,
    pow_succ _ arc.underflow, pow_add _ (f.shifts + 3), pow_add _ f.shifts 3, hm, Nat.add_sub_cancel]
  ring

end Encoder

/-! ### A fresh encoder -/

theorem arcInit_ok {mod : Ppm0} (hscale : mod.scale ≠ 0) (io : ArcIo) (blocksize : Nat) :
    arcInit mod io blocksize = .ok (arcFresh mod io blocksize) := by
  rw [arcInit, cassert_pos _ hscale]
  rfl

theorem FreshTables.scale_ne {mod : Ppm0} (fresh : FreshTables mod) : mod.scale ≠ 0 := by
  rw [fresh.scale_eq]
  decide

theorem arcInit_eq {mod : Ppm0} (fresh : FreshTables mod) (io : ArcIo) (blocksize : Nat) :
    arcInit mod io blocksize = .ok (arcFresh mod io blocksize) :=
  arcInit_ok fresh.scale_ne io blocksize

theorem arcFresh_registers (mod : Ppm0) (io : ArcIo) (blocksize : Nat) :
    (arcFresh mod io blocksize).Registers (Frame.start (2 ^ 30)) :=
  ⟨rfl, by norm_num [Frame.start, arcFresh]⟩

theorem arcFresh_model {mod : Ppm0} (fresh : FreshTables mod) (io : ArcIo) (blocksize : Nat) :
    (arcFresh mod io blocksize).Model :=
  ⟨fresh.wf, fresh.reserved, rfl⟩

/-- A fresh coder has emitted nothing. -/
theorem emitted_fresh {host : Host} (sink : Sink host) (mod : Ppm0) (blocksize : Nat) :
    Emitted sink [] (arcFresh mod (sink.io []) blocksize).out where
  io := rfl
  full_le := Nat.le_refl 32
  buffer_lt := by simp [Arc.out, arcFresh]
  words_lt := by simp
  pending := by simp

theorem arcFresh_ready {host : Host} (sink : Sink host) {mod : Ppm0} (fresh : FreshTables mod)
    (blocksize : Nat) :
    EncoderReady sink [] (Frame.start (2 ^ 30)) (arcFresh mod (sink.io []) blocksize) where
  place :=
    { registers := arcFresh_registers _ _ _
      size := rfl
      emitted := emitted_fresh sink mod blocksize
      behind := Nat.le_refl 0
      exact := fun _ => ⟨rfl, by simp [Frame.start, bitVal, Arc.out, arcFresh]⟩ }
  model := arcFresh_model fresh _ _
  normal := Frame.start_normal (by norm_num)

/-- Encoding everything with a fresh coder, and stopping it. -/
theorem encodeAll_spec {host : Host} (sink : Sink host) {mod : Ppm0} (fresh : FreshTables mod)
    (data : List UInt8) (hlen : data.length ≤ 2 ^ 29 - 256)
    (hroom : sink.Room (31 * data.length + 64)) :
    ∃ shifts words g arc last,
      encodeLoop host data (arcFresh mod (sink.io []) data.length) = .ok (shifts, arc) ∧
      EncodeRun sink (Frame.start (2 ^ 30)) (arcFresh mod (sink.io []) data.length) data shifts words g
        arc ∧
      g.shifts ≤ 31 * data.length ∧ dachStopEncoder host arc = .ok last ∧
      (g.shifts + 1 < 2 ^ 32 → ∃ out, last.io = sink.io out ∧ Stopped g out) := by
  have hready := arcFresh_ready sink fresh data.length
  have hscale : mod.scale = 257 := fresh.scale_eq
  have hstart : (Frame.start (2 ^ 30)).shifts = 0 := rfl
  obtain ⟨shifts, words, g, arc, hloop, hrun⟩ := encodeLoop_spec data hready
    (by show 2 * (mod.scale + _) ≤ _; omega) (by show 0 + data.length < _; omega)
    (sink.room_mono (by omega) hroom)
  have hshifts : g.shifts ≤ 31 * data.length := by
    have hle := hrun.shifts_le
    rw [hrun.shifts_eq, hstart]
    omega
  have htotal : arc.totalSyms = arc.blocksize := by
    rw [hrun.totalSyms, hrun.blocksize]
    exact Nat.zero_add _
  obtain ⟨last, hstop, hwords⟩ := dachStopEncoder_spec hrun.ready.place hrun.ready.normal htotal
    (sink.room_mono (by omega) hroom)
  exact ⟨shifts, words, g, arc, last, hloop, hrun, hshifts, hstop, hwords⟩

/-- The output file of `encode` with its header. -/
def encodeSink (host : Host) (fsize : Nat) : Sink host :=
  fileSink host (CFile.reading []) (dachWriteHdrU32 host.order (u32 fsize))

theorem encoderNew_eq (host : Host) (fsize : Nat) (hpos : 0 < fsize) :
    ∃ mod, dachPpm0New = .ok mod ∧ FreshTables mod ∧
      encoderNew host fsize = .ok (arcFresh mod ((encodeSink host fsize).io []) fsize) := by
  obtain ⟨mod, hnew, fresh⟩ := dachPpm0New_fresh
  refine ⟨mod, hnew, fresh, ?_⟩
  rw [encoderNew, hnew, ok_bind, dachNewArcoder, if_neg (Nat.ne_of_gt hpos), ← arcInit_eq fresh]
  simp [encodeSink, fileSink, CFile.reading, CFile.fwrite]

/-! ### The working range -/

/-- The arithmetic of one `dach_encode_step` stays inside its types: no product with a count wraps,
    the 64-bit and the 32-bit ends agree, and the new interval has at least two values. -/
structure StepInRange (arc : Arc) (sym : Nat) : Prop where
  range : dachCalcRange arc = .ok (arc.high - arc.low + 1)
  product : ∀ s cf, dachPpm0Cumfreq arc.mod s = .ok cf → (arc.high - arc.low + 1) * cf < 2 ^ 64
  low_agrees : ∀ cf, dachPpm0Cumfreq arc.mod (sym + 1) = .ok cf →
    u64 (arc.low + u64 ((arc.high - arc.low + 1) * cf) / arc.scale)
      = u32 (arc.low + u64 ((arc.high - arc.low + 1) * cf) / arc.scale)
  high_agrees : ∀ cf, dachPpm0Cumfreq arc.mod sym = .ok cf →
    u64sub (u64 (arc.low + u64 ((arc.high - arc.low + 1) * cf) / arc.scale)) 1
      = u32 (u64sub (u64 (arc.low + u64 ((arc.high - arc.low + 1) * cf) / arc.scale)) 1)
  step : ∃ arc', dachEncodeStep arc sym = .ok arc' ∧ arc'.low < arc'.high ∧ arc'.high < 2 ^ 32

/-- Counts of the model are at most its scale. -/
theorem Ppm0.WF.cumfreq_le {ppm : Ppm0} (wf : ppm.WF) {s cf : Nat}
    (h : dachPpm0Cumfreq ppm s = .ok cf) : cf ≤ ppm.scale := by
  by_cases hs : s ≤ 258
  · rw [dachPpm0Cumfreq_eq hs] at h
    cases h
    exact wf.cum_le_scale hs
  · rw [dachPpm0Cumfreq, cassert_neg _ (show ¬ s ≤ dachSymCount from hs)] at h
    cases h

/-- An end of an interval is at most one above the old upper end. -/
theorem EncoderReady.end_le {host : Host} {sink : Sink host} {words : List Nat} {f : Frame} {arc : Arc}
    (h : EncoderReady sink words f arc) {cf : Nat} (hcf : cf ≤ arc.mod.scale) :
    arc.low + f.range * cf / arc.scale ≤ 2 ^ 32 := by
  have hdiv : f.range * cf / arc.scale ≤ f.range := by
    refine Nat.div_le_of_le_mul ?_
    rw [h.model.scale, Nat.mul_comm arc.mod.scale]
    exact Nat.mul_le_mul_left _ hcf
  have hlow := h.normal.valid.1
  have hbound := h.normal.valid.2
  have hreg := h.place.registers.low
  unfold Frame.range at hdiv ⊢
  omega

/-- While the scale is below half of the smallest range, a step of the encoder is in range. -/
theorem EncoderReady.stepInRange {host : Host} {sink : Sink host} {words : List Nat} {f : Frame}
    {arc : Arc} (h : EncoderReady sink words f arc) (hfits : 2 * arc.mod.scale ≤ 2 ^ 30 + 2)
    {sym : Nat} (hsym : 1 ≤ sym) (hsym' : sym ≤ 256) : StepInRange arc sym := by
  have hv := h.normal.valid
  have hge := h.normal.range_ge
  have hwidth := h.place.registers.range
  have hproduct : ∀ s cf, dachPpm0Cumfreq arc.mod s = .ok cf → f.range * cf < 2 ^ 64 := by
    intro s cf hcf
    have hle := h.model.wf.cumfreq_le hcf
    calc f.range * cf ≤ 2 ^ 32 * 2 ^ 30 := Nat.mul_le_mul (range_le hv) (by omega)
      _ < 2 ^ 64 := by norm_num
  have hfit := dachEncodeStep_fits arc h.model.wf h.model.scale h.place.registers hv (by omega) hsym
    hsym'
  have hnarrow := Frame.narrow_valid_of_normal (s := h.model.wf.slice hsym (by omega)) h.normal hfits
  constructor
  · rw [hwidth]
    exact dachCalcRange_eq h.place.registers hv
  · rw [hwidth]
    exact hproduct
  · intro cf hcf
    rw [hwidth, u64_of_lt (hproduct _ cf hcf)]
    have hlt : arc.low + f.range * cf / arc.scale < 2 ^ 32 := by
      have hcum : cf = arc.mod.cumAt (sym + 1) := by
        rw [dachPpm0Cumfreq_eq (by omega)] at hcf
        exact (Except.ok.inj hcf).symm
      have hnlow := hnarrow.1
      have hnhigh := hnarrow.2
      simp only [Frame.narrow, Ppm0.WF.slice] at hnlow hnhigh
      rw [hcum, h.place.registers.low, h.model.scale]
      omega
    rw [u64_of_lt (by omega), u32_of_lt hlt]
  · intro cf hcf
    rw [hwidth, u64_of_lt (hproduct _ cf hcf)]
    have hle := h.end_le (h.model.wf.cumfreq_le hcf)
    have hcum : cf = arc.mod.cumAt sym := by
      rw [dachPpm0Cumfreq_eq (by omega)] at hcf
      exact (Except.ok.inj hcf).symm
    have hwide := Frame.narrow_width (f := f) (s := h.model.wf.slice hsym (by omega)) (by
      show 2 * arc.mod.scale ≤ f.range
      omega)
    simp only [Ppm0.WF.slice] at hwide
    rw [← hcum, ← h.model.scale] at hwide
    have htop := Nat.le_trans (Nat.le_add_left 2 _) hwide
    rw [u64_of_lt (by omega), u64sub_of_le (by omega) (by omega), u32_of_lt (by omega)]
  · exact ⟨_, hfit, hnarrow.1, by have := hnarrow.2; simpa using this⟩

/-- In its working range the encoder never fails: every `dach_encode_step` is in range, every
    `dach_encode` returns, and so does `dach_stop_encoder`. -/
theorem encode_inRange (host : Host) (data : List UInt8) (hpos : 1 ≤ data.length)
    (hlen : data.length ≤ 2 ^ 29 - 256) :
    ∃ new, encoderNew host data.length = .ok new ∧
      (∀ i (hi : i < data.length), ∃ shifts arc sym, encodeLoop host (data.take i) new
          = .ok (shifts, arc) ∧ dachChrToSym arc.mod data[i].toNat = .ok sym ∧ StepInRange arc sym ∧
          ∃ more arc', dachEncode host arc data[i].toNat = .ok (more, arc')) ∧
      ∃ shifts arc arc', encodeLoop host data new = .ok (shifts, arc) ∧
        dachStopEncoder host arc = .ok arc' := by
  obtain ⟨mod, hnew, fresh, hencoder⟩ := encoderNew_eq host data.length (by omega)
  have hready := arcFresh_ready (encodeSink host data.length) fresh data.length
  have hscale : mod.scale = 257 := fresh.scale_eq
  refine ⟨_, hencoder, ?_, ?_⟩
  · intro i hi
    have htake : (data.take i).length = i := by
      rw [List.length_take]
      omega
    obtain ⟨shifts, words, f, arc, hloop, hrun⟩ := encodeLoop_spec (data.take i) hready
      (by rw [htake]; show 2 * (mod.scale + i) ≤ _; omega) (by rw [htake]; show 0 + i < _; omega)
      trivial
    have hscale' : arc.mod.scale = mod.scale + i := by
      have := hrun.scale
      rw [htake] at this
      exact this
    obtain ⟨hsym, hsym'⟩ := hrun.ready.model.sym_of_byte data[i]
    obtain ⟨_, more, _, arc', _, _, _, hencode, _⟩ :=
      dachEncode_spec hrun.ready data[i] (by omega) trivial
    exact ⟨shifts, arc, _, hloop, dachChrToSym_eq (Nat.le_of_lt_succ data[i].toNat_lt),
      hrun.ready.stepInRange (by omega) hsym hsym', more, arc', hencode⟩
  · obtain ⟨shifts, _, _, arc, arc', hloop, _, _, hstop, _⟩ :=
      encodeAll_spec (encodeSink host data.length) fresh data hlen trivial
    exact ⟨shifts, arc, arc', hloop, hstop⟩

/-- Seven bytes of three values: the last step, and the end. -/
theorem encode_inRange_seven : ∃ new, encoderNew littleHost 7 = .ok new ∧
    (∃ shifts arc sym more arc', encodeLoop littleHost [65, 66, 65, 67, 66, 65] new = .ok (shifts, arc) ∧
      dachChrToSym arc.mod 65 = .ok sym ∧ StepInRange arc sym ∧
      dachEncode littleHost arc 65 = .ok (more, arc')) ∧
    ∃ shifts arc arc', encodeLoop littleHost [65, 66, 65, 67, 66, 65, 65] new = .ok (shifts, arc) ∧
      dachStopEncoder littleHost arc = .ok arc' := by
  obtain ⟨new, hnew, hsteps, hstop⟩ :=
    encode_inRange littleHost [65, 66, 65, 67, 66, 65, 65] (by decide) (by decide)
  obtain ⟨shifts, arc, sym, hloop, hsym, hrange, more, arc', hencode⟩ := hsteps 6 (by decide)
  exact ⟨new, hnew, ⟨shifts, arc, sym, more, arc', hloop, hsym, hrange, hencode⟩, hstop⟩

end Dach
