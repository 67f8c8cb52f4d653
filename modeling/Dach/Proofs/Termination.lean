/-
Module: Dach.Proofs.Termination
Layer: Proofs
Purpose: Decoding ends on every file. Each renormalisation pass that does not abort doubles the range,
  so 31 of them are too many for a 32-bit interval, and every call of `dach_decode` that returns counts
  one symbol against the block size. Nothing is assumed of the tables or of the input.
Imports: Dach.Lib.Outcome, Dach.Proofs.Encoder
Trusted boundary: none
Main exports: Ends, ReadStops, dachBitin_yields, decodeRenorm_ends, dachDecode_ends, decodeLoop_ends,
  decode_terminates
-/
import Dach.Lib.Outcome
import Dach.Proofs.Encoder

namespace Dach

open IntervalCoder Outcome

/-! ### Computations that end -/

/-- The computation aborts or returns a value with the property, and no loop of it runs on. -/
def Ends {α : Type} (x : Except Abort α) (P : α → Prop) : Prop :=
  x ≠ .error .loopForever ∧ ∀ a, x = .ok a → P a

/-- Every error is allowed but the one of a loop that runs on. -/
theorem ends_iff {α : Type} {x : Except Abort α} {P : α → Prop} :
    Ends x P ↔ Yields (fun e => e ≠ .loopForever) x P := by
  rcases x with e | a
  · constructor
    · intro h heq
      exact h.1 (by rw [heq])
    · intro h
      exact ⟨fun heq => h (Except.error.inj heq), fun a heq => (by cases heq)⟩
  · constructor
    · intro h
      exact h.2 a rfl
    · intro h
      refine ⟨fun heq => (by cases heq), fun b heq => ?_⟩
      cases heq
      exact h

theorem cassert_yields {stop : Abort → Prop} {p : Prop} [Decidable p] {site : Abort}
    (h : ¬ p → stop site) : Yields stop (cassert p site) fun _ => p := by
  by_cases hp : p
  · rw [cassert_pos site hp]
    exact Yields.ok hp
  · rw [cassert_neg site hp]
    exact Yields.error (h hp)

namespace Ends

variable {α β : Type} {P Q : α → Prop} {R : β → Prop} {x y : Except Abort α}

theorem ok {a : α} (h : P a) : Ends (.ok a) P := ends_iff.mpr (Yields.ok h)

theorem error {e : Abort} (h : e ≠ .loopForever) : Ends (.error e) P := ends_iff.mpr (Yields.error h)

theorem mono (h : Ends x P) (himp : ∀ a, P a → Q a) : Ends x Q :=
  ends_iff.mpr ((ends_iff.mp h).mono himp)

theorem bind {f : α → Except Abort β} (h : Ends x P) (hf : ∀ a, P a → Ends (f a) R) :
    Ends (x >>= f) R :=
  ends_iff.mpr ((ends_iff.mp h).bind fun a ha => ends_iff.mp (hf a ha))

theorem cassert {p : Prop} [Decidable p] {site : Abort} (h : site ≠ .loopForever) :
    Ends (cassert p site) fun _ => p :=
  ends_iff.mpr (cassert_yields fun _ => h)

theorem ite {p : Prop} [Decidable p] (hx : p → Ends x P) (hy : ¬ p → Ends y P) :
    Ends (if p then x else y) P :=
  ends_iff.mpr (Yields.ite (fun hp => ends_iff.mp (hx hp)) fun hp => ends_iff.mp (hy hp))

end Ends

/-! ### The model -/

theorem dachPpm0Cumfreq_ends (ppm : Ppm0) (sym : Nat) :
    Ends (dachPpm0Cumfreq ppm sym) fun _ => True :=
  (Ends.cassert (by decide)).bind fun _ _ =>
    Ends.ite (fun _ => Ends.ok trivial) (fun _ => Ends.ok trivial)

theorem dachSymToChr_ends (ppm : Ppm0) (sym : Nat) : Ends (dachSymToChr ppm sym) fun _ => True :=
  (Ends.cassert (by decide)).bind fun _ _ => Ends.ok trivial

theorem findSymLoop_ends (ppm : Ppm0) (cumfreq : Nat) {left : Nat} : ∀ sym : Nat,
    Ends (findSymLoop ppm cumfreq left sym) fun _ => True := by
  induction left with
  | zero =>
      intro sym
      exact Ends.ok trivial
  | succ left ih =>
      intro sym
      rw [findSymLoop]
      exact (dachPpm0Cumfreq_ends ppm sym).bind fun _ _ =>
        Ends.ite (fun _ => ih _) (fun _ => Ends.ok trivial)

theorem dachPpm0FindSym_ends (ppm : Ppm0) (cumfreq : Nat) :
    Ends (dachPpm0FindSym ppm cumfreq) fun _ => True :=
  (findSymLoop_ends ppm cumfreq 1).bind fun _ _ =>
    (Ends.cassert (by decide)).bind fun _ _ => Ends.ok trivial

theorem dachSymSwap_ends {sym2 : Nat} : ∀ (ppm : Ppm0) (sym1 : Nat),
    Ends (dachSymSwap ppm sym1 sym2) fun _ => True := by
  induction sym2 with
  | zero =>
      intro ppm sym1
      rw [dachSymSwap]
      exact (dachSymToChr_ends ppm sym1).bind fun _ _ => (dachSymToChr_ends ppm 0).bind fun _ _ =>
        Ends.ite (fun _ => Ends.ok trivial) (fun _ => Ends.ok trivial)
  | succ above ih =>
      intro ppm sym1
      rw [dachSymSwap]
      refine (dachSymToChr_ends ppm sym1).bind fun _ _ => (dachSymToChr_ends ppm _).bind fun _ _ => ?_
      refine Ends.ite (fun _ => Ends.ite (fun _ => ?_) (fun _ => Ends.ok trivial))
        (fun _ => Ends.ok trivial)
      exact (ih _ _).bind fun _ _ => Ends.ok trivial

theorem dachPpm0Update_ends (ppm : Ppm0) (sym : Nat) :
    Ends (dachPpm0Update ppm sym) fun _ => True := by
  have hswap : ∀ mid, Ends (updateSwap mid sym) fun _ => True := fun mid =>
    Ends.ite (fun _ => (dachSymSwap_ends mid sym).bind fun _ _ => Ends.ok trivial)
      (fun _ => Ends.ok trivial)
  refine (Ends.cassert (by decide)).bind fun _ _ => (hswap _).bind fun _ _ => ?_
  refine (dachPpm0Cumfreq_ends _ 1).bind fun _ _ => (dachPpm0Cumfreq_ends _ 0).bind fun _ _ => ?_
  refine (Ends.cassert (by decide)).bind fun _ _ => (dachPpm0Cumfreq_ends _ 1).bind fun _ _ => ?_
  exact (Ends.cassert (by decide)).bind fun _ _ => Ends.ok trivial

/-! ### Narrowing -/

section Step

variable (arc : Arc) (sym : Nat)

/-- The 64-bit and the 32-bit end agree, so the end fits 32 bits. -/
theorem dachHighScale_ends : Ends (dachHighScale arc sym) fun hs => hs < 2 ^ 32 := by
  refine (Ends.cassert (by decide)).bind fun _ _ => (Ends.cassert (by decide)).bind fun _ _ => ?_
  refine (dachPpm0Cumfreq_ends arc.mod sym).bind fun _ _ => Ends.ite (fun _ => ?_) (fun hagree => ?_)
  · exact Ends.error (by decide)
  · rw [not_ne_iff] at hagree
    refine Ends.ok ?_
    rw [hagree]
    exact Nat.mod_lt _ (Nat.two_pow_pos 32)

theorem dachLowScale_ends : Ends (dachLowScale arc sym) fun _ => True := by
  refine (Ends.cassert (by decide)).bind fun _ _ => (Ends.cassert (by decide)).bind fun _ _ => ?_
  refine (dachPpm0Cumfreq_ends arc.mod _).bind fun _ _ => Ends.ite (fun _ => ?_) (fun _ => ?_)
  · exact Ends.error (by decide)
  · exact Ends.ok trivial

theorem dachCalcRange_ends : Ends (dachCalcRange arc) fun _ => True :=
  Ends.ite (fun _ => Ends.error (by decide)) fun _ =>
    (Ends.cassert (by decide)).bind fun _ _ => Ends.ok trivial

/-- A step that returns leaves the upper end in 32 bits. -/
theorem dachEncodeStep_ends :
    Ends (dachEncodeStep arc sym) fun arc' => arc'.high < 2 ^ 32 ∧ arc.SameModel arc' := by
  refine (Ends.cassert (by decide)).bind fun _ _ => (Ends.cassert (by decide)).bind fun _ _ => ?_
  refine (dachCalcRange_ends arc).bind fun range _ => Ends.ite (fun _ => ?_) (fun _ => ?_)
  · exact Ends.error (by decide)
  · refine (dachHighScale_ends _ sym).bind fun hs hhs => (dachLowScale_ends _ sym).bind fun ls _ => ?_
    refine Ends.ite (fun _ => Ends.error (by decide)) (fun _ => Ends.ok ?_)
    exact ⟨hhs, ⟨rfl, rfl, rfl, rfl, rfl⟩⟩

end Step

/-! ### Bit input -/

/-- Bit input does not touch the interval or the model. -/
structure Arc.SameInterval (arc arc' : Arc) : Prop extends arc.SameModel arc' where
  low : arc'.low = arc.low
  high : arc'.high = arc.high

variable (host : Host)

/-- The end of the input file, or an error of `block_read`. -/
def ReadStops (e : Abort) : Prop := e = .bitinEof ∨ e = .blockReadPos ∨ e = .blockOutOfBounds

theorem blockReadLoop_yields {count : Nat} : ∀ obj : Block,
    Yields ReadStops (blockReadLoop count obj) fun _ => True := by
  induction count with
  | zero =>
      intro obj
      exact Yields.ok trivial
  | succ count ih =>
      intro obj
      rw [blockReadLoop]
      refine Yields.ite (fun _ => Yields.ok trivial) fun _ => ?_
      cases obj.data[obj.pos]? with
      | none => exact Yields.error (Or.inr (Or.inr rfl))
      | some byte => exact (ih _).bind fun _ _ => Yields.ok trivial

theorem blockRead_yields (obj : Block) (count : Nat) :
    Yields ReadStops (blockRead obj count) fun _ => True := by
  refine (cassert_yields fun _ => Or.inr (Or.inl rfl)).bind fun _ _ => ?_
  refine Yields.ite (fun _ => Yields.ok trivial) fun _ => ?_
  exact (blockReadLoop_yields obj).bind fun _ _ =>
    (cassert_yields fun _ => Or.inr (Or.inl rfl)).bind fun _ _ => Yields.ok trivial

/-- Whatever the buffer and the input hold, one bit is read, and the interval and the code value stay. -/
theorem dachBitin_yields (arc : Arc) :
    Yields ReadStops (dachBitin host arc) fun result =>
      result.1 ≤ 1 ∧ arc.SameInterval result.2 ∧ result.2.esym = arc.esym := by
  have htop : ∀ mid : Arc, arc.SameInterval mid ∧ mid.esym = arc.esym →
      Yields ReadStops (bitinTop mid) fun result =>
        result.1 ≤ 1 ∧ arc.SameInterval result.2 ∧ result.2.esym = arc.esym := by
    rintro mid ⟨h, hesym⟩
    have hbit : (mid.ioBuffer &&& 0x80000000) >>> 31 ≤ 1 := by
      have hmask : mid.ioBuffer &&& 2 ^ 31 = (mid.ioBuffer.testBit 31).toNat * 2 ^ 31 :=
        Nat.and_two_pow _ 31
      have hbool := Bool.toNat_le (mid.ioBuffer.testBit 31)
      rw [show (0x80000000 : Nat) = 2 ^ 31 by norm_num, hmask, Nat.shiftRight_eq_div_pow]
      omega
    refine (cassert_yields fun hne => absurd (by omega) hne).bind fun _ _ => ?_
    exact Yields.ok
      ⟨hbit, ⟨⟨h.mod, h.scale, h.totalSyms, h.blocksize, h.stop⟩, h.low, h.high⟩, hesym⟩
  have hword : Yields ReadStops (bitinWord host arc) fun mid =>
      arc.SameInterval mid ∧ mid.esym = arc.esym := by
    refine (cassert_yields fun _ => Or.inl rfl).bind fun _ _ => ?_
    rcases arc.io with ⟨inp, out⟩ | blk
    · exact Yields.ok ⟨⟨⟨rfl, rfl, rfl, rfl, rfl⟩, rfl, rfl⟩, rfl⟩
    · exact (blockRead_yields blk 4).bind fun _ _ =>
        Yields.ok ⟨⟨⟨rfl, rfl, rfl, rfl, rfl⟩, rfl, rfl⟩, rfl⟩
  exact Yields.ite (fun _ => hword.bind htop)
    (fun _ => htop arc ⟨⟨Arc.SameModel.refl arc, rfl, rfl⟩, rfl⟩)

theorem dachBitin_ends (arc : Arc) :
    Ends (dachBitin host arc) fun result => arc.SameInterval result.2 := by
  apply ends_iff.mpr
  apply Yields.weaken ((dachBitin_yields host arc).mono fun _ h => h.2.1)
  rintro e (rfl | rfl | rfl) <;> decide

/-! ### Renormalisation -/

/-- A shift of the decoder moves the interval registers and nothing else but the code value. -/
theorem decodeShift_ends (arc : Arc) :
    Ends (decodeShift host arc) fun next => ∀ arc', next = some arc' →
      (shiftInterval arc).SameInterval arc' := by
  refine (Ends.cassert (by decide)).bind fun _ _ => (dachBitin_ends host _).bind fun result h => ?_
  refine Ends.ok fun arc' heq => ?_
  obtain rfl := Option.some.inj heq
  exact ⟨⟨h.mod, h.scale, h.totalSyms, h.blocksize, h.stop⟩, h.low, h.high⟩

theorem decodePass_ne_loopForever (arc : Arc) : decodePass host arc ≠ .error .loopForever := by
  have hshift : ∀ mid, Ends (decodeShift host mid) fun _ => True := fun mid =>
    (decodeShift_ends host mid).mono fun _ _ => trivial
  have hpass : Ends (decodePass host arc) fun _ => True := by
    refine (Ends.cassert (by decide)).bind fun _ _ => Ends.ite (fun _ => hshift _) fun _ => ?_
    refine Ends.ite (fun _ => ?_) (fun _ => Ends.ok trivial)
    exact (Ends.cassert (by decide)).bind fun _ _ => hshift _
  exact hpass.1

variable {host}

/-- A pass that goes on makes one shift of the interval. -/
theorem decodePass_ends {arc : Arc} {f : Frame} (hr : arc.Registers f) (hv : f.Valid (2 ^ 30)) :
    Ends (decodePass host arc) fun next => ∀ arc', next = some arc' →
      (∃ g, f.shift? (2 ^ 30) = some g ∧ arc'.Registers g) ∧ arc.SameModel arc' := by
  have hshift : ∀ {mid : Arc} {g : Frame}, f.shift? (2 ^ 30) = some g →
      (shiftInterval mid).Registers g → arc.SameModel mid →
        Ends (decodeShift host mid) fun next => ∀ arc', next = some arc' →
          (∃ g, f.shift? (2 ^ 30) = some g ∧ arc'.Registers g) ∧ arc.SameModel arc' := by
    intro mid g hstep hregs hmid
    refine (decodeShift_ends host mid).mono fun next hnext arc' heq => ?_
    obtain ⟨hsm, hlow, hhigh⟩ := hnext arc' heq
    exact ⟨⟨g, hstep, hlow.trans hregs.low, hhigh.trans hregs.high⟩, hmid.trans
      ⟨hsm.mod, hsm.scale, hsm.totalSyms, hsm.blocksize, hsm.stop⟩⟩
  rcases shift?_cases hv with (⟨hside, hstep⟩ | ⟨hside, hstep⟩) | ⟨⟨hlo, hhi⟩, hmid | hnone⟩
  · rw [decodePass_eq_half host hr hv (Or.inl hside)]
    exact hshift hstep (shiftInterval_half arc hr hv (Or.inl ⟨rfl, hside⟩)) (Arc.SameModel.refl arc)
  · rw [decodePass_eq_half host hr hv (Or.inr hside)]
    exact hshift hstep (shiftInterval_half arc hr hv (Or.inr ⟨rfl, hside⟩)) (Arc.SameModel.refl arc)
  · obtain ⟨hlo', hhi', hstep⟩ := hmid
    rw [decodePass_eq_middle host hr hlo' hlo hhi hhi']
    refine hshift hstep ?_ ⟨rfl, rfl, rfl, rfl, rfl⟩
    exact shiftInterval_middle (by rw [hr.low]) (by rw [hr.high]) hlo' hlo hhi hhi'
  · rw [decodePass_break host hr (Frame.normal_of_shift?_eq_none hnone.2 hv)]
    exact Ends.ok fun arc' heq => (by cases heq)

/-- A renormalisation leaves its loop after at most 31 shifts. -/
theorem decodeRenorm_ends (host : Host) {arc : Arc} (hhigh : arc.high < 2 ^ 32) {fuel : Nat}
    (hfuel : 31 < fuel) :
    Ends (Loop.forever .loopForever (decodePass host) fuel arc) fun result =>
      result.1 ≤ 31 ∧ arc.SameModel result.2 := by
  by_cases hlt : arc.low < arc.high
  · have hv : Frame.Valid (2 ^ 30) { low := arc.low, high := arc.high, base := 0, shifts := 0 } :=
      ⟨hlt, by show arc.high < 4 * 2 ^ 30; omega⟩
    obtain ⟨k, g, run⟩ := renorm_exists hv
    have hk := renorm_shifts_le (m := 31) run hv (by norm_num)
    obtain ⟨hne, hle⟩ := Loop.forever_le_of_haltsIn (decodePass_ne_loopForever host)
      (R := fun s f => s.Registers f ∧ f.Valid (2 ^ 30) ∧ arc.SameModel s)
      (fun s t f ⟨hr, hvf, hsm⟩ hbody => by
        obtain ⟨⟨g, hstep, hregs⟩, hsm'⟩ := (decodePass_ends hr hvf).2 _ hbody t rfl
        exact ⟨g, hstep, hregs, (Frame.shift?_spec hstep hvf).1, hsm.trans hsm'⟩)
      run (Nat.lt_of_le_of_lt hk hfuel) ⟨⟨rfl, rfl⟩, hv, Arc.SameModel.refl arc⟩
    refine ⟨hne, fun ⟨j, t⟩ heq => ?_⟩
    obtain ⟨hj, _, _, _, hsm⟩ := hle j t heq
    exact ⟨Nat.le_trans hj hk, hsm⟩
  · -- the first assertion of the loop fails
    obtain ⟨fuel, rfl⟩ := Nat.exists_eq_succ_of_ne_zero (Nat.ne_of_gt (Nat.zero_lt_of_lt hfuel))
    have hstop : decodePass host arc = .error .decodeInterval := by
      rw [decodePass, cassert_neg _ hlt]
      rfl
    rw [Loop.forever_of_error hstop]
    exact Ends.error (by decide)

/-! ### Calls of the decoder -/

/-- A call that returns counts one symbol against the block size, and stops the decoder when it was the
    last one. -/
structure CountsOne (arc arc' : Arc) : Prop where
  totalSyms : arc'.totalSyms = u64 (arc.totalSyms + 1)
  le : arc'.totalSyms ≤ arc.blocksize
  blocksize : arc'.blocksize = arc.blocksize
  stop : arc'.stop = true ↔ arc.stop = true ∨ arc'.totalSyms = arc.blocksize

theorem dachDecode_ends (arc : Arc) :
    Ends (dachDecode host arc) fun result => CountsOne arc result.2 := by
  refine (Ends.cassert (by decide)).bind fun _ _ => (dachCalcRange_ends arc).bind fun range _ => ?_
  refine (dachPpm0FindSym_ends _ _).bind fun sym _ => ?_
  refine (Ends.cassert (by decide)).bind fun _ hle => Ends.ite (fun hlast => ?_) (fun hmore => ?_)
  · refine (dachSymToChr_ends _ sym).bind fun chr _ => Ends.ok ?_
    exact ⟨rfl, hle, rfl, fun _ => Or.inr hlast, fun _ => rfl⟩
  · refine (Ends.cassert (by decide)).bind fun _ _ => (Ends.cassert (by decide)).bind fun _ _ => ?_
    refine (dachEncodeStep_ends _ sym).bind fun mid ⟨hhigh, hmid⟩ => ?_
    refine (dachPpm0Cumfreq_ends mid.mod sym).bind fun cf _ => ?_
    refine (Ends.cassert (by decide)).bind fun _ _ => ?_
    refine (decodeRenorm_ends host hhigh (by decide)).bind fun ⟨shifts, last⟩ ⟨_, hlast⟩ => ?_
    refine (dachSymToChr_ends last.mod sym).bind fun sym1 _ => ?_
    refine (dachPpm0Update_ends last.mod sym).bind fun ⟨scale, mod⟩ _ => ?_
    refine (Ends.cassert (by decide)).bind fun _ _ => Ends.ok ?_
    have hsame := hmid.trans hlast
    refine ⟨hsame.totalSyms, ?_, hsame.blocksize, ?_⟩
    · show last.totalSyms ≤ _
      rw [hsame.totalSyms]
      exact hle
    · show last.stop = true ↔ _ ∨ last.totalSyms = _
      rw [hsame.stop, hsame.totalSyms]
      exact ⟨Or.inl, fun h => h.resolve_right hmore⟩

/-- A decoder in the loop of `decode`: what it has written or holds in the buffer is what it has
    counted, and it has stopped exactly when that is the block size. -/
structure DecodeLoopInv (arc : Arc) (buf : List UInt8) (fdOut : CFile) : Prop where
  small : arc.blocksize < 2 ^ 32
  le : arc.totalSyms ≤ arc.blocksize
  stop : arc.stop = true ↔ 0 < arc.totalSyms ∧ arc.totalSyms = arc.blocksize
  counted : fdOut.written.length + buf.length = arc.totalSyms

theorem DecodeLoopInv.next {arc arc' : Arc} {buf buf' : List UInt8} {fdOut fdOut' : CFile}
    (h : DecodeLoopInv arc buf fdOut) (hgo : ¬ arc.stop = true) (c : CountsOne arc arc')
    (hlen : fdOut'.written.length + buf'.length = fdOut.written.length + buf.length + 1) :
    DecodeLoopInv arc' buf' fdOut' := by
  have hsmall := h.small
  have hcounted := h.counted
  have htotal := c.totalSyms
  rw [u64_of_lt (by have := h.le; omega)] at htotal
  refine ⟨by rw [c.blocksize]; exact hsmall, by rw [c.blocksize]; exact c.le, ?_, by omega⟩
  rw [c.stop, c.blocksize]
  exact ⟨fun hlast => ⟨by omega, hlast.resolve_left hgo⟩, fun hlast => Or.inr hlast.2⟩

/-- The loop of `decode` ends within as many calls as the block size, one if that is zero. -/
theorem decodeLoop_ends (host : Host) {fuel : Nat} : ∀ {arc : Arc} {buf : List UInt8} {fdOut : CFile},
    DecodeLoopInv arc buf fdOut → max arc.blocksize 1 ≤ arc.totalSyms + fuel →
      Ends (decodeLoop host fuel arc buf fdOut) fun result =>
        (result.2.fwrite result.1).written.length = arc.blocksize := by
  have hdone : ∀ {arc : Arc} {buf : List UInt8} {fdOut : CFile}, DecodeLoopInv arc buf fdOut →
      arc.stop = true → (fdOut.fwrite buf).written.length = arc.blocksize := by
    intro arc buf fdOut h hstop
    rw [CFile.fwrite, List.length_append, h.counted]
    exact (h.stop.mp hstop).2
  induction fuel with
  | zero =>
      intro arc buf fdOut h hfuel
      have hle := h.le
      have hstop : arc.stop = true := h.stop.mpr (by omega)
      rw [decodeLoop, if_pos (show dachEof arc = true from hstop)]
      exact Ends.ok (hdone h hstop)
  | succ fuel ih =>
      intro arc buf fdOut h hfuel
      rw [decodeLoop]
      refine Ends.ite (fun hstop => Ends.ok (hdone h hstop)) fun hgo => ?_
      refine (dachDecode_ends arc).bind ?_
      rintro ⟨chr, arc'⟩ (c : CountsOne arc arc')
      have hfuel' : max arc'.blocksize 1 ≤ arc'.totalSyms + fuel := by
        have hle := h.le
        have hsmall := h.small
        have htotal := c.totalSyms
        have hblock := c.blocksize
        rw [u64_of_lt (by omega)] at htotal
        omega
      have hblock : arc.blocksize = arc'.blocksize := c.blocksize.symm
      rw [hblock]
      refine Ends.ite (fun _ => ih (h.next hgo c ?_) hfuel') (fun _ => ih (h.next hgo c ?_) hfuel')
      · simp only [CFile.fwrite, List.length_append, List.length_singleton, List.length_nil]
        omega
      · simp only [List.length_append, List.length_singleton]
        omega

/-- A loop of `decode` that has ended does not ask for more calls. -/
theorem decodeLoop_more {fuel : Nat} : ∀ {arc : Arc} {buf : List UInt8} {fdOut : CFile},
    decodeLoop host fuel arc buf fdOut ≠ .error .loopForever →
      ∀ more, decodeLoop host (fuel + more) arc buf fdOut = decodeLoop host fuel arc buf fdOut := by
  induction fuel with
  | zero =>
      intro arc buf fdOut h more
      by_cases hstop : dachEof arc = true
      · rw [decodeLoop, if_pos hstop]
        cases more with
        | zero => rw [decodeLoop, if_pos hstop]
        | succ more => rw [Nat.zero_add, decodeLoop, if_pos hstop]
      · rw [decodeLoop, if_neg hstop] at h
        exact absurd rfl h
  | succ fuel ih =>
      intro arc buf fdOut h more
      rw [Nat.succ_add]
      unfold decodeLoop at h ⊢
      by_cases hstop : dachEof arc = true
      · rw [if_pos hstop, if_pos hstop]
      · rw [if_neg hstop] at h
        rw [if_neg hstop, if_neg hstop]
        cases hdecode : dachDecode host arc with
        | error e => rfl
        | ok result =>
            obtain ⟨chr, arc'⟩ := result
            rw [hdecode] at h
            simp only [ok_bind] at h ⊢
            by_cases hfull : (buf ++ [UInt8.ofNat chr]).length = maxBuf
            · rw [if_pos hfull] at h
              rw [if_pos hfull, if_pos hfull, ih h more]
            · rw [if_neg hfull] at h
              rw [if_neg hfull, if_neg hfull, ih h more]

/-! ### Decoding a file -/

/-- The block size that `dach_new_arcoder` reads, from a header that may be cut short. -/
def headerLength (host : Host) (content : List UInt8) : Nat :=
  dachReadHdrU32 host.order (content.take 4)

/-- `decode` stopped after a number of calls of `dach_decode`. -/
def decodeWithin (host : Host) (calls : Nat) (content : List UInt8) :
    Except Abort (List UInt8) := do
  let arc ← decoderNew host content
  let (buf, fdOut) ← decodeLoop host calls arc [] (CFile.reading [])
  return (fdOut.fwrite buf).written

theorem startLoop_ends {left : Nat} : ∀ arc : Arc,
    Ends (startLoop host left arc) arc.SameModel := by
  induction left with
  | zero =>
      intro arc
      exact Ends.ok (Arc.SameModel.refl arc)
  | succ left ih =>
      intro arc
      rw [startLoop]
      refine (dachBitin_ends host _).bind fun ⟨bit, mid⟩ hmid => (ih _).mono fun last hlast => ?_
      have hread : arc.SameModel { mid with esym := u32 (mid.esym + bit) } :=
        ⟨hmid.mod, hmid.scale, hmid.totalSyms, hmid.blocksize, hmid.stop⟩
      exact hread.trans hlast

theorem decoderNew_ends (host : Host) (content : List UInt8) :
    Ends (decoderNew host content) fun arc =>
      arc.blocksize = headerLength host content ∧ DecodeLoopInv arc [] (CFile.reading []) := by
  obtain ⟨mod, hmod, fresh⟩ := dachPpm0New_fresh
  rw [decoderNew, hmod, ok_bind, dachNewArcoder, if_pos rfl]
  refine Ends.bind (P := fun arc => arc = arcFresh mod arc.io (headerLength host content)) ?_ ?_
  · exact (Ends.cassert (by decide)).bind fun _ _ => Ends.ok rfl
  · intro arc harc
    refine (startLoop_ends _).mono fun arc' hsame => ?_
    have htotal : arc'.totalSyms = 0 := hsame.totalSyms.trans (by rw [harc]; rfl)
    have hblock : arc'.blocksize = headerLength host content :=
      hsame.blocksize.trans (by rw [harc]; rfl)
    have hstop : arc'.stop = false := hsame.stop.trans (by rw [harc]; rfl)
    refine ⟨hblock, by rw [hblock]; exact u32OfBytes_lt _ _, by omega, ?_, by rw [htotal]; rfl⟩
    rw [hstop, htotal]
    simp

/-- The renormalisation that follows a step leaves its loop after at most 31 shifts, and would not make
    more with more fuel. -/
theorem decodeRenorm_terminates (host : Host) {arc arc' : Arc} {sym : Nat}
    (hstep : dachEncodeStep arc sym = .ok arc') :
    decodeRenorm host arc' ≠ .error .loopForever ∧
      (∀ fuel, 31 < fuel →
        Loop.forever .loopForever (decodePass host) fuel arc' = decodeRenorm host arc') ∧
      ∀ shifts arc'', decodeRenorm host arc' = .ok (shifts, arc'') → shifts ≤ 31 := by
  have hhigh := ((dachEncodeStep_ends arc sym).2 arc' hstep).1
  have hends := decodeRenorm_ends host hhigh (show 31 < 32 by omega)
  have hsame : ∀ fuel, 31 < fuel → Loop.forever .loopForever (decodePass host) fuel arc'
      = Loop.forever .loopForever (decodePass host) 32 arc' := by
    intro fuel hfuel
    obtain ⟨more, rfl⟩ := Nat.exists_eq_add_of_le (show 32 ≤ fuel by omega)
    exact Loop.forever_more hends.1 more
  have hrenorm : decodeRenorm host arc' = Loop.forever .loopForever (decodePass host) 32 arc' :=
    hsame loopFuel (by decide)
  rw [hrenorm]
  exact ⟨hends.1, hsame, fun shifts arc'' heq => (hends.2 _ heq).1⟩

/-- Decoding ends on every file. A renormalisation that follows a step makes at most 31 shifts; more
    calls than the header says, one at least, change nothing; and a run that does not abort has written
    as many bytes as the header says. -/
theorem decode_terminates (host : Host) (content : List UInt8) :
    (∀ arc sym arc', dachEncodeStep arc sym = .ok arc' →
      decodeRenorm host arc' ≠ .error .loopForever ∧
      (∀ fuel, 31 < fuel →
        Loop.forever .loopForever (decodePass host) fuel arc' = decodeRenorm host arc') ∧
      ∀ shifts arc'', decodeRenorm host arc' = .ok (shifts, arc'') → shifts ≤ 31) ∧
    decode host content ≠ .error .loopForever ∧
    (∀ calls, max (headerLength host content) 1 ≤ calls →
      decodeWithin host calls content = decode host content) ∧
    ∀ out, decode host content = .ok out → out.length = headerLength host content := by
  have hnew := decoderNew_ends host content
  -- the outcome with just enough calls
  have henough : Ends (decodeWithin host (max (headerLength host content) 1) content) fun out =>
      out.length = headerLength host content := by
    refine hnew.bind fun arc ⟨hblock, hinv⟩ => ?_
    refine (decodeLoop_ends host hinv (by rw [hblock]; omega)).bind fun ⟨buf, fdOut⟩ hlen => Ends.ok ?_
    exact hlen.trans hblock
  have hmore : ∀ calls, max (headerLength host content) 1 ≤ calls →
      decodeWithin host calls content
        = decodeWithin host (max (headerLength host content) 1) content := by
    intro calls hcalls
    obtain ⟨more, rfl⟩ := Nat.exists_eq_add_of_le hcalls
    cases harc : decoderNew host content with
    | error e => simp only [decodeWithin, harc, error_bind]
    | ok arc =>
        obtain ⟨hblock, hinv⟩ := hnew.2 arc harc
        have hloop := decodeLoop_ends host hinv
          (show max arc.blocksize 1 ≤ arc.totalSyms + max (headerLength host content) 1 by
            rw [hblock]; omega)
        simp only [decodeWithin, harc, ok_bind, decodeLoop_more hloop.1 more]
  have hdecode : decode host content
      = decodeWithin host (max (headerLength host content) 1) content := by
    cases harc : decoderNew host content with
    | error e => simp only [decode, decodeWithin, harc, error_bind]
    | ok arc =>
        have hblock := (hnew.2 arc harc).1
        rw [← hmore (headerLength host content + 1) (by omega)]
        simp only [decode, decodeWithin, harc, ok_bind, hblock]
  refine ⟨fun arc sym arc' hstep => decodeRenorm_terminates host hstep, ?_, ?_, ?_⟩
  · rw [hdecode]
    exact henough.1
  · intro calls hcalls
    rw [hdecode]
    exact hmore calls hcalls
  · rw [hdecode]
    exact henough.2

end Dach
