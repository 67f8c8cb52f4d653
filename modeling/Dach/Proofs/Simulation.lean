/-
Module: Dach.Proofs.Simulation
Layer: Proofs
Purpose: Two coders that differ only in what they read and write. Where a refill takes the same word on both
  sides, and where writing a word keeps the two sides related, every function of the coder keeps them
  related; it is enough that the first side either keeps up or stops. Each pair of sides supplies these two
  facts about its words only.
Imports: Dach.Lib.Outcome, Dach.Core.Command
Trusted boundary: none
Main exports: ArcAlike, RefillsAlike, FlushesAlike, dachStartDecoder_alike, dachDecode_alike,
  dachEncode_alike, dachStopEncoder_alike
-/
import Dach.Lib.Outcome
import Dach.Core.Command

namespace Dach

open Outcome

variable {host host' : Host} {stop : Abort → Prop} {R : ArcIo → ArcIo → Prop}

/-- Two coders that differ only in what they read and write. -/
inductive ArcAlike (R : ArcIo → ArcIo → Prop) : Arc → Arc → Prop where
  | mk (arc : Arc) {io io' : ArcIo} (hio : R io io') :
      ArcAlike R { arc with io := io } { arc with io := io' }

/-- What both coders say besides their state is the same. -/
def ResultAlike {α : Type} (R : ArcIo → ArcIo → Prop) (r r' : α × Arc) : Prop :=
  r'.1 = r.1 ∧ ArcAlike R r.2 r'.2

/-- A refill takes the same word on both sides. -/
def RefillsAlike (host host' : Host) (stop : Abort → Prop) (R : ArcIo → ArcIo → Prop) : Prop :=
  ∀ (arc : Arc) {io io' : ArcIo}, R io io' → Follows stop (ArcAlike R)
    (bitinWord host { arc with io := io }) (bitinWord host' { arc with io := io' })

/-- A word that is written leaves both sides related. -/
def FlushesAlike (host host' : Host) (stop : Abort → Prop) (R : ArcIo → ArcIo → Prop) : Prop :=
  ∀ (arc : Arc) {io io' : ArcIo}, R io io' → Follows stop (ArcAlike R)
    (bitoutWord host { arc with io := io }) (bitoutWord host' { arc with io := io' })

/-! ### The coder -/


variable {arc arc' : Arc}

/-! ### Without a word -/

theorem dachEncodeStep_alike (h : ArcAlike R arc arc') (sym : Nat) :
    Follows stop (ArcAlike R) (dachEncodeStep arc sym) (dachEncodeStep arc' sym) := by
  cases h with
  | mk arc hio =>
      unfold dachEncodeStep
      refine Follows.bind_same _ fun _ => ?_
      refine Follows.bind_same _ fun _ => ?_
      refine Follows.bind_same (dachCalcRange arc) fun range => ?_
      refine Follows.ite (fun _ => Follows.error _) fun _ => ?_
      refine Follows.bind_same (dachHighScale { arc with range := range } sym) fun hs => ?_
      refine Follows.bind_same (dachLowScale { arc with range := range } sym) fun ls => ?_
      refine Follows.ite (fun _ => Follows.error _) fun _ => ?_
      exact Follows.ok (.mk { arc with range := range, high := hs, low := ls } hio)

theorem bitinTop_alike (h : ArcAlike R arc arc') :
    Follows stop (ResultAlike R) (bitinTop arc) (bitinTop arc') := by
  cases h with
  | mk arc hio =>
      unfold bitinTop
      refine Follows.bind_same _ fun _ => ?_
      exact Follows.ok ⟨rfl, .mk { arc with
        ioBuffer := u32 (arc.ioBuffer <<< 1)
        ioBufferFull := u32 (2 ^ 32 - 1 + arc.ioBufferFull) } hio⟩

/-! ### Reading -/

section Reading

variable (refills : RefillsAlike host host' stop R)

include refills

theorem dachBitin_alike (h : ArcAlike R arc arc') :
    Follows stop (ResultAlike R) (dachBitin host arc) (dachBitin host' arc') := by
  have hfull : arc'.ioBufferFull = arc.ioBufferFull := by
    cases h
    rfl
  unfold dachBitin
  by_cases hempty : arc.ioBufferFull = 0
  · rw [if_pos hempty, if_pos (hfull.trans hempty)]
    cases h with
    | mk arc hio => exact Follows.bind (refills arc hio) fun _ _ hab => bitinTop_alike hab
  · rw [if_neg hempty, if_neg (by rw [hfull]; exact hempty)]
    exact bitinTop_alike h

theorem startLoop_alike (left : Nat) : ∀ {arc arc' : Arc}, ArcAlike R arc arc' →
    Follows stop (ArcAlike R) (startLoop host left arc) (startLoop host' left arc') := by
  induction left with
  | zero =>
      intro arc arc' h
      exact Follows.ok h
  | succ left ih =>
      intro arc arc' h
      cases h with
      | mk arc hio =>
          unfold startLoop
          refine Follows.bind (dachBitin_alike refills (.mk { arc with
            esym := u32 (arc.esym * 2) } hio)) ?_
          rintro ⟨bit, a⟩ ⟨bit', b⟩ ⟨hbit, hab⟩
          obtain rfl : bit' = bit := hbit
          cases hab with
          | mk a hio => exact ih (.mk { a with esym := u32 (a.esym + bit') } hio)

theorem dachStartDecoder_alike (h : ArcAlike R arc arc') :
    Follows stop (ArcAlike R) (dachStartDecoder host arc) (dachStartDecoder host' arc') := by
  cases h with
  | mk arc hio => exact startLoop_alike refills 32 (.mk { arc with ioBufferFull := 0 } hio)

theorem decodeShift_alike (h : ArcAlike R arc arc') :
    Follows stop (Option.Rel (ArcAlike R)) (decodeShift host arc) (decodeShift host' arc') := by
  cases h with
  | mk arc hio =>
      unfold decodeShift
      refine Follows.bind_same _ fun _ => ?_
      refine Follows.bind (dachBitin_alike refills (.mk { shiftInterval arc with
        esym := u32 (arc.esym <<< 1) &&& 0xFFFFFFFF } hio)) ?_
      rintro ⟨bit, a⟩ ⟨bit', b⟩ ⟨hbit, hab⟩
      obtain rfl : bit' = bit := hbit
      cases hab with
      | mk a hio =>
          exact Follows.ok (.some (.mk { a with esym := a.esym ||| bit' } hio))

theorem decodePass_alike (h : ArcAlike R arc arc') :
    Follows stop (Option.Rel (ArcAlike R)) (decodePass host arc) (decodePass host' arc') := by
  cases h with
  | mk arc hio =>
      unfold decodePass
      refine Follows.bind_same _ fun _ => ?_
      refine Follows.ite (fun _ => decodeShift_alike refills (.mk arc hio)) fun _ => ?_
      refine Follows.ite (fun _ => ?_) fun _ => Follows.ok .none
      refine Follows.bind_same _ fun _ => ?_
      exact decodeShift_alike refills (.mk { arc with
        esym := arc.esym ^^^ 0x40000000
        low := arc.low &&& 0x3FFFFFFF
        high := arc.high ||| 0x40000000 } hio)

theorem decodeRenorm_alike (h : ArcAlike R arc arc') :
    Follows stop (ResultAlike R) (decodeRenorm host arc) (decodeRenorm host' arc') :=
  Follows.forever (fun _ _ hab => decodePass_alike refills hab) loopFuel h

/-- A call of the decoder does the same on both sides. -/
theorem dachDecode_alike (h : ArcAlike R arc arc') :
    Follows stop (ResultAlike R) (dachDecode host arc) (dachDecode host' arc') := by
  cases h with
  | mk arc hio =>
      unfold dachDecode
      refine Follows.bind_same _ fun _ => ?_
      refine Follows.bind_same (dachCalcRange arc) fun range => ?_
      refine Follows.bind_same
        (dachPpm0FindSym arc.mod (decodeCount { arc with range := range })) fun sym => ?_
      refine Follows.bind_same _ fun _ => ?_
      refine Follows.ite (fun _ => ?_) fun _ => ?_
      · refine Follows.bind_same _ fun chr => ?_
        exact Follows.ok ⟨rfl, .mk { arc with
          range := range, totalSyms := u64 (arc.totalSyms + 1), stop := true } hio⟩
      · refine Follows.bind_same _ fun _ => ?_
        refine Follows.bind_same _ fun _ => ?_
        refine Follows.bind (dachEncodeStep_alike (.mk { arc with
          range := range, totalSyms := u64 (arc.totalSyms + 1) } hio) sym) ?_
        intro a b hab
        cases hab with
        | mk a hio =>
            refine Follows.bind_same _ fun cf => ?_
            refine Follows.bind_same _ fun _ => ?_
            refine Follows.bind (decodeRenorm_alike refills (.mk a hio)) ?_
            rintro ⟨_, a⟩ ⟨_, b⟩ ⟨_, hab⟩
            cases hab with
            | mk a hio =>
                refine Follows.bind_same _ fun sym1 => ?_
                refine Follows.bind_same (dachPpm0Update a.mod sym) ?_
                rintro ⟨scale, mod⟩
                refine Follows.bind_same _ fun _ => ?_
                exact Follows.ok ⟨rfl, .mk { a with mod := mod, scale := scale } hio⟩

end Reading

/-! ### Writing -/

section Writing

variable (flushes : FlushesAlike host host' stop R)

include flushes

/-- A full buffer is written as the same word. -/
theorem dachBitout_alike (h : ArcAlike R arc arc') (bit : Nat) :
    Follows stop (ArcAlike R) (dachBitout host arc bit) (dachBitout host' arc' bit) := by
  cases h with
  | mk arc hio =>
      unfold dachBitout
      by_cases hfull : arc.ioBufferFull = 0
      · rw [if_pos hfull, if_pos hfull]
        refine Follows.bind (flushes { arc with ioBufferFull := arc.ioBufferSize } hio) ?_
        intro a b hab
        cases hab with
        | mk a hio =>
            exact Follows.ok (.mk { a with
              ioBuffer := u32 (u32 (0 <<< 1) + bit)
              ioBufferFull := u32 (2 ^ 32 - 1 + a.ioBufferFull) } hio)
      · rw [if_neg hfull, if_neg hfull]
        exact Follows.ok (.mk { arc with
          ioBuffer := u32 (u32 (arc.ioBuffer <<< 1) + bit)
          ioBufferFull := u32 (2 ^ 32 - 1 + arc.ioBufferFull) } hio)

theorem writeUnderflow_alike (bit pending : Nat) : ∀ {arc arc' : Arc}, ArcAlike R arc arc' →
    Follows stop (ArcAlike R) (writeUnderflow host bit pending arc)
      (writeUnderflow host' bit pending arc') := by
  induction pending with
  | zero =>
      intro arc arc' h
      exact Follows.ok h
  | succ pending ih =>
      intro arc arc' h
      refine Follows.bind (dachBitout_alike flushes h bit) ?_
      intro a b hab
      cases hab with
      | mk a hio => exact ih (.mk { a with underflow := pending } hio)

theorem dachWriteStream_alike (h : ArcAlike R arc arc') (bit : Nat) :
    Follows stop (ArcAlike R) (dachWriteStream host arc bit) (dachWriteStream host' arc' bit) := by
  unfold dachWriteStream
  refine Follows.bind_same _ fun _ => ?_
  refine Follows.bind (dachBitout_alike flushes h bit) ?_
  intro a b hab
  cases hab with
  | mk a hio => exact writeUnderflow_alike flushes _ a.underflow (.mk a hio)

theorem encodePass_alike (h : ArcAlike R arc arc') :
    Follows stop (Option.Rel (ArcAlike R)) (encodePass host arc) (encodePass host' arc') := by
  cases h with
  | mk arc hio =>
      unfold encodePass
      refine Follows.ite (fun _ => ?_) fun _ => ?_
      · refine Follows.bind (dachWriteStream_alike flushes (.mk arc hio) _) ?_
        intro a b hab
        cases hab with
        | mk a hio => exact Follows.ok (.some (.mk (shiftInterval a) hio))
      · refine Follows.ite (fun _ => ?_) fun _ => Follows.ok .none
        exact Follows.ok (.some (.mk (shiftInterval { arc with
          underflow := u32 (arc.underflow + 1)
          low := arc.low &&& 0x3FFFFFFF
          high := arc.high ||| 0x40000000 }) hio))

theorem encodeRenorm_alike (h : ArcAlike R arc arc') :
    Follows stop (ResultAlike R) (encodeRenorm host arc) (encodeRenorm host' arc') :=
  Follows.forever (fun _ _ hab => encodePass_alike flushes hab) loopFuel h

/-- A call of the encoder does the same on both sides. -/
theorem dachEncode_alike (h : ArcAlike R arc arc') (chr : Nat) :
    Follows stop (ResultAlike R) (dachEncode host arc chr) (dachEncode host' arc' chr) := by
  cases h with
  | mk arc hio =>
      unfold dachEncode
      refine Follows.bind_same (dachChrToSym arc.mod chr) fun sym => ?_
      refine Follows.bind (dachEncodeStep_alike (.mk arc hio) sym) ?_
      intro a b hab
      cases hab with
      | mk a hio =>
          refine Follows.bind (encodeRenorm_alike flushes (.mk { a with
            totalSyms := u64 (a.totalSyms + 1) } hio)) ?_
          rintro ⟨shifts, a⟩ ⟨shifts', b⟩ ⟨hshifts, hab⟩
          obtain rfl : shifts' = shifts := hshifts
          cases hab with
          | mk a hio =>
              refine Follows.bind_same (dachPpm0Update a.mod sym) ?_
              rintro ⟨scale, mod⟩
              exact Follows.ok ⟨rfl, .mk { a with mod := mod, scale := scale } hio⟩

theorem encodeLoop_alike (data : List UInt8) : ∀ {arc arc' : Arc}, ArcAlike R arc arc' →
    Follows stop (ResultAlike R) (encodeLoop host data arc) (encodeLoop host' data arc') := by
  induction data with
  | nil =>
      intro arc arc' h
      exact Follows.ok ⟨rfl, h⟩
  | cons c data ih =>
      intro arc arc' h
      refine Follows.bind (dachEncode_alike flushes h c.toNat) ?_
      rintro ⟨shifts, a⟩ ⟨shifts', b⟩ ⟨hshifts, hab⟩
      obtain rfl : shifts' = shifts := hshifts
      refine Follows.bind (ih hab) ?_
      rintro ⟨later, a⟩ ⟨later', b⟩ ⟨hlater, hab⟩
      obtain rfl : later' = later := hlater
      exact Follows.ok ⟨rfl, hab⟩

theorem padPass_alike (bit : Nat) (h : ArcAlike R arc arc') :
    Follows stop (Option.Rel (ArcAlike R)) (padPass host bit arc) (padPass host' bit arc') := by
  cases h with
  | mk arc hio =>
      unfold padPass
      refine Follows.ite (fun _ => ?_) fun _ => Follows.ok .none
      refine Follows.bind (dachWriteStream_alike flushes (.mk arc hio) bit) ?_
      intro a b hab
      exact Follows.ok (.some hab)

theorem dachStopEncoder_alike (h : ArcAlike R arc arc') :
    Follows stop (ArcAlike R) (dachStopEncoder host arc) (dachStopEncoder host' arc') := by
  cases h with
  | mk arc hio =>
      unfold dachStopEncoder
      refine Follows.bind_same _ fun _ => ?_
      refine Follows.bind_same _ fun _ => ?_
      refine Follows.bind (dachWriteStream_alike flushes (.mk { arc with
        underflow := u32 (arc.underflow + 1) } hio) _) fun a b hab => ?_
      refine Follows.bind (dachWriteStream_alike flushes hab _) fun a b hab => ?_
      refine Follows.bind (Follows.forever (fun _ _ hab => padPass_alike flushes _ hab) loopFuel hab) ?_
      rintro ⟨_, a⟩ ⟨_, b⟩ ⟨_, hab⟩
      exact dachWriteStream_alike flushes hab _

end Writing

end Dach
