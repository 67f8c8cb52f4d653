/-
Module: Dach.Core.Meter
Layer: Core
Purpose: The decoder of `dach_ar64.c` and the decode command of `dach.c` once more, with a meter: a count
  of the refills of `io_buffer`, which no variable of the source holds.
Imports: Dach.Core.Command
Trusted boundary: none; each function is that of Core/Ar64 or Core/Command with the meter passed along
Main exports: MeteredArc, meteredBitin, meteredStartDecoder, meteredDecode, meteredDecodeLoop,
  meteredDecodeFile
-/
import Dach.Core.Command

namespace Dach

/-- A coder, and how often its `dach_bitin` has refilled the buffer. -/
structure MeteredArc where
  arc : Arc
  refills : Nat

/-- `dach_bitin`; the meter counts its branch for an empty buffer. -/
def meteredBitin (host : Host) (m : MeteredArc) : Except Abort (Nat × MeteredArc) := do
  let m ←
    if m.arc.ioBufferFull = 0 then do
      let arc ← bitinWord host m.arc
      pure { arc := arc, refills := m.refills + 1 }
    else pure m
  let (t, arc) ← bitinTop m.arc
  return (t, { m with arc := arc })

/-- The loop of `dach_start_decoder` with `left` bits still to read. -/
def meteredStartLoop (host : Host) : Nat → MeteredArc → Except Abort MeteredArc
  | 0, m => .ok m
  | left + 1, m => do
      let m := { m with arc := { m.arc with esym := u32 (m.arc.esym * 2) } }
      let (bit, m) ← meteredBitin host m
      meteredStartLoop host left { m with arc := { m.arc with esym := u32 (m.arc.esym + bit) } }

/-- `dach_start_decoder` with the meter at 0. -/
def meteredStartDecoder (host : Host) (arc : Arc) : Except Abort MeteredArc :=
  meteredStartLoop host 32 { arc := { arc with ioBufferFull := 0 }, refills := 0 }

/-- The end of a pass of the renormalisation loop of `dach_decode`. -/
def meteredShift (host : Host) (m : MeteredArc) : Except Abort (Option MeteredArc) := do
  let arc := shiftInterval m.arc
  cassert (arc.high > arc.low) .decodeInterval
  let arc := { arc with esym := u32 (arc.esym <<< 1) &&& 0xFFFFFFFF }
  let (bit, m) ← meteredBitin host { m with arc := arc }
  return some { m with arc := { m.arc with esym := m.arc.esym ||| bit } }

/-- One entry of the renormalisation loop of `dach_decode`. -/
def meteredPass (host : Host) (m : MeteredArc) : Except Abort (Option MeteredArc) := do
  cassert (m.arc.high > m.arc.low) .decodeInterval
  if m.arc.high &&& 0x80000000 = m.arc.low &&& 0x80000000 then
    meteredShift host m
  else if m.arc.low &&& 0x40000000 ≠ 0 ∧ m.arc.high &&& 0x40000000 = 0 then do
    let arc := { m.arc with
      esym := m.arc.esym ^^^ 0x40000000
      low := m.arc.low &&& 0x3FFFFFFF
      high := m.arc.high ||| 0x40000000 }
    cassert (arc.high > arc.low) .decodeInterval
    meteredShift host { m with arc := arc }
  else
    return none

/-- The renormalisation loop of `dach_decode`. -/
def meteredRenorm (host : Host) (m : MeteredArc) : Except Abort (Nat × MeteredArc) :=
  Loop.forever .loopForever (meteredPass host) loopFuel m

/-- `dach_decode` -/
def meteredDecode (host : Host) (m : MeteredArc) : Except Abort (Nat × MeteredArc) := do
  cassert (m.arc.high > m.arc.low) .decodeInterval
  let range ← dachCalcRange m.arc
  let arc := { m.arc with range := range }
  let sym ← dachPpm0FindSym arc.mod (decodeCount arc)
  let arc := { arc with totalSyms := u64 (arc.totalSyms + 1) }
  cassert (arc.totalSyms ≤ arc.blocksize) .decodeTotalSyms
  if arc.totalSyms = arc.blocksize then
    let chr ← dachSymToChr arc.mod sym
    return (u8 chr, { m with arc := { arc with stop := true } })
  else
    cassert (arc.high > arc.low) .decodeInterval
    cassert (sym ≤ 256) .decodeReserved
    let arc ← dachEncodeStep arc sym
    let cf ← dachPpm0Cumfreq arc.mod sym
    cassert (cf ≤ arc.scale) .decodeCumfreq
    let (_, m) ← meteredRenorm host { m with arc := arc }
    let sym1 ← dachSymToChr m.arc.mod sym
    let (scale, mod) ← dachPpm0Update m.arc.mod sym
    let arc := { m.arc with mod := mod, scale := scale }
    cassert (arc.high > arc.low) .decodeInterval
    return (sym1, { m with arc := arc })

/-- The loop of `decode`, with the meter at its end. -/
def meteredDecodeLoop (host : Host) : Nat → MeteredArc → List UInt8 → CFile →
    Except Abort (Nat × List UInt8 × CFile)
  | 0, m, buf, fdOut =>
      if dachEof m.arc then .ok (m.refills, buf, fdOut) else .error .loopForever
  | fuel + 1, m, buf, fdOut =>
      if dachEof m.arc then
        .ok (m.refills, buf, fdOut)
      else do
        let (chr, m) ← meteredDecode host m
        let buf := buf ++ [UInt8.ofNat chr]
        if buf.length = maxBuf then
          meteredDecodeLoop host fuel m [] (fdOut.fwrite buf)
        else
          meteredDecodeLoop host fuel m buf fdOut

/-- `decode`: the number of refills it has made, and the content of the output file. -/
def meteredDecodeFile (host : Host) (content : List UInt8) : Except Abort (Nat × List UInt8) := do
  let mod ← dachPpm0New
  let arc ← dachNewArcoder host mod (CFile.reading content) (CFile.reading []) 0
  let m ← meteredStartDecoder host arc
  let (refills, buf, fdOut) ← meteredDecodeLoop host (m.arc.blocksize + 1) m [] (CFile.reading [])
  return (refills, (fdOut.fwrite buf).written)

end Dach
