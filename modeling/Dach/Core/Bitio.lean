/-
Module: Dach.Core.Bitio
Layer: Core
Purpose: Single bits through the coder, without its model and its interval: calls of `dach_bitout` and of
  `dach_bitin` in a row, and the way `dach_stop_encoder` completes the last word.
Imports: Dach.Core.Ar64
Trusted boundary: human-reviewed model of src/dach/dach_ar64.c
Main exports: dachBitouts, dachStopBits, Arc.atRefill, dachBitins
-/
import Dach.Core.Ar64

namespace Dach

/-- One call of `dach_bitout` for each bit. -/
def dachBitouts (host : Host) : List Nat → Arc → Except Abort Arc
  | [], arc => .ok arc
  | bit :: bits, arc => do
      let arc ← dachBitout host arc bit
      dachBitouts host bits arc

/-- The end of `dach_stop_encoder`: zeros until the buffer is full, and one more, which writes it. -/
def dachStopBits (host : Host) (arc : Arc) : Except Abort Arc := do
  let (_, arc) ← Loop.forever .loopForever (padPass host 0) loopFuel arc
  dachWriteStream host arc 0

/-- The coder with an empty buffer, as `dach_start_decoder` leaves it to its first `dach_bitin`. -/
def Arc.atRefill (arc : Arc) : Arc :=
  { arc with ioBufferFull := 0 }

/-- Calls of `dach_bitin`: the bits they return. -/
def dachBitins (host : Host) : Nat → Arc → Except Abort (List Nat × Arc)
  | 0, arc => .ok ([], arc)
  | calls + 1, arc => do
      let (bit, arc) ← dachBitin host arc
      let (bits, arc) ← dachBitins host calls arc
      return (bit :: bits, arc)

end Dach
