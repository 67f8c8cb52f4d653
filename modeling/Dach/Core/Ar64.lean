/-
Module: Dach.Core.Ar64
Layer: Core
Purpose: The arithmetic coder of `dach_ar64.c`: interval narrowing, the two renormalisation loops, bit
  output with deferred underflow bits, bit input, and the start and stop sequences.
Imports: Dach.Core.Ppm0, Dach.Core.Header, Dach.Core.Block, Dach.Lib.Loop
Trusted boundary: human-reviewed model of src/dach/dach_ar64.c
Main exports: Arc, dachNewArcoder, dachNewArcoderOnBlock, dachEncodeStep, dachEncode, dachDecode,
  dachBitout, dachBitin, dachStopEncoder, dachStartDecoder
-/
import Dach.Core.Ppm0
import Dach.Core.Header
import Dach.Core.Block
import Dach.Lib.Loop

namespace Dach

/-- `IO_BUFFER_SIZE` -/
def ioBufferSize : Nat := 32

/-- Where the words of a coder go: the `in` and `out` files of `dach_new_arcoder`, or the block of
    `dach_new_arcoder_`, which leaves `out` NULL. -/
inductive ArcIo where
  | files (inp out : CFile)
  | block (blk : Block)

/-- The fields of `struct DACH_AR_CODER` that the coder reads. -/
structure Arc where
  mod : Ppm0
  io : ArcIo
  eofIn : Bool
  stop : Bool
  underflow : Nat
  low : Nat
  high : Nat
  range : Nat
  totalSyms : Nat
  ioBuffer : Nat
  ioBufferFull : Nat
  ioBufferSize : Nat
  esym : Nat
  blocksize : Nat
  scale : Nat

/-- The entries given to each `for(;;)` and `while` of the coder. Every loop that ends at all takes
    fewer. -/
def loopFuel : Nat := 64

/-- `dach_eof` -/
def dachEof (arc : Arc) : Bool := arc.stop

/-- The fields both constructors set after their `calloc`. -/
def arcFresh (mod : Ppm0) (io : ArcIo) (blocksize : Nat) : Arc :=
  { mod := mod, io := io, eofIn := false, stop := false, underflow := 0, low := 0,
    high := 0xFFFFFFFF, range := 0, totalSyms := 0, ioBuffer := 0,
    ioBufferFull := Dach.ioBufferSize, ioBufferSize := Dach.ioBufferSize, esym := 0,
    blocksize := blocksize, scale := mod.scale }

/-- The initialisation both constructors share. -/
def arcInit (mod : Ppm0) (io : ArcIo) (blocksize : Nat) : Except Abort Arc := do
  cassert (mod.scale ≠ 0) .newArcoderScale
  return arcFresh mod io blocksize

/-- `dach_new_arcoder_` -/
def dachNewArcoderOnBlock (mod : Ppm0) (block : Block) : Except Abort Arc :=
  arcInit mod (.block block) (blockLength block)

/-- `dach_new_arcoder`: a block size of 0 asks for a decoder, which reads the size from the first four
    bytes of `in`; an encoder writes its size, cut to 32 bits, to `out`. -/
def dachNewArcoder (host : Host) (mod : Ppm0) (inp out : CFile) (blocksize : Nat) :
    Except Abort Arc :=
  if blocksize = 0 then
    let (htmp, inp) := inp.fread 4
    arcInit mod (.files inp out) (dachReadHdrU32 host.order htmp)
  else
    let tmp := u32 blocksize
    arcInit mod (.files inp (out.fwrite (dachWriteHdrU32 host.order tmp))) blocksize

/-! ### Interval narrowing -/

/-- `dach_low_scale` -/
def dachLowScale (arc : Arc) (sym : Nat) : Except Abort Nat := do
  cassert (sym ≤ 256) .lowScaleSym
  cassert (sym ≠ 0) .lowScaleSym
  let cf ← dachPpm0Cumfreq arc.mod (sym + 1)
  let ls6 := u64 (arc.low + u64 (arc.range * cf) / arc.scale)
  let ls3 := u32 (arc.low + u64 (arc.range * cf) / arc.scale)
  if ls6 ≠ ls3 then .error .lowScaleExit else return ls6

/-- `dach_high_scale` -/
def dachHighScale (arc : Arc) (sym : Nat) : Except Abort Nat := do
  cassert (sym ≤ 256) .highScaleSym
  cassert (arc.scale ≠ 0) .highScaleZero
  let cf ← dachPpm0Cumfreq arc.mod sym
  let hs6 := u64sub (u64 (arc.low + u64 (arc.range * cf) / arc.scale)) 1
  let hs3 := u32 (u64sub (u64 (arc.low + u64 (arc.range * cf) / arc.scale)) 1)
  if hs6 ≠ hs3 then .error .highScaleExit else return hs6

/-- `dach_calc_range` -/
def dachCalcRange (arc : Arc) : Except Abort Nat :=
  if arc.high ≤ arc.low then
    .error .calcRangeExit
  else do
    let tmp := u64 (u64sub arc.high arc.low + 1)
    cassert (tmp ≠ 0) .calcRangeZero
    return tmp

/-- `dach_encode_step` -/
def dachEncodeStep (arc : Arc) (sym : Nat) : Except Abort Arc := do
  cassert (sym ≠ 0 ∧ sym ≤ 256) .encodeStepSym
  cassert (arc.high > arc.low) .encodeStepInterval
  let range ← dachCalcRange arc
  let arc := { arc with range := range }
  if arc.range = 0 then
    .error .encodeStepRange
  else
    let hs ← dachHighScale arc sym
    let ls ← dachLowScale arc sym
    if hs < ls then
      .error .encodeStepExit
    else
      return { arc with high := hs, low := ls }

/-! ### Bit output -/

/-- The write of `io_buffer` in `dach_bitout`, to the block when `out` is NULL. -/
def bitoutWord (host : Host) (arc : Arc) : Except Abort Arc :=
  match arc.io with
  | .block blk => do
      let (_, blk) ← blockWrite host blk (u32Bytes host.order arc.ioBuffer)
      return { arc with io := .block blk }
  | .files inp out =>
      return { arc with io := .files inp (out.fwrite (u32Bytes host.order arc.ioBuffer)) }

/-- `dach_bitout`: a full buffer is written only when the next bit arrives. -/
def dachBitout (host : Host) (arc : Arc) (bit : Nat) : Except Abort Arc := do
  let arc ←
    if arc.ioBufferFull = 0 then do
      let arc ← bitoutWord host { arc with ioBufferFull := arc.ioBufferSize }
      pure { arc with ioBuffer := 0 }
    else pure arc
  return { arc with
    ioBuffer := u32 (u32 (arc.ioBuffer <<< 1) + bit)
    ioBufferFull := u32 (2 ^ 32 - 1 + arc.ioBufferFull) }

/-- The loop of `dach_write_stream` that emits the pending underflow bits. -/
def writeUnderflow (host : Host) (bit : Nat) : Nat → Arc → Except Abort Arc
  | 0, arc => .ok arc
  | pending + 1, arc => do
      let arc ← dachBitout host arc bit
      writeUnderflow host bit pending { arc with underflow := pending }

/-- `dach_write_stream`: the bit, then its complement once for every pending underflow. -/
def dachWriteStream (host : Host) (arc : Arc) (bit : Nat) : Except Abort Arc := do
  cassert (bit = 1 ∨ bit = 0) .writeStreamBit
  let arc ← dachBitout host arc bit
  writeUnderflow host (if bit = 0 then 1 else 0) arc.underflow arc

/-! ### Bit input -/

/-- The refill of `io_buffer` in `dach_bitin`. A short read leaves the rest of the buffer zero. -/
def bitinWord (host : Host) (arc : Arc) : Except Abort Arc := do
  cassert (arc.eofIn = false) .bitinEof
  let arc := { arc with ioBufferFull := arc.ioBufferSize, ioBuffer := 0 }
  match arc.io with
  | .block blk => do
      let (_, bytes, blk) ← blockRead blk 4
      return { arc with io := .block blk, ioBuffer := u32OfBytes host.order bytes }
  | .files inp out =>
      let (bytes, inp) := inp.fread 4
      return { arc with
        io := .files inp out
        ioBuffer := u32OfBytes host.order bytes
        eofIn := arc.eofIn || inp.feof }

/-- The end of `dach_bitin`: the top bit of `io_buffer` leaves it. -/
def bitinTop (arc : Arc) : Except Abort (Nat × Arc) := do
  let t := (arc.ioBuffer &&& 0x80000000) >>> 31
  cassert (t = 0 ∨ t = 1) .bitinBit
  return (t, { arc with
    ioBuffer := u32 (arc.ioBuffer <<< 1)
    ioBufferFull := u32 (2 ^ 32 - 1 + arc.ioBufferFull) })

/-- `dach_bitin` -/
def dachBitin (host : Host) (arc : Arc) : Except Abort (Nat × Arc) := do
  let arc ← if arc.ioBufferFull = 0 then bitinWord host arc else pure arc
  bitinTop arc

/-! ### Encoding -/

/-- The end of a renormalisation pass: `low` and `high` move up by one bit. -/
def shiftInterval (arc : Arc) : Arc :=
  { arc with
    low := (arc.low <<< 1) &&& 0xFFFFFFFF
    high := ((arc.high <<< 1) ||| 1) &&& 0xFFFFFFFF }

/-- One entry of the renormalisation loop of `dach_encode`; `none` is its `break`. -/
def encodePass (host : Host) (arc : Arc) : Except Abort (Option Arc) :=
  if arc.high &&& 0x80000000 = arc.low &&& 0x80000000 then do
    let arc ← dachWriteStream host arc (u32 (arc.high >>> 31))
    return some (shiftInterval arc)
  else if arc.low &&& 0x40000000 ≠ 0 ∧ arc.high &&& 0x40000000 = 0 then
    return some (shiftInterval { arc with
      underflow := u32 (arc.underflow + 1)
      low := arc.low &&& 0x3FFFFFFF
      high := arc.high ||| 0x40000000 })
  else
    return none

/-- The renormalisation loop of `dach_encode`, with the number of shifts it makes. -/
def encodeRenorm (host : Host) (arc : Arc) : Except Abort (Nat × Arc) :=
  Loop.forever .loopForever (encodePass host) loopFuel arc

/-- `dach_encode`. The number of renormalisation shifts is returned with the coder; no caller of the
    source sees it. -/
def dachEncode (host : Host) (arc : Arc) (chr : Nat) : Except Abort (Nat × Arc) := do
  let sym ← dachChrToSym arc.mod chr
  let arc ← dachEncodeStep arc sym
  let arc := { arc with totalSyms := u64 (arc.totalSyms + 1) }
  let (shifts, arc) ← encodeRenorm host arc
  let (scale, mod) ← dachPpm0Update arc.mod sym
  return (shifts, { arc with mod := mod, scale := scale })

/-- One entry of the padding loop of `dach_stop_encoder`. -/
def padPass (host : Host) (bit : Nat) (arc : Arc) : Except Abort (Option Arc) :=
  if arc.ioBufferFull ≠ 0 then do
    let arc ← dachWriteStream host arc bit
    return some arc
  else
    return none

/-- `dach_stop_encoder` -/
def dachStopEncoder (host : Host) (arc : Arc) : Except Abort Arc := do
  cassert (arc.totalSyms = arc.blocksize) .stopTotalSyms
  let low := u32 arc.low &&& 0xFFFFFFFF
  let tmp := low &&& 1 <<< 31
  cassert (tmp = 1 ∨ tmp = 0) .stopBit
  let arc := { arc with underflow := u32 (arc.underflow + 1) }
  let arc ← dachWriteStream host arc (if tmp = 0 then 1 else 0)
  let arc ← dachWriteStream host arc tmp
  let (_, arc) ← Loop.forever .loopForever (padPass host tmp) loopFuel arc
  dachWriteStream host arc tmp

/-! ### Decoding -/

/-- The loop of `dach_start_decoder` with `left` bits still to read. -/
def startLoop (host : Host) : Nat → Arc → Except Abort Arc
  | 0, arc => .ok arc
  | left + 1, arc => do
      let arc := { arc with esym := u32 (arc.esym * 2) }
      let (bit, arc) ← dachBitin host arc
      startLoop host left { arc with esym := u32 (arc.esym + bit) }

/-- `dach_start_decoder` -/
def dachStartDecoder (host : Host) (arc : Arc) : Except Abort Arc :=
  startLoop host 32 { arc with ioBufferFull := 0 }

/-- The count that `dach_decode` looks up: where the code value lies in its interval, on the scale of
    the model. -/
def decodeCount (arc : Arc) : Nat :=
  u64sub (u64 (u64 (u64sub arc.esym arc.low + 1) * arc.scale)) 1 / arc.range

/-- The end of a pass of the renormalisation loop of `dach_decode`: shift the interval and read the
    next bit of the code value. -/
def decodeShift (host : Host) (arc : Arc) : Except Abort (Option Arc) := do
  let arc := shiftInterval arc
  cassert (arc.high > arc.low) .decodeInterval
  let arc := { arc with esym := u32 (arc.esym <<< 1) &&& 0xFFFFFFFF }
  let (bit, arc) ← dachBitin host arc
  return some { arc with esym := arc.esym ||| bit }

/-- One entry of the renormalisation loop of `dach_decode`; `none` is its `break`. -/
def decodePass (host : Host) (arc : Arc) : Except Abort (Option Arc) := do
  cassert (arc.high > arc.low) .decodeInterval
  if arc.high &&& 0x80000000 = arc.low &&& 0x80000000 then
    decodeShift host arc
  else if arc.low &&& 0x40000000 ≠ 0 ∧ arc.high &&& 0x40000000 = 0 then do
    let arc := { arc with
      esym := arc.esym ^^^ 0x40000000
      low := arc.low &&& 0x3FFFFFFF
      high := arc.high ||| 0x40000000 }
    cassert (arc.high > arc.low) .decodeInterval
    decodeShift host arc
  else
    return none

/-- The renormalisation loop of `dach_decode`, with its counter `loop`. -/
def decodeRenorm (host : Host) (arc : Arc) : Except Abort (Nat × Arc) :=
  Loop.forever .loopForever (decodePass host) loopFuel arc

/-- `dach_decode`: the character it returns, and the coder. The last symbol of the block is returned
    as soon as it is found. -/
def dachDecode (host : Host) (arc : Arc) : Except Abort (Nat × Arc) := do
  cassert (arc.high > arc.low) .decodeInterval
  let range ← dachCalcRange arc
  let arc := { arc with range := range }
  let sym ← dachPpm0FindSym arc.mod (decodeCount arc)
  let arc := { arc with totalSyms := u64 (arc.totalSyms + 1) }
  cassert (arc.totalSyms ≤ arc.blocksize) .decodeTotalSyms
  if arc.totalSyms = arc.blocksize then
    let chr ← dachSymToChr arc.mod sym
    return (u8 chr, { arc with stop := true })
  else
    cassert (arc.high > arc.low) .decodeInterval
    cassert (sym ≤ 256) .decodeReserved
    let arc ← dachEncodeStep arc sym
    let cf ← dachPpm0Cumfreq arc.mod sym
    cassert (cf ≤ arc.scale) .decodeCumfreq
    let (_, arc) ← decodeRenorm host arc
    let sym1 ← dachSymToChr arc.mod sym
    let (scale, mod) ← dachPpm0Update arc.mod sym
    let arc := { arc with mod := mod, scale := scale }
    cassert (arc.high > arc.low) .decodeInterval
    return (sym1, arc)

end Dach
