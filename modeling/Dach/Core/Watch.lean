/-
Module: Dach.Core.Watch
Layer: Core
Purpose: The coder of `dach_ar64.c` on a block once more, watched at two places where a block is not a
  file: a `block_write` that reaches past the end of the block raises its length, and a decoder that
  looks past the payload sees bytes that nobody has written.
Imports: Dach.Core.Command
Trusted boundary: none; each function is that of Core/Ar64 or Core/Command with the watch beside it
Main exports: WatchedArc, watchedBitout, watchedEncode, watchedStopEncoder, watchedBlockEncode,
  Arc.unwrittenBits, Arc.settled, blockSettled
-/
import Dach.Core.Command

namespace Dach

/-! ### Writes -/

/-- A coder, and whether every word it has written so far had room in its block. -/
structure WatchedArc where
  arc : Arc
  room : Bool

/-- The next word ends no later than the block. -/
def Arc.wordFits (arc : Arc) : Bool :=
  match arc.io with
  | .files _ _ => true
  | .block blk => decide (blk.pos + 4 ≤ blk.length)

/-- `dach_bitout`; the watch looks at its branch for a full buffer. -/
def watchedBitout (host : Host) (w : WatchedArc) (bit : Nat) : Except Abort WatchedArc := do
  let room := w.room && (decide (w.arc.ioBufferFull ≠ 0) || w.arc.wordFits)
  let arc ← dachBitout host w.arc bit
  return { arc := arc, room := room }

/-- The loop of `dach_write_stream`. -/
def watchedUnderflow (host : Host) (bit : Nat) : Nat → WatchedArc → Except Abort WatchedArc
  | 0, w => .ok w
  | pending + 1, w => do
      let w ← watchedBitout host w bit
      watchedUnderflow host bit pending { w with arc := { w.arc with underflow := pending } }

/-- `dach_write_stream` -/
def watchedWriteStream (host : Host) (w : WatchedArc) (bit : Nat) : Except Abort WatchedArc := do
  cassert (bit = 1 ∨ bit = 0) .writeStreamBit
  let w ← watchedBitout host w bit
  watchedUnderflow host (if bit = 0 then 1 else 0) w.arc.underflow w

/-- One entry of the renormalisation loop of `dach_encode`. -/
def watchedPass (host : Host) (w : WatchedArc) : Except Abort (Option WatchedArc) :=
  if w.arc.high &&& 0x80000000 = w.arc.low &&& 0x80000000 then do
    let w ← watchedWriteStream host w (u32 (w.arc.high >>> 31))
    return some { w with arc := shiftInterval w.arc }
  else if w.arc.low &&& 0x40000000 ≠ 0 ∧ w.arc.high &&& 0x40000000 = 0 then
    return some { w with arc := shiftInterval { w.arc with
      underflow := u32 (w.arc.underflow + 1)
      low := w.arc.low &&& 0x3FFFFFFF
      high := w.arc.high ||| 0x40000000 } }
  else
    return none

/-- The renormalisation loop of `dach_encode`. -/
def watchedRenorm (host : Host) (w : WatchedArc) : Except Abort (Nat × WatchedArc) :=
  Loop.forever .loopForever (watchedPass host) loopFuel w

/-- `dach_encode` -/
def watchedEncode (host : Host) (w : WatchedArc) (chr : Nat) : Except Abort (Nat × WatchedArc) := do
  let sym ← dachChrToSym w.arc.mod chr
  let arc ← dachEncodeStep w.arc sym
  let arc := { arc with totalSyms := u64 (arc.totalSyms + 1) }
  let (shifts, w) ← watchedRenorm host { w with arc := arc }
  let (scale, mod) ← dachPpm0Update w.arc.mod sym
  return (shifts, { w with arc := { w.arc with mod := mod, scale := scale } })

/-- `dach_encode` on every byte. -/
def watchedEncodeLoop (host : Host) : List UInt8 → WatchedArc → Except Abort (Nat × WatchedArc)
  | [], w => .ok (0, w)
  | c :: data, w => do
      let (shifts, w) ← watchedEncode host w c.toNat
      let (later, w) ← watchedEncodeLoop host data w
      return (shifts + later, w)

/-- One entry of the padding loop of `dach_stop_encoder`. -/
def watchedPadPass (host : Host) (bit : Nat) (w : WatchedArc) : Except Abort (Option WatchedArc) :=
  if w.arc.ioBufferFull ≠ 0 then do
    let w ← watchedWriteStream host w bit
    return some w
  else
    return none

/-- `dach_stop_encoder` -/
def watchedStopEncoder (host : Host) (w : WatchedArc) : Except Abort WatchedArc := do
  cassert (w.arc.totalSyms = w.arc.blocksize) .stopTotalSyms
  let low := u32 w.arc.low &&& 0xFFFFFFFF
  let tmp := low &&& 1 <<< 31
  cassert (tmp = 1 ∨ tmp = 0) .stopBit
  let w := { w with arc := { w.arc with underflow := u32 (w.arc.underflow + 1) } }
  let w ← watchedWriteStream host w (if tmp = 0 then 1 else 0)
  let w ← watchedWriteStream host w tmp
  let (_, w) ← Loop.forever .loopForever (watchedPadPass host tmp) loopFuel w
  watchedWriteStream host w tmp

/-- Encode into a fresh block, and tell whether every word had room in it. -/
def watchedBlockEncode (host : Host) (bid : Nat) (data : List UInt8) : Except Abort (Block × Bool) := do
  let arc ← blockEncoderNew host bid data.length
  let (_, w) ← watchedEncodeLoop host data { arc := arc, room := true }
  let w ← watchedStopEncoder host w
  let blk ← w.arc.onBlock
  return (blk, w.room)

/-! ### Reads -/

/-- How many of the last bits of `esym` come from behind the bytes written to the block. A refill reads
    a word, and `io_buffer_full` of its bits are still in the buffer. -/
def Arc.unwrittenBits (arc : Arc) : Nat :=
  match arc.io with
  | .files _ _ => 0
  | .block blk => 32 * ((blk.pos + 3) / 4) - arc.ioBufferFull - 8 * blockBytesWritten blk

/-- `esym` with these bits cleared. -/
def Arc.writtenEsym (arc : Arc) : Nat :=
  arc.esym >>> arc.unwrittenBits <<< arc.unwrittenBits

/-- The symbol that `dach_decode` looks up first. -/
def Arc.lookup (arc : Arc) : Except Abort Nat := do
  let range ← dachCalcRange arc
  dachPpm0FindSym arc.mod (decodeCount { arc with range := range })

/-- The next symbol does not depend on bits that nobody has written. -/
def Arc.settled (arc : Arc) : Bool :=
  decide (arc.lookup = { arc with esym := arc.writtenEsym }.lookup)

/-- Every call of `dach_decode` until `dach_eof`, or until one of them aborts, is made in such a
    state. -/
def settledUntilEof (host : Host) : Nat → Arc → Bool
  | 0, _ => true
  | fuel + 1, arc =>
      dachEof arc || arc.settled &&
        match dachDecode host arc with
        | .error _ => true
        | .ok (_, arc) => settledUntilEof host fuel arc

/-- Every call of `dach_decode` on the block is made in a settled state. -/
def blockSettled (host : Host) (blk : Block) : Bool :=
  (blockDecoderNew host blk).toOption.all fun arc => settledUntilEof host (arc.blocksize + 1) arc

end Dach
