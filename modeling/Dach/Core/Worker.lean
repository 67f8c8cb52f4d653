/-
Module: Dach.Core.Worker
Layer: Core
Purpose: The workers of `encode_stream` and `decode_stream`: each takes blocks from the stream, runs a coder
  of its own over every block, and hands it back.
Imports: Dach.Core.Command, Dach.Core.Stream
Trusted boundary: human-reviewed model of src/dach/dach.c. The coder of a worker has the block it takes its
  bytes from, so that both move one position; what is printed is left out
Main exports: WorkerStop, encodeChars, decodeChars, codeBlock, apThreadEncodeStream,
  apThreadDecodeStream, apNonThreadEncodeStream
-/
import Dach.Core.Command
import Dach.Core.Stream

namespace Dach

/-- The ways a worker can stop. -/
inductive WorkerStop where
  /-- a stop inside the stream or the coder -/
  | coder (site : Abort)
  /-- `assert(obj->thread_id == pthread_self())` of the operations on blocks -/
  | threadId
  /-- `ap_non_thread_encode_stream`: `assert(loopy == 1)` -/
  | loopy
deriving DecidableEq, Repr

/-- `get_c` on the block of the coder. -/
def Arc.getc (arc : Arc) : Except Abort (UInt8 × Arc) := do
  let (c, blk) ← blockGetc (← arc.onBlock)
  return (c, { arc with io := .block blk })

/-- The loop of the encoding workers over `left` bytes of the block. -/
def encodeChars (host : Host) : Nat → Arc → Except Abort Arc
  | 0, arc => .ok arc
  | left + 1, arc => do
      let (c, arc) ← arc.getc
      let (_, arc) ← dachEncode host arc c.toNat
      encodeChars host left arc

/-- The loop of the decoding worker. The byte it gets is not used. -/
def decodeChars (host : Host) : Nat → Arc → Except Abort Arc
  | 0, arc => .ok arc
  | left + 1, arc => do
      let (_, arc) ← arc.getc
      let (_, arc) ← dachDecode host arc
      decodeChars host left arc

/-- A fresh model and a coder for a block, and the loop of the worker over as many bytes as the `u32`
    `bsize` says. The worker runs in the thread `self`, and the blocks were made in the thread `maker`; the
    first operation on the block is in `dach_new_arcoder_`, and what comes later asserts the same. -/
def codeBlock (self maker : Nat) (code : Nat → Arc → Except Abort Arc) (blk : Block) :
    Except WorkerStop Arc := do
  let mod ← dachPpm0New.mapError .coder
  if maker ≠ self then
    throw .threadId
  else
    let arc ← (dachNewArcoderOnBlock mod blk).mapError .coder
    (code (u32 (blockLength blk)) arc).mapError .coder

/-- The stream after a worker has moved the block at `idx`. -/
def Stream.setInBlock (stream : Stream) (idx : Nat) (blk : Block) : Stream :=
  { stream with dblockArray := stream.dblockArray.modify idx fun db => { db with obj := blk } }

/-! ### The workers of the pool -/

/-- One entry of the loop of a worker. -/
def apThreadPass (host : Host) (self maker : Nat) (code : Nat → Arc → Except Abort Arc)
    (out : OutStream) : Except WorkerStop (Option OutStream) :=
  if blocks out.stream = 0 then
    return none
  else do
    let (blk, stream) ← (newBlock out.stream).mapError .coder
    match blk with
    | none => return some { out with stream := stream }
    | some idx =>
        let blk ← (stream.inBlock idx).mapError .coder
        let arc ← codeBlock self maker code blk
        let arc ← (dachStopEncoder host arc).mapError .coder
        let blk ← arc.onBlock.mapError .coder
        let out ← (freeBlock host { out with stream := stream.setInBlock idx blk } blk).mapError .coder
        return some out

/-- A worker. Every entry of its loop takes a block, so there is at most one entry more than there are
    blocks. -/
def apThreadStream (host : Host) (self maker : Nat) (code : Nat → Arc → Except Abort Arc)
    (out : OutStream) : Except WorkerStop OutStream := do
  let _ ← (out.stream.inBlock 0).mapError .coder
  let (_, out) ← Loop.forever (.coder .loopForever) (apThreadPass host self maker code)
    (blocks out.stream + 1) out
  return out

/-- `ap_thread_encode_stream` -/
def apThreadEncodeStream (host : Host) (self maker : Nat) (out : OutStream) :
    Except WorkerStop OutStream :=
  apThreadStream host self maker (encodeChars host) out

/-- `ap_thread_decode_stream` -/
def apThreadDecodeStream (host : Host) (self maker : Nat) (out : OutStream) :
    Except WorkerStop OutStream :=
  apThreadStream host self maker (decodeChars host) out

/-! ### The worker without a pool -/

/-- One entry of the loop of `ap_non_thread_encode_stream`, which counts its entries in `loopy` and
    releases no block. -/
def apNonThreadPass (host : Host) (self maker : Nat) (s : Nat × Stream) :
    Except WorkerStop (Option (Nat × Stream)) :=
  if blocks s.2 = 0 then
    return none
  else do
    let loopy := s.1 + 1
    let (blk, stream) ← (newBlock s.2).mapError .coder
    match blk with
    | none => return some (loopy, stream)
    | some idx =>
        let blk ← (stream.inBlock idx).mapError .coder
        let arc ← codeBlock self maker (encodeChars host) blk
        if loopy ≠ 1 then
          throw .loopy
        else
          let arc ← (dachStopEncoder host arc).mapError .coder
          let blk ← arc.onBlock.mapError .coder
          return some (loopy, stream.setInBlock idx blk)

/-- `ap_non_thread_encode_stream` -/
def apNonThreadEncodeStream (host : Host) (self maker : Nat) (stream : Stream) :
    Except WorkerStop Stream := do
  let _ ← (stream.inBlock 0).mapError .coder
  let (_, _, stream) ← Loop.forever (.coder .loopForever) (apNonThreadPass host self maker)
    (blocks stream + 1) (0, stream)
  return stream

end Dach
