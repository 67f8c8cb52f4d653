/-
Module: Dach.Core.Stream
Layer: Core
Purpose: The block stream and the pipe of `dach_stream.c`: the partition of a mapped file into input
  blocks with an output block each, the block cursor, and a pipe of operations over the stream.
Imports: Dach.Core.Block, Dach.Core.Header, Dach.Lib.Loop
Trusted boundary: human-reviewed model of src/dach/dach_stream.c; a block pointer is its index in
  `dblock_array` or `dblock_array_out`, and `open`, `mmap` and `malloc` succeed
Main exports: FileContent, StreamConfig, Stream, getBlockCount, getLastBlockSize, lazyCreateBlocks,
  dachStreamNew, blocks, newBlock, newWriteBlock, writeToStream, freeBlock, Operation, Pipe,
  dachPipeNew, dachPipeAdd, dachPipeStart, dachPipeTofile, streamTestCopy
-/
import Dach.Core.Block
import Dach.Core.Header
import Dach.Lib.Loop

namespace Dach

/-- A regular file. Its size is an `off_t`. -/
structure FileContent where
  bytes : List UInt8
  size_lt : bytes.length < 2 ^ 63

/-- The fields of `DACH_CONFIG` that a stream reads; the file is its content. -/
structure StreamConfig where
  file : FileContent
  mode : String
  blockSize : Nat

/-- `dblock`, an element of a block array. -/
structure DBlock where
  obj : Block
  id : Nat
  writtenToStream : Nat
deriving DecidableEq, Repr

/-- Storing a block into element `idx` of a fresh array sets `obj` only. -/
def DBlock.fresh (host : Host) (idx : Nat) (obj : Block) : DBlock :=
  { obj := obj, id := (host.entry idx).1, writtenToStream := (host.entry idx).2 }

/-- `dach_stream_obj` of a readable stream. -/
structure Stream where
  mode : StreamMode
  filesize : Nat
  mmapData : List UInt8
  blockCount : Nat
  blocksReturned : Nat
  blockSizeActual : Nat
  lastBlockSize : Nat
  dblockArray : List DBlock
  dblockArrayOut : List DBlock

/-! ### Partition of the file -/

/-- `get_block_count` -/
def getBlockCount (infilesize blockSize : Nat) : Except Abort Nat :=
  if blockSize ≥ infilesize then
    return 1
  else if blockSize = 0 then
    .error .divByZero
  else do
    let bc := infilesize / blockSize
    let bc := bc + 1
    let bc := if infilesize % blockSize = 0 then bc - 1 else bc
    cassert (bc > 0) .blockCountZero
    return bc

/-- `get_last_block_size` -/
def getLastBlockSize (infilesize blockSize : Nat) : Except Abort Nat := do
  let _ ← getBlockCount infilesize blockSize
  if blockSize = 0 then .error .divByZero else return infilesize % blockSize

/-- `test_block_size`; a zero divisor has trapped before. -/
def testBlockSize (stream : Stream) : Except Abort Nat :=
  if stream.lastBlockSize = 0 then do
    cassert (stream.filesize % stream.blockSizeActual = 0) .testBlockSize
    return 0
  else
    return 1

/-- One pass of the loop of `lazy_create_blocks`: the input block `bid` at `posPointer` of the mapping
    and the output block of the same length. -/
def createBlock (host : Host) (stream : Stream) (bid posPointer : Nat) :
    Except Abort (Block × Block) := do
  let lastBid := stream.blockCount - 1
  let length ←
    if bid = lastBid then do
      let lastbsize ← getLastBlockSize stream.filesize stream.blockSizeActual
      pure (if lastbsize = 0 then stream.blockSizeActual else lastbsize)
    else
      pure stream.blockSizeActual
  let dbin ← dachBlockNew host
    { length := length, bid := bid, mode := stream.mode,
      data := some (stream.mmapData.drop posPointer) }
  let dbout ← dachBlockNew host
    { length := length, bid := bid, mode := .writable, data := none }
  return (dbin, dbout)

/-- The loop of `lazy_create_blocks`. `bid` is a `u32`: past 2^32 blocks it wraps around and the loop
    never ends. -/
def createBlocksLoop (host : Host) : Nat → Stream → Nat → Nat → Except Abort Stream
  | 0, stream, bid, _ =>
      if bid < stream.blockCount then .error .loopForever else .ok stream
  | fuel + 1, stream, bid, posPointer =>
      if bid < stream.blockCount then do
        let (dbin, dbout) ← createBlock host stream bid posPointer
        let stream := { stream with
          dblockArray := stream.dblockArray ++ [.fresh host bid dbin]
          dblockArrayOut := stream.dblockArrayOut ++ [.fresh host bid dbout] }
        createBlocksLoop host fuel stream (u32 (bid + 1)) (u64 (posPointer + stream.blockSizeActual))
      else
        .ok stream

/-- `lazy_create_blocks` -/
def lazyCreateBlocks (host : Host) (stream : Stream) : Except Abort Stream := do
  let stream ← createBlocksLoop host stream.blockCount stream 0 0
  match stream.dblockArray with
  | [] => .error .nullBlock
  | ddb :: _ =>
      cassert (blockId ddb.obj = 0) .lazyCreateId
      return stream

/-- `dach_stream_new`, through `priv_file_reader_new`. -/
def dachStreamNew (host : Host) (dc : StreamConfig) : Except Abort Stream :=
  if dc.mode = "w" then
    .error .streamWritable
  else if dc.mode = "r" then do
    let filesize := dc.file.bytes.length
    cassert (filesize > 0) .streamFilesize
    let blockCount ← getBlockCount filesize dc.blockSize
    let lastBlockSize ← getLastBlockSize filesize dc.blockSize
    let stream : Stream :=
      { mode := .readable, filesize := filesize, mmapData := dc.file.bytes, blockCount := blockCount,
        blocksReturned := 0, blockSizeActual := dc.blockSize, lastBlockSize := lastBlockSize,
        dblockArray := [], dblockArrayOut := [] }
    let _ ← testBlockSize stream
    lazyCreateBlocks host stream
  else
    .error .streamMode

/-! ### Stream operations -/

/-- `blocks`: how many blocks `new_block` has left. -/
def blocks (stream : Stream) : Nat :=
  u64sub stream.blockCount stream.blocksReturned

/-- `new_block`: the index of the next input block, or `none` for NULL. -/
def newBlock (stream : Stream) : Except Abort (Option Nat × Stream) :=
  if stream.blocksReturned = stream.blockCount then
    return (none, stream)
  else do
    cassert (stream.blocksReturned < stream.blockCount) .newBlockReturned
    return (some stream.blocksReturned,
      { stream with blocksReturned := stream.blocksReturned + 1 })

/-- The input block behind a pointer of `new_block`. -/
def Stream.inBlock (stream : Stream) (idx : Nat) : Except Abort Block :=
  match stream.dblockArray[idx]? with
  | none => .error .nullBlock
  | some db => .ok db.obj

/-- The output block behind a pointer of `new_write_block`. -/
def Stream.outBlock (stream : Stream) (idx : Nat) : Except Abort Block :=
  match stream.dblockArrayOut[idx]? with
  | none => .error .nullBlock
  | some db => .ok db.obj

/-- `new_write_block`: the output block with the id of the input block. -/
def newWriteBlock (stream : Stream) (inBlk : Nat) : Except Abort Nat := do
  let inBlk ← stream.inBlock inBlk
  let inBid := blockId inBlk
  let _ ← stream.outBlock inBid
  return inBid

/-! ### Releasing blocks -/

/-- A stream with its `outfile_stream`. -/
structure OutStream where
  stream : Stream
  outfile : CFile

/-- The copy `dblock x = stream_obj->dblock_array[bid]` that a function makes of an array element. -/
def OutStream.dblock (out : OutStream) (bid : Nat) : Except Abort DBlock :=
  match out.stream.dblockArray[bid]? with
  | none => .error .nullBlock
  | some db => .ok db

/-- The bytes `write_to_stream` writes for a block: its header, packed. -/
def blockRecord (order : ByteOrder) (obj : Block) : List UInt8 :=
  dachHeaderPack order (dachHeaderNew (UInt32.ofNat (blockBytesWritten obj)) 1234567890 1)

/-- `write_to_stream`. The flag is counted up on the copy of the element, which is then dropped. -/
def writeToStream (host : Host) (out : OutStream) (bid : Nat) : Except Abort OutStream := do
  let block ← out.dblock bid
  if block.writtenToStream = 1 then
    return out
  else
    let out := { out with outfile := out.outfile.fwrite (blockRecord host.order block.obj) }
    let _block := { block with writtenToStream := u32 (block.writtenToStream + 1) }
    return out

/-- `block_written` -/
def blockWritten (out : OutStream) (bid : Nat) : Except Abort Bool := do
  let blk ← out.dblock bid
  return decide (blk.writtenToStream > 0)

/-- `free_block`. The flag it asserts is the one of the copy it made first. -/
def freeBlock (host : Host) (out : OutStream) (block : Block) : Except Abort OutStream := do
  let bid := blockId block
  cassert (bid = 0) .freeBlockBid
  let dblk ← out.dblock bid
  cassert (dblk.id = 0) .freeBlockId
  if bid = 0 ∧ dblk.writtenToStream = 0 then
    let out ← writeToStream host out bid
    cassert (dblk.writtenToStream = 1) .freeBlockWritten
    return out
  else if bid > 0 then
    let written ← blockWritten out (bid - 1)
    if written then writeToStream host out bid else return out
  else
    return out

/-- Calls of `free_block` with these blocks, one after the other. -/
def freeBlocks (host : Host) (out : OutStream) (released : List Block) : Except Abort OutStream :=
  released.foldlM (freeBlock host) out

/-! ### Pipes -/

/-- A `dach_operation`: what its callback does to its input block and its output block through the
    operation's `read` and `write`. -/
abbrev Operation := Host → Block → Block → Except Abort (Block × Block)

/-- `dach_operation_read` -/
def dachOperationRead (inBlk : Block) (count : Nat) : Except Abort (Int × List UInt8 × Block) :=
  blockRead inBlk count

/-- `dach_operation_write` -/
def dachOperationWrite (host : Host) (outBlk : Block) (buf : List UInt8) :
    Except Abort (Int × Block) := do
  cassert (buf.length > 0) .operationWriteCount
  blockWrite host outBlk buf

/-- `dach_pipe_obj` -/
structure Pipe where
  source : Stream
  operArray : List Operation

/-- `dach_pipe_new` -/
def dachPipeNew (source : Stream) (dop : Operation) : Pipe :=
  { source := source, operArray := [dop] }

/-- `dach_pipe_add` -/
def dachPipeAdd (pip : Pipe) (dop : Operation) : Except Abort Pipe := do
  cassert (pip.operArray.length < 16) .pipeAddCount
  return { pip with operArray := pip.operArray ++ [dop] }

/-- `dach_thread_pipe`: run one operation over the next `bcount` blocks of the stream. -/
def dachThreadPipe (host : Host) (dop : Operation) : Nat → Stream → Except Abort Stream
  | 0, stream => .ok stream
  | bcount + 1, stream => do
      let (inIdx, stream) ← newBlock stream
      match inIdx with
      | none => .error .nullBlock
      | some inIdx =>
          let outIdx ← newWriteBlock stream inIdx
          let inBlk ← stream.inBlock inIdx
          let outBlk ← stream.outBlock outIdx
          let (inBlk, outBlk) ← dop host inBlk outBlk
          let stream := { stream with
            dblockArray := stream.dblockArray.modify inIdx fun db => { db with obj := inBlk }
            dblockArrayOut := stream.dblockArrayOut.modify outIdx fun db => { db with obj := outBlk } }
          dachThreadPipe host dop bcount stream

/-- The loop of `dach_pipe_start` over the operations. -/
def pipeStartLoop (host : Host) : List Operation → Stream → Except Abort Stream
  | [], stream => .ok stream
  | dop :: dops, stream => do
      let bcount := u32 (blocks stream)
      let stream ← dachThreadPipe host dop bcount stream
      pipeStartLoop host dops stream

/-- `dach_pipe_start` -/
def dachPipeStart (host : Host) (pip : Pipe) : Except Abort Pipe := do
  let source ← pipeStartLoop host pip.operArray pip.source
  return { pip with source := source }

/-- The loop of `dach_pipe_tofile` over the first `bcount` output blocks. -/
def pipeTofileLoop : Nat → List DBlock → CFile → Except Abort (List DBlock × CFile)
  | 0, dbs, fd => .ok (dbs, fd)
  | _ + 1, [], _ => .error .nullBlock
  | bcount + 1, db :: dbs, fd => do
      let (_, obj) ← blockSeek db.obj 0
      let (wrote, fd) ← blockTofile obj fd
      cassert (wrote = blockLength obj) .tofileLength
      let (dbs, fd) ← pipeTofileLoop bcount dbs fd
      return ({ db with obj := obj } :: dbs, fd)

/-- `dach_pipe_tofile` -/
def dachPipeTofile (pip : Pipe) (fd : CFile) : Except Abort (Pipe × CFile) := do
  let (out, fd) ← pipeTofileLoop pip.source.blockCount pip.source.dblockArrayOut fd
  return ({ pip with source := { pip.source with dblockArrayOut := out } }, fd)

/-! ### The copying operation of the tests -/

/-- One entry of the loop of `stream_test_copy`: read up to `bufSize` bytes and write what came;
    `none` when the read returns -1. -/
def copyPass (host : Host) (bufSize : Nat) (blks : Block × Block) :
    Except Abort (Option (Block × Block)) := do
  let (count, buf, inBlk) ← dachOperationRead blks.1 bufSize
  if count ≥ 0 then
    let (_, outBlk) ← dachOperationWrite host blks.2 buf
    return some (inBlk, outBlk)
  else
    return none

/-- `stream_test_copy` with a buffer of `bufSize` bytes. Every read that does not end the loop moves
    the position, so the loop has at most one entry more than the block has bytes. -/
def streamTestCopy (bufSize : Nat) : Operation := fun host inBlk outBlk => do
  let (_, blks) ← Loop.forever .loopForever (copyPass host bufSize) (inBlk.length + 1)
    (inBlk, outBlk)
  return blks

end Dach
