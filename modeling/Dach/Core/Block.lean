/-
Module: Dach.Core.Block
Layer: Core
Purpose: A block of `dach_block.c`, a window on a mapped file or a buffer of its own, with one
  position shared by its operations.
Imports: Dach.Core.Machine
Trusted boundary: human-reviewed model of src/dach/dach_block.c, used from the thread that made it
Main exports: StreamMode, Block, BlockInit, dachBlockNew, blockRead, blockWrite, blockTofile,
  blockLength, blockGetc, blockBytesWritten, blockSeek, BlockCall, BlockReply, blockCall, blockCalls
-/
import Dach.Core.Machine

namespace Dach

/-- `DACH_STREAM_MODE` -/
inductive StreamMode where
  | invalid
  | readable
  | writable
  | readwrite
deriving DecidableEq, Repr

/-- `dach_block_obj`. `data` is the memory from the block's data pointer to the end of the mapping or
    of the allocation behind it. -/
structure Block where
  id : Nat
  mode : StreamMode
  pos : Nat
  bytesWritten : Nat
  data : List UInt8
  size : Nat
  length : Nat
deriving DecidableEq, Repr

/-- `dach_block_init`, the data pointer as the memory it points to. -/
structure BlockInit where
  length : Nat
  bid : Nat
  mode : StreamMode
  data : Option (List UInt8)

/-- `realloc` to `n` bytes: the old bytes stay, the ones past them are what the heap holds. -/
def realloc (heap : Nat → UInt8) (data : List UInt8) (n : Nat) : List UInt8 :=
  data.take n ++ ((List.range n).map heap).drop data.length

/-- `malloc` of `n` bytes. -/
def malloc (heap : Nat → UInt8) (n : Nat) : List UInt8 :=
  (List.range n).map heap

/-- `dach_block_new` -/
def dachBlockNew (host : Host) (dbi : BlockInit) : Except Abort Block := do
  cassert (dbi.data = none ∨ dbi.mode = .readable) .blockNewData
  let data :=
    if dbi.mode = .writable then malloc (host.heap dbi.bid) dbi.length else dbi.data.getD []
  return { id := dbi.bid, mode := dbi.mode, pos := 0, bytesWritten := 0, data := data,
           size := dbi.length, length := dbi.length }

/-- The copy loop of `block_read`: at most `count` more bytes, stopping early at `length`. -/
def blockReadLoop : Nat → Block → Except Abort (List UInt8 × Block)
  | 0, obj => .ok ([], obj)
  | count + 1, obj =>
      if obj.pos = obj.length then
        .ok ([], obj)
      else
        match obj.data[obj.pos]? with
        | none => .error .blockOutOfBounds
        | some byte => do
            let (bytes, obj) ← blockReadLoop count { obj with pos := obj.pos + 1 }
            return (byte :: bytes, obj)

/-- `block_read`: the returned `ssize_t` (-1 at the end of the block), the bytes stored in the
    buffer, and the block. -/
def blockRead (obj : Block) (count : Nat) : Except Abort (Int × List UInt8 × Block) := do
  cassert (obj.pos ≤ obj.length) .blockReadPos
  let atEnd := u64 (count + obj.pos) ≥ obj.length
  let count := if atEnd then obj.length - obj.pos else count
  if atEnd ∧ count = 0 then
    return (-1, [], obj)
  else
    let (bytes, obj) ← blockReadLoop count obj
    cassert (obj.pos ≤ obj.length) .blockReadPos
    return (bytes.length, bytes, obj)

/-- The copy loop of `block_write`. -/
def blockWriteLoop : List UInt8 → Block → Except Abort Block
  | [], obj => .ok obj
  | byte :: tmp, obj =>
      if obj.pos < obj.data.length then
        let obj := { obj with data := obj.data.set obj.pos byte, pos := obj.pos + 1 }
        let obj := if obj.pos > obj.length then { obj with length := obj.pos } else obj
        blockWriteLoop tmp { obj with bytesWritten := obj.bytesWritten + 1 }
      else
        .error .blockOutOfBounds

/-- `block_write`, which grows the block first when the write reaches its length. It always
    returns 1. -/
def blockWrite (host : Host) (obj : Block) (buf : List UInt8) : Except Abort (Int × Block) := do
  let count := buf.length
  cassert (count > 0) .blockWriteCount
  cassert (obj.mode = .writable) .blockWriteMode
  let obj :=
    if u64 (count + obj.pos) ≥ obj.length then
      { obj with
        data := realloc (host.heap obj.id) obj.data (u64 (count + obj.pos))
        length := u64 (count + obj.pos) }
    else obj
  let obj ← blockWriteLoop buf obj
  cassert (obj.pos ≤ obj.length) .blockWritePos
  return (1, obj)

/-- `block_tofile`: everything up to `length`, whatever the position. Returns the bytes written. -/
def blockTofile (obj : Block) (fd : CFile) : Except Abort (Nat × CFile) :=
  if obj.length ≤ obj.data.length then
    .ok (obj.length, fd.fwrite (obj.data.take obj.length))
  else
    .error .blockOutOfBounds

/-- `block_length` -/
def blockLength (obj : Block) : Nat := obj.length

/-- `block_id` -/
def blockId (obj : Block) : Nat := obj.id

/-- `block_getc`: the byte at the position, without a look at `length`. -/
def blockGetc (obj : Block) : Except Abort (UInt8 × Block) :=
  match obj.data[obj.pos]? with
  | none => .error .blockOutOfBounds
  | some byte => .ok (byte, { obj with pos := obj.pos + 1 })

/-- `block_bytes_written` -/
def blockBytesWritten (obj : Block) : Nat := obj.bytesWritten

/-- `block_seek`: checks the position it is given and goes to 0. -/
def blockSeek (obj : Block) (pos : Nat) : Except Abort (Nat × Block) := do
  cassert (pos ≤ obj.length) .blockSeekPos
  let obj := { obj with pos := 0 }
  return (obj.pos, obj)

/-! ### The table `b_ops` -/

/-- A call through one of the entries of `b_ops`. -/
inductive BlockCall where
  | read (count : Nat)
  | write (buf : List UInt8)
  | tofile (fd : CFile)
  | bytesWritten
  | id
  | length
  | getC
  | seek (pos : Nat)
deriving DecidableEq, Repr

/-- What a call gives back: its return value, and what it stored in the buffer or the file it was
    given. -/
inductive BlockReply where
  | read (ret : Int) (buf : List UInt8)
  | write (ret : Int)
  | tofile (ret : Nat) (fd : CFile)
  | char (c : UInt8)
  | number (n : Nat)
deriving DecidableEq, Repr

/-- One call. -/
def blockCall (host : Host) (obj : Block) : BlockCall → Except Abort (BlockReply × Block)
  | .read count => do
      let (ret, buf, obj) ← blockRead obj count
      return (.read ret buf, obj)
  | .write buf => do
      let (ret, obj) ← blockWrite host obj buf
      return (.write ret, obj)
  | .tofile fd => do
      let (ret, fd) ← blockTofile obj fd
      return (.tofile ret fd, obj)
  | .bytesWritten => return (.number (blockBytesWritten obj), obj)
  | .id => return (.number (blockId obj), obj)
  | .length => return (.number (blockLength obj), obj)
  | .getC => do
      let (c, obj) ← blockGetc obj
      return (.char c, obj)
  | .seek pos => do
      let (ret, obj) ← blockSeek obj pos
      return (.number ret, obj)

/-- One call after the other on the same block. -/
def blockCalls (host : Host) : List BlockCall → Block → Except Abort (List BlockReply × Block)
  | [], obj => .ok ([], obj)
  | call :: calls, obj => do
      let (reply, obj) ← blockCall host obj call
      let (replies, obj) ← blockCalls host calls obj
      return (reply :: replies, obj)

end Dach
