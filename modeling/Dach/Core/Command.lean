/-
Module: Dach.Core.Command
Layer: Core
Purpose: The encode and decode commands of `dach.c`, and the coder run over a block in memory.
Imports: Dach.Core.Ar64
Trusted boundary: human-reviewed model of encode and decode in src/dach/dach.c; file names, `open` and
  `mmap` are left out, a file is its content
Main exports: encoderNew, encodeLoop, encode, decoderNew, decodeCalls, decodeLoop, decode,
  blockEncode, blockDecoderNew, blockDecode
-/
import Dach.Core.Ar64

namespace Dach

/-! ### Encoding a file -/

/-- The model and the coder of `encode`; `stdin` is passed on as `in` and never read. -/
def encoderNew (host : Host) (fsize : Nat) : Except Abort Arc := do
  let mod ← dachPpm0New
  dachNewArcoder host mod (CFile.reading []) (CFile.reading []) fsize

/-- The loop of `encode` over the mapped bytes, with the total number of renormalisation shifts. -/
def encodeLoop (host : Host) : List UInt8 → Arc → Except Abort (Nat × Arc)
  | [], arc => .ok (0, arc)
  | c :: data, arc => do
      let (shifts, arc) ← dachEncode host arc c.toNat
      let (later, arc) ← encodeLoop host data arc
      return (shifts + later, arc)

/-- The file a coder has written; a coder on a block has none. -/
def Arc.fileWritten (arc : Arc) : List UInt8 :=
  match arc.io with
  | .files _ out => out.written
  | .block _ => []

/-- `encode`: the content of the output file. An empty file gives an empty file. -/
def encode (host : Host) (data : List UInt8) : Except Abort (List UInt8) :=
  if data.length > 0 then do
    let arc ← encoderNew host data.length
    let (_, arc) ← encodeLoop host data arc
    let arc ← dachStopEncoder host arc
    return arc.fileWritten
  else
    return []

/-! ### Decoding a file -/

/-- `max_buf` -/
def maxBuf : Nat := 4096

/-- The model and the coder of `decode`, after `dach_start_decoder`. -/
def decoderNew (host : Host) (content : List UInt8) : Except Abort Arc := do
  let mod ← dachPpm0New
  let arc ← dachNewArcoder host mod (CFile.reading content) (CFile.reading []) 0
  dachStartDecoder host arc

/-- A number of calls of `dach_decode` in a row, and the characters they return. -/
def decodeCalls (host : Host) : Nat → Arc → Except Abort (List Nat × Arc)
  | 0, arc => .ok ([], arc)
  | calls + 1, arc => do
      let (chr, arc) ← dachDecode host arc
      let (chrs, arc) ← decodeCalls host calls arc
      return (chr :: chrs, arc)

/-- The loop of `decode` with its buffer of `max_buf` bytes, for at most `fuel` calls of
    `dach_decode`. -/
def decodeLoop (host : Host) : Nat → Arc → List UInt8 → CFile →
    Except Abort (List UInt8 × CFile)
  | 0, arc, buf, fdOut =>
      if dachEof arc then .ok (buf, fdOut) else .error .loopForever
  | fuel + 1, arc, buf, fdOut =>
      if dachEof arc then
        .ok (buf, fdOut)
      else do
        let (chr, arc) ← dachDecode host arc
        let buf := buf ++ [UInt8.ofNat chr]
        if buf.length = maxBuf then
          decodeLoop host fuel arc [] (fdOut.fwrite buf)
        else
          decodeLoop host fuel arc buf fdOut

/-- `decode`: the content of the output file. Every call counts one symbol against the block size, so
    one call more than the block size is never made. -/
def decode (host : Host) (content : List UInt8) : Except Abort (List UInt8) := do
  let arc ← decoderNew host content
  let (buf, fdOut) ← decodeLoop host (arc.blocksize + 1) arc [] (CFile.reading [])
  return (fdOut.fwrite buf).written

/-! ### The coder on a block -/

/-- The block of a coder made by `dach_new_arcoder_`. -/
def Arc.onBlock (arc : Arc) : Except Abort Block :=
  match arc.io with
  | .files _ _ => .error .nullBlock
  | .block blk => .ok blk

/-- A fresh model and a coder over a fresh writable block of the given length. -/
def blockEncoderNew (host : Host) (bid length : Nat) : Except Abort Arc := do
  let mod ← dachPpm0New
  let blk ← dachBlockNew host { length := length, bid := bid, mode := .writable, data := none }
  dachNewArcoderOnBlock mod blk

/-- Encode into a fresh writable block of the length of the data. -/
def blockEncode (host : Host) (bid : Nat) (data : List UInt8) : Except Abort Block := do
  let arc ← blockEncoderNew host bid data.length
  let (_, arc) ← encodeLoop host data arc
  let arc ← dachStopEncoder host arc
  arc.onBlock

/-- `dach_decode` until `dach_eof`, for at most `fuel` calls. -/
def decodeUntilEof (host : Host) : Nat → Arc → Except Abort (List UInt8)
  | 0, arc => if dachEof arc then .ok [] else .error .loopForever
  | fuel + 1, arc =>
      if dachEof arc then
        .ok []
      else do
        let (chr, arc) ← dachDecode host arc
        let chrs ← decodeUntilEof host fuel arc
        return UInt8.ofNat chr :: chrs

/-- Seek the block to 0 and start a fresh coder with a fresh model on it. -/
def blockDecoderNew (host : Host) (blk : Block) : Except Abort Arc := do
  let (_, blk) ← blockSeek blk 0
  let mod ← dachPpm0New
  let arc ← dachNewArcoderOnBlock mod blk
  dachStartDecoder host arc

/-- Decode the block from its start. -/
def blockDecode (host : Host) (blk : Block) : Except Abort (List UInt8) := do
  let arc ← blockDecoderNew host blk
  decodeUntilEof host (arc.blocksize + 1) arc

end Dach
