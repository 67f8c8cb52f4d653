/-
Module: Dach.Core.StreamTest
Layer: Core
Purpose: What uses a stream by its blocks: `dach_copy`, and the reader and the writer of the stream tests
  with their comparison of two files.
Imports: Dach.Core.Stream
Trusted boundary: human-reviewed model of dach_copy.c and of tests/dach_stream_test.c in src/dach from the
  call of dach_stream_new on; the temporary files are their contents, and `char` is signed
Main exports: dachCopy, readChars, fileStreamReader, charOfGetc, compareFiles, fileStreamWriter
-/
import Dach.Core.Stream

namespace Dach

/-! ### Copying a block -/

/-- The loop of `dach_copy` with `left` bytes still to copy. -/
def copyLoop (host : Host) : Nat → Block → Block → Except Abort (Block × Block)
  | 0, inBlk, outBlk => .ok (inBlk, outBlk)
  | left + 1, inBlk, outBlk => do
      let (c, inBlk) ← blockGetc inBlk
      let (_, outBlk) ← blockWrite host outBlk [c]
      copyLoop host left inBlk outBlk

/-- `dach_copy` -/
def dachCopy : Operation := fun host inBlk outBlk => copyLoop host (blockLength inBlk) inBlk outBlk

/-! ### Reading a stream -/

/-- The inner loop of `test_file_stream_reader`, and the characters it gets. -/
def readChars : Nat → Block → Except Abort (List UInt8 × Block)
  | 0, db => .ok ([], db)
  | left + 1, db => do
      let (c, db) ← blockGetc db
      let (cs, db) ← readChars left db
      return (c :: cs, db)

/-- The outer loop of `test_file_stream_reader` with `left` blocks still to read. -/
def readBlocks : Nat → Stream → Except Abort (List UInt8 × Stream)
  | 0, dsr => .ok ([], dsr)
  | left + 1, dsr => do
      let (idx, dsr) ← newBlock dsr
      match idx with
      | none => .error .nullBlock
      | some idx =>
          let db ← dsr.inBlock idx
          let (cs, db) ← readChars (blockLength db) db
          let dsr := { dsr with dblockArray := dsr.dblockArray.modify idx fun x => { x with obj := db } }
          let (rest, dsr) ← readBlocks left dsr
          return (cs ++ rest, dsr)

/-- `test_file_stream_reader`: the characters it gets, one after the other. -/
def fileStreamReader (host : Host) (bsize : Nat) (file : FileContent) : Except Abort (List UInt8) := do
  let dsr ← dachStreamNew host { file := file, mode := "r", blockSize := bsize }
  let bcount := blocks dsr
  let (cs, _) ← readBlocks bcount dsr
  return cs

/-! ### Comparing two files -/

/-- How a test can stop: in the library, or at an assertion of its own. -/
inductive TestStop where
  /-- a stop inside the library -/
  | library (site : Abort)
  /-- `compare_files`: `assert(c1 != EOF)`, `assert(c2 != EOF)` -/
  | compareEof
  /-- `compare_files`: `assert(c1 == c2)` -/
  | compareDiffers
deriving DecidableEq, Repr

/-- `EOF` -/
def eof : Int := -1

/-- Conversion to a signed `char`. -/
def signedChar (b : UInt8) : Int := if b.toNat < 128 then b.toNat else b.toNat - 256

/-- `char c = getc(fp)` for the bytes that are left of a file. -/
def charOfGetc : List UInt8 → Int
  | [] => eof
  | b :: _ => signedChar b

/-- The loop of `compare_files`; the current character is the one before the bytes that are left. -/
def compareLoop : List UInt8 → List UInt8 → Except TestStop Unit
  | b1 :: fp1, b2 :: fp2 =>
      let c1 := charOfGetc (b1 :: fp1)
      let c2 := charOfGetc (b2 :: fp2)
      if c1 ≠ eof ∧ c2 ≠ eof then
        if c1 = c2 then compareLoop fp1 fp2 else .error .compareDiffers
      else
        .ok ()
  | _, _ => .ok ()

/-- `compare_files` -/
def compareFiles (fp1 fp2 : List UInt8) : Except TestStop Unit :=
  if charOfGetc fp1 = eof then
    .error .compareEof
  else if charOfGetc fp2 = eof then
    .error .compareEof
  else
    compareLoop fp1 fp2

/-! ### Writing through a pipe -/

/-- `buf_size` -/
def bufSize : Nat := 4096

/-- The pipe of `test_file_stream_writer`, and what it leaves in the output file. -/
def fileStreamPipe (host : Host) (bsize : Nat) (file : FileContent) : Except Abort (List UInt8) := do
  let dsr ← dachStreamNew host { file := file, mode := "r", blockSize := bsize }
  let pip := dachPipeNew dsr (streamTestCopy bufSize)
  let pip ← dachPipeAdd pip (streamTestCopy bufSize)
  let pip ← dachPipeStart host pip
  let (_, fp) ← dachPipeTofile pip (CFile.reading [])
  return fp.written

/-- `test_file_stream_writer` -/
def fileStreamWriter (host : Host) (bsize : Nat) (file : FileContent) : Except TestStop Unit :=
  match fileStreamPipe host bsize file with
  | .error site => .error (.library site)
  | .ok written => compareFiles file.bytes written

end Dach
