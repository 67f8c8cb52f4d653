/-
Module: Dach.Core.Info
Layer: Core
Purpose: The info command of `dach.c`: the walk over the headers of an archive, through the unbuffered
  file operations of APR.
Imports: Dach.Core.Header
Trusted boundary: human-reviewed model of info in src/dach/dach.c; the checks of the file name are left
  out, and the APR calls behave as documented (`apr_file_seek` sets any offset)
Main exports: AprFile, aprFileRead, aprFileSeek, InfoState, InfoEnd, infoLoop, info
-/
import Dach.Core.Header

namespace Dach

/-! ### Files -/

/-- An `apr_file_t` opened for reading without a buffer. -/
structure AprFile where
  content : List UInt8
  pos : Nat
  eofHit : Bool
deriving DecidableEq, Repr

/-- `apr_file_open` on the given content. -/
def AprFile.opened (content : List UInt8) : AprFile :=
  { content := content, pos := 0, eofHit := false }

/-- `apr_file_read` of up to `n` bytes. Only a read that gets nothing raises the flag. -/
def aprFileRead (file : AprFile) (n : Nat) : List UInt8 × AprFile :=
  let bytes := (file.content.drop file.pos).take n
  (bytes, { file with
    pos := file.pos + bytes.length
    eofHit := file.eofHit || decide (bytes.length = 0) })

/-- `apr_file_seek` with `APR_SET`: past the end of the file as well, and the flag is cleared. -/
def aprFileSeek (file : AprFile) (pos : Nat) : AprFile :=
  { file with pos := pos, eofHit := false }

/-! ### The walk -/

/-- A line that `info` prints: the number of the block and its header. -/
structure InfoLine where
  bid : Nat
  hdr : Header
deriving DecidableEq, Repr

/-- The variables of the loop of `info`, with what it has printed. -/
structure InfoState where
  file : AprFile
  hd1 : Header
  seekWhere : Nat
  bid : Nat
  blockSizeTot : Nat
  printed : List InfoLine
deriving DecidableEq, Repr

/-- How the loop of `info` ends: a read past the last byte, or "Looks like a corrupted file". -/
inductive InfoEnd where
  | endOfFile
  | corrupted
deriving DecidableEq, Repr

/-- The branch of an `HJ` header: print it and go to the one behind its block. -/
def infoRecord (s : InfoState) : InfoState :=
  let blockSize := s.hd1.blockSize.toNat
  let seekWhere := u64 (s.seekWhere + (blockSize + dachHeaderSize))
  { s with
    printed := s.printed ++ [{ bid := s.bid, hdr := s.hd1 }]
    bid := s.bid + 1
    seekWhere := seekWhere
    blockSizeTot := u64 (s.blockSizeTot + (blockSize + dachHeaderSize))
    file := aprFileSeek s.file seekWhere }

/-- The loop of `info`, with at most `fuel` entries. -/
def infoLoop : Nat → InfoState → Except Abort (InfoEnd × InfoState)
  | 0, _ => .error .loopForever
  | fuel + 1, s =>
      if s.file.eofHit then
        .ok (.endOfFile, s)
      else
        let (buf, file) := aprFileRead s.file dachHeaderSize
        if buf.length = 0 then
          .ok (.endOfFile, { s with file := file })
        else do
          cassert (buf.length = dachHeaderSize) .infoHeader
          let s := { s with file := file, hd1 := dachHeaderUnpack s.hd1 buf }
          if s.hd1.id1 = 0x48 ∧ s.hd1.id2 = 0x4A then
            infoLoop fuel (infoRecord s)
          else
            return (.corrupted, s)

/-- `info`: how the walk ends, and the variables then. Every entry of the loop but the last moves on by
    a header at least. -/
def info (content : List UInt8) : Except Abort (InfoEnd × InfoState) := do
  cassert (content ≠ []) .infoMmap
  infoLoop (content.length + 1)
    { file := .opened content, hd1 := dachHeaderNewBlank, seekWhere := 0, bid := 0, blockSizeTot := 0,
      printed := [] }

end Dach
