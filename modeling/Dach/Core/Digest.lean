/-
Module: Dach.Core.Digest
Layer: Core
Purpose: The digest of a file in fdb: `io_md5` with its reads of 8192 bytes and its text of hex digits, and
  what `sql_insert_file` takes of it.
Imports: Dach.Core.Fdb, Dach.Core.Machine, Dach.Lib.Loop
Trusted boundary: human-reviewed model of io_md5 in src/fdb/fdb_impl.c; MD5 itself is a parameter, and no
  read fails
Main exports: Md5, hexchars, md5Pass, writeHex, ioMd5, boundMd5, withMd5
-/
import Dach.Core.Fdb
import Dach.Core.Machine
import Dach.Lib.Loop

namespace Dach

/-- `MD5_Init`, `MD5_Update` and `MD5_Final` with contexts of type `Ctx`. -/
structure Md5 (Ctx : Type) where
  init : Ctx
  update : Ctx → List UInt8 → Ctx
  final : Ctx → Vector UInt8 16

/-- `hexchars` -/
def hexchars : List UInt8 := [48, 49, 50, 51, 52, 53, 54, 55, 56, 57, 97, 98, 99, 100, 101, 102]

/-- `hexchars[nib]` -/
def hexchar (nib : Nat) : UInt8 := hexchars.getD nib 0

/-- One entry of the loop of `io_md5` that reads the file. -/
def md5Pass {Ctx : Type} (md5 : Md5 Ctx) (s : Ctx × CFile) : Except Abort (Option (Ctx × CFile)) :=
  let (data, fp) := s.2.fread 8192
  if data.length ≠ 0 then .ok (some (md5.update s.1 data, fp)) else .ok none

/-- The loop of `io_md5` that writes the digits, from offset `n` of `out` on. -/
def writeHex : List UInt8 → Nat → List UInt8 → List UInt8
  | [], _, out => out
  | nib :: c, n, out =>
      let out := out.set n (hexchar (nib.toNat >>> 4))
      let out := out.set (n + 1) (hexchar (nib.toNat &&& 0xF))
      writeHex c (n + 2) out

/-- `io_md5` on the content of a file, or on none where it cannot be opened: the value it returns, and
    `out`. A read that does not end the loop gets a byte, so it has at most one entry more than the file
    has bytes. -/
def ioMd5 {Ctx : Type} (md5 : Md5 Ctx) (file : Option (List UInt8)) (out : List UInt8) :
    Except Abort (Int × List UInt8) :=
  match file with
  | none => .ok (-1, out)
  | some content => do
      let (_, ctx, _) ← Loop.forever .loopForever (md5Pass md5) (content.length + 1)
        (md5.init, CFile.reading content)
      let out := writeHex (md5.final ctx).toList 0 out
      return (0, out.set 32 0)

/-- What `sql_insert_file` binds as `md5_full`: the first 32 bytes of its `buf`. -/
def boundMd5 {Ctx : Type} (md5 : Md5 Ctx) (file : Option (List UInt8)) (buf : List UInt8) :
    Option (List UInt8) :=
  match ioMd5 md5 file buf with
  | .ok (rc, buf) => if rc = -1 then none else some (buf.take 32)
  | .error _ => none

/-- The file system with the digests of these files; `buf` is what the stack holds. -/
def withMd5 {Ctx : Type} (fs : FileSystem) (md5 : Md5 Ctx) (files : CString → Option (List UInt8))
    (buf : List UInt8) : FileSystem :=
  { fs with ioMd5 := fun path => boundMd5 md5 (files path) buf }

end Dach
