/-
Module: Dach.Core.Program
Layer: Core
Purpose: The dach program on a tree of files: the commands of `dach.c` with the names of the files they
  open, and `main` with its table of commands.
Imports: Dach.Core.Cmdline, Dach.Core.Command, Dach.Core.Info
Trusted boundary: human-reviewed model of dach_main.c, dach_command.c, dach_io.c and of the commands in
  src/dach/dach.c. Two names are two files, a directory reads as empty, `malloc` succeeds, and nothing else
  writes to the files meanwhile; what is printed is left out
Main exports: FileNode, FileTree, Process, CommandStop, Command, strcat, strrchr, dachIoFileSize,
  encodeFile, decodeFile, infoFile, encodeStream, decodeStream, commands, dachMain
-/
import Dach.Core.Cmdline
import Dach.Core.Command
import Dach.Core.Info

namespace Dach

/-! ### Files -/

/-- What a name can stand for. -/
inductive FileNode where
  | regular (content : List UInt8)
  | directory
deriving DecidableEq, Repr

/-- The files by name; `none` where there is none. -/
abbrev FileTree := CString → Option FileNode

/-- What a run of the program does not decide itself. -/
structure Process where
  host : Host
  /-- Whether a file of this name may be opened for reading. -/
  mayRead : CString → Bool
  /-- Whether a file of this name may be opened, or created, for writing. -/
  mayWrite : CString → Bool
  /-- What `malloc` leaves in the memory for `outfilename`. -/
  outfilename : Nat → UInt8
  /-- What a run that stops in the coder leaves of the file it is writing. -/
  torn : List UInt8

/-- The ways a command can stop without returning. -/
inductive CommandStop where
  /-- `exit` with this status -/
  | exit (status : Nat)
  /-- a stop inside the coder, the stream of bits or `info` -/
  | coder (site : Abort)
  /-- `dach_io_file_size`: `assert(fname != NULL)` -/
  | fileSizeName
  /-- `dach_io_file_size`: `assert(dach_io_file_exists(fname))` -/
  | fileSizeExists
  /-- `info`, `encode_stream`, `decode_stream`: `assert(infile != NULL)` -/
  | infileName
  /-- `encode_stream`, `decode_stream`: `assert(0)` for an empty file -/
  | streamFilesize
  /-- a NULL pointer is dereferenced -/
  | nullPointer
  /-- a string is read or written outside its memory -/
  | stringOutOfBounds
deriving DecidableEq, Repr

/-- A part of a run of the program. The files stay as they are when it stops. -/
abbrev Command := EStateM CommandStop FileTree

/-! ### Strings -/

/-- The byte of a character. -/
def charByte (c : Char) : UInt8 := UInt8.ofNat c.toNat

/-- The bytes of a text. -/
def ascii (text : List Char) : List UInt8 := text.map charByte

/-- `strcat(mem, s)`: behind the first NUL of `mem`, which has to be there and to leave enough room. -/
def strcat (mem : List UInt8) (s : CString) : Except CommandStop (List UInt8) :=
  let dest := (cstr mem).bytes.length
  if dest + s.bytes.length + 1 ≤ mem.length then
    .ok (mem.take dest ++ s.bytes ++ 0 :: mem.drop (dest + s.bytes.length + 1))
  else
    .error .stringOutOfBounds

/-- `strrchr(s, c)`: where the last `c` is. -/
def strrchr (c : UInt8) : List UInt8 → Option Nat
  | [] => none
  | b :: text =>
      match strrchr c text with
      | some idx => some (idx + 1)
      | none => if b = c then some 0 else none

/-- `const_file_ext` -/
def constFileExt : CString := { bytes := ascii ['.', 'd', 'c', 'h'], noNul := by decide }

/-- A step that does not look at the files. -/
def pureStep {α : Type} (x : Except CommandStop α) : Command α :=
  match x with
  | .ok a => pure a
  | .error stop => throw stop

/-! ### Opening files -/

/-- `dach_io_file_exists` -/
def dachIoFileExists (fname : CString) : Command Bool := do
  return ((← get) fname).isSome

/-- `dach_get_file_size` -/
def dachGetFileSize (p : Process) (fname : CString) : Command Int := do
  match (← get) fname with
  | some (.regular content) => return if p.mayRead fname then content.length else -1
  | _ => return -1

/-- `dach_io_file_size` -/
def dachIoFileSize (p : Process) (fname : Option CString) : Command Int :=
  match fname with
  | none => throw .fileSizeName
  | some fname => do
      if (← dachIoFileExists fname) then dachGetFileSize p fname else throw .fileSizeExists

/-- An `open` or `fopen` for reading: what is under the name, or `none` for an error. -/
def openRead (p : Process) (fname : CString) : Command (Option FileNode) := do
  match (← get) fname with
  | none => return none
  | some node => return if p.mayRead fname then some node else none

/-- `fopen(fname, "w")`: whether it succeeds. It leaves an empty file then. -/
def fopenWrite (p : Process) (fname : CString) : Command Bool := do
  if p.mayWrite fname ∧ (← get) fname ≠ some .directory then
    modify fun tree => Function.update tree fname (some (.regular []))
    return true
  else
    return false

/-- What has been written to a file that `fopen` left empty. -/
def writeFile (fname : CString) (content : List UInt8) : Command Unit :=
  modify fun tree => Function.update tree fname (some (.regular content))

/-- What is read from an open file. -/
def FileNode.content : FileNode → List UInt8
  | .regular content => content
  | .directory => []

/-- `mmap` of the first `length` bytes of an open file; `none` is `MAP_FAILED`. A mapping is not empty, and
    not of a directory; the length is never more than a file has. -/
def mmapFile (node : FileNode) (length : Nat) : Option (List UInt8) :=
  match node with
  | .regular content => if length = 0 ∨ content.length < length then none else some (content.take length)
  | .directory => none

/-- The coder writes the file of this name, which it stops in the middle of where it stops. -/
def writeCoded (p : Process) (fname : CString) (coded : Except Abort (List UInt8)) : Command Unit :=
  match coded with
  | .error site => do
      writeFile fname p.torn
      throw (.coder site)
  | .ok content => writeFile fname content

/-! ### The commands -/

/-- The name `encode` makes of the one it is given, in fresh memory. -/
def encodeName (p : Process) (fname : CString) : Except CommandStop CString := do
  let size := fname.bytes.length + constFileExt.bytes.length
  let outfilename ← strcat (malloc p.outfilename (size + 1)) fname
  let outfilename ← strcat outfilename constFileExt
  return cstr outfilename

/-- `encode` -/
def encodeFile (p : Process) (dc : DachConfig) : Command Int := do
  let fsize := toSizeT (← dachIoFileSize p dc.file)
  match dc.file with
  | none => throw .nullPointer
  | some fname =>
      let outfilename ← pureStep (encodeName p fname)
      if (← fopenWrite p outfilename) then
        match ← openRead p fname with
        | none => throw (.exit 1)
        | some node =>
            match mmapFile node fsize with
            | none => throw (.exit 1)
            | some data =>
                writeCoded p outfilename (encode p.host data)
                return 0
      else
        throw (.exit 1)

/-- The name `decode` makes of the one it is given: the extension in its memory becomes `.1`, and that is
    put into fresh memory. Another extension is refused. -/
def decodeName (p : Process) (fname : CString) : Except CommandStop CString :=
  match strrchr (charByte '.') fname.bytes with
  | none => .error (.exit 1)
  | some ext =>
      if fname.bytes.drop ext ≠ constFileExt.bytes then
        .error (.exit 1)
      else do
        let mem := ((fname.bytes ++ [0]).set (ext + 1) (charByte '1')).set (ext + 2) 0
        let fname := cstr mem
        let size := fname.bytes.length
        let outfilename ← strcat (malloc p.outfilename (size + 1)) fname
        return cstr outfilename

/-- `decode` -/
def decodeFile (p : Process) (dc : DachConfig) : Command Int :=
  match dc.file with
  | none => throw .nullPointer
  | some fname => do
      match ← openRead p fname with
      | none => throw (.exit 1)
      | some node =>
          let outfilename ← pureStep (decodeName p fname)
          if (← fopenWrite p outfilename) then
            writeCoded p outfilename (decode p.host node.content)
            return 0
          else
            throw (.exit 1)

/-- `DACH_EINVAL`. No header in front of `dach_error.h` in `dach.c` defines `EINVAL`, so it is the number
    that `dach_error.h` counts from `DACH_PRIV_START_ERROR`. -/
def dachEinval : Int := 0xDEC0DE + 11

/-- Whether `info` takes the name: an extension that starts with `.dch`. -/
def infoNameOk (fname : CString) : Bool :=
  if fname.bytes.length < constFileExt.bytes.length then
    false
  else
    match strrchr (charByte '.') fname.bytes with
    | none => false
    | some ext => (fname.bytes.drop ext).take 4 = constFileExt.bytes

/-- `info` with the checks of the file name. -/
def infoFile (p : Process) (dc : DachConfig) : Command Int :=
  match dc.file with
  | none => throw .infileName
  | some fname =>
      if fname.bytes.length ≥ 1024 then
        return dachEinval
      else do
        match ← openRead p fname with
        | none => throw (.exit 255)
        | some node =>
            if infoNameOk fname then
              match info node.content with
              | .error site => throw (.coder site)
              | .ok _ => return 0
            else
              return dachEinval

/-- `encode_stream`, up to the use of its `stream`, which is NULL. -/
def encodeStream (p : Process) (dc : DachConfig) : Command Int :=
  match dc.file with
  | none => throw .infileName
  | some infile => do
      let filesize := toSizeT (← dachIoFileSize p (some infile))
      if filesize = 0 then throw .streamFilesize else throw .nullPointer

/-- `decode_stream`, up to the use of its `stream`, which is NULL. -/
def decodeStream (p : Process) (dc : DachConfig) : Command Int :=
  match dc.file with
  | none => throw .infileName
  | some infile => do
      let filesize := toSizeT (← dachIoFileSize p (some infile))
      if filesize = 0 then throw .streamFilesize else throw .nullPointer

/-! ### The program -/

/-- The functions that `commands` names. -/
inductive CommandName where
  | encode
  | decode
  | estream
  | dstream
  | info
deriving DecidableEq, Repr

/-- `commands` -/
def commands : List (List UInt8 × CommandName) :=
  [(ascii ['e', 'n', 'c', 'o', 'd', 'e'], .encode),
   (ascii ['d', 'e', 'c', 'o', 'd', 'e'], .decode),
   (ascii ['e', 's', 't', 'r', 'e', 'a', 'm'], .estream),
   (ascii ['d', 's', 't', 'r', 'e', 'a', 'm'], .dstream),
   (ascii ['i', 'n', 'f', 'o'], .info)]

/-- The `cmd_func` of a command, through `dach_cmd_encode` and the like. -/
def CommandName.run (p : Process) (dc : DachConfig) : CommandName → Command Int
  | .encode => encodeFile p dc
  | .decode => decodeFile p dc
  | .estream => encodeStream p dc
  | .dstream => decodeStream p dc
  | .info => infoFile p dc

/-- The entry of `commands` that `cmd_is_builtin` and `cmd_run` find. -/
def commandOf (cmd : Option CString) : Option CommandName :=
  match cmd with
  | none => none
  | some s => (commands.find? fun entry => entry.1 = s.bytes).map Prod.snd

/-- `dach_usage` -/
def dachUsage : Command Int := throw (.exit 129)

/-- `main`: the command is the first argument as it was given, the options are what the parser makes of
    all of them. -/
def dachMain (p : Process) (cmd : Option CString) (results : List GetoptResult) : Command Int :=
  match cmdlineParser results with
  | .error status => throw (.exit status)
  | .ok ai =>
      match commandOf cmd with
      | some name => name.run p (dachMainConfig ai)
      | none => dachUsage

end Dach
