/-
Module: Dach.Core.Fdb
Layer: Core
Purpose: The fdb program: the walk over a directory tree in `walk_recur`, the tasks it pushes to the
  thread pool, and the table they write. One step is one move of the walk, of a worker or of `main`; its
  label resolves which task and what a dead part of the stack holds.
Imports: Mathlib
Trusted boundary: human-reviewed model of src/fdb/fdb_impl.c and of main in src/fdb/fdb.c from the call
  of walk_recur on. The file system answers as it did when the walk began. Each frame of walk_recur has
  one place for `full_path`, the same one in every frame at that depth. A task runs at most once after it
  was pushed, and every SQLite statement is one step. Messages, counters and the queue of the worker are
  left out
Main exports: CString, FileSystem, Filework, WalkFrame, FdbState, walkStep, doWork, fdbStep, fdbStart,
  fdbResume
-/
import Mathlib

namespace Dach

/-! ### Strings -/

/-- A C string without its final NUL. -/
@[ext]
structure CString where
  bytes : List UInt8
  noNul : 0 ∉ bytes
deriving DecidableEq

/-- The string a pointer to `mem` denotes: the bytes before the first NUL. -/
def cstr (mem : List UInt8) : CString where
  bytes := mem.takeWhile (· ≠ 0)
  noNul h := by simpa using List.mem_takeWhile_imp h

/-- `"%s/%s"` of two strings. -/
def pathJoin (dname name : CString) : CString where
  bytes := dname.bytes ++ 47 :: name.bytes
  noNul := by simp [dname.noNul, name.noNul]

/-- `snprintf` of a string into `mem`: at most `size - 1` bytes and a NUL. What lies behind stays. -/
def snprintf (mem : List UInt8) (size : Nat) (s : CString) : List UInt8 :=
  let out := s.bytes.take (size - 1)
  out ++ 0 :: mem.drop (out.length + 1)

/-! ### The file system -/

/-- The kinds of directory entry that `walk_recur` tells apart: `DT_REG`, `DT_DIR` and the rest. -/
inductive DType where
  | reg
  | dir
  | other
deriving DecidableEq, Repr

/-- A `struct dirent`. -/
structure Dirent where
  dName : CString
  dType : DType
deriving DecidableEq

/-- What the walk reads of a `struct stat`: the size, and `S_ISDIR` of the mode. -/
structure Stat where
  stSize : Nat
  isDir : Bool
deriving DecidableEq, Repr

/-- The answers of the operating system. -/
structure FileSystem where
  /-- The entries `readdir` returns one after the other, when the directory can be opened. -/
  opendir : CString → Option (List Dirent)
  stat : CString → Option Stat
  /-- `io_md5`: the digest in hex, when the file can be opened. -/
  ioMd5 : CString → Option (List UInt8)

/-! ### The state -/

/-- `sizeof(full_path)`. -/
def fullPathSize : Nat := 8192

/-- `FILENAME_MAX` of the GNU C library. -/
def filenameMax : Nat := 4096

/-- `FDB_THREADS` of `fdb.c`. -/
def fdbThreads : Nat := 16

/-- A row of `fdb_files`. No statement sets `md5_partial`. -/
structure FdbRow where
  fname : List UInt8
  fsize : Nat
  md5Full : List UInt8
deriving DecidableEq, Repr

/-- The `filework` of a task. `fullPath` is a pointer: the depth of the frame whose buffer it names. -/
structure Filework where
  fullPath : Nat
  pathlen : Nat
  fsize : Nat
  /-- Ghost: the string in the buffer when the task was pushed. No step reads it. -/
  pushed : CString
deriving DecidableEq

/-- How far `do_work` has come with a task. -/
inductive WorkStage where
  /-- before `sql_file_exists` -/
  | entered
  /-- `sql_file_exists` has returned 0 -/
  | absent
  /-- `io_md5` has returned -/
  | hashed (md5 : List UInt8)
deriving DecidableEq, Repr

/-- A worker inside `do_work`. -/
structure FdbWorker where
  fw : Filework
  stage : WorkStage
deriving DecidableEq

/-- A frame of `walk_recur`: the directory, the entries `readdir` has not returned yet, and whether
    `full_path` has been written for the first of them. -/
structure WalkFrame where
  dname : CString
  entries : List Dirent
  formatted : Bool
deriving DecidableEq

/-- Where `main` is. -/
inductive FdbPhase where
  /-- in `walk_recur` -/
  | walking
  /-- in `apr_thread_pool_tasks_cancel`: the waiting tasks are gone -/
  | cancelled
  /-- `apr_thread_pool_destroy` has returned -/
  | finished
  /-- the assertion on the length of `dname`, or `strcpy` past the end of `next_dir` -/
  | aborted
deriving DecidableEq, Repr

/-- The walk, the pool, the table, and the `full_path` of every depth. -/
structure FdbState where
  stack : List WalkFrame
  memory : Nat → List UInt8
  pending : List Filework
  running : List FdbWorker
  fdbFiles : List FdbRow
  phase : FdbPhase

/-! ### The walk -/

/-- The entries `walk_recur` passes over without a look at the file: `.`, `..`, and what is neither a
    regular file nor a directory. -/
def Dirent.passedOver (e : Dirent) : Bool :=
  e.dName.bytes = [46] ∨ e.dName.bytes = [46, 46] ∨ (e.dType ≠ .reg ∧ e.dType ≠ .dir)

/-- `walk_recur` up to its loop. A `dname` of `FILENAME_MAX` bytes passes the assertion and does not fit
    into `next_dir` with its NUL. -/
def walkRecur (fs : FileSystem) (dname : CString) (s : FdbState) : FdbState :=
  if filenameMax ≤ dname.bytes.length then
    { s with phase := .aborted }
  else
    match fs.opendir dname with
    | none => s
    | some entries =>
        { s with stack := { dname := dname, entries := entries, formatted := false } :: s.stack }

/-- The push of a regular file. -/
def pushFile (slot : Nat) (fullPath : CString) (st : Stat) (s : FdbState) : FdbState :=
  { s with pending := s.pending ++
      [{ fullPath := slot, pathlen := fullPath.bytes.length, fsize := st.stSize, pushed := fullPath }] }

/-- The body of the loop from `stat` on. The buffer is the one at depth `slot`. -/
def walkEntry (fs : FileSystem) (slot : Nat) (e : Dirent) (s : FdbState) : FdbState :=
  let fullPath := cstr (s.memory slot)
  match fs.stat fullPath with
  | none => s
  | some st =>
      match e.dType with
      | .reg => pushFile slot fullPath st s
      | .dir => if st.isDir then walkRecur fs fullPath s else s
      | .other => s

/-- One move of the innermost `walk_recur`: return, pass over an entry, write `full_path`, or go on from
    there. -/
def walkStep (fs : FileSystem) (s : FdbState) : Option FdbState :=
  match s.stack with
  | [] => none
  | { entries := [], .. } :: rest => some { s with stack := rest }
  | { dname, entries := e :: es, formatted } :: rest =>
      let popped := { s with stack := { dname := dname, entries := es, formatted := false } :: rest }
      if formatted then
        some (walkEntry fs rest.length e popped)
      else if e.passedOver then
        some popped
      else
        some { s with
          memory := Function.update s.memory rest.length
            (snprintf (s.memory rest.length) (fullPathSize - 1) (pathJoin dname e.dName))
          stack := { dname := dname, entries := e :: es, formatted := true } :: rest }

/-! ### The tasks -/

/-- The text bound to a statement: `pathlen` bytes of the buffer, read when the statement is stepped. -/
def Filework.boundText (memory : Nat → List UInt8) (fw : Filework) : List UInt8 :=
  (memory fw.fullPath).take fw.pathlen

/-- `sql_file_exists`. -/
def sqlFileExists (table : List FdbRow) (fname : List UInt8) : Bool :=
  table.any fun row => row.fname = fname

/-- The insert of `sql_insert_file`. A second row with the same primary key is refused, and the result of
    the statement is not looked at. -/
def sqlInsert (table : List FdbRow) (row : FdbRow) : List FdbRow :=
  if sqlFileExists table row.fname then table else table ++ [row]

/-- One step of the `i`-th worker in `do_work`. A worker that returns is idle again. -/
def doWork (fs : FileSystem) (i : Nat) (s : FdbState) : Option FdbState :=
  match s.running[i]? with
  | none => none
  | some w =>
      let fname := w.fw.boundText s.memory
      match w.stage with
      | .entered =>
          if sqlFileExists s.fdbFiles fname then
            some { s with running := s.running.eraseIdx i }
          else
            some { s with running := s.running.set i { w with stage := .absent } }
      | .absent =>
          match fs.ioMd5 (cstr (s.memory w.fw.fullPath)) with
          | none => some { s with running := s.running.eraseIdx i }
          | some md5 => some { s with running := s.running.set i { w with stage := .hashed md5 } }
      | .hashed md5 =>
          some { s with
            fdbFiles := sqlInsert s.fdbFiles { fname := fname, fsize := w.fw.fsize, md5Full := md5 }
            running := s.running.eraseIdx i }

/-! ### The program -/

/-- Who moves. -/
inductive FdbMove where
  /-- the thread of `walk_recur` -/
  | walk
  /-- a call overwrites the place of a frame that has returned -/
  | overwrite (slot : Nat) (bytes : List UInt8)
  /-- an idle worker takes the `i`-th waiting task -/
  | take (i : Nat)
  /-- the `i`-th busy worker -/
  | work (i : Nat)
  /-- `main` calls `apr_thread_pool_tasks_cancel` -/
  | cancel
  /-- the busy workers have returned, and `main` destroys the pool -/
  | destroy
deriving DecidableEq, Repr

/-- One step of the program. -/
def fdbStep (fs : FileSystem) (s : FdbState) (move : FdbMove) : Option FdbState :=
  if s.phase = .finished ∨ s.phase = .aborted then
    none
  else
    match move with
    | .walk => if s.phase = .walking then walkStep fs s else none
    | .overwrite slot bytes =>
        if s.stack.length ≤ slot then
          some { s with memory := Function.update s.memory slot bytes }
        else
          none
    | .take i =>
        match s.pending[i]? with
        | none => none
        | some fw =>
            if s.running.length < fdbThreads then
              some { s with
                pending := s.pending.eraseIdx i
                running := s.running ++ [{ fw := fw, stage := .entered }] }
            else
              none
    | .work i => doWork fs i s
    | .cancel =>
        if s.phase = .walking ∧ s.stack = [] then
          some { s with pending := [], phase := .cancelled }
        else
          none
    | .destroy =>
        if s.phase = .cancelled ∧ s.running = [] then some { s with phase := .finished } else none

/-- `main` calls `walk_recur` on the directory of its arguments, with an empty table. -/
def fdbStart (fs : FileSystem) (root : CString) : FdbState :=
  walkRecur fs root
    { stack := [], memory := fun _ => [], pending := [], running := [], fdbFiles := [], phase := .walking }

/-- The same on a database that has a table: `create table if not exists` leaves its rows as they are. -/
def fdbResume (fs : FileSystem) (root : CString) (table : List FdbRow) : FdbState :=
  walkRecur fs root
    { stack := [], memory := fun _ => [], pending := [], running := [], fdbFiles := table,
      phase := .walking }

end Dach
