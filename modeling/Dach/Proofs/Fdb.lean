/-
Module: Dach.Proofs.Fdb
Layer: Proofs
Purpose: What the fdb program leaves in its table. Every regular file the walk comes to is, from then on,
  a waiting task, a task at work or a row, as long as no worker reads a path buffer that was written
  again and no waiting task is cancelled. Without that a file can be lost, and another one's row can
  carry its size.
Imports: Dach.Core.Fdb, Dach.Lib.Run
Trusted boundary: none
Main exports: Walked, ReadableTree, RowsOf, Undisturbed, FdbInv, fdbRun_rowsOf, fdbRun_loses
-/
import Dach.Core.Fdb
import Dach.Lib.Run

namespace Dach

open Transition

/-! ### Strings -/

theorem cstr_take {mem : List UInt8} {s : CString} (h : cstr mem = s) :
    mem.take s.bytes.length = s.bytes := by
  subst h
  exact (List.prefix_iff_eq_take.mp (List.takeWhile_prefix _)).symm

theorem cstr_snprintf (mem : List UInt8) {size : Nat} {s : CString} (h : s.bytes.length < size) :
    cstr (snprintf mem size s) = s := by
  have hall : ∀ b ∈ s.bytes, decide (b ≠ 0) = true := by
    intro b hb
    exact decide_eq_true fun h0 => s.noNul (h0 ▸ hb)
  have hout : s.bytes.take (size - 1) = s.bytes := List.take_of_length_le (by omega)
  ext1
  simp only [cstr, snprintf, hout]
  rw [List.takeWhile_append_of_pos hall]
  simp

/-! ### Lists -/

theorem coe_map_eraseIdx {α β : Type} {l : List α} {i : Nat} {a : α} (g : α → β)
    (h : l[i]? = some a) : (l.map g : Multiset β) = {g a} + ((l.eraseIdx i).map g : List β) := by
  rcases List.getElem?_eq_some_iff.mp h with ⟨hi, rfl⟩
  rw [Multiset.singleton_add, Multiset.cons_coe, Multiset.coe_eq_coe]
  exact ((List.getElem_cons_eraseIdx_perm hi).map g).symm

theorem map_set_eq {α β : Type} {l : List α} {i : Nat} {a b : α} (g : α → β) (h : l[i]? = some a)
    (same : g b = g a) : (l.set i b).map g = l.map g := by
  rcases List.getElem?_eq_some_iff.mp h with ⟨hi, rfl⟩
  have hi' : i < (l.map g).length := by simpa using hi
  have hmap : g l[i] = (l.map g)[i] := (List.getElem_map g).symm
  rw [List.map_set, same, hmap]
  exact List.set_getElem_self hi'

/-! ### The files of a walk -/

/-- A regular file, by the path the walk came to it. -/
structure WalkedFile where
  path : CString
  size : Nat
deriving DecidableEq

/-- What `readdir` has to say about a directory; nothing, if it cannot be opened. -/
def FileSystem.entries (fs : FileSystem) (dname : CString) : List Dirent :=
  (fs.opendir dname).getD []

/-- The path of an entry fits into the part of `full_path` that `snprintf` may fill. -/
def PathFits (dname : CString) (e : Dirent) : Prop :=
  (pathJoin dname e.dName).bytes.length < fullPathSize - 1

/-- The regular files below a directory, from the given entries of it on and in the order of the walk. A
    derivation is the finite tree below the directory. -/
inductive Walked (fs : FileSystem) : CString → List Dirent → List WalkedFile → Prop where
  | done {d : CString} : Walked fs d [] []
  | passed {d : CString} {e : Dirent} {es : List Dirent} {files : List WalkedFile}
      (skips : e.passedOver = true) (rest : Walked fs d es files) : Walked fs d (e :: es) files
  | missing {d : CString} {e : Dirent} {es : List Dirent} {files : List WalkedFile}
      (skips : e.passedOver = false) (fits : PathFits d e) (stat : fs.stat (pathJoin d e.dName) = none)
      (rest : Walked fs d es files) : Walked fs d (e :: es) files
  | file {d : CString} {e : Dirent} {es : List Dirent} {files : List WalkedFile} {st : Stat}
      (skips : e.passedOver = false) (fits : PathFits d e) (kind : e.dType = .reg)
      (stat : fs.stat (pathJoin d e.dName) = some st) (rest : Walked fs d es files) :
      Walked fs d (e :: es) ({ path := pathJoin d e.dName, size := st.stSize } :: files)
  | notDir {d : CString} {e : Dirent} {es : List Dirent} {files : List WalkedFile} {st : Stat}
      (skips : e.passedOver = false) (fits : PathFits d e) (kind : e.dType = .dir)
      (stat : fs.stat (pathJoin d e.dName) = some st) (isDir : st.isDir = false)
      (rest : Walked fs d es files) : Walked fs d (e :: es) files
  | subdir {d : CString} {e : Dirent} {es : List Dirent} {sub files : List WalkedFile} {st : Stat}
      (skips : e.passedOver = false) (fits : PathFits d e) (kind : e.dType = .dir)
      (stat : fs.stat (pathJoin d e.dName) = some st) (isDir : st.isDir = true)
      (below : Walked fs (pathJoin d e.dName) (fs.entries (pathJoin d e.dName)) sub)
      (rest : Walked fs d es files) : Walked fs d (e :: es) (sub ++ files)

theorem Walked.later {fs : FileSystem} {d : CString} {e : Dirent} {es : List Dirent}
    {files : List WalkedFile} (walked : Walked fs d (e :: es) files) (passed : e.passedOver = true) :
    Walked fs d es files := by
  cases walked with
  | passed _ later => exact later
  | missing skips | file skips | notDir skips | subdir skips =>
      rw [skips] at passed
      cases passed

theorem Walked.fits {fs : FileSystem} {d : CString} {e : Dirent} {es : List Dirent}
    {files : List WalkedFile} (walked : Walked fs d (e :: es) files) (skips : e.passedOver = false) :
    PathFits d e := by
  cases walked with
  | passed passed =>
      rw [skips] at passed
      cases passed
  | missing _ fits | file _ fits | notDir _ fits | subdir _ fits => exact fits

/-- A directory tree of readable files with different paths. -/
structure ReadableTree (fs : FileSystem) (root : CString) (files : List WalkedFile) : Prop where
  walked : Walked fs root (fs.entries root) files
  distinct : (files.map WalkedFile.path).Nodup
  readable : ∀ f ∈ files, (fs.ioMd5 f.path).isSome = true

/-- The table holds exactly one row for each of the files, with the file's own path and size, and no
    other row. -/
def RowsOf (files : List WalkedFile) (table : List FdbRow) : Prop :=
  table.length = files.length ∧
    ∀ f ∈ files, ∃ row, table.filter (fun r => r.fname = f.path.bytes) = [row] ∧ row.fsize = f.size

/-! ### Undisturbed runs -/

/-- The buffer of a task still holds the path it was pushed with. -/
def Filework.Intact (memory : Nat → List UInt8) (fw : Filework) : Prop :=
  cstr (memory fw.fullPath) = fw.pushed

instance (memory : Nat → List UInt8) (fw : Filework) : Decidable (fw.Intact memory) :=
  inferInstanceAs (Decidable (_ = _))

/-- The condition on a step: a worker moves only while the buffer of its task is intact, and `main`
    cancels only when no task is waiting. -/
def Undisturbed (s : FdbState) : FdbMove → Prop
  | .work i => ∀ w ∈ s.running[i]?, w.fw.Intact s.memory
  | .cancel => s.pending = []
  | _ => True

instance (s : FdbState) : ∀ move, Decidable (Undisturbed s move)
  | .work i => inferInstanceAs (Decidable (∀ w ∈ s.running[i]?, w.fw.Intact s.memory))
  | .cancel => inferInstanceAs (Decidable (s.pending = []))
  | .walk | .overwrite _ _ | .take _ | .destroy => inferInstanceAs (Decidable True)

/-! ### Accounting for the files

A file the walk has come to is in exactly one place: the rows, the busy workers, the waiting tasks. The
frames on the stack still owe the files behind their entries. -/

def FdbRow.label (row : FdbRow) : List UInt8 × Nat := (row.fname, row.fsize)

def Filework.label (fw : Filework) : List UInt8 × Nat := (fw.pushed.bytes, fw.fsize)

def WalkedFile.label (f : WalkedFile) : List UInt8 × Nat := (f.path.bytes, f.size)

/-- The labels of a list of files. -/
def fileLabels (files : List WalkedFile) : Multiset (List UInt8 × Nat) :=
  (files.map WalkedFile.label : List _)

/-- The files that are rows, with a worker, or waiting. -/
def FdbState.accounted (s : FdbState) : Multiset (List UInt8 × Nat) :=
  (s.fdbFiles.map FdbRow.label : List _) + (s.running.map (fun w => w.fw.label) : List _) +
    (s.pending.map Filework.label : List _)

/-- The files the frames of the walk have still to come to. -/
inductive StackFiles (fs : FileSystem) : List WalkFrame → List WalkedFile → Prop where
  | nil : StackFiles fs [] []
  | cons {f : WalkFrame} {rest : List WalkFrame} {files below : List WalkedFile}
      (head : Walked fs f.dname f.entries files) (tail : StackFiles fs rest below) :
      StackFiles fs (f :: rest) (files ++ below)

@[simp] theorem fileLabels_nil : fileLabels [] = 0 := rfl

@[simp] theorem fileLabels_append (a b : List WalkedFile) :
    fileLabels (a ++ b) = fileLabels a + fileLabels b := by
  simp [fileLabels]

/-- Nothing is missing, but for `out`, which the next move has to deal with. -/
def Accounted (fs : FileSystem) (files out : List WalkedFile) (s : FdbState) : Prop :=
  ∃ rest, StackFiles fs s.stack rest ∧
    s.accounted + fileLabels out + fileLabels rest = fileLabels files

/-- The invariant of an undisturbed run. -/
structure FdbInv (fs : FileSystem) (files : List WalkedFile) (s : FdbState) : Prop where
  account : Accounted fs files [] s
  pathlen : ∀ fw ∈ s.pending ++ s.running.map FdbWorker.fw, fw.pathlen = fw.pushed.bytes.length
  formatted : ∀ f e es rest, s.stack = f :: rest → f.entries = e :: es → f.formatted = true →
    e.passedOver = false ∧ cstr (s.memory rest.length) = pathJoin f.dname e.dName
  suspended : ∀ f ∈ s.stack.tail, f.formatted = false
  emptied : s.phase ≠ .walking → s.stack = [] ∧ s.pending = []
  drained : s.phase = .finished → s.running = []

/-- A run either meets the assertion of `walk_recur` or keeps the invariant. -/
def FdbOk (fs : FileSystem) (files : List WalkedFile) (s : FdbState) : Prop :=
  s.phase = .aborted ∨ FdbInv fs files s

/-! ### Moves of the walk -/

section Moves

variable {fs : FileSystem} {root dname : CString} {files here below : List WalkedFile}
  {s t : FdbState} {i : Nat} {w : FdbWorker}

/-- What a move of the walk does. -/
theorem walkStep_cases (h : walkStep fs s = some t) :
    ∃ f rest, s.stack = f :: rest ∧
      ((f.entries = [] ∧ t = { s with stack := rest }) ∨
        ∃ e es, f.entries = e :: es ∧
          ((f.formatted = true ∧ t = walkEntry fs rest.length e
              { s with stack := { dname := f.dname, entries := es, formatted := false } :: rest }) ∨
            (f.formatted = false ∧ e.passedOver = true ∧
              t = { s with stack := { dname := f.dname, entries := es, formatted := false } :: rest }) ∨
            (f.formatted = false ∧ e.passedOver = false ∧
              t = { s with
                memory := Function.update s.memory rest.length
                  (snprintf (s.memory rest.length) (fullPathSize - 1) (pathJoin f.dname e.dName))
                stack := { dname := f.dname, entries := e :: es, formatted := true } :: rest }))) := by
  rcases hstack : s.stack with _ | ⟨⟨dname, entries, formatted⟩, rest⟩
  · simp [walkStep, hstack] at h
  · refine ⟨_, _, rfl, ?_⟩
    rcases entries with _ | ⟨e, es⟩
    · simp only [walkStep, hstack, Option.some.injEq] at h
      exact Or.inl ⟨rfl, h.symm⟩
    · refine Or.inr ⟨e, es, rfl, ?_⟩
      simp only [walkStep, hstack] at h
      rcases formatted with _ | _
      · rcases hover : e.passedOver with _ | _
        · simp only [hover, Bool.false_eq_true, if_false, Option.some.injEq] at h
          exact Or.inr (Or.inr ⟨rfl, rfl, h.symm⟩)
        · simp only [hover, Bool.false_eq_true, if_false, if_true, Option.some.injEq] at h
          exact Or.inr (Or.inl ⟨rfl, rfl, h.symm⟩)
      · simp only [if_true, Option.some.injEq] at h
        exact Or.inl ⟨rfl, h.symm⟩

/-- A state between two entries: the walk is on, and no frame has written its buffer ahead. -/
structure BetweenEntries (s : FdbState) : Prop where
  walking : s.phase = .walking
  clean : ∀ f ∈ s.stack, f.formatted = false
  pathlen : ∀ fw ∈ s.pending ++ s.running.map FdbWorker.fw, fw.pathlen = fw.pushed.bytes.length

theorem BetweenEntries.inv (between : BetweenEntries s) (account : Accounted fs files [] s) :
    FdbInv fs files s where
  account := account
  pathlen := between.pathlen
  formatted := by
    intro f e es rest hstack _ hformatted
    rw [between.clean f (hstack ▸ List.mem_cons_self)] at hformatted
    cases hformatted
  suspended f hf := between.clean f (List.mem_of_mem_tail hf)
  emptied h := absurd between.walking h
  drained h := by
    rw [between.walking] at h
    cases h

/-- Entering a directory takes the files below it on the stack. -/
theorem walkRecur_ok (walked : Walked fs dname (fs.entries dname) below)
    (between : BetweenEntries s) (account : Accounted fs files below s) :
    FdbOk fs files (walkRecur fs dname s) := by
  rcases account with ⟨rest, hrest, hsum⟩
  unfold walkRecur
  split
  · exact Or.inl rfl
  · rcases hopen : fs.opendir dname with _ | entries
    · -- The directory cannot be opened, so there is nothing below it.
      have hnil : fs.entries dname = [] := by simp [FileSystem.entries, hopen]
      rw [hnil] at walked
      cases walked
      exact Or.inr (between.inv ⟨rest, hrest, hsum⟩)
    · have hentries : fs.entries dname = entries := by simp [FileSystem.entries, hopen]
      rw [hentries] at walked
      refine Or.inr (BetweenEntries.inv ⟨between.walking, ?_, between.pathlen⟩
        ⟨below ++ rest, .cons walked hrest, ?_⟩)
      · intro f hf
        rcases List.mem_cons.mp hf with rfl | hf
        · rfl
        · exact between.clean f hf
      · calc s.accounted + fileLabels [] + fileLabels (below ++ rest)
            = s.accounted + fileLabels below + fileLabels rest := by
              rw [fileLabels_append, fileLabels_nil, add_zero, add_assoc]
          _ = fileLabels files := hsum

/-- The body of the loop puts what the entry stands for where it belongs: a task, or a new frame. -/
theorem walkEntry_ok {slot : Nat} {d : CString} {e : Dirent} {es : List Dirent}
    {rest : List WalkFrame} (walked : Walked fs d (e :: es) here) (skips : e.passedOver = false)
    (path : cstr (s.memory slot) = pathJoin d e.dName) (between : BetweenEntries s)
    (stack : s.stack = { dname := d, entries := es, formatted := false } :: rest)
    (tail : StackFiles fs rest below)
    (sum : s.accounted + fileLabels [] + fileLabels (here ++ below) = fileLabels files) :
    FdbOk fs files (walkEntry fs slot e s) := by
  -- What is left of the directory and of the frames below, once the entry is dealt with.
  have remains : ∀ {later}, Walked fs d es later → StackFiles fs s.stack (later ++ below) := by
    intro later hlater
    rw [stack]
    exact .cons hlater tail
  cases walked with
  | passed hpassed _ =>
      rw [skips] at hpassed
      cases hpassed
  | missing _ _ stat later =>
      have hentry : walkEntry fs slot e s = s := by simp [walkEntry, path, stat]
      rw [hentry]
      exact Or.inr (between.inv ⟨_, remains later, sum⟩)
  | notDir _ _ kind stat isDir later =>
      have hentry : walkEntry fs slot e s = s := by simp [walkEntry, path, stat, kind, isDir]
      rw [hentry]
      exact Or.inr (between.inv ⟨_, remains later, sum⟩)
  | @subdir _ _ _ sub later st _ _ kind stat isDir inside hlater =>
      have hentry : walkEntry fs slot e s = walkRecur fs (pathJoin d e.dName) s := by
        simp [walkEntry, path, stat, kind, isDir]
      rw [hentry]
      apply walkRecur_ok inside between
      refine ⟨_, remains hlater, ?_⟩
      rw [← sum]
      simp [add_assoc]
  | @file _ _ _ later st _ _ kind stat hlater =>
      have hentry : walkEntry fs slot e s = pushFile slot (pathJoin d e.dName) st s := by
        simp [walkEntry, path, stat, kind]
      rw [hentry]
      refine Or.inr (BetweenEntries.inv ⟨between.walking, between.clean, ?_⟩ ⟨_, remains hlater, ?_⟩)
      · intro fw hfw
        simp only [pushFile, List.append_assoc, List.mem_append, List.mem_singleton] at hfw
        rcases hfw with hfw | rfl | hfw
        · exact between.pathlen fw (List.mem_append_left _ hfw)
        · rfl
        · exact between.pathlen fw (List.mem_append_right _ hfw)
      · rw [← sum]
        simp only [pushFile, FdbState.accounted, fileLabels, List.map_append, List.map_cons, List.map_nil,
          Filework.label, WalkedFile.label, List.cons_append, ← Multiset.coe_add, ← Multiset.cons_coe,
          Multiset.coe_nil, ← Multiset.singleton_add]
        abel

/-- A move of the walk takes its frame on: past an entry, into it, or out of the directory. -/
theorem FdbInv.walk (inv : FdbInv fs files s) (walking : s.phase = .walking)
    (h : walkStep fs s = some t) : FdbOk fs files t := by
  rcases inv.account with ⟨left, hleft, hsum⟩
  rcases walkStep_cases h with ⟨f, rest, hstack, hcase⟩
  have hsuspended : ∀ g ∈ rest, g.formatted = false := by
    intro g hg
    exact inv.suspended g (by simpa [hstack] using hg)
  rw [hstack] at hleft
  cases hleft with
  | @cons _ _ here below hwalked htail =>
      rcases hcase with ⟨hnil, rfl⟩ | ⟨e, es, hentries, hcase⟩
      · rw [hnil] at hwalked
        cases hwalked
        exact Or.inr (BetweenEntries.inv ⟨walking, hsuspended, inv.pathlen⟩
          ⟨below, htail, hsum⟩)
      · rw [hentries] at hwalked
        -- With its first entry popped, the frame is between two entries.
        have hpopped : BetweenEntries { s with
            stack := { dname := f.dname, entries := es, formatted := false } :: rest } := by
          refine ⟨walking, ?_, inv.pathlen⟩
          intro g hg
          rcases List.mem_cons.mp hg with rfl | hg
          · rfl
          · exact hsuspended g hg
        rcases hcase with ⟨hformatted, rfl⟩ | ⟨_, hpassed, rfl⟩ | ⟨_, hskips, rfl⟩
        · rcases inv.formatted f e es rest hstack hentries hformatted with ⟨hskips, hpath⟩
          exact walkEntry_ok hwalked hskips hpath hpopped rfl htail hsum
        · exact Or.inr (hpopped.inv ⟨_, .cons (hwalked.later hpassed) htail, hsum⟩)
        · have hfits := hwalked.fits hskips
          refine Or.inr ⟨⟨_, .cons hwalked htail, hsum⟩, inv.pathlen, ?_, hsuspended, ?_, ?_⟩
          · intro g e' es' rest' hstack' hentries' _
            cases hstack'
            cases hentries'
            exact ⟨hskips, by simpa using cstr_snprintf _ hfits⟩
          · intro hphase
            exact absurd walking hphase
          · intro hphase
            rw [walking] at hphase
            cases hphase

/-! ### Moves of the workers -/

/-- A move that leaves the walk alone keeps the invariant, if no file goes missing on the way. -/
theorem FdbInv.pool (inv : FdbInv fs files s) (stack : t.stack = s.stack)
    (memory : t.memory = s.memory) (phase : t.phase = s.phase)
    (accounted : t.accounted = s.accounted) (running : s.phase ≠ .finished)
    (tasks : ∀ fw ∈ t.pending ++ t.running.map FdbWorker.fw,
      fw ∈ s.pending ++ s.running.map FdbWorker.fw)
    (pending : s.pending = [] → t.pending = []) : FdbInv fs files t where
  account := by
    rcases inv.account with ⟨left, hleft, hsum⟩
    exact ⟨left, stack ▸ hleft, accounted ▸ hsum⟩
  pathlen fw hfw := inv.pathlen fw (tasks fw hfw)
  formatted := by
    rw [stack, memory]
    exact inv.formatted
  suspended := by
    rw [stack]
    exact inv.suspended
  emptied hphase := by
    rw [phase] at hphase
    rcases inv.emptied hphase with ⟨hstack, hpending⟩
    exact ⟨stack.trans hstack, pending hpending⟩
  drained hphase := absurd (phase ▸ hphase) running

/-- The names of the rows, the busy workers and the rest are different. -/
theorem FdbInv.notRow (inv : FdbInv fs files s) (tree : ReadableTree fs root files)
    (busy : s.running[i]? = some w) : sqlFileExists s.fdbFiles w.fw.pushed.bytes = false := by
  rcases inv.account with ⟨left, _, hsum⟩
  have hnames : ((fileLabels files).map Prod.fst).Nodup := by
    have hmap : (fileLabels files).map Prod.fst =
        (((files.map WalkedFile.path).map CString.bytes : List _) : Multiset _) := by
      simp [fileLabels, WalkedFile.label, Function.comp_def]
    rw [hmap, Multiset.coe_nodup]
    exact tree.distinct.map fun _ _ h => CString.ext h
  rw [← hsum, FdbState.accounted, coe_map_eraseIdx _ busy] at hnames
  simp only [Multiset.map_add, Multiset.map_singleton, Multiset.nodup_add] at hnames
  have hdisjoint := hnames.1.1.1.2.2
  apply Bool.eq_false_iff.mpr
  intro hexists
  rcases List.any_eq_true.mp hexists with ⟨row, hrow, hname⟩
  have hrows : w.fw.pushed.bytes ∈ ((s.fdbFiles.map FdbRow.label : List _) : Multiset _).map Prod.fst :=
    Multiset.mem_map.mpr ⟨row.label, List.mem_map_of_mem hrow, of_decide_eq_true hname⟩
  exact Multiset.disjoint_left.mp hdisjoint hrows
    (Multiset.mem_add.mpr (Or.inl (Multiset.mem_singleton_self _)))

/-- The file of a busy worker is one of the tree. -/
theorem FdbInv.readable (inv : FdbInv fs files s) (tree : ReadableTree fs root files)
    (busy : s.running[i]? = some w) : (fs.ioMd5 w.fw.pushed).isSome = true := by
  rcases inv.account with ⟨left, _, hsum⟩
  have hmem : w.fw.label ∈ fileLabels files := by
    rw [← hsum, FdbState.accounted, coe_map_eraseIdx _ busy]
    simp
  rcases List.mem_map.mp hmem with ⟨f, hf, hlabel⟩
  have hpath : f.path = w.fw.pushed := CString.ext (congrArg Prod.fst hlabel)
  exact hpath ▸ tree.readable f hf

/-- An idle worker takes a task: the file changes hands. -/
theorem FdbInv.take {fw : Filework} (inv : FdbInv fs files s) (running : s.phase ≠ .finished)
    (waiting : s.pending[i]? = some fw) : FdbInv fs files { s with
      pending := s.pending.eraseIdx i
      running := s.running ++ [{ fw := fw, stage := .entered }] } := by
  refine inv.pool rfl rfl rfl ?_ running ?_ ?_
  · simp only [FdbState.accounted, coe_map_eraseIdx _ waiting, List.map_append, List.map_cons, List.map_nil,
      ← Multiset.coe_add, Multiset.coe_singleton]
    abel
  · intro fw' hfw'
    simp only [List.map_append, List.map_cons, List.map_nil, List.mem_append, List.mem_singleton] at hfw' ⊢
    rcases hfw' with hfw' | hfw' | rfl
    · exact Or.inl (List.mem_of_mem_eraseIdx hfw')
    · exact Or.inr hfw'
    · exact Or.inl (List.mem_of_getElem? waiting)
  · intro hnil
    rw [hnil] at waiting
    cases waiting

/-- A worker that goes on inside `do_work` keeps its task. -/
theorem FdbInv.workOn (inv : FdbInv fs files s) (running : s.phase ≠ .finished)
    (busy : s.running[i]? = some w) (stage : WorkStage) :
    FdbInv fs files { s with running := s.running.set i { w with stage := stage } } := by
  have hkept : ∀ {β : Type} (g : Filework → β),
      (s.running.set i { w with stage := stage }).map (fun v => g v.fw) = s.running.map fun v => g v.fw :=
    fun g => map_set_eq (b := { w with stage := stage }) (fun v => g v.fw) busy rfl
  refine inv.pool rfl rfl rfl ?_ running ?_ id
  · simp only [FdbState.accounted, hkept Filework.label]
  · intro fw hfw
    simpa only [hkept fun fw => fw] using hfw

/-- The row of a worker that inserts takes the place of its task. -/
theorem FdbInv.insert {row : FdbRow} (inv : FdbInv fs files s) (running : s.phase ≠ .finished)
    (busy : s.running[i]? = some w) (label : row.label = w.fw.label) :
    FdbInv fs files { s with
      fdbFiles := s.fdbFiles ++ [row]
      running := s.running.eraseIdx i } := by
  refine inv.pool rfl rfl rfl ?_ running ?_ id
  · simp only [FdbState.accounted, coe_map_eraseIdx _ busy, List.map_append, List.map_cons, List.map_nil,
      ← Multiset.coe_add, Multiset.coe_singleton, label]
    abel
  · intro fw hfw
    simp only [List.mem_append, List.mem_map] at hfw ⊢
    rcases hfw with hfw | ⟨v, hv, rfl⟩
    · exact Or.inl hfw
    · exact Or.inr ⟨v, List.mem_of_mem_eraseIdx hv, rfl⟩

/-- A step of `do_work` with the buffer intact: the row is not there, the file can be read, and the row
    that goes in is the file's own. -/
theorem FdbInv.work (inv : FdbInv fs files s) (tree : ReadableTree fs root files)
    (running : s.phase ≠ .finished) (intact : ∀ w ∈ s.running[i]?, w.fw.Intact s.memory)
    (h : doWork fs i s = some t) : FdbInv fs files t := by
  unfold doWork at h
  rcases busy : s.running[i]? with _ | w
  · simp [busy] at h
  · have hpath : cstr (s.memory w.fw.fullPath) = w.fw.pushed := intact w busy
    have hlength : w.fw.pathlen = w.fw.pushed.bytes.length := by
      apply inv.pathlen
      exact List.mem_append_right _ (List.mem_map_of_mem (List.mem_of_getElem? busy))
    have hbound : w.fw.boundText s.memory = w.fw.pushed.bytes := by
      rw [Filework.boundText, hlength]
      exact cstr_take hpath
    have hnew := inv.notRow tree busy
    rcases w with ⟨fw, stage⟩
    rcases stage with _ | _ | md5
    · simp only [busy, hbound, hnew, Bool.false_eq_true, if_false, Option.some.injEq] at h
      exact h ▸ inv.workOn running busy _
    · rcases Option.isSome_iff_exists.mp (inv.readable tree busy) with ⟨md5, hmd5⟩
      simp only [busy, hpath, hmd5, Option.some.injEq] at h
      exact h ▸ inv.workOn running busy _
    · simp only [busy, hbound, sqlInsert, hnew, Bool.false_eq_true, if_false, Option.some.injEq] at h
      exact h ▸ inv.insert running busy rfl

/-! ### Runs -/

/-- A write to a place of the stack that no frame uses. -/
theorem FdbInv.overwrite {slot : Nat} {bytes : List UInt8} (inv : FdbInv fs files s)
    (dead : s.stack.length ≤ slot) :
    FdbInv fs files { s with memory := Function.update s.memory slot bytes } := by
  refine { inv with formatted := ?_ }
  intro f e es rest hstack hentries hformatted
  rw [show s.stack = f :: rest from hstack] at dead
  have hsame : Function.update s.memory slot bytes rest.length = s.memory rest.length :=
    Function.update_of_ne (Nat.ne_of_lt dead) _ _
  simpa only [hsame] using inv.formatted f e es rest hstack hentries hformatted

/-- The cancellation drops nothing when nothing is waiting. -/
theorem FdbInv.cancel (inv : FdbInv fs files s) (stack : s.stack = []) (idle : s.pending = []) :
    FdbInv fs files { s with pending := [], phase := .cancelled } where
  account := by
    rcases inv.account with ⟨left, hleft, hsum⟩
    refine ⟨left, hleft, ?_⟩
    simpa only [FdbState.accounted, idle] using hsum
  pathlen := by simpa only [idle] using inv.pathlen
  formatted := inv.formatted
  suspended := inv.suspended
  emptied _ := ⟨stack, rfl⟩
  drained h := by cases h

theorem FdbInv.destroy (inv : FdbInv fs files s) (cancelled : s.phase ≠ .walking)
    (idle : s.running = []) :
    FdbInv fs files { s with phase := .finished } :=
  { inv with
    emptied := fun _ => inv.emptied cancelled
    drained := fun _ => idle }

/-- What an undisturbed step preserves. -/
theorem fdbStep_ok {move : FdbMove} (tree : ReadableTree fs root files) (ok : FdbOk fs files s)
    (guard : Undisturbed s move) (h : fdbStep fs s move = some t) : FdbOk fs files t := by
  unfold fdbStep at h
  split at h
  · cases h
  · rename_i hphase
    rcases not_or.mp hphase with ⟨hrunning, halive⟩
    have inv : FdbInv fs files s := ok.resolve_left halive
    rcases move with _ | ⟨slot, bytes⟩ | i | i | _ | _
    case walk =>
      rcases Option.ite_none_right_eq_some.mp h with ⟨hwalking, h⟩
      exact inv.walk hwalking h
    case overwrite =>
      rcases Option.ite_none_right_eq_some.mp h with ⟨hdead, h⟩
      cases h
      exact Or.inr (inv.overwrite hdead)
    case take =>
      rcases hwaiting : s.pending[i]? with _ | fw
      · simp [hwaiting] at h
      · simp only [hwaiting] at h
        rcases Option.ite_none_right_eq_some.mp h with ⟨_, h⟩
        cases h
        exact Or.inr (inv.take hrunning hwaiting)
    case work => exact Or.inr (inv.work tree hrunning guard h)
    case cancel =>
      rcases Option.ite_none_right_eq_some.mp h with ⟨⟨_, hstack⟩, h⟩
      cases h
      exact Or.inr (inv.cancel hstack guard)
    case destroy =>
      rcases Option.ite_none_right_eq_some.mp h with ⟨⟨hcancelled, hidle⟩, h⟩
      cases h
      exact Or.inr (inv.destroy (by rw [hcancelled]; decide) hidle)

end Moves

/-- The program starts with all files ahead of it. -/
theorem fdbStart_ok {fs : FileSystem} {root : CString} {files : List WalkedFile}
    (walked : Walked fs root (fs.entries root) files) : FdbOk fs files (fdbStart fs root) := by
  apply walkRecur_ok walked
  · refine ⟨rfl, ?_, ?_⟩
    · simp
    · simp
  · exact ⟨[], .nil, by simp [FdbState.accounted]⟩

/-- The file of a path is the only one with that path. -/
theorem filter_path_eq {files : List WalkedFile} (distinct : (files.map WalkedFile.path).Nodup)
    {f : WalkedFile} (hf : f ∈ files) :
    files.filter (fun g => decide (g.path.bytes = f.path.bytes)) = [f] := by
  apply List.perm_singleton.mp
  apply (List.perm_ext_iff_of_nodup (distinct.of_map.filter _) (List.nodup_singleton f)).mpr
  intro g
  rw [List.mem_filter, List.mem_singleton, decide_eq_true_eq]
  constructor
  · rintro ⟨hg, hbytes⟩
    exact List.inj_on_of_nodup_map distinct hg hf (CString.ext hbytes)
  · rintro rfl
    exact ⟨hf, rfl⟩

/-- A table with the labels of the files has exactly their rows. -/
theorem rowsOf_of_perm {files : List WalkedFile} {table : List FdbRow}
    (distinct : (files.map WalkedFile.path).Nodup)
    (perm : (table.map FdbRow.label).Perm (files.map WalkedFile.label)) : RowsOf files table := by
  refine ⟨by simpa using perm.length_eq, ?_⟩
  intro f hf
  have hfilter := perm.filter (fun l => decide (l.1 = f.path.bytes))
  rw [List.filter_map, List.filter_map] at hfilter
  have hone : files.filter ((fun l => decide (l.1 = f.path.bytes)) ∘ WalkedFile.label) = [f] :=
    filter_path_eq distinct hf
  rw [hone, List.map_singleton, List.perm_singleton] at hfilter
  rcases List.map_eq_singleton_iff.mp hfilter with ⟨row, hrows, hlabel⟩
  exact ⟨row, hrows, congrArg Prod.snd hlabel⟩

/-- In a run whose steps are all undisturbed, `main` leaves exactly one row for every regular file of the
    tree, with the file's own path and size. -/
theorem fdbRun_rowsOf {fs : FileSystem} {root : CString} {files : List WalkedFile} {s : FdbState}
    (tree : ReadableTree fs root files) (run : Run (fdbStep fs) Undisturbed (fdbStart fs root) s)
    (done : s.phase = .finished) : RowsOf files s.fdbFiles := by
  have ok : FdbOk fs files s :=
    run.invariant (fdbStart_ok tree.walked) fun _ _ _ ok guard h => fdbStep_ok tree ok guard h
  have inv : FdbInv fs files s := ok.resolve_left (by rw [done]; decide)
  rcases inv.emptied (by rw [done]; decide) with ⟨hstack, hpending⟩
  rcases inv.account with ⟨left, hleft, hsum⟩
  rw [hstack] at hleft
  cases hleft
  apply rowsOf_of_perm tree.distinct
  apply Multiset.coe_eq_coe.mp
  simpa [FdbState.accounted, inv.drained done, hpending, fileLabels] using hsum

/-! ### Two files -/

/-- The directory `d`. -/
def dirD : CString := ⟨[100], by decide⟩

/-- The entries of the files `A`, of one byte, and `B`, of two. -/
def entryA : Dirent := { dName := ⟨[65], by decide⟩, dType := .reg }

def entryB : Dirent := { dName := ⟨[66], by decide⟩, dType := .reg }

def fileA : WalkedFile := { path := pathJoin dirD entryA.dName, size := 1 }

def fileB : WalkedFile := { path := pathJoin dirD entryB.dName, size := 2 }

/-- A file system with nothing but `d/A` and `d/B`; the contents are `A` and `AB`. -/
def twoFiles : FileSystem where
  opendir d := if d = dirD then some [entryA, entryB] else none
  stat path :=
    if path = fileA.path then some { stSize := 1, isDir := false }
    else if path = fileB.path then some { stSize := 2, isDir := false }
    else if path = dirD then some { stSize := 4096, isDir := true }
    else none
  ioMd5 path :=
    if path = fileA.path then some "7fc56270e7a70fa81a5935b72eacbe29".toUTF8.toList
    else if path = fileB.path then some "b86fc6b051f63d73de262d4c34e3a0a9".toUTF8.toList
    else none

theorem twoFiles_tree : ReadableTree twoFiles dirD [fileA, fileB] where
  walked := by
    have hentries : twoFiles.entries dirD = [entryA, entryB] := rfl
    have hA : twoFiles.stat (pathJoin dirD entryA.dName) = some { stSize := 1, isDir := false } := rfl
    have hB : twoFiles.stat (pathJoin dirD entryB.dName) = some { stSize := 2, isDir := false } := rfl
    have hfits : PathFits dirD entryA ∧ PathFits dirD entryB := by
      unfold PathFits
      decide
    rw [hentries]
    exact .file rfl hfits.1 rfl hA (.file rfl hfits.2 rfl hB .done)
  distinct := by decide
  readable := by
    intro f hf
    rcases List.mem_cons.mp hf with rfl | hf
    · rfl
    · cases List.mem_singleton.mp hf
      rfl

/-- Each task is done before the walk goes on. -/
theorem fdbRun_rowsOf_drained :
    ∃ s, Run (fdbStep twoFiles) Undisturbed (fdbStart twoFiles dirD) s ∧ s.phase = .finished ∧
      RowsOf [fileA, fileB] s.fdbFiles := by
  have hrun : ∃ s, Run (fdbStep twoFiles) Undisturbed (fdbStart twoFiles dirD) s ∧ s.phase = .finished := by
    apply exists_run_of_follow [.walk, .walk, .take 0, .work 0, .work 0, .work 0, .walk, .walk, .take 0,
      .work 0, .work 0, .work 0, .walk, .cancel, .destroy]
    decide +kernel
  rcases hrun with ⟨s, run, done⟩
  exact ⟨s, run, done, fdbRun_rowsOf twoFiles_tree run done⟩

/-- With every step allowed there is a run that cancels both tasks before they start, and one where the
    task of `A` starts when the buffer holds the path of `B`: the only row is that of `B`, with the size
    of `A`. -/
theorem fdbRun_loses :
    ReadableTree twoFiles dirD [fileA, fileB] ∧
    (∃ s, Run (fdbStep twoFiles) (fun _ _ => True) (fdbStart twoFiles dirD) s ∧ s.phase = .finished ∧
      s.fdbFiles = [] ∧ ¬ RowsOf [fileA, fileB] s.fdbFiles) ∧
    (∃ s, Run (fdbStep twoFiles) (fun _ _ => True) (fdbStart twoFiles dirD) s ∧ s.phase = .finished ∧
      s.fdbFiles.map FdbRow.label = [(fileB.path.bytes, fileA.size)] ∧
      ¬ RowsOf [fileA, fileB] s.fdbFiles) := by
  have hcancelled : ∃ s, Run (fdbStep twoFiles) (fun _ _ => True) (fdbStart twoFiles dirD) s ∧
      (s.phase = .finished ∧ s.fdbFiles = []) := by
    apply exists_run_of_follow [.walk, .walk, .walk, .walk, .walk, .cancel, .destroy]
    decide +kernel
  have hmixed : ∃ s, Run (fdbStep twoFiles) (fun _ _ => True) (fdbStart twoFiles dirD) s ∧
      (s.phase = .finished ∧ s.fdbFiles.map FdbRow.label = [(fileB.path.bytes, fileA.size)]) := by
    apply exists_run_of_follow [.walk, .walk, .walk, .walk, .take 0, .work 0, .work 0, .work 0, .take 0,
      .work 0, .walk, .cancel, .destroy]
    decide +kernel
  refine ⟨twoFiles_tree, ?_, ?_⟩
  · rcases hcancelled with ⟨s, run, done, hempty⟩
    refine ⟨s, run, done, hempty, ?_⟩
    rintro ⟨hlength, _⟩
    rw [hempty] at hlength
    cases hlength
  · rcases hmixed with ⟨s, run, done, hrows⟩
    refine ⟨s, run, done, hrows, ?_⟩
    rintro ⟨hlength, _⟩
    rw [← List.length_map FdbRow.label, hrows] at hlength
    cases hlength

end Dach
