/-
Module: Dach.Proofs.FdbRuns
Layer: Proofs
Purpose: The fdb program over any file system and any interleaving. Whatever the workers read, the table
  only grows, names no file twice, and holds sizes and digests of files there are; while no worker reads a
  buffer that was written again, each row is that of one file under the root. And the program ends: every nested path is longer than the
  one above it and too long a path is refused, so the walk is finite even where the directories are not.
Imports: Dach.Proofs.Fdb
Trusted boundary: none
Main exports: FdbMoved, fdbStep_moved, Visited, RegularFile, FdbTidy, fdbRun_tidy, WorksIntact, fdbRun_exact,
  fdb_ends
-/
import Dach.Proofs.Fdb

namespace Dach

open Transition

/-! ### What a step does -/

section Steps

variable {fs : FileSystem} {s t : FdbState} {move : FdbMove}

/-- The moves of the program, one constructor for each way a step can go. -/
inductive FdbMoved (fs : FileSystem) (s : FdbState) : FdbMove → FdbState → Prop where
  | walk {t : FdbState} (walking : s.phase = .walking) (step : walkStep fs s = some t) :
      FdbMoved fs s .walk t
  | overwrite {slot : Nat} {bytes : List UInt8} (dead : s.stack.length ≤ slot) :
      FdbMoved fs s (.overwrite slot bytes) { s with memory := Function.update s.memory slot bytes }
  | take {i : Nat} {fw : Filework} (waiting : s.pending[i]? = some fw)
      (idle : s.running.length < fdbThreads) :
      FdbMoved fs s (.take i) { s with
        pending := s.pending.eraseIdx i
        running := s.running ++ [{ fw := fw, stage := .entered }] }
  | goOn {i : Nat} {w : FdbWorker} {stage : WorkStage} (busy : s.running[i]? = some w)
      (next : w.stage = .entered ∧ stage = .absent ∨ w.stage = .absent ∧ ∃ md5, stage = .hashed md5 ∧
        fs.ioMd5 (cstr (s.memory w.fw.fullPath)) = some md5) :
      FdbMoved fs s (.work i) { s with running := s.running.set i { w with stage := stage } }
  | giveUp {i : Nat} {w : FdbWorker} (busy : s.running[i]? = some w) :
      FdbMoved fs s (.work i) { s with running := s.running.eraseIdx i }
  | insert {i : Nat} {fw : Filework} {md5 : List UInt8}
      (busy : s.running[i]? = some { fw := fw, stage := .hashed md5 })
      (fresh : sqlFileExists s.fdbFiles (fw.boundText s.memory) = false) :
      FdbMoved fs s (.work i) { s with
        fdbFiles := s.fdbFiles ++
          [{ fname := fw.boundText s.memory, fsize := fw.fsize, md5Full := md5 }]
        running := s.running.eraseIdx i }
  | cancel (walked : s.phase = .walking) (empty : s.stack = []) :
      FdbMoved fs s .cancel { s with pending := [], phase := .cancelled }
  | destroy (cancelled : s.phase = .cancelled) (idle : s.running = []) :
      FdbMoved fs s .destroy { s with phase := .finished }

theorem doWork_moved {i : Nat} (h : doWork fs i s = some t) : FdbMoved fs s (.work i) t := by
  unfold doWork at h
  rcases busy : s.running[i]? with _ | ⟨fw, stage⟩
  · simp [busy] at h
  · simp only [busy] at h
    cases stage with
    | entered =>
        simp only at h
        split at h <;> cases h
        · exact .giveUp busy
        · exact .goOn busy (Or.inl ⟨rfl, rfl⟩)
    | absent =>
        rcases hmd5 : fs.ioMd5 (cstr (s.memory fw.fullPath)) with _ | md5
        · simp only [hmd5] at h
          cases h
          exact .giveUp busy
        · simp only [hmd5] at h
          cases h
          exact .goOn busy (Or.inr ⟨rfl, md5, rfl, hmd5⟩)
    | hashed md5 =>
        simp only [sqlInsert] at h
        rcases hexists : sqlFileExists s.fdbFiles (fw.boundText s.memory) with _ | _
        · simp only [hexists, Bool.false_eq_true, if_false] at h
          cases h
          exact .insert busy hexists
        · simp only [hexists, if_true] at h
          cases h
          exact .giveUp busy

/-- Every step is one of the moves, and is taken before the end only. -/
theorem fdbStep_moved (h : fdbStep fs s move = some t) :
    s.phase ≠ .finished ∧ s.phase ≠ .aborted ∧ FdbMoved fs s move t := by
  unfold fdbStep at h
  split at h
  · cases h
  · rename_i hphase
    rcases not_or.mp hphase with ⟨hrunning, halive⟩
    refine ⟨hrunning, halive, ?_⟩
    cases move with
    | walk =>
        rcases Option.ite_none_right_eq_some.mp h with ⟨hwalking, h⟩
        exact .walk hwalking h
    | overwrite slot bytes =>
        rcases Option.ite_none_right_eq_some.mp h with ⟨hdead, h⟩
        cases h
        exact .overwrite hdead
    | take i =>
        rcases hwaiting : s.pending[i]? with _ | fw
        · simp [hwaiting] at h
        · simp only [hwaiting] at h
          rcases Option.ite_none_right_eq_some.mp h with ⟨hidle, h⟩
          cases h
          exact .take hwaiting hidle
    | work i => exact doWork_moved h
    | cancel =>
        rcases Option.ite_none_right_eq_some.mp h with ⟨⟨hwalked, hempty⟩, h⟩
        cases h
        exact .cancel hwalked hempty
    | destroy =>
        rcases Option.ite_none_right_eq_some.mp h with ⟨⟨hcancelled, hidle⟩, h⟩
        cases h
        exact .destroy hcancelled hidle

/-- Entering a directory: refused, not opened, or a new frame. -/
theorem walkRecur_cases (fs : FileSystem) (dname : CString) (s : FdbState) :
    (filenameMax ≤ dname.bytes.length ∧ walkRecur fs dname s = { s with phase := .aborted }) ∨
    (fs.entries dname = [] ∧ walkRecur fs dname s = s) ∨
    (dname.bytes.length < filenameMax ∧ walkRecur fs dname s = { s with
      stack := { dname := dname, entries := fs.entries dname, formatted := false } :: s.stack }) := by
  unfold walkRecur
  split
  · rename_i hlong
    exact Or.inl ⟨hlong, rfl⟩
  · rename_i hshort
    rcases hopen : fs.opendir dname with _ | entries
    · exact Or.inr (Or.inl ⟨by simp [FileSystem.entries, hopen], rfl⟩)
    · refine Or.inr (Or.inr ⟨Nat.lt_of_not_le hshort, ?_⟩)
      simp [FileSystem.entries, hopen]

/-- The body of the loop: nothing, a task, or a directory to enter. Nothing comes of a file without a
    `stat`, and of one that is no directory where the entry says it is. -/
theorem walkEntry_cases (fs : FileSystem) (slot : Nat) (e : Dirent) (s : FdbState) :
    ((∀ st, fs.stat (cstr (s.memory slot)) = some st → e.dType ≠ .reg ∧
      (e.dType = .dir → st.isDir = false)) ∧ walkEntry fs slot e s = s) ∨
    (∃ st, e.dType = .reg ∧ fs.stat (cstr (s.memory slot)) = some st ∧
      walkEntry fs slot e s = pushFile slot (cstr (s.memory slot)) st s) ∨
    (∃ st, e.dType = .dir ∧ fs.stat (cstr (s.memory slot)) = some st ∧ st.isDir = true ∧
      walkEntry fs slot e s = walkRecur fs (cstr (s.memory slot)) s) := by
  rcases hstat : fs.stat (cstr (s.memory slot)) with _ | st
  · exact Or.inl ⟨by simp, by simp [walkEntry, hstat]⟩
  · rcases hkind : e.dType with _ | _ | _
    · exact Or.inr (Or.inl ⟨st, rfl, rfl, by simp [walkEntry, hstat, hkind]⟩)
    · rcases hdir : st.isDir with _ | _
      · exact Or.inl ⟨by simp [hdir], by simp [walkEntry, hstat, hkind, hdir]⟩
      · exact Or.inr (Or.inr ⟨st, rfl, rfl, hdir, by simp [walkEntry, hstat, hkind, hdir]⟩)
    · exact Or.inl ⟨by simp, by simp [walkEntry, hstat, hkind]⟩

end Steps

/-! ### The walk over any file system -/

/-- What `full_path` holds for an entry: the joined path, cut where the buffer ends. -/
def entryPath (dname : CString) (e : Dirent) : CString :=
  cstr (snprintf [] (fullPathSize - 1) (pathJoin dname e.dName))

theorem cstr_snprintf_mem (mem : List UInt8) (size : Nat) (s : CString) :
    cstr (snprintf mem size s) = cstr (snprintf [] size s) := by
  have hall : ∀ b ∈ s.bytes.take (size - 1), decide (b ≠ 0) = true := by
    intro b hb
    exact decide_eq_true fun h0 => s.noNul (h0 ▸ List.mem_of_mem_take hb)
  ext1
  simp only [cstr, snprintf]
  rw [List.takeWhile_append_of_pos hall, List.takeWhile_append_of_pos hall]
  simp

theorem entryPath_bytes (dname : CString) (e : Dirent) :
    (entryPath dname e).bytes = (pathJoin dname e.dName).bytes.take (fullPathSize - 2) := by
  have hall : ∀ b ∈ (pathJoin dname e.dName).bytes.take (fullPathSize - 1 - 1), decide (b ≠ 0) = true := by
    intro b hb
    exact decide_eq_true fun h0 => (pathJoin dname e.dName).noNul (h0 ▸ List.mem_of_mem_take hb)
  simp only [entryPath, cstr, snprintf]
  rw [List.takeWhile_append_of_pos hall]
  simp [fullPathSize]

/-- The path of an entry is longer than that of its directory, or too long for `walk_recur`. -/
theorem entryPath_length (dname : CString) (e : Dirent) :
    dname.bytes.length < (entryPath dname e).bytes.length ∨
      filenameMax ≤ (entryPath dname e).bytes.length := by
  rw [entryPath_bytes, List.length_take]
  simp only [pathJoin, List.length_append, List.length_cons, fullPathSize, filenameMax]
  omega

/-- The directories `walk_recur` may be called on. -/
inductive Visited (fs : FileSystem) (root : CString) : CString → Prop where
  | root : Visited fs root root
  | sub {d : CString} {e : Dirent} {st : Stat} (above : Visited fs root d) (entry : e ∈ fs.entries d)
      (skips : e.passedOver = false) (kind : e.dType = .dir)
      (stat : fs.stat (entryPath d e) = some st) (isDir : st.isDir = true) :
      Visited fs root (entryPath d e)

/-- A regular file that the walk comes to, with its size. -/
def RegularFile (fs : FileSystem) (root path : CString) (size : Nat) : Prop :=
  ∃ d e st, Visited fs root d ∧ e ∈ fs.entries d ∧ e.passedOver = false ∧ e.dType = .reg ∧
    path = entryPath d e ∧ fs.stat path = some st ∧ st.stSize = size

/-- A regular file that the walk comes to at an entry of a directory, or below it. -/
inductive EntryFile (fs : FileSystem) (d : CString) (e : Dirent) : CString → Nat → Prop where
  | file {st : Stat} (skips : e.passedOver = false) (kind : e.dType = .reg)
      (stat : fs.stat (entryPath d e) = some st) : EntryFile fs d e (entryPath d e) st.stSize
  | below {st : Stat} {path : CString} {size : Nat} (skips : e.passedOver = false) (kind : e.dType = .dir)
      (stat : fs.stat (entryPath d e) = some st) (isDir : st.isDir = true)
      (rest : RegularFile fs (entryPath d e) path size) : EntryFile fs d e path size

/-- A visited directory is the first one, or lies at an entry of it or below. -/
theorem Visited.root_or_below {fs : FileSystem} {root d : CString} (h : Visited fs root d) :
    d = root ∨ ∃ e ∈ fs.entries root, ∃ st, e.passedOver = false ∧ e.dType = .dir ∧
      fs.stat (entryPath root e) = some st ∧ st.isDir = true ∧ Visited fs (entryPath root e) d := by
  induction h with
  | root => exact Or.inl rfl
  | @sub d e st above entry skips kind stat isDir ih =>
      rcases ih with rfl | ⟨e', hentry', st', hskips', hkind', hstat', hisDir', hbelow⟩
      · exact Or.inr ⟨e, entry, st, skips, kind, stat, isDir, .root⟩
      · exact Or.inr ⟨e', hentry', st', hskips', hkind', hstat', hisDir',
          hbelow.sub entry skips kind stat isDir⟩

/-- The walk of a directory comes to its files at its entries. -/
theorem RegularFile.entryFile {fs : FileSystem} {root path : CString} {size : Nat}
    (h : RegularFile fs root path size) : ∃ e ∈ fs.entries root, EntryFile fs root e path size := by
  obtain ⟨d, e, st, hvisited, hentry, hskips, hkind, rfl, hstat, rfl⟩ := h
  rcases hvisited.root_or_below with rfl | ⟨e', hentry', st', hskips', hkind', hstat', hisDir', hbelow⟩
  · exact ⟨e, hentry, .file hskips hkind hstat⟩
  · exact ⟨e', hentry', .below hskips' hkind' hstat' hisDir'
      ⟨d, e, st, hbelow, hentry, hskips, hkind, rfl, hstat, rfl⟩⟩

/-- Where the walk stands: its frames read entries of visited directories, and only the innermost one has
    written its buffer ahead. -/
structure WalkTidy (fs : FileSystem) (root : CString) (s : FdbState) : Prop where
  frames : ∀ f ∈ s.stack, Visited fs root f.dname ∧ ∀ e ∈ f.entries, e ∈ fs.entries f.dname
  formatted : ∀ f e es rest, s.stack = f :: rest → f.entries = e :: es → f.formatted = true →
    e.passedOver = false ∧ cstr (s.memory rest.length) = entryPath f.dname e
  suspended : ∀ f ∈ s.stack.tail, f.formatted = false

section Walk

variable {fs : FileSystem} {root : CString} {s t : FdbState} {move : FdbMove}

/-- A state whose frames have all written nothing ahead. -/
theorem WalkTidy.of_clean (frames : ∀ f ∈ s.stack, Visited fs root f.dname ∧
    ∀ e ∈ f.entries, e ∈ fs.entries f.dname) (clean : ∀ f ∈ s.stack, f.formatted = false) :
    WalkTidy fs root s where
  frames := frames
  formatted := by
    intro f e es rest hstack _ hformatted
    rw [clean f (hstack ▸ List.mem_cons_self)] at hformatted
    cases hformatted
  suspended f hf := clean f (List.mem_of_mem_tail hf)

/-- What one move of the walk does, over any file system: it leaves a frame, passes an entry, writes its
    path, pushes it as a task, enters it, or gives up on a path that is too long. -/
inductive WalkMoved (fs : FileSystem) (s : FdbState) : FdbState → Prop where
  | leave {f : WalkFrame} {rest : List WalkFrame} (stack : s.stack = f :: rest) (done : f.entries = []) :
      WalkMoved fs s { s with stack := rest }
  | write {f : WalkFrame} {rest : List WalkFrame} {e : Dirent} {es : List Dirent}
      (stack : s.stack = f :: rest) (entries : f.entries = e :: es) (ahead : f.formatted = false)
      (skips : e.passedOver = false) : WalkMoved fs s { s with
        memory := Function.update s.memory rest.length
          (snprintf (s.memory rest.length) (fullPathSize - 1) (pathJoin f.dname e.dName))
        stack := { dname := f.dname, entries := e :: es, formatted := true } :: rest }
  | pass {f : WalkFrame} {rest : List WalkFrame} {e : Dirent} {es : List Dirent}
      (stack : s.stack = f :: rest) (entries : f.entries = e :: es)
      (nothing : ∀ path size, ¬ EntryFile fs f.dname e path size) :
      WalkMoved fs s { s with stack := { dname := f.dname, entries := es, formatted := false } :: rest }
  | push {f : WalkFrame} {rest : List WalkFrame} {e : Dirent} {es : List Dirent} {st : Stat}
      (stack : s.stack = f :: rest) (entries : f.entries = e :: es) (skips : e.passedOver = false)
      (kind : e.dType = .reg) (stat : fs.stat (entryPath f.dname e) = some st) :
      WalkMoved fs s (pushFile rest.length (entryPath f.dname e) st
        { s with stack := { dname := f.dname, entries := es, formatted := false } :: rest })
  | enter {f : WalkFrame} {rest : List WalkFrame} {e : Dirent} {es : List Dirent} {st : Stat}
      (stack : s.stack = f :: rest) (entries : f.entries = e :: es) (skips : e.passedOver = false)
      (kind : e.dType = .dir) (stat : fs.stat (entryPath f.dname e) = some st) (isDir : st.isDir = true)
      (short : (entryPath f.dname e).bytes.length < filenameMax) :
      WalkMoved fs s { s with stack :=
        { dname := entryPath f.dname e, entries := fs.entries (entryPath f.dname e), formatted := false } ::
          { dname := f.dname, entries := es, formatted := false } :: rest }
  | refuse {f : WalkFrame} {rest : List WalkFrame} {e : Dirent} {es : List Dirent}
      (stack : s.stack = f :: rest) (entries : f.entries = e :: es) :
      WalkMoved fs s { s with
        stack := { dname := f.dname, entries := es, formatted := false } :: rest, phase := .aborted }

theorem WalkTidy.moved (tidy : WalkTidy fs root s) (h : walkStep fs s = some t) : WalkMoved fs s t := by
  rcases walkStep_cases h with ⟨f, rest, hstack, ⟨hnil, rfl⟩ | ⟨e, es, hentries, hcase⟩⟩
  · exact .leave hstack hnil
  · rcases hcase with ⟨hformatted, rfl⟩ | ⟨_, hover, rfl⟩ | ⟨hahead, hskips, rfl⟩
    · -- the buffer of the innermost frame holds the path of its first entry
      obtain ⟨hskips, hpath⟩ := tidy.formatted f e es rest hstack hentries hformatted
      rcases walkEntry_cases fs rest.length e
          { s with stack := { dname := f.dname, entries := es, formatted := false } :: rest } with
        ⟨hnothing, hcase⟩ | ⟨st, hkind, hstat, hcase⟩ | ⟨st, hkind, hstat, hisDir, hcase⟩
      · rw [hcase]
        simp only [hpath] at hnothing
        refine .pass hstack hentries ?_
        rintro path size (⟨_, hkind, hstat⟩ | ⟨_, hkind, hstat, hisDir, _⟩)
        · exact (hnothing _ hstat).1 hkind
        · rw [(hnothing _ hstat).2 hkind] at hisDir
          cases hisDir
      · rw [hcase]
        simp only [hpath] at hstat ⊢
        exact .push hstack hentries hskips hkind hstat
      · rw [hcase]
        simp only [hpath] at hstat ⊢
        rcases walkRecur_cases fs (entryPath f.dname e)
            { s with stack := { dname := f.dname, entries := es, formatted := false } :: rest } with
          ⟨_, hrecur⟩ | ⟨hempty, hrecur⟩ | ⟨hshort, hrecur⟩
        · rw [hrecur]
          exact .refuse hstack hentries
        · rw [hrecur]
          refine .pass hstack hentries ?_
          rintro path size (⟨_, hkind', _⟩ | ⟨_, _, _, _, hbelow⟩)
          · rw [hkind] at hkind'
            cases hkind'
          · obtain ⟨e', hentry, _⟩ := hbelow.entryFile
            rw [hempty] at hentry
            cases hentry
        · rw [hrecur]
          exact .enter hstack hentries hskips hkind hstat hisDir hshort
    · refine .pass hstack hentries ?_
      rintro path size (⟨hskips, _, _⟩ | ⟨hskips, _, _, _, _⟩)
      · rw [hover] at hskips
        cases hskips
      · rw [hover] at hskips
        cases hskips
    · exact .write hstack hentries hahead hskips

/-- The frames below the innermost one, and what is left of its entries. -/
theorem WalkTidy.popped {f : WalkFrame} {rest : List WalkFrame} {e : Dirent} {es : List Dirent}
    (tidy : WalkTidy fs root s) (stack : s.stack = f :: rest) (entries : f.entries = e :: es) :
    (∀ g ∈ { dname := f.dname, entries := es, formatted := false } :: rest,
      Visited fs root g.dname ∧ ∀ e ∈ g.entries, e ∈ fs.entries g.dname) ∧
    ∀ g ∈ { dname := f.dname, entries := es, formatted := false } :: rest, g.formatted = false := by
  have hframes := tidy.frames
  rw [stack] at hframes
  constructor
  · intro g hg
    rcases List.mem_cons.mp hg with rfl | hg
    · obtain ⟨hvisited, hmem⟩ := hframes f List.mem_cons_self
      refine ⟨hvisited, ?_⟩
      intro e' he'
      exact hmem e' (by rw [entries]; exact List.mem_cons_of_mem _ he')
    · exact hframes g (List.mem_cons_of_mem _ hg)
  · intro g hg
    rcases List.mem_cons.mp hg with rfl | hg
    · rfl
    · exact tidy.suspended g (by rw [stack]; exact hg)

theorem WalkTidy.step (tidy : WalkTidy fs root s) (h : WalkMoved fs s t) : WalkTidy fs root t := by
  cases h with
  | @leave f rest stack done =>
      have hsuspended := tidy.suspended
      have hframes := tidy.frames
      rw [stack] at hsuspended hframes
      exact .of_clean (fun g hg => hframes g (List.mem_cons_of_mem _ hg)) hsuspended
  | @write f rest e es stack entries ahead skips =>
      obtain ⟨hframes, hclean⟩ := tidy.popped stack entries
      have hhead := tidy.frames f (by rw [stack]; exact List.mem_cons_self)
      rw [entries] at hhead
      refine ⟨?_, ?_, ?_⟩
      · intro g hg
        rcases List.mem_cons.mp hg with rfl | hg
        · exact hhead
        · exact hframes g (List.mem_cons_of_mem _ hg)
      · intro g e' es' rest' hstack hentries _
        cases hstack
        cases hentries
        simp only [Function.update_self]
        exact ⟨skips, cstr_snprintf_mem _ _ _⟩
      · exact fun g hg => hclean g (List.mem_cons_of_mem _ hg)
  | @pass f rest e es stack entries nothing =>
      obtain ⟨hframes, hclean⟩ := tidy.popped stack entries
      exact .of_clean hframes hclean
  | @push f rest e es st stack entries skips kind stat =>
      obtain ⟨hframes, hclean⟩ := tidy.popped stack entries
      exact .of_clean hframes hclean
  | @enter f rest e es st stack entries skips kind stat isDir short =>
      obtain ⟨hframes, hclean⟩ := tidy.popped stack entries
      obtain ⟨hvisited, hmem⟩ := tidy.frames f (by rw [stack]; exact List.mem_cons_self)
      have hentry : e ∈ fs.entries f.dname := hmem e (by rw [entries]; exact List.mem_cons_self)
      refine .of_clean ?_ ?_
      · intro g hg
        rcases List.mem_cons.mp hg with rfl | hg
        · exact ⟨.sub hvisited hentry skips kind stat isDir, fun _ he => he⟩
        · exact hframes g hg
      · intro g hg
        rcases List.mem_cons.mp hg with rfl | hg
        · rfl
        · exact hclean g hg
  | @refuse f rest e es stack entries =>
      obtain ⟨hframes, hclean⟩ := tidy.popped stack entries
      exact .of_clean hframes hclean

/-- The walk does not see what happens to parts of the stack that are not in use. -/
theorem WalkTidy.other (tidy : WalkTidy fs root s) (stack : t.stack = s.stack)
    (memory : ∀ slot, slot < s.stack.length → t.memory slot = s.memory slot) : WalkTidy fs root t where
  frames := by
    rw [stack]
    exact tidy.frames
  formatted := by
    intro f e es rest hstack hentries hformatted
    rw [stack] at hstack
    rw [memory _ (by rw [hstack]; exact Nat.lt_succ_self _)]
    exact tidy.formatted f e es rest hstack hentries hformatted
  suspended := by
    rw [stack]
    exact tidy.suspended

end Walk

/-! ### Every run -/

/-- What holds whatever the workers read: the table names no file twice, and its sizes and digests are
    those of files. -/
structure FdbTidy (fs : FileSystem) (root : CString) (s : FdbState) : Prop where
  walk : WalkTidy fs root s
  names : (s.fdbFiles.map FdbRow.fname).Nodup
  workers : s.running.length ≤ fdbThreads
  tasks : ∀ fw ∈ s.pending ++ s.running.map FdbWorker.fw,
    RegularFile fs root fw.pushed fw.fsize ∧ fw.pathlen = fw.pushed.bytes.length
  digests : ∀ w ∈ s.running, ∀ md5, w.stage = .hashed md5 → ∃ path, fs.ioMd5 path = some md5
  rows : ∀ row ∈ s.fdbFiles, (∃ path, RegularFile fs root path row.fsize) ∧
    ∃ path, fs.ioMd5 path = some row.md5Full
  ended : s.phase ≠ .walking → s.phase ≠ .aborted → s.pending = []

section Tidy

variable {fs : FileSystem} {root : CString} {s t : FdbState} {move : FdbMove}

/-- A move of the walk touches the pool only to push a file it came to. -/
theorem WalkMoved.pool (h : WalkMoved fs s t) (tidy : WalkTidy fs root s) :
    t.running = s.running ∧ t.fdbFiles = s.fdbFiles ∧ (t.phase = s.phase ∨ t.phase = .aborted) ∧
      (t.pending = s.pending ∨ ∃ fw, t.pending = s.pending ++ [fw] ∧
        RegularFile fs root fw.pushed fw.fsize ∧ fw.pathlen = fw.pushed.bytes.length) := by
  cases h with
  | leave => exact ⟨rfl, rfl, Or.inl rfl, Or.inl rfl⟩
  | write => exact ⟨rfl, rfl, Or.inl rfl, Or.inl rfl⟩
  | pass => exact ⟨rfl, rfl, Or.inl rfl, Or.inl rfl⟩
  | enter => exact ⟨rfl, rfl, Or.inl rfl, Or.inl rfl⟩
  | refuse => exact ⟨rfl, rfl, Or.inr rfl, Or.inl rfl⟩
  | @push f rest e es st stack entries skips kind stat =>
      obtain ⟨hvisited, hmem⟩ := tidy.frames f (by rw [stack]; exact List.mem_cons_self)
      have hentry : e ∈ fs.entries f.dname := hmem e (by rw [entries]; exact List.mem_cons_self)
      refine ⟨rfl, rfl, Or.inl rfl, Or.inr ⟨_, rfl, ?_, rfl⟩⟩
      exact ⟨f.dname, e, st, hvisited, hentry, skips, kind, rfl, stat, rfl⟩

/-- The tasks of a worker stay with it while it goes on. -/
theorem map_fw_set {running : List FdbWorker} {i : Nat} {w : FdbWorker} (stage : WorkStage)
    (busy : running[i]? = some w) :
    (running.set i { w with stage := stage }).map FdbWorker.fw = running.map FdbWorker.fw :=
  map_set_eq (b := { w with stage := stage }) FdbWorker.fw busy rfl

theorem FdbTidy.step (tidy : FdbTidy fs root s) (halive : s.phase ≠ .aborted)
    (h : FdbMoved fs s move t) : FdbTidy fs root t := by
  cases h with
  | walk walking step =>
      have hmoved := tidy.walk.moved step
      obtain ⟨hrunning, hfiles, hphase, hpending⟩ := hmoved.pool tidy.walk
      refine ⟨tidy.walk.step hmoved, ?_, ?_, ?_, ?_, ?_, ?_⟩
      · rw [hfiles]
        exact tidy.names
      · rw [hrunning]
        exact tidy.workers
      · rw [hrunning]
        rcases hpending with hsame | ⟨fw, hpushed, hfile, hlen⟩
        · rw [hsame]
          exact tidy.tasks
        · rw [hpushed]
          intro fw' hfw'
          simp only [List.append_assoc, List.mem_append, List.mem_singleton] at hfw'
          rcases hfw' with hfw' | rfl | hfw'
          · exact tidy.tasks fw' (List.mem_append_left _ hfw')
          · exact ⟨hfile, hlen⟩
          · exact tidy.tasks fw' (List.mem_append_right _ hfw')
      · rw [hrunning]
        exact tidy.digests
      · rw [hfiles]
        exact tidy.rows
      · intro hnot hnot'
        rcases hphase with hsame | habort
        · exact absurd (hsame.trans walking) hnot
        · exact absurd habort hnot'
  | @overwrite slot bytes dead =>
      refine { tidy with walk := tidy.walk.other rfl ?_ }
      intro slot' hslot'
      exact Function.update_of_ne (by omega) _ _
  | @take i fw waiting idle =>
      refine { tidy with walk := tidy.walk.other rfl fun _ _ => rfl, workers := ?_, tasks := ?_,
                         digests := ?_, ended := ?_ }
      · simp only [List.length_append, List.length_singleton]
        omega
      · intro fw' hfw'
        apply tidy.tasks
        simp only [List.map_append, List.map_cons, List.map_nil, List.mem_append,
          List.mem_singleton] at hfw' ⊢
        rcases hfw' with hfw' | hfw' | rfl
        · exact Or.inl (List.mem_of_mem_eraseIdx hfw')
        · exact Or.inr hfw'
        · exact Or.inl (List.mem_of_getElem? waiting)
      · intro w hw md5 hmd5
        rcases List.mem_append.mp hw with hw | hw
        · exact tidy.digests w hw md5 hmd5
        · rw [List.mem_singleton.mp hw] at hmd5
          cases hmd5
      · intro hnot hnot'
        rw [tidy.ended hnot hnot'] at waiting
        cases waiting
  | @goOn i w stage busy next =>
      refine { tidy with walk := tidy.walk.other rfl fun _ _ => rfl, workers := ?_, tasks := ?_,
                         digests := ?_ }
      · rw [List.length_set]
        exact tidy.workers
      · rw [map_fw_set stage busy]
        exact tidy.tasks
      · intro v hv md5 hmd5
        rcases List.mem_or_eq_of_mem_set hv with hv | rfl
        · exact tidy.digests v hv md5 hmd5
        · rcases next with ⟨_, rfl⟩ | ⟨_, md5', rfl, hread⟩
          · cases hmd5
          · cases hmd5
            exact ⟨_, hread⟩
  | @giveUp i w busy =>
      refine { tidy with walk := tidy.walk.other rfl fun _ _ => rfl, workers := ?_, tasks := ?_,
                         digests := fun v hv => tidy.digests v (List.mem_of_mem_eraseIdx hv) }
      · exact le_trans (List.length_eraseIdx_le _ _) tidy.workers
      · intro fw hfw
        apply tidy.tasks
        simp only [List.mem_append, List.mem_map] at hfw ⊢
        rcases hfw with hfw | ⟨v, hv, rfl⟩
        · exact Or.inl hfw
        · exact Or.inr ⟨v, List.mem_of_mem_eraseIdx hv, rfl⟩
  | @insert i fw md5 busy fresh =>
      have hmem := List.mem_of_getElem? busy
      refine { tidy with walk := tidy.walk.other rfl fun _ _ => rfl, names := ?_, workers := ?_,
                         tasks := ?_, rows := ?_,
                         digests := fun v hv => tidy.digests v (List.mem_of_mem_eraseIdx hv) }
      · rw [List.map_append, List.map_singleton, List.nodup_append]
        refine ⟨tidy.names, List.nodup_singleton _, ?_⟩
        intro name hname name' hname'
        rw [List.mem_singleton.mp hname']
        rintro rfl
        obtain ⟨row, hrow, heq⟩ := List.mem_map.mp hname
        have hexists : sqlFileExists s.fdbFiles (fw.boundText s.memory) = true :=
          List.any_eq_true.mpr ⟨row, hrow, decide_eq_true heq⟩
        rw [fresh] at hexists
        cases hexists
      · exact le_trans (List.length_eraseIdx_le _ _) tidy.workers
      · intro fw' hfw'
        apply tidy.tasks
        simp only [List.mem_append, List.mem_map] at hfw' ⊢
        rcases hfw' with hfw' | ⟨v, hv, rfl⟩
        · exact Or.inl hfw'
        · exact Or.inr ⟨v, List.mem_of_mem_eraseIdx hv, rfl⟩
      · intro row hrow
        rcases List.mem_append.mp hrow with hrow | hrow
        · exact tidy.rows row hrow
        · obtain rfl := List.mem_singleton.mp hrow
          have htask := tidy.tasks fw
            (List.mem_append_right _ (List.mem_map.mpr ⟨_, hmem, rfl⟩))
          exact ⟨⟨_, htask.1⟩, tidy.digests _ hmem md5 rfl⟩
  | cancel walked empty =>
      refine { tidy with walk := tidy.walk.other rfl fun _ _ => rfl, tasks := ?_, ended := ?_ }
      · exact fun fw hfw => tidy.tasks fw (List.mem_append_right _ hfw)
      · exact fun _ _ => rfl
  | destroy cancelled idle =>
      refine { tidy with walk := tidy.walk.other rfl fun _ _ => rfl, ended := ?_ }
      intro _ _
      exact tidy.ended (by rw [cancelled]; decide) halive

/-- The first call of `walk_recur`. -/
theorem FdbTidy.enter (tidy : FdbTidy fs root s) (empty : s.stack = []) :
    FdbTidy fs root (walkRecur fs root s) := by
  rcases walkRecur_cases fs root s with ⟨_, h⟩ | ⟨_, h⟩ | ⟨_, h⟩
  · rw [h]
    exact { tidy with
      walk := tidy.walk.other rfl fun _ _ => rfl
      ended := fun _ hnot => absurd rfl hnot }
  · rw [h]
    exact tidy
  · rw [h, empty]
    refine { tidy with walk := .of_clean ?_ ?_ }
    · intro f hf
      obtain rfl := List.mem_singleton.mp hf
      exact ⟨.root, fun _ he => he⟩
    · intro f hf
      obtain rfl := List.mem_singleton.mp hf
      rfl

theorem fdbStart_tidy (fs : FileSystem) (root : CString) : FdbTidy fs root (fdbStart fs root) := by
  apply FdbTidy.enter
  · refine ⟨.of_clean ?_ ?_, ?_, ?_, ?_, ?_, ?_, ?_⟩ <;> simp
  · rfl

theorem fdbStep_tidy (tidy : FdbTidy fs root s) (h : fdbStep fs s move = some t) : FdbTidy fs root t := by
  obtain ⟨_, halive, hmoved⟩ := fdbStep_moved h
  exact tidy.step halive hmoved

/-- Rows are never changed or taken back. -/
theorem fdbStep_grows (tidy : FdbTidy fs root s) (h : fdbStep fs s move = some t) :
    s.fdbFiles <+: t.fdbFiles := by
  obtain ⟨_, _, hmoved⟩ := fdbStep_moved h
  cases hmoved with
  | walk walking step =>
      rw [((tidy.walk.moved step).pool tidy.walk).2.1]
  | insert => exact List.prefix_append _ _
  | overwrite => exact List.prefix_refl _
  | take => exact List.prefix_refl _
  | goOn => exact List.prefix_refl _
  | giveUp => exact List.prefix_refl _
  | cancel => exact List.prefix_refl _
  | destroy => exact List.prefix_refl _

/-- In every run over every file system, whatever the workers read: the table only grows, names no path
    twice, and has only sizes of regular files under the root and digests of files; and there are never
    more workers than threads. -/
theorem fdbRun_tidy (run : Run (fdbStep fs) (fun _ _ => True) (fdbStart fs root) s)
    (later : Run (fdbStep fs) (fun _ _ => True) s t) :
    s.fdbFiles <+: t.fdbFiles ∧ (t.fdbFiles.map FdbRow.fname).Nodup ∧ t.running.length ≤ fdbThreads ∧
      ∀ row ∈ t.fdbFiles, (∃ path, RegularFile fs root path row.fsize) ∧
        ∃ path, fs.ioMd5 path = some row.md5Full := by
  have htidy : FdbTidy fs root s :=
    run.invariant (fdbStart_tidy fs root) fun _ _ _ tidy _ h => fdbStep_tidy tidy h
  have hgrows : s.fdbFiles <+: t.fdbFiles ∧ FdbTidy fs root t := by
    induction later with
    | refl => exact ⟨List.prefix_refl _, htidy⟩
    | tail _ _ next ih => exact ⟨ih.1.trans (fdbStep_grows ih.2 next), fdbStep_tidy ih.2 next⟩
  exact ⟨hgrows.1, hgrows.2.names, hgrows.2.workers, hgrows.2.rows⟩

end Tidy

/-- A run over two files that stores a row and then another. -/
theorem fdbRun_tidy_two :
    ∃ s t : FdbState, s.fdbFiles.length = 1 ∧ t.fdbFiles.length = 2 ∧ s.fdbFiles <+: t.fdbFiles ∧
      (t.fdbFiles.map FdbRow.fname).Nodup ∧ t.running.length ≤ fdbThreads ∧
      ∀ row ∈ t.fdbFiles, (∃ path, RegularFile twoFiles dirD path row.fsize) ∧
        ∃ path, twoFiles.ioMd5 path = some row.md5Full := by
  have hfirst : ∃ s, Run (fdbStep twoFiles) (fun _ _ => True) (fdbStart twoFiles dirD) s ∧
      s.fdbFiles.length = 1 ∧
      (follow (fdbStep twoFiles) (fun _ _ => True) s
        [.walk, .walk, .take 0, .work 0, .work 0, .work 0]).any
        (fun t => decide (t.fdbFiles.length = 2)) = true := by
    apply exists_run_of_follow [.walk, .walk, .take 0, .work 0, .work 0, .work 0]
    decide +kernel
  rcases hfirst with ⟨s, run, hone, hnext⟩
  rcases exists_run_of_follow _ hnext with ⟨t, later, htwo⟩
  exact ⟨s, t, hone, htwo, fdbRun_tidy run later⟩

/-! ### Workers on intact buffers -/

/-- The part of the condition on a step that is about the workers. `main` may cancel at any time. -/
def WorksIntact (s : FdbState) : FdbMove → Prop
  | .work i => ∀ w ∈ s.running[i]?, w.fw.Intact s.memory
  | _ => True

instance (s : FdbState) : ∀ move, Decidable (WorksIntact s move)
  | .work i => inferInstanceAs (Decidable (∀ w ∈ s.running[i]?, w.fw.Intact s.memory))
  | .walk | .overwrite .. | .take _ | .cancel | .destroy => inferInstanceAs (Decidable True)

theorem Undisturbed.worksIntact {s : FdbState} {move : FdbMove} (guard : Undisturbed s move) :
    WorksIntact s move := by
  cases move with
  | work i => exact guard
  | walk | overwrite | take | cancel | destroy => trivial

/-- What holds while no worker reads a buffer that was written again: the digests are those of the files
    of their tasks, and every row is that of one file. -/
structure FdbExact (fs : FileSystem) (root : CString) (s : FdbState) : Prop where
  tidy : FdbTidy fs root s
  hashed : ∀ w ∈ s.running, ∀ md5, w.stage = .hashed md5 → fs.ioMd5 w.fw.pushed = some md5
  exact : ∀ row ∈ s.fdbFiles, ∃ path, row.fname = path.bytes ∧ RegularFile fs root path row.fsize ∧
    fs.ioMd5 path = some row.md5Full

section Exact

variable {fs : FileSystem} {root : CString} {s t : FdbState} {move : FdbMove}

theorem FdbExact.step (h : FdbExact fs root s) (guard : WorksIntact s move)
    (hstep : fdbStep fs s move = some t) : FdbExact fs root t := by
  have htidy := fdbStep_tidy h.tidy hstep
  obtain ⟨_, _, hmoved⟩ := fdbStep_moved hstep
  cases hmoved with
  | walk walking step =>
      obtain ⟨hrunning, hfiles, _⟩ := (h.tidy.walk.moved step).pool h.tidy.walk
      refine ⟨htidy, ?_, ?_⟩
      · rw [hrunning]
        exact h.hashed
      · rw [hfiles]
        exact h.exact
  | overwrite => exact ⟨htidy, h.hashed, h.exact⟩
  | @take i fw waiting idle =>
      refine ⟨htidy, ?_, h.exact⟩
      intro w hw md5 hmd5
      rcases List.mem_append.mp hw with hw | hw
      · exact h.hashed w hw md5 hmd5
      · rw [List.mem_singleton.mp hw] at hmd5
        cases hmd5
  | @goOn i w stage busy next =>
      refine ⟨htidy, ?_, h.exact⟩
      intro v hv md5 hmd5
      rcases List.mem_or_eq_of_mem_set hv with hv | rfl
      · exact h.hashed v hv md5 hmd5
      · rcases next with ⟨_, rfl⟩ | ⟨_, md5', rfl, hread⟩
        · cases hmd5
        · cases hmd5
          have hintact : cstr (s.memory w.fw.fullPath) = w.fw.pushed := guard w busy
          rw [hintact] at hread
          exact hread
  | @giveUp i w busy =>
      exact ⟨htidy, fun v hv => h.hashed v (List.mem_of_mem_eraseIdx hv), h.exact⟩
  | @insert i fw md5 busy fresh =>
      have hmem := List.mem_of_getElem? busy
      refine ⟨htidy, fun v hv => h.hashed v (List.mem_of_mem_eraseIdx hv), ?_⟩
      intro row hrow
      rcases List.mem_append.mp hrow with hrow | hrow
      · exact h.exact row hrow
      · obtain rfl := List.mem_singleton.mp hrow
        obtain ⟨hfile, hlen⟩ := h.tidy.tasks fw
          (List.mem_append_right _ (List.mem_map.mpr ⟨_, hmem, rfl⟩))
        have hintact : cstr (s.memory fw.fullPath) = fw.pushed := guard _ busy
        refine ⟨fw.pushed, ?_, hfile, h.hashed _ hmem md5 rfl⟩
        show fw.boundText s.memory = fw.pushed.bytes
        rw [Filework.boundText, hlen]
        exact cstr_take hintact
  | cancel => exact ⟨htidy, h.hashed, h.exact⟩
  | destroy => exact ⟨htidy, h.hashed, h.exact⟩

theorem walkRecur_pool {dname : CString} :
    (walkRecur fs dname s).running = s.running ∧ (walkRecur fs dname s).fdbFiles = s.fdbFiles := by
  rcases walkRecur_cases fs dname s with ⟨_, h⟩ | ⟨_, h⟩ | ⟨_, h⟩ <;>
  · rw [h]
    exact ⟨rfl, rfl⟩

theorem FdbExact.run (run : Run (fdbStep fs) WorksIntact (fdbStart fs root) s) : FdbExact fs root s := by
  have hstart : FdbExact fs root (fdbStart fs root) := by
    have hnone : (fdbStart fs root).running = [] ∧ (fdbStart fs root).fdbFiles = [] := walkRecur_pool
    refine ⟨fdbStart_tidy fs root, ?_, ?_⟩
    · rw [hnone.1]
      exact fun _ hw => absurd hw List.not_mem_nil
    · rw [hnone.2]
      exact fun _ hrow => absurd hrow List.not_mem_nil
  exact run.invariant hstart fun _ _ _ h guard hstep => h.step guard hstep

/-- In a run over any file system in which no worker reads a buffer that was written again, each row has
    the path, the size and the digest of one regular file under the root. -/
theorem fdbRun_exact (run : Run (fdbStep fs) WorksIntact (fdbStart fs root) s) :
    ∀ row ∈ s.fdbFiles, ∃ path, row.fname = path.bytes ∧ RegularFile fs root path row.fsize ∧
      fs.ioMd5 path = some row.md5Full :=
  (FdbExact.run run).exact

end Exact

/-- `main` cancels while the task of the first file is waiting and a worker is busy with the second one,
    which it then inserts. -/
theorem fdbRun_exact_cancelled :
    ∃ s, Run (fdbStep twoFiles) WorksIntact (fdbStart twoFiles dirD) s ∧ s.phase = .finished ∧
      s.fdbFiles.map FdbRow.fname = [fileB.path.bytes] ∧
      ∀ row ∈ s.fdbFiles, ∃ path, row.fname = path.bytes ∧ RegularFile twoFiles dirD path row.fsize ∧
        twoFiles.ioMd5 path = some row.md5Full := by
  have hrun : ∃ s, Run (fdbStep twoFiles) WorksIntact (fdbStart twoFiles dirD) s ∧
      s.phase = .finished ∧ s.fdbFiles.map FdbRow.fname = [fileB.path.bytes] := by
    apply exists_run_of_follow [.walk, .walk, .walk, .walk, .take 1, .work 0, .walk, .cancel, .work 0,
      .work 0, .destroy]
    decide +kernel
  rcases hrun with ⟨s, run, done, hname⟩
  exact ⟨s, run, done, hname, fdbRun_exact run⟩

/-! ### The end of the program

What is left to do, counted in moves: every entry is written, looked at, and may become a task of four
moves or a directory. A path gets longer with every level, so a directory as long as `FILENAME_MAX` costs
nothing: `walk_recur` refuses it. -/

/-- The moves below a directory when `room` more bytes fit into its path. -/
def walkCost (fs : FileSystem) : Nat → CString → Nat
  | 0, _ => 0
  | room + 1, d => 2 + ((fs.entries d).map fun e => 6 + walkCost fs room (entryPath d e)).sum

/-- The moves of a call of `walk_recur`, at most. -/
def dirCost (fs : FileSystem) (d : CString) : Nat :=
  walkCost fs (filenameMax - d.bytes.length) d

/-- The moves of a frame. -/
def frameCost (fs : FileSystem) (f : WalkFrame) : Nat :=
  (if f.formatted then 1 else 2) + (f.entries.map fun e => 6 + dirCost fs (entryPath f.dname e)).sum

/-- The moves of a busy worker. -/
def WorkStage.cost : WorkStage → Nat
  | .entered => 3
  | .absent => 2
  | .hashed _ => 1

def FdbPhase.cost : FdbPhase → Nat
  | .walking => 2
  | .cancelled => 1
  | .finished => 0
  | .aborted => 0

/-- The moves that are left. -/
def fdbCost (fs : FileSystem) (s : FdbState) : Nat :=
  (s.stack.map (frameCost fs)).sum + 4 * s.pending.length + (s.running.map fun w => w.stage.cost).sum
    + s.phase.cost

/-- Every move but the overwriting of an unused part of the stack, which is not the program's. -/
def FdbMove.proper : FdbMove → Bool
  | .overwrite _ _ => false
  | _ => true

section Ends

variable {fs : FileSystem} {root : CString} {s t : FdbState} {move : FdbMove}

theorem walkCost_mono (fs : FileSystem) {room : Nat} : ∀ {room' : Nat} (d : CString), room ≤ room' →
    walkCost fs room d ≤ walkCost fs room' d := by
  induction room with
  | zero => exact fun _ _ => Nat.zero_le _
  | succ room ih =>
      intro room' d hle
      obtain ⟨room', rfl⟩ := Nat.exists_eq_succ_of_ne_zero (Nat.ne_of_gt (Nat.zero_lt_of_lt hle))
      rw [walkCost, walkCost]
      refine Nat.add_le_add_left (List.sum_le_sum fun e _ => ?_) 2
      exact Nat.add_le_add_left (ih _ (Nat.le_of_succ_le_succ hle)) 6

/-- The frame of a directory costs what the call was worth. -/
theorem frameCost_le (fs : FileSystem) {d : CString} (short : d.bytes.length < filenameMax) :
    frameCost fs { dname := d, entries := fs.entries d, formatted := false } ≤ dirCost fs d := by
  obtain ⟨room, hroom⟩ : ∃ room, filenameMax - d.bytes.length = room + 1 :=
    ⟨filenameMax - d.bytes.length - 1, by omega⟩
  rw [frameCost, dirCost, hroom, walkCost]
  refine Nat.add_le_add_left (List.sum_le_sum fun e _ => ?_) 2
  refine Nat.add_le_add_left (walkCost_mono fs _ ?_) 6
  have hpath := entryPath_length d e
  show filenameMax - (entryPath d e).bytes.length ≤ room
  omega

theorem sum_eraseIdx {α : Type} {l : List α} {i : Nat} {a : α} (g : α → Nat) (h : l[i]? = some a) :
    (l.map g).sum = g a + ((l.eraseIdx i).map g).sum := by
  simpa using congrArg Multiset.sum (coe_map_eraseIdx g h)

theorem sum_set {α : Type} {l : List α} {i : Nat} {a b : α} (g : α → Nat) (h : l[i]? = some a) :
    ((l.set i b).map g).sum + g a = g b + (l.map g).sum := by
  have hlt : i < l.length := (List.getElem?_eq_some_iff.mp h).1
  have hset := sum_eraseIdx g (List.getElem?_set_self (a := b) hlt)
  rw [List.eraseIdx_set_eq] at hset
  rw [hset, sum_eraseIdx g h]
  omega

/-- A move of the walk leaves less to do. -/
theorem WalkMoved.cost_lt (h : WalkMoved fs s t) (walking : s.phase = .walking) :
    fdbCost fs t < fdbCost fs s := by
  cases h with
  | @leave f rest stack done =>
      simp only [fdbCost, stack, List.map_cons, List.sum_cons, frameCost]
      split <;> omega
  | @write f rest e es stack entries ahead skips =>
      simp only [fdbCost, stack, List.map_cons, List.sum_cons, frameCost, entries, ahead, if_true,
        Bool.false_eq_true, if_false]
      omega
  | @pass f rest e es stack entries nothing =>
      simp only [fdbCost, stack, List.map_cons, List.sum_cons, frameCost, entries,
        Bool.false_eq_true, if_false]
      split <;> omega
  | @push f rest e es st stack entries skips kind stat =>
      simp only [fdbCost, pushFile, stack, List.map_cons, List.sum_cons, frameCost, entries,
        Bool.false_eq_true, if_false, List.length_append, List.length_singleton]
      split <;> omega
  | @enter f rest e es st stack entries skips kind stat isDir short =>
      have hframe := frameCost_le fs short
      simp only [fdbCost, stack, List.map_cons, List.sum_cons, frameCost, entries,
        Bool.false_eq_true, if_false] at hframe ⊢
      split <;> omega
  | @refuse f rest e es stack entries =>
      simp only [fdbCost, stack, List.map_cons, List.sum_cons, frameCost, entries,
        Bool.false_eq_true, if_false, walking, FdbPhase.cost]
      split <;> omega

/-- Every proper move leaves less to do. -/
theorem fdbStep_cost_lt (tidy : FdbTidy fs root s) (h : fdbStep fs s move = some t)
    (hproper : move.proper = true) : fdbCost fs t < fdbCost fs s := by
  obtain ⟨_, _, hmoved⟩ := fdbStep_moved h
  cases hmoved with
  | walk walking step => exact (tidy.walk.moved step).cost_lt walking
  | overwrite => cases hproper
  | @take i fw waiting idle =>
      have hlt : i < s.pending.length := (List.getElem?_eq_some_iff.mp waiting).1
      simp only [fdbCost, List.map_append, List.map_cons, List.map_nil, List.sum_append, List.sum_cons,
        List.sum_nil, WorkStage.cost, List.length_eraseIdx_of_lt hlt]
      omega
  | @goOn i w stage busy next =>
      have hsum : _ + w.stage.cost = stage.cost + _ :=
        sum_set (b := { w with stage := stage }) (fun w => w.stage.cost) busy
      have hlower : stage.cost < w.stage.cost := by
        rcases next with ⟨hfrom, rfl⟩ | ⟨hfrom, md5, rfl, _⟩ <;>
        · rw [hfrom]
          exact Nat.lt_succ_self _
      simp only [fdbCost]
      omega
  | @giveUp i w busy =>
      have hsum := sum_eraseIdx (fun w => w.stage.cost) busy
      have hpos : 0 < w.stage.cost := by cases w.stage <;> exact Nat.succ_pos _
      simp only [fdbCost]
      omega
  | @insert i fw md5 busy fresh =>
      have hsum := sum_eraseIdx (fun w => w.stage.cost) busy
      simp only [fdbCost, WorkStage.cost] at hsum ⊢
      omega
  | cancel walked empty =>
      simp only [fdbCost, walked, FdbPhase.cost, List.length_nil]
      omega
  | destroy cancelled idle =>
      simp only [fdbCost, cancelled, FdbPhase.cost]
      omega

theorem fdbStep_cost_le (h : fdbStep fs s move = some t) (hproper : move.proper = false) :
    fdbCost fs t ≤ fdbCost fs s := by
  obtain ⟨_, _, hmoved⟩ := fdbStep_moved h
  cases hmoved with
  | overwrite => exact Nat.le_refl _
  | walk => cases hproper
  | take => cases hproper
  | goOn => cases hproper
  | giveUp => cases hproper
  | insert => cases hproper
  | cancel => cases hproper
  | destroy => cases hproper

/-- A state in which the program has not ended has a proper move. -/
theorem fdbStep_progress (fs : FileSystem) (s : FdbState) (hfinished : s.phase ≠ .finished)
    (haborted : s.phase ≠ .aborted) : ∃ move, move.proper = true ∧ (fdbStep fs s move).isSome = true := by
  have halive : ¬ (s.phase = .finished ∨ s.phase = .aborted) := not_or.mpr ⟨hfinished, haborted⟩
  rcases hphase : s.phase with _ | _ | _ | _
  · rcases hstack : s.stack with _ | ⟨f, rest⟩
    · exact ⟨.cancel, rfl, by simp [fdbStep, hphase, hstack]⟩
    · refine ⟨.walk, rfl, ?_⟩
      rw [fdbStep, if_neg halive]
      simp only [hphase, if_true]
      obtain ⟨dname, entries, formatted⟩ := f
      rcases entries with _ | ⟨e, es⟩
      · simp [walkStep, hstack]
      · rcases formatted with _ | _ <;> rcases hover : e.passedOver with _ | _ <;>
          simp [walkStep, hstack, hover]
  · rcases hrunning : s.running with _ | ⟨w, running⟩
    · exact ⟨.destroy, rfl, by simp [fdbStep, hphase, hrunning]⟩
    · refine ⟨.work 0, rfl, ?_⟩
      rw [fdbStep, if_neg halive]
      simp only [doWork, hrunning, List.getElem?_cons_zero]
      rcases w.stage with _ | _ | md5
      · simp only
        split <;> rfl
      · simp only
        split <;> rfl
      · rfl
  · exact absurd hphase hfinished
  · exact absurd hphase haborted

/-- The program ends, whatever the file system looks like and however the workers interleave: no run
    makes more proper moves than `fdbCost` says at its start, and a run that has not ended can move. -/
theorem fdb_ends (fs : FileSystem) (root : CString) : ∃ bound, ∀ moves s,
    Trace (fdbStep fs) (fdbStart fs root) moves s →
      (moves.filter FdbMove.proper).length ≤ bound ∧
        (s.phase = .finished ∨ s.phase = .aborted ∨
          ∃ move, move.proper = true ∧ (fdbStep fs s move).isSome = true) := by
  refine ⟨fdbCost fs (fdbStart fs root), ?_⟩
  intro moves s trace
  have hcount : (moves.filter FdbMove.proper).length + fdbCost fs s ≤ fdbCost fs (fdbStart fs root) :=
    trace.count_le (fdbStart_tidy fs root) (fun _ _ _ tidy h => fdbStep_tidy tidy h)
      (fun _ _ _ tidy h hproper => fdbStep_cost_lt tidy h hproper)
      (fun _ _ _ _ h hproper => fdbStep_cost_le h hproper)
  refine ⟨by omega, ?_⟩
  by_cases hfinished : s.phase = .finished
  · exact Or.inl hfinished
  · by_cases haborted : s.phase = .aborted
    · exact Or.inr (Or.inl haborted)
    · exact Or.inr (Or.inr (fdbStep_progress fs s hfinished haborted))

end Ends

end Dach
