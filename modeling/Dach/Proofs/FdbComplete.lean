/-
Module: Dach.Proofs.FdbComplete
Layer: Proofs
Purpose: Which rows a finished run of fdb has, over any file system. In an undisturbed run every regular
  file that can be read has a row, or a task, or is still to come in one of the frames of the walk; so at
  the end there is a row for each of them, and for nothing else.
Imports: Dach.Proofs.FdbRuns
Trusted boundary: none
Main exports: FdbState.withTable, doWork_entered, doWork_absent, doWork_hashed, Owed, FdbComplete,
  fdbRun_complete
-/
import Dach.Proofs.FdbRuns

namespace Dach

open Transition

/-- The state with this table. -/
def FdbState.withTable (s : FdbState) (table : List FdbRow) : FdbState := { s with fdbFiles := table }

/-! ### The moves of a worker whose buffer is intact -/

/-- The worker returns. -/
def FdbState.leave (s : FdbState) (i : Nat) : FdbState := { s with running := s.running.eraseIdx i }

/-- The worker goes on. -/
def FdbState.goOn (s : FdbState) (i : Nat) (fw : Filework) (stage : WorkStage) : FdbState :=
  { s with running := s.running.set i { fw := fw, stage := stage } }

section Work

variable {fs : FileSystem} {root : CString} {s : FdbState} {i : Nat} {fw : Filework} {md5 : List UInt8}

/-- The bytes the statements get are those of the path. -/
theorem Filework.boundText_intact {memory : Nat → List UInt8} (intact : fw.Intact memory)
    (length : fw.pathlen = fw.pushed.bytes.length) : fw.boundText memory = fw.pushed.bytes := by
  rw [Filework.boundText, length]
  exact cstr_take intact

theorem doWork_entered (busy : s.running[i]? = some { fw := fw, stage := .entered })
    (intact : fw.Intact s.memory) (length : fw.pathlen = fw.pushed.bytes.length) :
    doWork fs i s = some (if sqlFileExists s.fdbFiles fw.pushed.bytes then s.leave i
      else s.goOn i fw .absent) := by
  simp only [doWork, busy, Filework.boundText_intact intact length, FdbState.leave, FdbState.goOn]
  split <;> rfl

theorem doWork_absent (busy : s.running[i]? = some { fw := fw, stage := .absent })
    (intact : fw.Intact s.memory) :
    doWork fs i s = some (match fs.ioMd5 fw.pushed with
      | none => s.leave i
      | some md5 => s.goOn i fw (.hashed md5)) := by
  have hpath : cstr (s.memory fw.fullPath) = fw.pushed := intact
  simp only [doWork, busy, hpath, FdbState.leave, FdbState.goOn]
  rcases fs.ioMd5 fw.pushed with _ | md5 <;> rfl

theorem doWork_hashed (busy : s.running[i]? = some { fw := fw, stage := .hashed md5 })
    (intact : fw.Intact s.memory) (length : fw.pathlen = fw.pushed.bytes.length) :
    doWork fs i s = some ((s.leave i).withTable
      (sqlInsert s.fdbFiles { fname := fw.pushed.bytes, fsize := fw.fsize, md5Full := md5 })) := by
  simp only [doWork, busy, Filework.boundText_intact intact length, FdbState.leave, FdbState.withTable]

theorem fdbStep_work (running : s.phase ≠ .finished) (alive : s.phase ≠ .aborted) :
    fdbStep fs s (.work i) = doWork fs i s := by
  rw [fdbStep, if_neg (not_or.mpr ⟨running, alive⟩)]

end Work

/-! ### What the walk still owes -/

/-- A regular file that the frames of the walk have still to come to. -/
def Owed (fs : FileSystem) (stack : List WalkFrame) (path : CString) (size : Nat) : Prop :=
  ∃ f ∈ stack, ∃ e ∈ f.entries, EntryFile fs f.dname e path size

section Walk

variable {fs : FileSystem} {root : CString} {s t : FdbState} {path : CString} {size : Nat}

/-- A file is owed at the first entry of the innermost frame, or without it. -/
theorem Owed.popped {f : WalkFrame} {rest : List WalkFrame} {e : Dirent} {es : List Dirent}
    (owed : Owed fs s.stack path size) (stack : s.stack = f :: rest) (entries : f.entries = e :: es) :
    EntryFile fs f.dname e path size ∨
      Owed fs ({ dname := f.dname, entries := es, formatted := false } :: rest) path size := by
  obtain ⟨g, hg, e', he', hfile⟩ := owed
  rw [stack] at hg
  rcases List.mem_cons.mp hg with rfl | hg
  · rw [entries] at he'
    rcases List.mem_cons.mp he' with rfl | he'
    · exact Or.inl hfile
    · exact Or.inr ⟨_, List.mem_cons_self, e', he', hfile⟩
  · exact Or.inr ⟨g, List.mem_cons_of_mem _ hg, e', he', hfile⟩

/-- A move of the walk goes on to owe a file, pushes its task, or gives up. -/
theorem WalkMoved.owed (h : WalkMoved fs s t) (owed : Owed fs s.stack path size) :
    t.phase = .aborted ∨ Owed fs t.stack path size ∨ ∃ fw ∈ t.pending, fw.pushed = path := by
  cases h with
  | @leave f rest stack done =>
      obtain ⟨g, hg, e, he, hfile⟩ := owed
      rw [stack] at hg
      rcases List.mem_cons.mp hg with rfl | hg
      · rw [done] at he
        cases he
      · exact Or.inr (Or.inl ⟨g, hg, e, he, hfile⟩)
  | @write f rest e es stack entries ahead skips =>
      refine Or.inr (Or.inl ?_)
      rcases owed.popped stack entries with hfile | ⟨g, hg, e', he', hfile⟩
      · exact ⟨_, List.mem_cons_self, e, List.mem_cons_self, hfile⟩
      · rcases List.mem_cons.mp hg with rfl | hg
        · exact ⟨_, List.mem_cons_self, e', List.mem_cons_of_mem _ he', hfile⟩
        · exact ⟨g, List.mem_cons_of_mem _ hg, e', he', hfile⟩
  | @pass f rest e es stack entries nothing =>
      rcases owed.popped stack entries with hfile | hlater
      · exact absurd hfile (nothing path size)
      · exact Or.inr (Or.inl hlater)
  | @push f rest e es st stack entries skips kind stat =>
      rcases owed.popped stack entries with hfile | hlater
      · refine Or.inr (Or.inr ?_)
        cases hfile with
        | file _ _ _ => exact ⟨_, List.mem_append_right _ (List.mem_singleton_self _), rfl⟩
        | below _ kind' _ _ _ =>
            rw [kind] at kind'
            cases kind'
      · exact Or.inr (Or.inl hlater)
  | @enter f rest e es st stack entries skips kind stat isDir short =>
      refine Or.inr (Or.inl ?_)
      rcases owed.popped stack entries with hfile | ⟨g, hg, hlater⟩
      · cases hfile with
        | file _ kind' _ =>
            rw [kind] at kind'
            cases kind'
        | below _ _ _ _ hbelow =>
            obtain ⟨e', hentry, hfile⟩ := hbelow.entryFile
            exact ⟨_, List.mem_cons_self, e', hentry, hfile⟩
      · exact ⟨g, List.mem_cons_of_mem _ hg, hlater⟩
  | refuse => exact Or.inl rfl

end Walk

/-! ### Complete runs -/

/-- A file has a row or a task, or the walk owes it. -/
def InHand (fs : FileSystem) (s : FdbState) (path : CString) (size : Nat) : Prop :=
  (∃ row ∈ s.fdbFiles, row.fname = path.bytes) ∨
    (∃ fw ∈ s.pending ++ s.running.map FdbWorker.fw, fw.pushed = path) ∨ Owed fs s.stack path size

/-- What holds in undisturbed runs: no readable file is forgotten, and what the walk and the workers leave
    behind when the program ends is the table. -/
structure FdbComplete (fs : FileSystem) (root : CString) (s : FdbState) : Prop where
  exact : FdbExact fs root s
  accounted : s.phase ≠ .aborted → ∀ path size, RegularFile fs root path size →
    (fs.ioMd5 path).isSome = true → InHand fs s path size
  walked : s.phase ≠ .walking → s.phase ≠ .aborted → s.stack = []
  drained : s.phase = .finished → s.running = []

section Complete

variable {fs : FileSystem} {root : CString} {s t : FdbState} {move : FdbMove} {i : Nat}

theorem mem_or_mem_eraseIdx {α : Type} {l : List α} {a b : α} (h : l[i]? = some a) (hb : b ∈ l) :
    b = a ∨ b ∈ l.eraseIdx i := by
  obtain ⟨hi, rfl⟩ := List.getElem?_eq_some_iff.mp h
  exact List.mem_cons.mp ((List.getElem_cons_eraseIdx_perm hi).mem_iff.mpr hb)

/-- A worker that leaves a row for its file, or a file that cannot be read, may return. -/
theorem InHand.leave {path : CString} {size : Nat} {w : FdbWorker} {table : List FdbRow}
    (h : InHand fs s path size) (busy : s.running[i]? = some w)
    (kept : ∀ row ∈ s.fdbFiles, row ∈ table)
    (done : w.fw.pushed = path → ∃ row ∈ table, row.fname = path.bytes) :
    InHand fs ((s.leave i).withTable table) path size := by
  rcases h with ⟨row, hrow, hname⟩ | ⟨fw, hfw, hpath⟩ | howed
  · exact Or.inl ⟨row, kept row hrow, hname⟩
  · rcases List.mem_append.mp hfw with hfw | hfw
    · exact Or.inr (Or.inl ⟨fw, List.mem_append_left _ hfw, hpath⟩)
    · obtain ⟨v, hv, rfl⟩ := List.mem_map.mp hfw
      rcases mem_or_mem_eraseIdx busy hv with rfl | hv
      · exact Or.inl (done hpath)
      · exact Or.inr (Or.inl ⟨v.fw, List.mem_append_right _ (List.mem_map_of_mem hv), hpath⟩)
  · exact Or.inr (Or.inr howed)

theorem InHand.goOn {path : CString} {size : Nat} {fw : Filework} {stage : WorkStage}
    (h : InHand fs s path size) (busy : s.running[i]? = some { fw := fw, stage := stage })
    (next : WorkStage) : InHand fs (s.goOn i fw next) path size := by
  have htasks : (s.goOn i fw next).running.map FdbWorker.fw = s.running.map FdbWorker.fw :=
    map_fw_set next busy
  rw [InHand, htasks]
  exact h

theorem sqlFileExists_iff (table : List FdbRow) (fname : List UInt8) :
    sqlFileExists table fname = true ↔ ∃ row ∈ table, row.fname = fname := by
  simp [sqlFileExists]

/-- A step of a worker forgets no readable file. -/
theorem InHand.work {path : CString} {size : Nat} (h : InHand fs s path size)
    (tidy : FdbTidy fs root s) (guard : Undisturbed s (.work i)) (readable : (fs.ioMd5 path).isSome = true)
    (hstep : doWork fs i s = some t) : InHand fs t path size := by
  rcases busy : s.running[i]? with _ | ⟨fw, stage⟩
  · simp [doWork, busy] at hstep
  · have intact : fw.Intact s.memory := guard _ busy
    have length : fw.pathlen = fw.pushed.bytes.length :=
      (tidy.tasks fw (List.mem_append_right _
        (List.mem_map.mpr ⟨_, List.mem_of_getElem? busy, rfl⟩))).2
    cases stage with
    | entered =>
        rw [doWork_entered busy intact length] at hstep
        cases hstep
        split
        · rename_i hexists
          refine h.leave busy (fun _ hrow => hrow) ?_
          rintro rfl
          exact (sqlFileExists_iff _ _).mp hexists
        · exact h.goOn busy .absent
    | absent =>
        rw [doWork_absent busy intact] at hstep
        rcases hmd5 : fs.ioMd5 fw.pushed with _ | md5
        · rw [hmd5] at hstep
          cases hstep
          refine h.leave busy (fun _ hrow => hrow) ?_
          rintro rfl
          rw [hmd5] at readable
          cases readable
        · rw [hmd5] at hstep
          cases hstep
          exact h.goOn busy (.hashed md5)
    | hashed md5 =>
        rw [doWork_hashed busy intact length] at hstep
        cases hstep
        rw [sqlInsert]
        split
        · rename_i hexists
          refine h.leave busy (fun _ hrow => hrow) ?_
          rintro rfl
          exact (sqlFileExists_iff _ _).mp hexists
        · refine h.leave busy (fun _ hrow => List.mem_append_left _ hrow) ?_
          rintro rfl
          exact ⟨_, List.mem_append_right _ (List.mem_singleton_self _), rfl⟩

theorem FdbComplete.step (h : FdbComplete fs root s) (guard : Undisturbed s move)
    (hstep : fdbStep fs s move = some t) : FdbComplete fs root t := by
  have hexact := h.exact.step guard.worksIntact hstep
  obtain ⟨hrunning, halive, hmoved⟩ := fdbStep_moved hstep
  cases hmoved with
  | walk walking step =>
      have hwalk := h.exact.tidy.walk
      have hmove := hwalk.moved step
      obtain ⟨hworkers, hfiles, hphase, hpending⟩ := hmove.pool hwalk
      have hkept : ∀ fw ∈ s.pending ++ s.running.map FdbWorker.fw,
          fw ∈ t.pending ++ t.running.map FdbWorker.fw := by
        intro fw hfw
        rw [hworkers]
        rcases hpending with hsame | ⟨new, hpushed, _⟩
        · rw [hsame]
          exact hfw
        · rw [hpushed]
          rcases List.mem_append.mp hfw with hfw | hfw
          · exact List.mem_append_left _ (List.mem_append_left _ hfw)
          · exact List.mem_append_right _ hfw
      refine ⟨hexact, ?_, ?_, ?_⟩
      · intro hgoes path size hfile hread
        rcases h.accounted halive path size hfile hread with ⟨row, hrow, hname⟩ | ⟨fw, hfw, hpath⟩ | howed
        · rw [← hfiles] at hrow
          exact Or.inl ⟨row, hrow, hname⟩
        · exact Or.inr (Or.inl ⟨fw, hkept fw hfw, hpath⟩)
        · rcases hmove.owed howed with habort | howed' | ⟨fw, hfw, hpath⟩
          · exact absurd habort hgoes
          · exact Or.inr (Or.inr howed')
          · exact Or.inr (Or.inl ⟨fw, List.mem_append_left _ hfw, hpath⟩)
      · intro hnot hgoes
        rcases hphase with hsame | habort
        · exact absurd (hsame.trans walking) hnot
        · exact absurd habort hgoes
      · intro hdone
        rcases hphase with hsame | habort
        · rw [hsame, walking] at hdone
          cases hdone
        · rw [habort] at hdone
          cases hdone
  | overwrite => exact ⟨hexact, h.accounted, h.walked, h.drained⟩
  | @take i fw waiting idle =>
      refine ⟨hexact, ?_, h.walked, fun hdone => absurd hdone hrunning⟩
      intro hgoes path size hfile hread
      rcases h.accounted hgoes path size hfile hread with hrow | ⟨fw', hfw', hpath⟩ | howed
      · exact Or.inl hrow
      · refine Or.inr (Or.inl ⟨fw', ?_, hpath⟩)
        simp only [List.map_append, List.map_cons, List.map_nil, List.mem_append, List.mem_singleton]
        rcases List.mem_append.mp hfw' with hfw' | hfw'
        · rcases mem_or_mem_eraseIdx waiting hfw' with rfl | hfw'
          · exact Or.inr (Or.inr rfl)
          · exact Or.inl hfw'
        · exact Or.inr (Or.inl hfw')
      · exact Or.inr (Or.inr howed)
  | @goOn i w stage busy next =>
      rw [fdbStep_work hrunning halive] at hstep
      exact ⟨hexact, fun hgoes path size hfile hread =>
        (h.accounted hgoes path size hfile hread).work h.exact.tidy guard hread hstep, h.walked,
        fun hdone => absurd hdone hrunning⟩
  | @giveUp i w busy =>
      rw [fdbStep_work hrunning halive] at hstep
      exact ⟨hexact, fun hgoes path size hfile hread =>
        (h.accounted hgoes path size hfile hread).work h.exact.tidy guard hread hstep, h.walked,
        fun hdone => absurd hdone hrunning⟩
  | @insert i fw md5 busy fresh =>
      rw [fdbStep_work hrunning halive] at hstep
      exact ⟨hexact, fun hgoes path size hfile hread =>
        (h.accounted hgoes path size hfile hread).work h.exact.tidy guard hread hstep, h.walked,
        fun hdone => absurd hdone hrunning⟩
  | cancel walked empty =>
      refine ⟨hexact, ?_, fun _ _ => empty, ?_⟩
      · intro _ path size hfile hread
        have hnone : s.pending = [] := guard
        have haccounted := h.accounted halive path size hfile hread
        rw [InHand, hnone] at haccounted
        exact haccounted
      · intro hdone
        cases hdone
  | destroy cancelled idle =>
      refine ⟨hexact, fun _ => h.accounted halive, fun _ _ => h.walked ?_ halive, fun _ => idle⟩
      rw [cancelled]
      decide

theorem fdbStart_complete (fs : FileSystem) (root : CString) : FdbComplete fs root (fdbStart fs root) := by
  have hexact : FdbExact fs root (fdbStart fs root) := FdbExact.run (Run.refl _)
  rcases walkRecur_cases fs root { stack := [], memory := fun _ => [], pending := [], running := [],
                                   fdbFiles := [], phase := .walking } with
    ⟨_, hstart⟩ | ⟨hempty, hstart⟩ | ⟨_, hstart⟩
  · rw [fdbStart, hstart] at hexact ⊢
    exact ⟨hexact, fun hgoes => absurd rfl hgoes, fun _ hgoes => absurd rfl hgoes, fun _ => rfl⟩
  · rw [fdbStart, hstart] at hexact ⊢
    refine ⟨hexact, ?_, fun hnot => absurd rfl hnot, fun _ => rfl⟩
    intro _ path size hfile _
    obtain ⟨e, hentry, _⟩ := hfile.entryFile
    rw [hempty] at hentry
    cases hentry
  · rw [fdbStart, hstart] at hexact ⊢
    refine ⟨hexact, ?_, fun hnot => absurd rfl hnot, fun _ => rfl⟩
    intro _ path size hfile _
    obtain ⟨e, hentry, hat⟩ := hfile.entryFile
    exact Or.inr (Or.inr ⟨_, List.mem_singleton_self _, e, hentry, hat⟩)

/-- A path has one size. -/
theorem RegularFile.size_unique {path : CString} {size size' : Nat} (h : RegularFile fs root path size)
    (h' : RegularFile fs root path size') : size = size' := by
  obtain ⟨_, _, st, _, _, _, _, _, hstat, rfl⟩ := h
  obtain ⟨_, _, st', _, _, _, _, _, hstat', rfl⟩ := h'
  rw [hstat] at hstat'
  rw [Option.some.inj hstat']

/-- An undisturbed run that has finished, over any file system: the rows of the table are those of the
    regular files under the root that can be read. -/
theorem fdbRun_complete (run : Run (fdbStep fs) Undisturbed (fdbStart fs root) s)
    (done : s.phase = .finished) (row : FdbRow) :
    row ∈ s.fdbFiles ↔ ∃ path, row.fname = path.bytes ∧ RegularFile fs root path row.fsize ∧
      fs.ioMd5 path = some row.md5Full := by
  have h : FdbComplete fs root s :=
    run.invariant (fdbStart_complete fs root) fun _ _ _ h guard hstep => h.step guard hstep
  have hwalking : s.phase ≠ .walking := by
    rw [done]
    decide
  have halive : s.phase ≠ .aborted := by
    rw [done]
    decide
  refine ⟨h.exact.exact row, ?_⟩
  rintro ⟨path, hname, hfile, hmd5⟩
  have hread : (fs.ioMd5 path).isSome = true := by
    rw [hmd5]
    rfl
  rcases h.accounted halive path row.fsize hfile hread with ⟨row', hrow', hname'⟩ | ⟨fw, hfw, _⟩ | howed
  · -- a row with the name of the file is the row of the file
    obtain ⟨path', hpath', hfile', hmd5'⟩ := h.exact.exact row' hrow'
    obtain rfl : path' = path := CString.ext (hpath'.symm.trans hname')
    have hsame : row = row' := by
      rcases row with ⟨fname, fsize, md5⟩
      rcases row' with ⟨fname', fsize', md5'⟩
      rw [hmd5] at hmd5'
      obtain rfl : fname = fname' := hname.trans hname'.symm
      obtain rfl : fsize = fsize' := hfile.size_unique hfile'
      obtain rfl : md5 = md5' := Option.some.inj hmd5'
      rfl
    rw [hsame]
    exact hrow'
  · rw [h.exact.tidy.ended hwalking halive, h.drained done] at hfw
    cases hfw
  · obtain ⟨f, hf, _⟩ := howed
    rw [h.walked hwalking halive] at hf
    cases hf

end Complete

end Dach
