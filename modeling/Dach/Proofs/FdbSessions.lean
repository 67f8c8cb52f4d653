/-
Module: Dach.Proofs.FdbSessions
Layer: Proofs
Purpose: The fdb program run again and again on one database. A run on a table of earlier runs is a run on
  an empty one without the rows of the names that are there; so it reads no file it knows, and the table
  has for every path what the first run to see it read, however much the file has changed since.
Imports: Dach.Proofs.FdbComplete
Trusted boundary: none
Main exports: Resumed, Resumed.step, fdbResume_refines, fdbResume_known, Visit,
  CompletedRuns, FirstSeen, completedRuns_first, InterruptedRuns, interruptedRuns_tidy
-/
import Dach.Proofs.FdbComplete

namespace Dach

open Transition

/-! ### Another table -/

section Table

variable {fs : FileSystem} {s t : FdbState} {table : List FdbRow} {move : FdbMove}

theorem walkRecur_withTable (fs : FileSystem) (dname : CString) (s : FdbState) (table : List FdbRow) :
    walkRecur fs dname (s.withTable table) = (walkRecur fs dname s).withTable table := by
  unfold walkRecur
  split
  · rfl
  · split <;> rfl

theorem walkEntry_withTable (fs : FileSystem) (slot : Nat) (e : Dirent) (s : FdbState)
    (table : List FdbRow) :
    walkEntry fs slot e (s.withTable table) = (walkEntry fs slot e s).withTable table := by
  have hmemory : (s.withTable table).memory = s.memory := rfl
  simp only [walkEntry, hmemory]
  split
  · rfl
  · split
    · rfl
    · split
      · exact walkRecur_withTable fs _ s table
      · rfl
    · rfl

/-- The walk does not look at the table. -/
theorem walkStep_withTable (fs : FileSystem) (s : FdbState) (table : List FdbRow) :
    walkStep fs (s.withTable table) = (walkStep fs s).map fun t => t.withTable table := by
  have hstack : (s.withTable table).stack = s.stack := rfl
  unfold walkStep
  rw [hstack]
  rcases s.stack with _ | ⟨⟨dname, entries, formatted⟩, rest⟩
  · rfl
  · rcases entries with _ | ⟨e, es⟩
    · rfl
    · rcases formatted with _ | _
      · rcases hover : e.passedOver with _ | _ <;> simp [hover, FdbState.withTable]
      · exact congrArg some (walkEntry_withTable fs rest.length e
          { s with stack := { dname := dname, entries := es, formatted := false } :: rest } table)

/-- Neither do the other moves, but for those of the workers. -/
theorem fdbStep_withTable (fs : FileSystem) (s : FdbState) (table : List FdbRow)
    (other : ∀ i, move ≠ .work i) :
    fdbStep fs (s.withTable table) move = (fdbStep fs s move).map fun t => t.withTable table := by
  unfold fdbStep
  have hphase : (s.withTable table).phase = s.phase := rfl
  rw [hphase]
  split
  · rfl
  · cases move with
    | walk =>
        simp only
        split
        · exact walkStep_withTable fs s table
        · rfl
    | overwrite slot bytes =>
        have hstack : (s.withTable table).stack = s.stack := rfl
        simp only [hstack]
        split <;> rfl
    | take i =>
        have hpending : (s.withTable table).pending = s.pending := rfl
        have hrunning : (s.withTable table).running = s.running := rfl
        simp only [hpending, hrunning]
        split
        · rfl
        · split <;> rfl
    | work i => exact absurd rfl (other i)
    | cancel =>
        have hstack : (s.withTable table).stack = s.stack := rfl
        simp only [hstack]
        split <;> rfl
    | destroy =>
        have hrunning : (s.withTable table).running = s.running := rfl
        simp only [hrunning]
        split <;> rfl

end Table

/-! ### The rows that are new -/

/-- The rows with names the table does not have. -/
def newRows (table rows : List FdbRow) : List FdbRow :=
  rows.filter fun row => !sqlFileExists table row.fname

theorem sqlFileExists_newRows (table rows : List FdbRow) (fname : List UInt8) :
    sqlFileExists (table ++ newRows table rows) fname
      = (sqlFileExists table fname || sqlFileExists rows fname) := by
  rcases known : sqlFileExists table fname with _ | _
  · have hkept : sqlFileExists (newRows table rows) fname = sqlFileExists rows fname := by
      rw [newRows, sqlFileExists, sqlFileExists, List.any_filter]
      congr 1
      funext row
      by_cases hname : row.fname = fname
      · simp [hname, known]
      · simp [hname]
    rw [sqlFileExists, List.any_append]
    exact congrArg₂ or known hkept
  · rw [sqlFileExists, List.any_append]
    exact congrArg (fun b => b || _) known

theorem sqlInsert_newRows {table rows : List FdbRow} {row : FdbRow}
    (fresh : sqlFileExists table row.fname = false) :
    sqlInsert (table ++ newRows table rows) row = table ++ newRows table (sqlInsert rows row) := by
  rw [sqlInsert, sqlInsert, sqlFileExists_newRows, fresh, Bool.false_or]
  split
  · rfl
  · rw [newRows, newRows, List.filter_append, List.append_assoc]
    simp [fresh]

theorem newRows_concat_known {table rows : List FdbRow} {row : FdbRow}
    (known : sqlFileExists table row.fname = true) :
    newRows table (sqlInsert rows row) = newRows table rows := by
  rw [sqlInsert]
  split
  · rfl
  · rw [newRows, newRows, List.filter_append]
    simp [known]

/-! ### The run on an empty table -/

/-- A run on the table, and the run on an empty one that goes with it. A worker that has not found the
    name of its file is one whose name the table does not have. -/
structure Resumed (fs : FileSystem) (root : CString) (table : List FdbRow) (s s' : FdbState) : Prop where
  exact : FdbExact fs root s'
  same : s = s'.withTable (table ++ newRows table s'.fdbFiles)
  fresh : ∀ w ∈ s'.running, w.stage ≠ .entered → sqlFileExists table w.fw.pushed.bytes = false

section Resumed

variable {fs : FileSystem} {root : CString} {table : List FdbRow} {s t s' : FdbState} {move : FdbMove}
  {i : Nat} {fw : Filework} {stage : WorkStage}

/-- One step of a worker whose buffer is intact. -/
theorem run_of_doWork (running : s.phase ≠ .finished) (alive : s.phase ≠ .aborted)
    (busy : s.running[i]? = some { fw := fw, stage := stage }) (intact : fw.Intact s.memory)
    (h : doWork fs i s = some t) : Run (fdbStep fs) Undisturbed s t := by
  have hguard : Undisturbed s (.work i) := by
    intro w hw
    rw [busy] at hw
    cases hw
    exact intact
  exact (Run.refl s).tail hguard (by rw [fdbStep_work running alive, h])

theorem goOn_busy (busy : s.running[i]? = some { fw := fw, stage := stage }) (next : WorkStage) :
    (s.goOn i fw next).running[i]? = some { fw := fw, stage := next } :=
  List.getElem?_set_self (List.getElem?_eq_some_iff.mp busy).1

theorem goOn_leave (s : FdbState) (i : Nat) (fw : Filework) (stage : WorkStage) :
    (s.goOn i fw stage).leave i = s.leave i := by
  simp only [FdbState.leave, FdbState.goOn, List.eraseIdx_set_eq]

/-- A worker on an empty table is done with a file after some steps of its own, and the row it may leave
    is none the old table lets through. -/
theorem run_known (running : s.phase ≠ .finished) (alive : s.phase ≠ .aborted)
    (busy : s.running[i]? = some { fw := fw, stage := .entered }) (intact : fw.Intact s.memory)
    (length : fw.pathlen = fw.pushed.bytes.length)
    (known : sqlFileExists table fw.pushed.bytes = true) :
    ∃ rows, Run (fdbStep fs) Undisturbed s ((s.leave i).withTable rows) ∧
      newRows table rows = newRows table s.fdbFiles := by
  rcases hexists : sqlFileExists s.fdbFiles fw.pushed.bytes with _ | _
  · have habsent : Run (fdbStep fs) Undisturbed s (s.goOn i fw .absent) := by
      apply run_of_doWork running alive busy intact
      rw [doWork_entered busy intact length, hexists, if_neg Bool.false_ne_true]
    have hbusy := goOn_busy busy .absent
    rcases hmd5 : fs.ioMd5 fw.pushed with _ | md5
    · refine ⟨s.fdbFiles, habsent.trans ?_, rfl⟩
      apply run_of_doWork (s := s.goOn i fw .absent) running alive hbusy intact
      rw [doWork_absent hbusy intact, hmd5]
      exact congrArg some (goOn_leave s i fw .absent)
    · have hhashed : Run (fdbStep fs) Undisturbed (s.goOn i fw .absent)
          ((s.goOn i fw .absent).goOn i fw (.hashed md5)) := by
        apply run_of_doWork (s := s.goOn i fw .absent) running alive hbusy intact
        rw [doWork_absent hbusy intact, hmd5]
      have hbusy' := goOn_busy hbusy (.hashed md5)
      refine ⟨sqlInsert s.fdbFiles { fname := fw.pushed.bytes, fsize := fw.fsize, md5Full := md5 },
        (habsent.trans hhashed).trans ?_, newRows_concat_known known⟩
      apply run_of_doWork (s := (s.goOn i fw .absent).goOn i fw (.hashed md5)) running alive hbusy' intact
      rw [doWork_hashed hbusy' intact length, goOn_leave, goOn_leave]
      rfl
  · refine ⟨s.fdbFiles, run_of_doWork running alive busy intact ?_, rfl⟩
    rw [doWork_entered busy intact length, hexists, if_pos rfl]
    rfl

theorem Resumed.of_run {u : FdbState} (h : Resumed fs root table s s')
    (run : Run (fdbStep fs) Undisturbed s' u)
    (same : t = u.withTable (table ++ newRows table u.fdbFiles))
    (fresh : ∀ w ∈ u.running, w.stage ≠ .entered → sqlFileExists table w.fw.pushed.bytes = false) :
    ∃ t', Run (fdbStep fs) Undisturbed s' t' ∧ Resumed fs root table t t' :=
  ⟨u, run, run.invariant h.exact fun _ _ _ h guard hstep => h.step guard.worksIntact hstep, same, fresh⟩

/-- A worker that leaves, or goes on to a stage, leaves the others as they are. -/
theorem Resumed.fresh_leave (h : Resumed fs root table s s') (i : Nat) :
    ∀ w ∈ (s'.leave i).running, w.stage ≠ .entered → sqlFileExists table w.fw.pushed.bytes = false :=
  fun w hw => h.fresh w (List.mem_of_mem_eraseIdx hw)

theorem Resumed.fresh_goOn (h : Resumed fs root table s s') (i : Nat)
    (unknown : sqlFileExists table fw.pushed.bytes = false) :
    ∀ w ∈ (s'.goOn i fw stage).running, w.stage ≠ .entered →
      sqlFileExists table w.fw.pushed.bytes = false := by
  intro w hw hstage
  rcases List.mem_or_eq_of_mem_set hw with hw | rfl
  · exact h.fresh w hw hstage
  · exact unknown

/-- A step of a worker: the same step, or with a known name all the steps of the task. -/
theorem Resumed.work (h : Resumed fs root table s s') (guard : Undisturbed s (.work i))
    (hstep : fdbStep fs s (.work i) = some t) :
    ∃ t', Run (fdbStep fs) Undisturbed s' t' ∧ Resumed fs root table t t' := by
  obtain ⟨hrunning, halive, _⟩ := fdbStep_moved hstep
  rw [fdbStep_work hrunning halive] at hstep
  have hsame := h.same
  rcases busy : s'.running[i]? with _ | ⟨fw, stage⟩
  · rw [hsame] at hstep
    simp [doWork, FdbState.withTable, busy] at hstep
  · have hbusy : s.running[i]? = some { fw := fw, stage := stage } := by
      rw [hsame]
      exact busy
    have intact : fw.Intact s.memory := guard _ hbusy
    have intact' : fw.Intact s'.memory := by
      rw [hsame] at intact
      exact intact
    have hrunning' : s'.phase ≠ .finished := by
      rw [hsame] at hrunning
      exact hrunning
    have halive' : s'.phase ≠ .aborted := by
      rw [hsame] at halive
      exact halive
    have hmem := List.mem_of_getElem? busy
    have length : fw.pathlen = fw.pushed.bytes.length :=
      (h.exact.tidy.tasks fw (List.mem_append_right _ (List.mem_map.mpr ⟨_, hmem, rfl⟩))).2
    have hfiles : s.fdbFiles = table ++ newRows table s'.fdbFiles := by
      rw [hsame]
      rfl
    cases stage with
    | entered =>
        rw [doWork_entered hbusy intact length, hfiles, sqlFileExists_newRows] at hstep
        rcases known : sqlFileExists table fw.pushed.bytes with _ | _
        · rw [known, Bool.false_or] at hstep
          rcases hexists : sqlFileExists s'.fdbFiles fw.pushed.bytes with _ | _
          · rw [hexists, if_neg Bool.false_ne_true] at hstep
            cases hstep
            refine h.of_run (u := s'.goOn i fw .absent) ?_ ?_ (h.fresh_goOn i known)
            · apply run_of_doWork hrunning' halive' busy intact'
              rw [doWork_entered busy intact' length, hexists, if_neg Bool.false_ne_true]
            · rw [hsame]
              rfl
          · rw [hexists, if_pos rfl] at hstep
            cases hstep
            refine h.of_run (u := s'.leave i) ?_ ?_ (h.fresh_leave i)
            · apply run_of_doWork hrunning' halive' busy intact'
              rw [doWork_entered busy intact' length, hexists, if_pos rfl]
            · rw [hsame]
              rfl
        · rw [known, Bool.true_or, if_pos rfl] at hstep
          cases hstep
          obtain ⟨rows, hrun, hrows⟩ := run_known hrunning' halive' busy intact' length known
          refine h.of_run hrun ?_ (h.fresh_leave i)
          rw [hsame]
          show _ = (s'.leave i).withTable (table ++ newRows table rows)
          rw [hrows]
          rfl
    | absent =>
        have hstage : WorkStage.absent ≠ .entered := by decide
        have unknown := h.fresh _ hmem hstage
        rw [doWork_absent hbusy intact] at hstep
        rcases hmd5 : fs.ioMd5 fw.pushed with _ | md5
        · rw [hmd5] at hstep
          cases hstep
          refine h.of_run (u := s'.leave i) ?_ ?_ (h.fresh_leave i)
          · apply run_of_doWork hrunning' halive' busy intact'
            rw [doWork_absent busy intact', hmd5]
          · rw [hsame]
            rfl
        · rw [hmd5] at hstep
          cases hstep
          refine h.of_run (u := s'.goOn i fw (.hashed md5)) ?_ ?_ (h.fresh_goOn i unknown)
          · apply run_of_doWork hrunning' halive' busy intact'
            rw [doWork_absent busy intact', hmd5]
          · rw [hsame]
            rfl
    | hashed md5 =>
        have hstage : WorkStage.hashed md5 ≠ .entered := by
          intro heq
          cases heq
        have unknown := h.fresh _ hmem hstage
        rw [doWork_hashed hbusy intact length, hfiles, sqlInsert_newRows unknown] at hstep
        cases hstep
        have hwork : doWork fs i s' = some ((s'.leave i).withTable _) := doWork_hashed busy intact' length
        refine h.of_run (run_of_doWork hrunning' halive' busy intact' hwork) ?_ (h.fresh_leave i)
        rw [hsame]
        rfl

/-- A step that is not a worker's is the same step. -/
theorem Resumed.other (h : Resumed fs root table s s') (guard : Undisturbed s move)
    (hstep : fdbStep fs s move = some t) (other : ∀ i, move ≠ .work i) :
    ∃ t', Run (fdbStep fs) Undisturbed s' t' ∧ Resumed fs root table t t' := by
  rw [h.same, fdbStep_withTable fs s' _ other] at hstep
  rcases Option.map_eq_some_iff.mp hstep with ⟨t', hstep', rfl⟩
  have hguard : Undisturbed s' move := by
    rw [h.same] at guard
    cases move <;> exact guard
  have hkept : t'.fdbFiles = s'.fdbFiles ∧ ∀ w ∈ t'.running, w.stage ≠ .entered → w ∈ s'.running := by
    obtain ⟨_, _, hmoved⟩ := fdbStep_moved hstep'
    cases hmoved with
    | walk walking step =>
        obtain ⟨hrunning, hfiles, _⟩ := (h.exact.tidy.walk.moved step).pool h.exact.tidy.walk
        refine ⟨hfiles, ?_⟩
        rw [hrunning]
        exact fun w hw _ => hw
    | @take i fw waiting idle =>
        refine ⟨rfl, ?_⟩
        intro w hw hstage
        rcases List.mem_append.mp hw with hw | hw
        · exact hw
        · rw [List.mem_singleton.mp hw] at hstage
          exact absurd rfl hstage
    | goOn => exact absurd rfl (other _)
    | giveUp => exact absurd rfl (other _)
    | insert => exact absurd rfl (other _)
    | overwrite => exact ⟨rfl, fun w hw _ => hw⟩
    | cancel => exact ⟨rfl, fun w hw _ => hw⟩
    | destroy => exact ⟨rfl, fun w hw _ => hw⟩
  refine h.of_run ((Run.refl s').tail hguard hstep') ?_ ?_
  · rw [hkept.1]
  · exact fun w hw hstage => h.fresh w (hkept.2 w hw hstage) hstage

theorem Resumed.step (h : Resumed fs root table s s') (guard : Undisturbed s move)
    (hstep : fdbStep fs s move = some t) :
    ∃ t', Run (fdbStep fs) Undisturbed s' t' ∧ Resumed fs root table t t' := by
  cases move with
  | work i => exact h.work guard hstep
  | walk | overwrite | take | cancel | destroy => exact h.other guard hstep (fun _ => nofun)

theorem resumed_start (fs : FileSystem) (root : CString) (table : List FdbRow) :
    Resumed fs root table (fdbResume fs root table) (fdbStart fs root) := by
  have hnone : (fdbStart fs root).running = [] ∧ (fdbStart fs root).fdbFiles = [] := walkRecur_pool
  refine ⟨FdbExact.run (Run.refl _), ?_, ?_⟩
  · rw [hnone.2, newRows, List.filter_nil, List.append_nil]
    exact walkRecur_withTable fs root { stack := [], memory := fun _ => [], pending := [], running := [],
                                        fdbFiles := [], phase := .walking } table
  · rw [hnone.1]
    exact fun _ hw => absurd hw List.not_mem_nil

theorem Resumed.run (run : Run (fdbStep fs) Undisturbed (fdbResume fs root table) s) :
    ∃ s', Run (fdbStep fs) Undisturbed (fdbStart fs root) s' ∧ Resumed fs root table s s' :=
  run.simulate (resumed_start fs root table) fun _ _ _ _ h guard hstep => h.step guard hstep

/-- An undisturbed run on the table of earlier runs is one on an empty table: the old rows stay where they
    are, and behind them come the rows of the other run whose names are new, in the same order. -/
theorem fdbResume_refines (run : Run (fdbStep fs) Undisturbed (fdbResume fs root table) s) :
    ∃ s', Run (fdbStep fs) Undisturbed (fdbStart fs root) s' ∧
      s = { s' with fdbFiles := table ++ newRows table s'.fdbFiles } := by
  obtain ⟨s', run', resumed⟩ := Resumed.run run
  exact ⟨s', run', resumed.same⟩

end Resumed

/-- The row of `A` from a time when the file was empty. -/
def staleRow : FdbRow :=
  { fname := fileA.path.bytes, fsize := 0, md5Full := "d41d8cd98f00b204e9800998ecf8427e".toUTF8.toList }

/-- The program runs to its end over two files, on a table with an old row of one of them. -/
theorem fdbResume_refines_stale :
    ∃ s, Run (fdbStep twoFiles) Undisturbed (fdbResume twoFiles dirD [staleRow]) s ∧
      s.fdbFiles.map FdbRow.fname = [fileA.path.bytes, fileB.path.bytes] ∧
      ∃ s', Run (fdbStep twoFiles) Undisturbed (fdbStart twoFiles dirD) s' ∧
        s = { s' with fdbFiles := [staleRow] ++ newRows [staleRow] s'.fdbFiles } := by
  have hrun : ∃ s, Run (fdbStep twoFiles) Undisturbed (fdbResume twoFiles dirD [staleRow]) s ∧
      s.fdbFiles.map FdbRow.fname = [fileA.path.bytes, fileB.path.bytes] := by
    apply exists_run_of_follow [.walk, .walk, .take 0, .work 0, .walk, .walk, .take 0, .work 0, .work 0,
      .work 0, .walk, .cancel, .destroy]
    decide +kernel
  rcases hrun with ⟨s, run, hnames⟩
  exact ⟨s, run, hnames, fdbResume_refines run⟩

/-- Where the table has a name for every regular file under the root, an undisturbed run leaves it as it is
    at every moment, and no worker gets past its look at the table: no file is read. -/
theorem fdbResume_known {fs : FileSystem} {root : CString} {table : List FdbRow} {s : FdbState}
    (known : ∀ path size, RegularFile fs root path size → sqlFileExists table path.bytes = true)
    (run : Run (fdbStep fs) Undisturbed (fdbResume fs root table) s) :
    s.fdbFiles = table ∧ ∀ w ∈ s.running, w.stage = .entered := by
  obtain ⟨s', run', resumed⟩ := Resumed.run run
  have hnone : newRows table s'.fdbFiles = [] := by
    apply List.filter_eq_nil_iff.mpr
    intro row hrow
    obtain ⟨path, hname, hfile, _⟩ := resumed.exact.exact row hrow
    rw [hname, known path row.fsize hfile]
    exact Bool.false_ne_true
  constructor
  · rw [resumed.same, hnone, List.append_nil]
    rfl
  · intro w hw
    rw [resumed.same] at hw
    have hfile := (resumed.exact.tidy.tasks w.fw
      (List.mem_append_right _ (List.mem_map_of_mem (show w ∈ s'.running from hw)))).1
    by_contra hstage
    have unknown := resumed.fresh w hw hstage
    rw [known _ _ hfile] at unknown
    cases unknown

/-- Over two files the table knows. -/
theorem fdbResume_known_two :
    ∃ s, Run (fdbStep twoFiles) Undisturbed
        (fdbResume twoFiles dirD [staleRow, { staleRow with fname := fileB.path.bytes }]) s ∧
      s.running.length = 2 ∧
      s.fdbFiles = [staleRow, { staleRow with fname := fileB.path.bytes }] ∧
      ∀ w ∈ s.running, w.stage = .entered := by
  have known : ∀ path size, RegularFile twoFiles dirD path size →
      sqlFileExists [staleRow, { staleRow with fname := fileB.path.bytes }] path.bytes = true := by
    rintro path size ⟨d, e, st, _, hentry, _, _, rfl, _⟩
    by_cases hd : d = dirD
    · subst hd
      have hentries : twoFiles.entries dirD = [entryA, entryB] := rfl
      rw [hentries] at hentry
      rcases List.mem_cons.mp hentry with rfl | hentry
      · decide +kernel
      · obtain rfl := List.mem_singleton.mp hentry
        decide +kernel
    · simp [FileSystem.entries, twoFiles, hd] at hentry
  have hrun : ∃ s, Run (fdbStep twoFiles) Undisturbed
      (fdbResume twoFiles dirD [staleRow, { staleRow with fname := fileB.path.bytes }]) s ∧
      s.running.length = 2 := by
    apply exists_run_of_follow [.walk, .walk, .take 0, .walk, .walk, .take 0]
    decide +kernel
  rcases hrun with ⟨s, run, htwo⟩
  exact ⟨s, run, htwo, fdbResume_known known run⟩

/-! ### One run after the other -/

/-- A run of the program: the files as it finds them, and the directory it is given. -/
structure Visit where
  fs : FileSystem
  root : CString

/-- The row of a regular file that the visit comes to and can read. -/
def Visit.Row (v : Visit) (row : FdbRow) : Prop :=
  ∃ path, row.fname = path.bytes ∧ RegularFile v.fs v.root path row.fsize ∧
    v.fs.ioMd5 path = some row.md5Full

/-- Runs on one database from its creation on, each of them undisturbed and to its end. -/
inductive CompletedRuns : List Visit → List FdbRow → Prop where
  | create : CompletedRuns [] []
  | next {visits : List Visit} {table : List FdbRow} {v : Visit} {s : FdbState}
      (before : CompletedRuns visits table)
      (run : Run (fdbStep v.fs) Undisturbed (fdbResume v.fs v.root table) s) (done : s.phase = .finished) :
      CompletedRuns (visits ++ [v]) s.fdbFiles

/-- A row of the first visit that came to its path. -/
def FirstSeen (visits : List Visit) (row : FdbRow) : Prop :=
  ∃ before v after, visits = before ++ v :: after ∧ v.Row row ∧
    ∀ u ∈ before, ∀ old, u.Row old → old.fname ≠ row.fname

theorem firstSeen_concat (visits : List Visit) (v : Visit) (row : FdbRow) :
    FirstSeen (visits ++ [v]) row ↔
      FirstSeen visits row ∨ (v.Row row ∧ ∀ u ∈ visits, ∀ old, u.Row old → old.fname ≠ row.fname) := by
  constructor
  · rintro ⟨before, w, after, hsplit, hrow, hfirst⟩
    rcases List.eq_nil_or_concat after with rfl | ⟨after, u, rfl⟩
    · obtain ⟨rfl, hlast⟩ := List.append_inj' hsplit rfl
      obtain rfl : v = w := by simpa using hlast
      exact Or.inr ⟨hrow, hfirst⟩
    · rw [List.concat_eq_append, ← List.cons_append, ← List.append_assoc] at hsplit
      obtain ⟨rfl, _⟩ := List.append_inj' hsplit rfl
      exact Or.inl ⟨before, w, after, rfl, hrow, hfirst⟩
  · rintro (⟨before, w, after, rfl, hrow, hfirst⟩ | ⟨hrow, hfirst⟩)
    · exact ⟨before, w, after ++ [v], by simp, hrow, hfirst⟩
    · exact ⟨visits, v, [], rfl, hrow, hfirst⟩

section Sessions

variable {fs : FileSystem} {root : CString} {s : FdbState} {table : List FdbRow}

theorem mem_append_newRows (table rows : List FdbRow) (row : FdbRow) :
    row ∈ table ++ newRows table rows ↔
      row ∈ table ∨ (row ∈ rows ∧ ∀ old ∈ table, old.fname ≠ row.fname) := by
  rw [List.mem_append, newRows, List.mem_filter, Bool.not_eq_true', ← Bool.not_eq_true,
    sqlFileExists_iff]
  simp only [not_exists, not_and, ne_eq]

/-- The rows of a move's end without those in front. -/
theorem FdbMoved.withTable {t : FdbState} {move : FdbMove} {new : List FdbRow}
    (h : FdbMoved fs s move t) (files : s.fdbFiles = table ++ new) :
    ∃ added, t.fdbFiles = s.fdbFiles ++ added ∧
      FdbMoved fs (s.withTable new) move (t.withTable (new ++ added)) ∧
      ((s.fdbFiles.map FdbRow.fname).Nodup → (t.fdbFiles.map FdbRow.fname).Nodup) := by
  have hsame : ∀ {t : FdbState}, t.fdbFiles = s.fdbFiles →
      FdbMoved fs (s.withTable new) move (t.withTable new) →
      ∃ added, t.fdbFiles = s.fdbFiles ++ added ∧
        FdbMoved fs (s.withTable new) move (t.withTable (new ++ added)) ∧
        ((s.fdbFiles.map FdbRow.fname).Nodup → (t.fdbFiles.map FdbRow.fname).Nodup) := by
    intro t hfiles hmoved
    refine ⟨[], ?_, ?_, ?_⟩
    · rw [hfiles, List.append_nil]
    · rw [List.append_nil]
      exact hmoved
    · rw [hfiles]
      exact id
  cases h with
  | walk walking step =>
      have hkept := walkStep_withTable fs s s.fdbFiles
      have hdropped := walkStep_withTable fs s new
      rw [step] at hdropped
      rw [show s.withTable s.fdbFiles = s from rfl, step] at hkept
      have htable : t = t.withTable s.fdbFiles := Option.some.inj hkept
      have hfiles : t.fdbFiles = (t.withTable s.fdbFiles).fdbFiles := congrArg FdbState.fdbFiles htable
      exact hsame hfiles (.walk walking hdropped)
  | overwrite dead => exact hsame rfl (.overwrite dead)
  | take waiting idle => exact hsame rfl (.take waiting idle)
  | goOn busy next => exact hsame rfl (.goOn busy next)
  | giveUp busy => exact hsame rfl (.giveUp busy)
  | cancel walked empty => exact hsame rfl (.cancel walked empty)
  | destroy cancelled idle => exact hsame rfl (.destroy cancelled idle)
  | @insert i fw md5 busy fresh =>
      refine ⟨_, rfl, .insert (s := s.withTable new) busy ?_, ?_⟩
      · rw [files, sqlFileExists, List.any_append, Bool.or_eq_false_iff] at fresh
        exact fresh.2
      · intro nodup
        rw [List.map_append, List.map_singleton, List.nodup_append]
        refine ⟨nodup, List.nodup_singleton _, ?_⟩
        intro name hname name' hname'
        rw [List.mem_singleton.mp hname']
        rintro rfl
        obtain ⟨row, hrow, heq⟩ := List.mem_map.mp hname
        rw [(sqlFileExists_iff _ _).mpr ⟨row, hrow, heq⟩] at fresh
        cases fresh

/-- What a run on a table leaves of it and adds to it, whatever the workers read. -/
structure Added (fs : FileSystem) (root : CString) (table : List FdbRow) (s : FdbState)
    (new : List FdbRow) : Prop where
  files : s.fdbFiles = table ++ new
  tidy : FdbTidy fs root (s.withTable new)
  names : (s.fdbFiles.map FdbRow.fname).Nodup

theorem Added.run (names : (table.map FdbRow.fname).Nodup)
    (run : Run (fdbStep fs) (fun _ _ => True) (fdbResume fs root table) s) :
    ∃ new, Added fs root table s new := by
  have hstart : Added fs root table (fdbResume fs root table) [] := by
    have htable : (fdbResume fs root table).fdbFiles = table := walkRecur_pool.2
    have htidy : FdbTidy fs root ((fdbResume fs root table).withTable []) := by
      rw [show (fdbResume fs root table).withTable [] = fdbStart fs root from
        (walkRecur_withTable fs root _ []).symm]
      exact fdbStart_tidy fs root
    refine ⟨?_, htidy, ?_⟩
    · rw [htable, List.append_nil]
    · rw [htable]
      exact names
  have hstart' : ∃ new, Added fs root table (fdbResume fs root table) new := ⟨[], hstart⟩
  apply run.invariant hstart'
  rintro s move t ⟨new, hfiles, htidy, hnames⟩ _ hstep
  obtain ⟨_, halive, hmoved⟩ := fdbStep_moved hstep
  obtain ⟨added, hadded, hmoved', hnodup⟩ := hmoved.withTable hfiles
  refine ⟨new ++ added, ?_, htidy.step halive hmoved', hnodup hnames⟩
  rw [hadded, hfiles, List.append_assoc]

end Sessions

/-- Runs on one database, one after the other; each of them may end at any moment, and its workers may read
    buffers that were written again. -/
inductive InterruptedRuns (start : List FdbRow) : List (FileSystem × CString) → List FdbRow → Prop where
  | start : InterruptedRuns start [] start
  | next {visits : List (FileSystem × CString)} {table : List FdbRow} {fs : FileSystem} {root : CString}
      {s : FdbState} (before : InterruptedRuns start visits table)
      (run : Run (fdbStep fs) (fun _ _ => True) (fdbResume fs root table) s) :
      InterruptedRuns start (visits ++ [(fs, root)]) s.fdbFiles

/-- Whatever happens to the runs, the rows of a database stay as they are, no path gets a second row, and
    each new row has the size of a regular file and the digest of a file of one of the visits. -/
theorem interruptedRuns_tidy {start table : List FdbRow} {visits : List (FileSystem × CString)}
    (names : (start.map FdbRow.fname).Nodup) (runs : InterruptedRuns start visits table) :
    start <+: table ∧ (table.map FdbRow.fname).Nodup ∧
      ∀ row ∈ table, row ∈ start ∨ ∃ visit ∈ visits,
        (∃ path, RegularFile visit.1 visit.2 path row.fsize) ∧
          ∃ path, visit.1.ioMd5 path = some row.md5Full := by
  induction runs with
  | start => exact ⟨List.prefix_refl _, names, fun row hrow => Or.inl hrow⟩
  | @next visits table fs root s before run ih =>
      obtain ⟨hkeep, hnames, hrows⟩ := ih
      obtain ⟨new, hfiles, htidy, hnodup⟩ := Added.run hnames run
      refine ⟨hkeep.trans ?_, hnodup, ?_⟩
      · rw [hfiles]
        exact List.prefix_append _ _
      · intro row hrow
        rw [hfiles] at hrow
        rcases List.mem_append.mp hrow with hrow | hrow
        · rcases hrows row hrow with hold | ⟨visit, hvisit, hrow⟩
          · exact Or.inl hold
          · exact Or.inr ⟨visit, List.mem_append_left _ hvisit, hrow⟩
        · exact Or.inr ⟨(fs, root), List.mem_append_right _ (List.mem_singleton_self _),
            htidy.rows row hrow⟩

/-- A database with an old row, after a run that is killed when it has inserted another. -/
theorem interruptedRuns_tidy_stale :
    ∃ table, InterruptedRuns [staleRow] [(twoFiles, dirD)] table ∧ table.length = 2 ∧
      [staleRow] <+: table ∧ (table.map FdbRow.fname).Nodup ∧
      ∀ row ∈ table, row ∈ [staleRow] ∨ ∃ visit ∈ [(twoFiles, dirD)],
        (∃ path, RegularFile visit.1 visit.2 path row.fsize) ∧
          ∃ path, visit.1.ioMd5 path = some row.md5Full := by
  have hrun : ∃ s, Run (fdbStep twoFiles) (fun _ _ => True) (fdbResume twoFiles dirD [staleRow]) s ∧
      s.fdbFiles.length = 2 := by
    apply exists_run_of_follow [.walk, .walk, .walk, .walk, .take 1, .work 0, .work 0, .work 0]
    decide +kernel
  rcases hrun with ⟨s, run, htwo⟩
  have runs : InterruptedRuns [staleRow] ([] ++ [(twoFiles, dirD)]) s.fdbFiles := .next .start run
  exact ⟨s.fdbFiles, runs, htwo, interruptedRuns_tidy (by decide) runs⟩

/-! ### First sight -/

section Completed

variable {visits : List Visit} {table : List FdbRow}

theorem CompletedRuns.names (runs : CompletedRuns visits table) : (table.map FdbRow.fname).Nodup := by
  induction runs with
  | create => exact List.nodup_nil
  | next _ run _ ih =>
      obtain ⟨new, added⟩ := Added.run ih (run.mono fun _ _ _ => trivial)
      exact added.names

/-- What one more run makes of the table. -/
theorem mem_after_visit {v : Visit} {s : FdbState}
    (run : Run (fdbStep v.fs) Undisturbed (fdbResume v.fs v.root table) s) (done : s.phase = .finished)
    (row : FdbRow) :
    row ∈ s.fdbFiles ↔ row ∈ table ∨ (v.Row row ∧ ∀ old ∈ table, old.fname ≠ row.fname) := by
  obtain ⟨s', run', resumed⟩ := Resumed.run run
  have hdone : s'.phase = .finished := by
    rw [resumed.same] at done
    exact done
  rw [Visit.Row, ← fdbRun_complete run' hdone row, ← mem_append_newRows, resumed.same]
  rfl

/-- The table has the names that have been seen. -/
theorem CompletedRuns.seen (runs : CompletedRuns visits table) (fname : List UInt8) :
    (∃ row ∈ table, row.fname = fname) ↔ ∃ v ∈ visits, ∃ row, v.Row row ∧ row.fname = fname := by
  induction runs with
  | create => simp
  | @next visits table v s before run done ih =>
      constructor
      · rintro ⟨row, hrow, hname⟩
        rcases (mem_after_visit run done row).mp hrow with hold | ⟨hnew, _⟩
        · obtain ⟨u, hu, hseen⟩ := ih.mp ⟨row, hold, hname⟩
          exact ⟨u, List.mem_append_left _ hu, hseen⟩
        · exact ⟨v, List.mem_append_right _ (List.mem_singleton_self v), row, hnew, hname⟩
      · rintro ⟨u, hu, row, hrow, hname⟩
        by_cases hknown : ∃ old ∈ table, old.fname = fname
        · obtain ⟨old, hold, hname'⟩ := hknown
          exact ⟨old, (mem_after_visit run done old).mpr (Or.inl hold), hname'⟩
        · rcases List.mem_append.mp hu with hu | hu
          · exact absurd (ih.mpr ⟨u, hu, row, hrow, hname⟩) hknown
          · obtain rfl := List.mem_singleton.mp hu
            refine ⟨row, (mem_after_visit run done row).mpr (Or.inr ⟨hrow, ?_⟩), hname⟩
            intro old hold hsame
            exact hknown ⟨old, hold, hsame.trans hname⟩

/-- The index of runs that went well: one row for each path that any of them came to and could read, with
    the size and the digest of the first one that did. A file that changes later keeps its row, and so does
    one that is deleted; one that could not be read has a row from the first run on that reads it. -/
theorem completedRuns_first (runs : CompletedRuns visits table) :
    (table.map FdbRow.fname).Nodup ∧ ∀ row, row ∈ table ↔ FirstSeen visits row := by
  refine ⟨runs.names, ?_⟩
  induction runs with
  | create =>
      intro row
      constructor
      · exact fun hrow => absurd hrow List.not_mem_nil
      · rintro ⟨before, v, after, hsplit, _⟩
        cases before <;> cases hsplit
  | @next visits table v s before run done ih =>
      intro row
      have hunseen : (∀ old ∈ table, old.fname ≠ row.fname) ↔
          ∀ u ∈ visits, ∀ old, u.Row old → old.fname ≠ row.fname := by
        have hseen := not_congr (before.seen row.fname)
        simpa only [not_exists, not_and] using hseen
      rw [mem_after_visit run done row, firstSeen_concat, ih row, hunseen]

end Completed

/-- The directory of `twoFiles` when `A` was empty, and `B` could not be opened. -/
def lockedB : FileSystem where
  opendir d := if d = dirD then some [entryA, entryB] else none
  stat path :=
    if path = fileA.path then some { stSize := 0, isDir := false }
    else if path = fileB.path then some { stSize := 7, isDir := false }
    else none
  ioMd5 path := if path = fileA.path then some staleRow.md5Full else none

/-- Between two runs the file `A` grows and keeps the row of the first, and `B` becomes readable. -/
theorem completedRuns_first_two :
    ∃ table, CompletedRuns [⟨lockedB, dirD⟩, ⟨twoFiles, dirD⟩] table ∧ table.map FdbRow.fsize = [0, 2] ∧
      (table.map FdbRow.fname).Nodup ∧
        ∀ row, row ∈ table ↔ FirstSeen [⟨lockedB, dirD⟩, ⟨twoFiles, dirD⟩] row := by
  have hfirst : ∃ s, Run (fdbStep lockedB) Undisturbed (fdbResume lockedB dirD []) s ∧
      s.phase = .finished ∧ s.fdbFiles = [staleRow] := by
    apply exists_run_of_follow [.walk, .walk, .take 0, .work 0, .work 0, .work 0, .walk, .walk, .take 0,
      .work 0, .work 0, .walk, .cancel, .destroy]
    decide +kernel
  have hsecond : ∃ s, Run (fdbStep twoFiles) Undisturbed (fdbResume twoFiles dirD [staleRow]) s ∧
      s.phase = .finished ∧ s.fdbFiles.map FdbRow.fsize = [0, 2] := by
    apply exists_run_of_follow [.walk, .walk, .take 0, .work 0, .walk, .walk, .take 0, .work 0, .work 0,
      .work 0, .walk, .cancel, .destroy]
    decide +kernel
  rcases hfirst with ⟨s, run, done, htable⟩
  rcases hsecond with ⟨t, later, done', hsizes⟩
  have one : CompletedRuns ([] ++ [⟨lockedB, dirD⟩]) s.fdbFiles := .next .create run done
  rw [htable] at one
  have two : CompletedRuns ([⟨lockedB, dirD⟩] ++ [⟨twoFiles, dirD⟩]) t.fdbFiles := .next one later done'
  exact ⟨t.fdbFiles, two, hsizes, completedRuns_first two⟩

end Dach
