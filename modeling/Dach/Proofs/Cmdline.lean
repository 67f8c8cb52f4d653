/-
Module: Dach.Proofs.Cmdline
Layer: Proofs
Purpose: What the option parser makes of a command line: the parts of one kind of option do not see the
  other kinds, so that the order of the options does not matter; and the configuration that comes of it.
Imports: Dach.Core.Cmdline
Trusted boundary: none
Main exports: updateArgs_some, parseOptions_slots, parseOptions_perm,
  cmdlineParser_slots, dachMainConfig_options
-/
import Dach.Core.Cmdline

namespace Dach

/-! ### One kind of option -/

/-- A slot nothing has been given for takes one value at most. -/
theorem updateArgs_some {α : Type} {slot slot' : OptionSlot α} {converts : List (Option α)}
    (hgiven : slot.given = 0) (hprev : slot.prevGiven = 0)
    (h : converts.foldlM updateArg slot = some slot') :
    (converts = [] ∧ slot' = slot) ∨
      ∃ a, converts = [some a] ∧ slot' = { arg := a, given := 1, prevGiven := 1 } := by
  cases converts with
  | nil =>
      left
      exact ⟨rfl, (Option.some.inj h).symm⟩
  | cons convert converts =>
      right
      rw [List.foldlM_cons] at h
      obtain ⟨first, hfirst, hrest⟩ := Option.bind_eq_some_iff.mp h
      unfold updateArg at hfirst
      rw [if_neg (by simp [hprev]), if_neg (by simp [hgiven])] at hfirst
      rcases convert with _ | a
      · cases hfirst
      · obtain rfl := Option.some.inj hfirst
        cases converts with
        | nil =>
            refine ⟨a, rfl, ?_⟩
            rw [← Option.some.inj hrest, hgiven, hprev]
        | cons convert converts =>
            -- a second one is refused
            rw [List.foldlM_cons] at hrest
            unfold updateArg at hrest
            rw [if_pos (by simp)] at hrest
            cases hrest

/-- A slot counts as given with the value that has been given for it. -/
theorem updateArgs_given_iff {α : Type} {slot slot' : OptionSlot α} {converts : List (Option α)}
    (hgiven : slot.given = 0) (hprev : slot.prevGiven = 0)
    (h : converts.foldlM updateArg slot = some slot') (a : α) :
    (slot'.given ≠ 0 ∧ slot'.arg = a) ↔ some a ∈ converts := by
  rcases updateArgs_some hgiven hprev h with ⟨rfl, rfl⟩ | ⟨b, rfl, rfl⟩
  · simp [hgiven]
  · simp [eq_comm]

/-- What an option gives to the slot of `--file`. -/
def GetoptResult.fileArg : GetoptResult → Option (Option (Option CString))
  | .file optarg => some (some (some optarg))
  | _ => none

/-- What an option gives to the slot of `--threads`. -/
def GetoptResult.threadsArg : GetoptResult → Option (Option Int)
  | .threads optarg => some (argInt optarg)
  | _ => none

/-- What an option gives to the slot of `--block_size`. -/
def GetoptResult.blockSizeArg : GetoptResult → Option (Option Int)
  | .blockSize optarg => some (argInt optarg)
  | _ => none

theorem some_mem_threadsArg {results : List GetoptResult} {n : Int} :
    some n ∈ results.filterMap GetoptResult.threadsArg ↔
      ∃ optarg, .threads optarg ∈ results ∧ argInt optarg = some n := by
  rw [List.mem_filterMap]
  constructor
  · rintro ⟨option, hmem, hoption⟩
    cases option with
    | threads optarg => exact ⟨optarg, hmem, Option.some.inj hoption⟩
    | _ => cases hoption
  · rintro ⟨optarg, hmem, hoption⟩
    exact ⟨.threads optarg, hmem, congrArg some hoption⟩

theorem some_mem_blockSizeArg {results : List GetoptResult} {n : Int} :
    some n ∈ results.filterMap GetoptResult.blockSizeArg ↔
      ∃ optarg, .blockSize optarg ∈ results ∧ argInt optarg = some n := by
  rw [List.mem_filterMap]
  constructor
  · rintro ⟨option, hmem, hoption⟩
    cases option with
    | blockSize optarg => exact ⟨optarg, hmem, Option.some.inj hoption⟩
    | _ => cases hoption
  · rintro ⟨optarg, hmem, hoption⟩
    exact ⟨.blockSize optarg, hmem, congrArg some hoption⟩

/-- The options of a kind and their slot. -/
structure SlotsAfter (results : List GetoptResult) (ai ai' : ArgsInfo) : Prop where
  file : (results.filterMap GetoptResult.fileArg).foldlM updateArg ai.file = some ai'.file
  threads : (results.filterMap GetoptResult.threadsArg).foldlM updateArg ai.threads = some ai'.threads
  blockSize :
    (results.filterMap GetoptResult.blockSizeArg).foldlM updateArg ai.blockSize = some ai'.blockSize

/-- What an option that is taken does: it fills its own slot and leaves the others alone. -/
theorem parseOption_cases {option : GetoptResult} {ai next : ArgsInfo}
    (h : parseOption ai option = .ok next) :
    (∃ optarg slot, option = .file optarg ∧ updateArg ai.file (some (some optarg)) = some slot ∧
      next = { ai with file := slot }) ∨
    (∃ optarg slot, option = .threads optarg ∧ updateArg ai.threads (argInt optarg) = some slot ∧
      next = { ai with threads := slot }) ∨
    (∃ optarg slot, option = .blockSize optarg ∧ updateArg ai.blockSize (argInt optarg) = some slot ∧
      next = { ai with blockSize := slot }) ∨
    (∃ slot, option = .console ∧ updateArg ai.console (some !ai.console.arg) = some slot ∧
      next = { ai with console := slot }) := by
  cases option with
  | help => cases h
  | version => cases h
  | invalid => cases h
  | file optarg =>
      simp only [parseOption] at h
      split at h
      · cases h
      · exact .inl ⟨optarg, _, rfl, ‹_›, (Except.ok.inj h).symm⟩
  | threads optarg =>
      simp only [parseOption] at h
      split at h
      · cases h
      · exact .inr (.inl ⟨optarg, _, rfl, ‹_›, (Except.ok.inj h).symm⟩)
  | blockSize optarg =>
      simp only [parseOption] at h
      split at h
      · cases h
      · exact .inr (.inr (.inl ⟨optarg, _, rfl, ‹_›, (Except.ok.inj h).symm⟩))
  | console =>
      simp only [parseOption] at h
      split at h
      · cases h
      · exact .inr (.inr (.inr ⟨_, rfl, ‹_›, (Except.ok.inj h).symm⟩))

section Taken

variable {ai : ArgsInfo} {optarg : CString}

theorem parseOption_file {slot : OptionSlot (Option CString)}
    (h : updateArg ai.file (some (some optarg)) = some slot) :
    parseOption ai (.file optarg) = .ok { ai with file := slot } := by
  simp only [parseOption, h]

theorem parseOption_threads {slot : OptionSlot Int}
    (h : updateArg ai.threads (argInt optarg) = some slot) :
    parseOption ai (.threads optarg) = .ok { ai with threads := slot } := by
  simp only [parseOption, h]

theorem parseOption_blockSize {slot : OptionSlot Int}
    (h : updateArg ai.blockSize (argInt optarg) = some slot) :
    parseOption ai (.blockSize optarg) = .ok { ai with blockSize := slot } := by
  simp only [parseOption, h]

theorem parseOption_console {slot : OptionSlot Bool}
    (h : updateArg ai.console (some !ai.console.arg) = some slot) :
    parseOption ai .console = .ok { ai with console := slot } := by
  simp only [parseOption, h]

end Taken

/-- One option, in front of others. -/
theorem parseOption_slots {option : GetoptResult} {results : List GetoptResult} {ai next ai' : ArgsInfo}
    (hoption : parseOption ai option = .ok next) (hrest : SlotsAfter results next ai') :
    SlotsAfter (option :: results) ai ai' := by
  obtain ⟨hfile, hthreads, hblockSize⟩ := hrest
  rcases parseOption_cases hoption with ⟨optarg, slot, rfl, hslot, rfl⟩ | ⟨optarg, slot, rfl, hslot, rfl⟩ |
    ⟨optarg, slot, rfl, hslot, rfl⟩ | ⟨slot, rfl, hslot, rfl⟩
  · refine ⟨?_, hthreads, hblockSize⟩
    simp only [List.filterMap_cons, GetoptResult.fileArg, List.foldlM_cons, hslot]
    exact hfile
  · refine ⟨hfile, ?_, hblockSize⟩
    simp only [List.filterMap_cons, GetoptResult.threadsArg, List.foldlM_cons, hslot]
    exact hthreads
  · refine ⟨hfile, hthreads, ?_⟩
    simp only [List.filterMap_cons, GetoptResult.blockSizeArg, List.foldlM_cons, hslot]
    exact hblockSize
  · exact ⟨hfile, hthreads, hblockSize⟩

theorem parseOptions_slots {results : List GetoptResult} : ∀ {ai ai' : ArgsInfo},
    results.foldlM parseOption ai = .ok ai' → SlotsAfter results ai ai' := by
  induction results with
  | nil =>
      intro ai ai' h
      cases h
      exact ⟨rfl, rfl, rfl⟩
  | cons option results ih =>
      intro ai ai' h
      rw [List.foldlM_cons] at h
      cases hoption : parseOption ai option with
      | error status =>
          rw [hoption] at h
          cases h
      | ok next =>
          rw [hoption] at h
          exact parseOption_slots hoption (ih h)

/-! ### The order of the options -/

/-- A slot takes two values in a row only where it ignores every value. -/
theorem updateArg_twice {α : Type} {slot next slot' : OptionSlot α} {first second : Option α}
    (hfirst : updateArg slot first = some next) (hsecond : updateArg next second = some slot') :
    next = slot ∧ slot' = slot ∧ ∀ convert, updateArg slot convert = some slot := by
  unfold updateArg at *
  by_cases hprev : slot.prevGiven ≠ 0
  · simp [hprev] at hfirst
  · by_cases hgiven : slot.given ≠ 0
    · rw [if_neg hprev, if_pos hgiven] at hfirst
      obtain rfl := Option.some.inj hfirst
      rw [if_neg hprev, if_pos hgiven] at hsecond
      exact ⟨rfl, (Option.some.inj hsecond).symm, fun _ => by rw [if_neg hprev, if_pos hgiven]⟩
    · rw [if_neg hprev, if_neg hgiven] at hfirst
      cases first with
      | none => cases hfirst
      | some a =>
          -- the first one has been counted
          obtain rfl := Option.some.inj hfirst
          rw [if_pos (by simp)] at hsecond
          cases hsecond

/-- Two options next to each other. -/
theorem parseOption_comm {first second : GetoptResult} {ai next ai' : ArgsInfo}
    (hfirst : parseOption ai first = .ok next) (hsecond : parseOption next second = .ok ai') :
    ∃ other, parseOption ai second = .ok other ∧ parseOption other first = .ok ai' := by
  rcases parseOption_cases hfirst with ⟨_, _, rfl, hslot, rfl⟩ | ⟨_, _, rfl, hslot, rfl⟩ |
    ⟨_, _, rfl, hslot, rfl⟩ | ⟨_, rfl, hslot, rfl⟩ <;>
  rcases parseOption_cases hsecond with ⟨_, _, rfl, hslot', rfl⟩ | ⟨_, _, rfl, hslot', rfl⟩ |
    ⟨_, _, rfl, hslot', rfl⟩ | ⟨_, rfl, hslot', rfl⟩
  · obtain ⟨rfl, rfl, hany⟩ := updateArg_twice hslot hslot'
    exact ⟨_, parseOption_file (hany _), parseOption_file (hany _)⟩
  · exact ⟨_, parseOption_threads hslot', parseOption_file hslot⟩
  · exact ⟨_, parseOption_blockSize hslot', parseOption_file hslot⟩
  · exact ⟨_, parseOption_console hslot', parseOption_file hslot⟩
  · exact ⟨_, parseOption_file hslot', parseOption_threads hslot⟩
  · obtain ⟨rfl, rfl, hany⟩ := updateArg_twice hslot hslot'
    exact ⟨_, parseOption_threads (hany _), parseOption_threads (hany _)⟩
  · exact ⟨_, parseOption_blockSize hslot', parseOption_threads hslot⟩
  · exact ⟨_, parseOption_console hslot', parseOption_threads hslot⟩
  · exact ⟨_, parseOption_file hslot', parseOption_blockSize hslot⟩
  · exact ⟨_, parseOption_threads hslot', parseOption_blockSize hslot⟩
  · obtain ⟨rfl, rfl, hany⟩ := updateArg_twice hslot hslot'
    exact ⟨_, parseOption_blockSize (hany _), parseOption_blockSize (hany _)⟩
  · exact ⟨_, parseOption_console hslot', parseOption_blockSize hslot⟩
  · exact ⟨_, parseOption_file hslot', parseOption_console hslot⟩
  · exact ⟨_, parseOption_threads hslot', parseOption_console hslot⟩
  · exact ⟨_, parseOption_blockSize hslot', parseOption_console hslot⟩
  · obtain ⟨rfl, rfl, hany⟩ := updateArg_twice hslot hslot'
    exact ⟨_, parseOption_console (hany _), parseOption_console (hany _)⟩

/-- The options in another order. -/
theorem parseOptions_perm {results results' : List GetoptResult} (hperm : results.Perm results') :
    ∀ {ai ai' : ArgsInfo}, results.foldlM parseOption ai = .ok ai' →
      results'.foldlM parseOption ai = .ok ai' := by
  induction hperm with
  | nil => exact fun h => h
  | cons option _ ih =>
      intro ai ai' h
      rw [List.foldlM_cons] at h ⊢
      cases hoption : parseOption ai option with
      | error status =>
          rw [hoption] at h
          cases h
      | ok next =>
          rw [hoption] at h
          exact ih h
  | swap first second tail =>
      intro ai ai' h
      simp only [List.foldlM_cons] at h ⊢
      cases hsecond : parseOption ai second with
      | error status =>
          rw [hsecond] at h
          cases h
      | ok next =>
          rw [hsecond] at h
          change (parseOption next first >>= _) = _ at h
          cases hfirst : parseOption next first with
          | error status =>
              rw [hfirst] at h
              cases h
          | ok last =>
              rw [hfirst] at h
              obtain ⟨other, hother, hlast⟩ := parseOption_comm hsecond hfirst
              rw [hother]
              change (parseOption other second >>= _) = _
              rw [hlast]
              exact h
  | trans _ _ ih ih' => exact fun h => ih' (ih h)

/-! ### The configuration -/

theorem cmdlineParser_ok_iff {results : List GetoptResult} {ai : ArgsInfo} :
    cmdlineParser results = .ok ai ↔
      results.foldlM parseOption cmdlineParserInit = .ok ai ∧ ai.file.given ≠ 0 := by
  unfold cmdlineParser
  cases results.foldlM parseOption cmdlineParserInit with
  | error status => simp [bind, Except.bind]
  | ok parsed =>
      by_cases hgiven : parsed.file.given = 0
      · simp only [bind, Except.bind, if_pos hgiven]
        constructor
        · rintro ⟨⟩
        · rintro ⟨h, hne⟩
          cases h
          exact absurd hgiven hne
      · simp only [bind, Except.bind, if_neg hgiven]
        constructor
        · rintro ⟨⟩
          exact ⟨rfl, hgiven⟩
        · rintro ⟨h, _⟩
          exact h

/-- The slots of a command line that is accepted. -/
theorem cmdlineParser_slots {results : List GetoptResult} {ai : ArgsInfo}
    (h : cmdlineParser results = .ok ai) : SlotsAfter results cmdlineParserInit ai :=
  parseOptions_slots (cmdlineParser_ok_iff.mp h).1

/-- A command line that is accepted names one file, in its only `--file`. -/
theorem cmdlineParser_file {results : List GetoptResult} {ai : ArgsInfo}
    (h : cmdlineParser results = .ok ai) :
    ∃ fname, results.filterMap GetoptResult.fileArg = [some (some fname)] ∧
      (dachMainConfig ai).file = some fname := by
  have hgiven := (cmdlineParser_ok_iff.mp h).2
  have hconfig : (dachMainConfig ai).file = ai.file.arg := by
    simp only [dachMainConfig, if_pos hgiven]
  rcases updateArgs_some rfl rfl (cmdlineParser_slots h).file with ⟨_, hslot⟩ | ⟨arg, hargs, hslot⟩
  · rw [hslot] at hgiven
    exact absurd rfl hgiven
  · have hmem : some arg ∈ results.filterMap GetoptResult.fileArg := by simp [hargs]
    obtain ⟨option, _, hoption⟩ := List.mem_filterMap.mp hmem
    cases option with
    | file fname =>
        simp only [GetoptResult.fileArg, Option.some.injEq] at hoption
        subst hoption
        exact ⟨fname, hargs, by rw [hconfig, hslot]⟩
    | _ => cases hoption

theorem dachMainConfig_threads (ai : ArgsInfo) :
    (dachMainConfig ai).threads =
      if ai.threads.given ≠ 0 ∧ 0 < ai.threads.arg then ai.threads.arg else 0 := by
  unfold dachMainConfig
  split <;> rfl

theorem dachMainConfig_blockSize (ai : ArgsInfo) :
    (dachMainConfig ai).blockSize =
      if ai.blockSize.given ≠ 0 ∧ 4 < toSizeT ai.blockSize.arg then toSizeT ai.blockSize.arg else 4 := by
  unfold dachMainConfig
  split <;> rfl

/-- The configuration of an accepted command line does not depend on the order of the options. It has a
    number of threads only where a positive one is given, and blocks of four bytes unless larger ones are
    asked for. -/
theorem dachMainConfig_options {results results' : List GetoptResult} {ai : ArgsInfo}
    (h : cmdlineParser results = .ok ai) (hperm : results.Perm results') :
    cmdlineParser results' = .ok ai ∧
      (∃ fname, results.filterMap GetoptResult.fileArg = [some (some fname)] ∧
        (dachMainConfig ai).file = some fname) ∧
      0 ≤ (dachMainConfig ai).threads ∧
      (∀ n, 0 < n → ((dachMainConfig ai).threads = n ↔
        ∃ optarg, .threads optarg ∈ results ∧ argInt optarg = some n)) ∧
      4 ≤ (dachMainConfig ai).blockSize ∧
      (∀ n, 4 < n → ((dachMainConfig ai).blockSize = n ↔
        ∃ optarg v, .blockSize optarg ∈ results ∧ argInt optarg = some v ∧ toSizeT v = n)) := by
  have hslots := cmdlineParser_slots h
  have hparsed := cmdlineParser_ok_iff.mp h
  have hthreads := updateArgs_given_iff rfl rfl hslots.threads
  have hblockSize := updateArgs_given_iff rfl rfl hslots.blockSize
  refine ⟨cmdlineParser_ok_iff.mpr ⟨parseOptions_perm hperm hparsed.1, hparsed.2⟩,
    cmdlineParser_file h, ?_, ?_, ?_, ?_⟩
  · rw [dachMainConfig_threads]
    split
    · exact le_of_lt (And.right ‹_›)
    · exact le_refl 0
  · intro n hn
    rw [← some_mem_threadsArg, ← hthreads n, dachMainConfig_threads]
    constructor
    · intro harg
      split at harg
      · exact ⟨And.left ‹_›, harg⟩
      · exact absurd harg (ne_of_lt hn)
    · rintro ⟨hgiven, rfl⟩
      exact if_pos ⟨hgiven, hn⟩
  · rw [dachMainConfig_blockSize]
    split
    · exact le_of_lt (And.right ‹_›)
    · exact le_refl 4
  · intro n hn
    rw [dachMainConfig_blockSize]
    constructor
    · intro harg
      split at harg
      · obtain ⟨optarg, hmem, hoption⟩ :=
          some_mem_blockSizeArg.mp ((hblockSize ai.blockSize.arg).mp ⟨And.left ‹_›, rfl⟩)
        exact ⟨optarg, _, hmem, hoption, harg⟩
      · exact absurd harg (ne_of_lt hn)
    · rintro ⟨optarg, v, hmem, hoption, rfl⟩
      obtain ⟨hgiven, rfl⟩ := (hblockSize v).mpr (some_mem_blockSizeArg.mpr ⟨optarg, hmem, hoption⟩)
      exact if_pos ⟨hgiven, hn⟩

/-- Three options in two orders; the block size is given in hexadecimal. -/
theorem dachMainConfig_options_three : ∃ ai,
    cmdlineParser [.file (cstr [97]), .blockSize (cstr [48, 120, 49, 48]), .console] = .ok ai ∧
      cmdlineParser [.console, .file (cstr [97]), .blockSize (cstr [48, 120, 49, 48])] = .ok ai ∧
      (dachMainConfig ai).blockSize = 16 := by
  have h : ∃ ai, cmdlineParser [.file (cstr [97]), .blockSize (cstr [48, 120, 49, 48]), .console]
      = .ok ai := ⟨_, rfl⟩
  obtain ⟨ai, h⟩ := h
  have horder : List.Perm [.file (cstr [97]), .blockSize (cstr [48, 120, 49, 48]), .console]
      [GetoptResult.console, .file (cstr [97]), .blockSize (cstr [48, 120, 49, 48])] := by decide
  obtain ⟨hparsed, _, _, _, _, hblockSize⟩ := dachMainConfig_options h horder
  exact ⟨ai, h, hparsed, (hblockSize 16 (by decide)).mpr
    ⟨cstr [48, 120, 49, 48], 16, by decide, by decide, by decide⟩⟩

end Dach
