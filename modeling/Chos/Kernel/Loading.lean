import Chos.Kernel.Wrapping

/-!
# Loads that fail half-way

`init_module` acquires the struct, its array, the jump in `do_fork`, the
directory and the entries in turn.  What it has acquired it gives back only
inside `init_chos`; a failure after that leaves everything in place, and a
failure to create an entry takes the directory away and is not reported.
-/

namespace Chos.Kernel

open Chos.Library

def ProcEntry.files : List ProcEntry :=
  [.setchos, .resetchos, .savestate, .version, .valid, .link]

/-- The kernel is what it was: the same text and the same entries, and no
block that was allocated since is left. -/
structure Host.Restored (older newer : Host) : Prop where
  text : newer.machine.text = older.machine.text
  entries : newer.entries = older.entries
  structs : ∀ address, older.structs.next ≤ address →
    ¬ newer.structs.Live address
  arrays : ∀ address, older.arrays.next ≤ address →
    ¬ newer.arrays.Live address

/-- What a load should come to.  A load that faults, in a store of the patch or
of the operations of the link entry, comes to nothing of the kind. -/
def LoadsOrRestores (older : Host) :
    Option (Int × Module × Host) → Prop
  | none => False
  | some (code, _, newer) =>
      if code = 0 then ∀ entry, entry ∈ newer.entries
      else older.Restored newer

def LoadOutcome.Complete (outcome : LoadOutcome) : Prop :=
  outcome.mkdir = true ∧
    ∀ entry ∈ ProcEntry.files, outcome.created entry = true

instance (outcome : LoadOutcome) : Decidable outcome.Complete :=
  inferInstanceAs (Decidable (_ ∧ _))

/-- A new struct needs all entries to be created, and the jump of the patch to
lie in pages that are open to it; with a recovered one `proc_mkdir` may fail
as well. -/
def LoadOutcome.Suffices (config : Config) (image : Image)
    (outcome : LoadOutcome) (host : Host) : Option Nat → Prop
  | none => outcome.Allocates → outcome.Complete ∧
      (Patches config image host.machine →
        PagesOpen config host.machine (1 + config.sizeofLong))
  | some table => recoverChos table host = 0 ∧ outcome.mkdir = true →
      outcome.Complete

theorem chos_mem_foldl_makeProcEntry (outcome : LoadOutcome) (host : Host)
    {names : List ProcEntry} (files : .chos ∉ names) :
    .chos ∈ (names.foldl (makeProcEntry outcome) host).entries ↔
      .chos ∈ host.entries ∧
        ∀ name ∈ names, outcome.created name = true := by
  induction names generalizing host with
  | nil => simp
  | cons name names induction =>
      rw [List.mem_cons, not_or] at files
      rw [List.foldl_cons, induction (makeProcEntry outcome host name)
        files.2]
      unfold makeProcEntry
      by_cases created : outcome.created name = true
      · simp [created, files.1]
      · simp [created, handleProcEntryFailure, removeProcEntry]

theorem foldl_makeProcEntry_of_created {outcome : LoadOutcome} (host : Host)
    {names : List ProcEntry}
    (created : ∀ name ∈ names, outcome.created name = true) :
    (names.foldl (makeProcEntry outcome) host).entries =
      names.reverse ++ host.entries := by
  induction names generalizing host with
  | nil => rfl
  | cons name names induction =>
      rw [List.forall_mem_cons] at created
      rw [List.foldl_cons, induction _ created.2]
      simp [makeProcEntry, created.1]

theorem makeProcEntries_of_mkdir {outcome : LoadOutcome}
    (made : outcome.mkdir = true) (host : Host) :
    makeProcEntries outcome host =
      if outcome.created .link then
        some (0, ProcEntry.files.foldl (makeProcEntry outcome)
          { host with entries := .chos :: host.entries })
      else none := by
  simp [makeProcEntries, made, ProcEntry.files]

/-- All entries are there afterwards exactly when all were created. -/
theorem entries_iff_complete {outcome : LoadOutcome} (host : Host)
    (made : outcome.mkdir = true) :
    (∀ entry, entry ∈ (ProcEntry.files.foldl (makeProcEntry outcome)
        { host with entries := .chos :: host.entries }).entries) ↔
      outcome.Complete := by
  constructor
  · intro every
    have kept := (chos_mem_foldl_makeProcEntry outcome
      { host with entries := .chos :: host.entries }
      (by decide : ProcEntry.chos ∉ ProcEntry.files)).mp (every .chos)
    exact ⟨made, kept.2⟩
  · intro complete entry
    rw [foldl_makeProcEntry_of_created _ complete.2]
    cases entry <;> simp [ProcEntry.files]

theorem Host.restored_self (host : Host) : host.Restored host where
  text := rfl
  entries := rfl
  structs := fun _ => Heap.not_live_of_next_le
  arrays := fun _ => Heap.not_live_of_next_le

theorem GivenUp.restored {host next : Host} (givenUp : GivenUp host next) :
    host.Restored next where
  text := congrArg Machine.text givenUp.machine
  entries := givenUp.entries
  structs := givenUp.freed
  arrays := by
    rw [givenUp.arrays]
    exact fun _ => Heap.not_live_of_next_le

theorem initChos_live {outcome : LoadOutcome}
    (allocates : outcome.Allocates) {config : Config} {image : Image}
    {max : Int} {jumper saved : Memory} {host next : Host} {code : Int}
    {ch : Nat} (returned : initChos config image max outcome jumper host =
      some (code, ch, saved, next)) :
    code = 0 ∧ next.structs.Live host.structs.next := by
  obtain ⟨built, builds, facts⟩ := buildChos_of_allocates allocates max host
  rw [initChos_of_built builds, Option.map_eq_some_iff] at returned
  obtain ⟨_, _, same⟩ := returned
  cases same
  simpa [Heap.Live] using facts.live

/-- With memory `init_chos` returns unless the store of the jump faults. -/
theorem exists_initChos_iff {outcome : LoadOutcome}
    (allocates : outcome.Allocates) {config : Config} {image : Image}
    {max : Int} {jumper : Memory} {host : Host} :
    (∃ result, initChos config image max outcome jumper host =
        some result) ↔
      (Patches config image host.machine →
        PagesOpen config host.machine (1 + config.sizeofLong)) := by
  obtain ⟨built, builds, facts⟩ := buildChos_of_allocates allocates max host
  simp only [initChos_of_built builds, facts.machine,
    Option.map_eq_some_iff]
  constructor
  · rintro ⟨_, _, patched, _⟩ patches
    exact ((initDoFork_of_patches patches jumper).mp patched).1
  · intro opened
    by_cases patches : Patches config image host.machine
    · exact ⟨_, _, (initDoFork_of_patches patches jumper).mpr
        ⟨opened patches, rfl⟩, rfl⟩
    · obtain ⟨_, failed⟩ := initDoFork_of_not_patches patches jumper
      exact ⟨_, _, failed, rfl⟩

/-- The end of `init_module`, for a struct that was obtained: without
`proc_mkdir` nothing is undone, with it everything hangs on the entries. -/
theorem loadsOrRestores_of_obtained {older host : Host} {loaded : Module}
    (outcome : LoadOutcome) :
    LoadsOrRestores older ((makeProcEntries outcome host).map
        fun (code, host) => (code, loaded, host)) ↔
      if outcome.mkdir then outcome.Complete else older.Restored host := by
  by_cases made : outcome.mkdir = true
  · rw [makeProcEntries_of_mkdir made, if_pos made]
    by_cases linked : outcome.created .link = true
    · rw [if_pos linked, ← entries_iff_complete host made]
      simp [LoadsOrRestores]
    · rw [if_neg linked]
      constructor
      · intro impossible
        exact impossible.elim
      · intro complete
        exact absurd (complete.2 .link (by decide)) linked
  · simp [makeProcEntries, made, LoadsOrRestores]

theorem loadsOrRestores_iff {config : Config} {image : Image}
    {table : Option Nat} {max : Int} {outcome : LoadOutcome}
    {older host : Host} {code : Int} {ch : Nat} {jumper : Memory}
    (obtained : obtainChos config image table max outcome (fun _ => 0)
      older = some (code, ch, jumper, host)) :
    LoadsOrRestores older
        (initModule config image table max outcome older) ↔
      if code = 0 ∧ outcome.mkdir then outcome.Complete
      else older.Restored host := by
  simp only [initModule, obtained, bind, Option.bind_some]
  by_cases zero : code = 0
  · rw [if_neg (not_not_intro zero), loadsOrRestores_of_obtained]
    simp [zero]
  · simp [zero, LoadsOrRestores]

/-- A load restores the kernel or completes if and only if every entry gets
created once the struct is there, except that a recovered struct may meet a
failing `proc_mkdir`, and the store of the jump does not fault. -/
theorem initModule_loadsOrRestores_iff (config : Config) (image : Image)
    (table : Option Nat) (max : Int) (outcome : LoadOutcome) (host : Host) :
    LoadsOrRestores host
        (initModule config image table max outcome host) ↔
      outcome.Suffices config image host table := by
  cases table with
  | some table =>
      have obtained : obtainChos config image (some table) max outcome
        (fun _ => 0) host = some (recoverChos table host, _, _, host) := rfl
      rw [loadsOrRestores_iff obtained, LoadOutcome.Suffices]
      by_cases taken : recoverChos table host = 0 ∧ outcome.mkdir = true
      · simp [taken]
      · simp only [taken, if_false, host.restored_self, false_implies]
  | none =>
      have obtains : obtainChos config image none max outcome (fun _ => 0)
        host = initChos config image max outcome (fun _ => 0) host := rfl
      rw [LoadOutcome.Suffices]
      by_cases allocates : outcome.Allocates
      · rw [← @exists_initChos_iff outcome allocates config image max
          (fun _ => 0) host]
        cases initialized : initChos config image max outcome (fun _ => 0)
          host with
        | none => simp [initModule, obtains, initialized, LoadsOrRestores,
            allocates]
        | some result =>
            obtain ⟨code, ch, saved, next⟩ := result
            obtain ⟨rfl, live⟩ := initChos_live allocates initialized
            rw [loadsOrRestores_iff (obtains.trans initialized)]
            by_cases made : outcome.mkdir = true
            · simp [made, allocates]
            · rw [if_neg fun both => made both.2]
              constructor
              · intro restored
                exact absurd live (restored.structs _ (Nat.le_refl _))
              · intro complete
                exact absurd (complete allocates).1.1 made
      · obtain ⟨_, _, initialized, givenUp⟩ := initChos_of_not_allocates
          allocates config image max (fun _ => 0) host
        rw [loadsOrRestores_iff (obtains.trans initialized)]
        simp [givenUp.restored, allocates]

/-- Without `/proc/chos` the load fails, and leaves the jump, the struct and
the array behind. -/
theorem failed_load_keeps_jump :
    (initModule releaseFive
        ⟨0xffffffffa0001000, 0xffffffffa0003000, fun _ => 0xcc⟩ none 0
        ⟨true, true, false, fun _ => true⟩
        (Life.init releaseFiveMachine).host).any
      (fun (code, _, host) => code = -1 ∧
        forkTarget releaseFive host.machine.text =
          some 0xffffffffa0001000 ∧
        host.structs.Live 0 ∧ host.arrays.Live 0) = true ∧
    ¬ LoadsOrRestores (Life.init releaseFiveMachine).host
      (initModule releaseFive
        ⟨0xffffffffa0001000, 0xffffffffa0003000, fun _ => 0xcc⟩ none 0
        ⟨true, true, false, fun _ => true⟩
        (Life.init releaseFiveMachine).host) := by
  have ends : (initModule releaseFive
      ⟨0xffffffffa0001000, 0xffffffffa0003000, fun _ => 0xcc⟩ none 0
      ⟨true, true, false, fun _ => true⟩
      (Life.init releaseFiveMachine).host).any
    (fun (code, _, host) => code = -1 ∧
      forkTarget releaseFive host.machine.text =
        some 0xffffffffa0001000 ∧
      host.structs.Live 0 ∧ host.arrays.Live 0) = true := by
    decide +kernel
  refine ⟨ends, ?_⟩
  intro loads
  obtain ⟨⟨_, _, host⟩, returned, facts⟩ := (Option.any_eq_true _ _).mp ends
  obtain ⟨rfl, _, live, _⟩ := of_decide_eq_true facts
  rw [returned] at loads
  exact loads.structs 0 (Nat.zero_le _) live

end Chos.Kernel
