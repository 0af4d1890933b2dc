import Chos.Kernel.RegionSafety

/-!
# Who waits for whom

There are two kinds of locks: those of the entries and that of the task list.
A process in a region of an entry waits for nothing.  The holder of the task
list is in `cleanup_links` and may wait for an entry.  So no wait goes in a
circle, and at its end stands a process that can go on, or a `cleanup_links`
that is about to read the start time of no task.
-/

namespace Chos.Kernel

open Chos.Library

/-- How many accesses there are at most before the lock is released. -/
def Region.rank : Region → Nat
  | .looking _ => 4
  | .timing _ => 3
  | .hitting _ => 2
  | .leaving _ _ => 1
  | .missed _ => 1
  | .climbing _ => 0
  | .checking _ _ => 2
  | .checked _ _ _ => 1
  | .storing _ _ => 3
  | .stamping _ _ => 2
  | .stored _ _ => 1
  | .swapping _ => 4
  | .clearing _ _ => 3
  | .zeroing _ _ => 2
  | .swapped _ _ => 1
  | .sweepFirst _ _ => 0
  | .sweepSecond _ _ => 0
  | .sweepTime _ _ => 0

def rankIn : Option Region → Nat
  | none => 0
  | some region => region.rank

theorem Region.hold_of_rank {region : Region} (last : region.rank = 0) :
    region.hold = none := by
  cases region <;> first | rfl | cases last

theorem Region.rank_of_hold {region : Region} (free : region.hold = none) :
    region.rank = 0 := by
  cases region <;> first | rfl | cases free

/-- A process that holds the lock of an entry can go on, and comes nearer to
the release. -/
theorem Region.progress_of_hold {region : Region}
    (holds : region.hold ≠ none) (shared : Shared) (locks : Nat → RwLock)
    (rest : List Instr) :
    ∃ moved, region.progress shared locks rest = some moved ∧
      rankIn moved.region < region.rank := by
  cases region with
  | looking task =>
      refine ⟨_, rfl, ?_⟩
      dsimp only
      split
      · exact (by decide : 1 < 4)
      · exact (by decide : 3 < 4)
  | timing task =>
      refine ⟨_, rfl, ?_⟩
      dsimp only
      split
      · exact (by decide : 1 < 3)
      · exact (by decide : 2 < 3)
  | climbing task => exact absurd rfl holds
  | sweepFirst index seen => exact absurd rfl holds
  | sweepSecond index seen => exact absurd rfl holds
  | sweepTime index seen => exact absurd rfl holds
  | _ => exact ⟨_, rfl, by simp [rankIn, rank]⟩

/-- After `write_lock_irq` on the task list comes the loop, and then
`write_unlock_irq`. -/
def Paired : List Instr → Prop
  | [] => True
  | .lockTasks :: rest =>
      (∃ after, rest = .sweep 0 :: .unlockTasks :: after) ∧ Paired rest
  | _ :: rest => Paired rest

theorem Paired.cons {instr : Instr} {rest : List Instr}
    (paired : Paired rest) (other : instr ≠ .lockTasks) :
    Paired (instr :: rest) := by
  cases instr with
  | lockTasks => exact absurd rfl other
  | _ => exact paired

theorem Paired.tail {instr : Instr} {rest : List Instr}
    (paired : Paired (instr :: rest)) : Paired rest := by
  cases instr with
  | lockTasks => exact paired.2
  | _ => exact paired

theorem Paired.sweeping {rest : List Instr} (paired : Paired rest) :
    Paired (sweeping ++ rest) :=
  ⟨⟨rest, rfl⟩, paired⟩

theorem Paired.returning {rest : List Instr} (paired : Paired rest)
    (link : Option LinkId) : Paired (returning link rest) := by
  cases rest with
  | nil => exact paired
  | cons frame rest => exact paired

theorem Paired.resume {frame : Instr} {rest : List Instr}
    (paired : Paired (frame :: rest)) (link : Option LinkId) :
    Paired (resume link frame rest) := by
  cases frame with
  | climbed task =>
      cases link with
      | none => exact paired.tail.returning none
      | some found => exact paired.tail.returning (some found)
  | readlink =>
      cases link with
      | none => exact paired
      | some found => exact paired
  | _ => exact paired

theorem Paired.settle {code : List Instr} (paired : Paired code) :
    Paired (settle code) := by
  unfold Kernel.settle
  split
  · exact Paired.resume paired.tail _
  · exact paired

theorem Paired.setting {rest : List Instr} (paired : Paired rest)
    (link : Option LinkId) (task : Task) :
    Paired (setting link task :: rest) := by
  cases link with
  | none => exact paired
  | some link => exact paired

theorem Paired.dropping {rest : List Instr} (paired : Paired rest)
    (old : Option LinkId) : Paired (dropping old rest) := by
  cases old with
  | none => exact paired.settle
  | some link => exact paired

theorem paired_code (current : Task) (call : Call) :
    Paired (call.code current) := by
  cases call with
  | resetchos => exact ⟨⟨[], rfl⟩, trivial⟩
  | _ => trivial

section Steps

variable {shared next : Shared} {locks : Nat → RwLock}
  {rest code : List Instr} {me : Nat} {current : Task} {instr : Instr}
  {region : Region} {moved : Moved}

theorem Paired.perform (paired : Paired (instr :: rest))
    (performed : shared.perform me current rest instr =
      some (next, code)) : Paired code := by
  have after := paired.tail
  cases instr with
  | lookup task =>
      cases task with
      | none =>
          cases performed
          exact after.returning none
      | some task =>
          simp only [Shared.perform, Shared.performLookup] at performed
          split at performed
          · cases performed
            exact after.returning none
          split at performed
          · cases performed
          split at performed
          · cases performed
          split at performed
          · cases performed
            exact after
          · cases performed
            exact after.returning _
  | setCheck link task =>
      simp only [Shared.perform, Shared.performSetCheck] at performed
      split at performed
      · cases performed
      split at performed
      · cases performed
      split at performed
      · cases performed
        exact after.setting link task
      · cases performed
        exact after.setting link task
  | resetSwap index =>
      simp only [Shared.perform, Shared.performResetSwap] at performed
      split at performed
      · cases performed
      split at performed
      · cases performed
        exact after
      · cases performed
        exact after
  | readCount link =>
      cases performed
      split
      · exact after
      · exact after
  | destroyRead link =>
      cases performed
      split
      · exact after
      · exact after
  | lockTasks =>
      simp only [Shared.perform] at performed
      split at performed
      · cases performed
        exact after
      · cases performed
  | sweep index =>
      cases performed
      rw [Shared.performSweep]
      split
      · split
        · exact after
        · exact after
      · exact after
  | setchos buf count outcome =>
      have result := Option.some.inj performed
      simp only [Shared.performSetchos, Table.allocText] at result
      split at result
      · split at result
        · cases result
          exact Paired.sweeping (after.cons (by simp) |>.cons (by simp))
        · cases result
          exact after
      · cases result
        exact after
  | createLink text allocated =>
      cases performed
      exact after.returning _
  | doFork parent_link new =>
      simp only [Shared.perform] at performed
      split at performed
      · cases new with
        | none =>
            cases performed
            exact after
        | some new =>
            simp only [Shared.performDoFork] at performed
            split at performed
            · cases performed
            split at performed
            · cases performed
            split at performed
            · cases performed
              exact after
            · cases performed
      · cases performed
  | findChild parent_link nr =>
      simp only [Shared.perform] at performed
      split at performed
      · split at performed
        · cases performed
          exact after
        · cases performed
          exact after
      · cases performed
  | climbed task => cases performed
  | returns link => cases performed
  | assign task => cases performed
  | readlink => cases performed
  | forked new => cases performed
  | _ =>
      cases performed
      exact after

theorem Paired.progress (paired : Paired rest)
    (progressed : region.progress shared locks rest = some moved) :
    Paired moved.code := by
  cases region with
  | leaving task link =>
      cases progressed
      exact (paired.returning link).settle
  | climbing task =>
      cases progressed
      exact paired
  | checked link task found =>
      cases progressed
      dsimp only
      split
      · exact paired.setting link task
      · exact paired.setting link task
  | stored link task =>
      cases progressed
      exact paired.settle
  | swapped index old =>
      cases progressed
      exact paired.dropping old
  | sweepFirst index seen =>
      simp only [Region.progress] at progressed
      split at progressed
      · cases progressed
        exact paired
      · cases progressed
        exact paired
  | sweepSecond index seen =>
      simp only [Region.progress] at progressed
      split at progressed
      · cases progressed
        exact paired
      · cases progressed
        exact paired
  | sweepTime index seen =>
      simp only [Region.progress] at progressed
      split at progressed
      · cases progressed
      split at progressed
      · cases progressed
        exact paired
      · cases progressed
        exact paired
  | _ =>
      cases progressed
      exact paired

theorem Paired.entered (paired : Paired (instr :: rest))
    (entered : Entered shared locks rest me current instr moved) :
    Paired moved.code := by
  cases entered with
  | plain performed _ _ _ => exact (paired.perform performed).settle
  | swept done => exact paired.tail.settle
  | _ => exact paired.tail

theorem ProcTree.live_create {tree : ProcTree} {child : Task} {pid : Nat}
    (fresh : ∀ task ∈ tree.tasks, task.pid ≠ child.pid)
    (parentLive : (tree.find child.parent).isSome)
    (live : (tree.find pid).isSome) :
    ((tree.create child fresh parentLive).find pid).isSome := by
  by_cases same : pid = child.pid
  · rw [same, find_create_self]
    rfl
  · rw [find_create_of_ne _ _ same]
    exact live

/-- No handler ends a process, and the lock is taken in one place only. -/
theorem world_of_perform
    (performed : shared.perform me current rest instr = some (next, code)) :
    (∀ pid, (shared.tree.find pid).isSome →
        (next.tree.find pid).isSome) ∧
      (next.tasklist = shared.tasklist ∨ next.tasklist = none ∨
        instr = .lockTasks ∧ code = rest ∧ next.tasklist = some me) := by
  cases instr with
  | lookup task =>
      cases task with
      | none =>
          cases performed
          exact ⟨fun _ live => live, .inl rfl⟩
      | some task =>
          simp only [Shared.perform, Shared.performLookup] at performed
          split at performed
          · cases performed
            exact ⟨fun _ live => live, .inl rfl⟩
          split at performed
          · cases performed
          split at performed
          · cases performed
          split at performed
          · cases performed
            exact ⟨fun _ live => live, .inl rfl⟩
          · cases performed
            exact ⟨fun _ live => live, .inl rfl⟩
  | setCheck link task =>
      simp only [Shared.perform, Shared.performSetCheck] at performed
      split at performed
      · cases performed
      split at performed
      · cases performed
      split at performed
      · cases performed
        exact ⟨fun _ live => live, .inl rfl⟩
      · cases performed
        exact ⟨fun _ live => live, .inl rfl⟩
  | resetSwap index =>
      simp only [Shared.perform, Shared.performResetSwap] at performed
      split at performed
      · cases performed
      split at performed
      · cases performed
        exact ⟨fun _ live => live, .inl rfl⟩
      · cases performed
        exact ⟨fun _ live => live, .inl rfl⟩
  | lockTasks =>
      simp only [Shared.perform] at performed
      split at performed
      · cases performed
        exact ⟨fun _ live => live, .inr (.inr ⟨rfl, rfl, rfl⟩)⟩
      · cases performed
  | unlockTasks =>
      cases performed
      exact ⟨fun _ live => live, .inr (.inl rfl)⟩
  | setchos buf count outcome =>
      have result := Option.some.inj performed
      simp only [Shared.performSetchos, Table.allocText] at result
      split at result
      · split at result
        · cases result
          exact ⟨fun _ live => live, .inl rfl⟩
        · cases result
          exact ⟨fun _ live => live, .inl rfl⟩
      · cases result
        exact ⟨fun _ live => live, .inl rfl⟩
  | doFork parent_link new =>
      simp only [Shared.perform] at performed
      split at performed
      · cases new with
        | none =>
            cases performed
            exact ⟨fun _ live => live, .inl rfl⟩
        | some new =>
            simp only [Shared.performDoFork] at performed
            split at performed
            · cases performed
            rename_i creator found
            split at performed
            · cases performed
            split at performed
            · rename_i fits
              cases performed
              have samePid := ProcTree.find_pid found
              have parentLive : (shared.tree.find
                  (new.toTask creator).parent).isSome := by
                simp [NewTask.toTask, samePid, found]
              refine ⟨?_, .inl rfl⟩
              intro pid live
              exact ProcTree.live_create
                (fun task older => (fits.1 task older).1) parentLive live
            · cases performed
      · cases performed
  | findChild parent_link nr =>
      simp only [Shared.perform] at performed
      split at performed
      · split at performed
        · cases performed
          exact ⟨fun _ live => live, .inl rfl⟩
        · cases performed
          exact ⟨fun _ live => live, .inl rfl⟩
      · cases performed
  | climbed task => cases performed
  | returns link => cases performed
  | assign task => cases performed
  | readlink => cases performed
  | forked new => cases performed
  | _ =>
      cases performed
      exact ⟨fun _ live => live, .inl rfl⟩

theorem world_of_progress
    (progressed : region.progress shared locks rest = some moved) :
    moved.shared.tree = shared.tree ∧
      moved.shared.tasklist = shared.tasklist := by
  cases region with
  | sweepFirst index seen =>
      simp only [Region.progress] at progressed
      split at progressed
      · cases progressed
        exact ⟨rfl, rfl⟩
      · cases progressed
        exact ⟨rfl, rfl⟩
  | sweepSecond index seen =>
      simp only [Region.progress] at progressed
      split at progressed
      · cases progressed
        exact ⟨rfl, rfl⟩
      · cases progressed
        exact ⟨rfl, rfl⟩
  | sweepTime index seen =>
      simp only [Region.progress] at progressed
      split at progressed
      · cases progressed
      split at progressed
      · cases progressed
        exact ⟨rfl, rfl⟩
      · cases progressed
        exact ⟨rfl, rfl⟩
  | _ =>
      cases progressed
      exact ⟨rfl, rfl⟩

theorem world_of_entered
    (entered : Entered shared locks rest me current instr moved) :
    (∀ pid, (shared.tree.find pid).isSome →
        (moved.shared.tree.find pid).isSome) ∧
      (moved.shared.tasklist = shared.tasklist ∨
        moved.shared.tasklist = none ∨
        instr = .lockTasks ∧ moved.region = none ∧
          moved.code = settle rest ∧ moved.shared.tasklist = some me) := by
  cases entered with
  | plain performed _ _ _ =>
      obtain ⟨live, same | freed | ⟨locks, code, taken⟩⟩ :=
        world_of_perform performed
      · exact ⟨live, .inl same⟩
      · exact ⟨live, .inr (.inl freed)⟩
      · exact ⟨live, .inr (.inr ⟨locks, rfl, by rw [code], taken⟩)⟩
  | _ => exact ⟨fun _ live => live, .inl rfl⟩

end Steps

def Instr.Drops : Instr → Prop
  | .dec _ | .readCount _ | .destroyRead _ | .loadText _ | .kfreeText _ _ |
      .kfreeLink _ => True
  | _ => False

def Region.Swaps : Region → Prop
  | .swapping _ | .clearing _ _ | .zeroing _ _ | .swapped _ _ => True
  | _ => False

/-- An access of `cleanup_links` itself. -/
def Region.Sweeps : Region → Prop
  | .sweepFirst _ _ | .sweepSecond _ _ | .sweepTime _ _ => True
  | _ => False

/-- Where a process stands that has locked the task list. -/
inductive Cleaning (pid_max : Nat) : Option Region → List Instr → Prop where
  | loop {index : Nat} {rest : List Instr} :
      Cleaning pid_max none (.sweep index :: .unlockTasks :: rest)
  | testing {region : Region} {rest : List Instr} (sweeps : region.Sweeps) :
      Cleaning pid_max (some region) (.unlockTasks :: rest)
  | reset {index slot : Nat} {rest : List Instr} (below : slot < pid_max) :
      Cleaning pid_max none
        (.resetSwap slot :: .sweep index :: .unlockTasks :: rest)
  | resetting {region : Region} {index : Nat} {rest : List Instr}
      (swaps : region.Swaps) :
      Cleaning pid_max (some region) (.sweep index :: .unlockTasks :: rest)
  | dropping {instr : Instr} {index : Nat} {rest : List Instr}
      (drops : instr.Drops) :
      Cleaning pid_max none
        (instr :: .sweep index :: .unlockTasks :: rest)
  | ending {rest : List Instr} :
      Cleaning pid_max none (.unlockTasks :: rest)

section Cleaning

variable {shared : Shared} {locks : Nat → RwLock}
  {code rest : List Instr} {me pid_max : Nat} {current : Task}
  {instr : Instr} {region : Region} {moved : Moved}

theorem Cleaning.progress
    (cleaning : Cleaning pid_max (some region) code)
    (within : region.Within pid_max)
    (progressed : region.progress shared locks code = some moved) :
    Cleaning pid_max moved.region moved.code := by
  cases cleaning with
  | testing sweeps =>
      cases region with
      | sweepFirst slot seen =>
          simp only [Region.progress] at progressed
          split at progressed
          · cases progressed
            exact .reset within
          · cases progressed
            exact .testing trivial
      | sweepSecond slot seen =>
          simp only [Region.progress] at progressed
          split at progressed
          · cases progressed
            exact .testing trivial
          · cases progressed
            exact .loop
      | sweepTime slot seen =>
          simp only [Region.progress] at progressed
          split at progressed
          · cases progressed
          split at progressed
          · cases progressed
            exact .reset within
          · cases progressed
            exact .loop
      | _ => exact sweeps.elim
  | resetting swaps =>
      cases region with
      | swapping slot =>
          cases progressed
          exact .resetting trivial
      | clearing slot old =>
          cases progressed
          exact .resetting trivial
      | zeroing slot old =>
          cases progressed
          exact .resetting trivial
      | swapped slot old =>
          cases progressed
          cases old with
          | none => exact .loop
          | some link => exact .dropping trivial
      | _ => exact swaps.elim

theorem Cleaning.entered
    (cleaning : Cleaning shared.table.pid_max none (instr :: rest))
    (entered : Entered shared locks rest me current instr moved) :
    moved.shared.tasklist = none ∨
      Cleaning shared.table.pid_max moved.region moved.code := by
  cases cleaning with
  | loop =>
      right
      cases entered with
      | plain performed noStore noSwap noLink =>
          cases performed
          rw [Shared.performSweep]
          split
          · rename_i below
            split
            · exact .reset below
            · exact .loop
          · exact .ending
      | sweeping below => exact .testing trivial
      | swept done => exact .ending
  | reset below =>
      right
      cases entered with
      | plain performed noStore noSwap noLink =>
          exact absurd rfl (noSwap _)
      | swapping _ taken => exact .resetting trivial
  | dropping drops =>
      right
      cases instr with
      | dec link =>
          cases entered with
          | plain performed _ _ _ =>
              cases performed
              exact .dropping trivial
      | readCount link =>
          cases entered with
          | plain performed _ _ _ =>
              cases performed
              split
              · exact .dropping trivial
              · exact .loop
      | destroyRead link =>
          cases entered with
          | plain performed _ _ _ =>
              cases performed
              split
              · exact .dropping trivial
              · exact .loop
      | loadText link =>
          cases entered with
          | plain performed _ _ _ =>
              cases performed
              exact .dropping trivial
      | kfreeText link text =>
          cases entered with
          | plain performed _ _ _ =>
              cases performed
              exact .dropping trivial
      | kfreeLink link =>
          cases entered with
          | plain performed _ _ _ =>
              cases performed
              exact .loop
      | _ => exact drops.elim
  | ending =>
      left
      cases entered with
      | plain performed _ _ _ =>
          cases performed
          rfl

end Cleaning

/-- The entry whose lock the instruction takes. -/
def Instr.entry : Instr → Option Nat
  | .lookup (some task) =>
      if task.pid = 0 ∨ task.pid = 1 then none else some task.pid
  | .setCheck _ task => some task.pid
  | .setStore _ task => some task.pid
  | .resetSwap index => some index
  | _ => none

namespace Fine

variable {state next : Fine}

/-- A process in a handler is alive, and the holder of the task list is in
`cleanup_links`. -/
structure Orderly (state : Fine) : Prop where
  alive : ∀ walker ∈ state.walkers,
    ¬ (walker.region = none ∧ walker.code = []) →
      (state.shared.tree.find walker.current).isSome
  paired : ∀ walker ∈ state.walkers, Paired walker.code
  cleaning : ∀ holder, state.shared.tasklist = some holder →
    ∃ walker, state.walkers[holder]? = some walker ∧
      Cleaning state.shared.table.pid_max walker.region walker.code

theorem Orderly.init (pid_max : Nat) (tree : ProcTree) :
    Orderly (.init pid_max tree) where
  alive := by
    intro walker impossible
    cases impossible
  paired := by
    intro walker impossible
    cases impossible
  cleaning := by
    intro holder impossible
    cases impossible

/-- What one process does to the tasks and to the lock of the task list. -/
structure Turn (state : Fine) (index : Nat) (walker : Walker)
    (moved : Moved) : Prop where
  live : ∀ pid, (state.shared.tree.find pid).isSome →
    (moved.shared.tree.find pid).isSome
  paired : Paired moved.code
  tasklist : moved.shared.tasklist = state.shared.tasklist ∨
    moved.shared.tasklist = none ∨
    moved.shared.tasklist = some index ∧
      Cleaning state.shared.table.pid_max moved.region moved.code
  cleaning : Cleaning state.shared.table.pid_max walker.region walker.code →
    moved.shared.tasklist = none ∨
      Cleaning state.shared.table.pid_max moved.region moved.code

theorem Orderly.turn {index : Nat} {walker : Walker} {moved : Moved}
    (guarded : Guarded state) (orderly : Orderly state)
    (listed : state.walkers[index]? = some walker)
    (moves : state.move index walker = some moved) :
    Turn state index walker moved := by
  have member := List.mem_of_getElem? listed
  have paired := orderly.paired walker member
  simp only [move] at moves
  split at moves
  · cases moves
  split at moves
  · rename_i region inside
    obtain ⟨tree, tasklist⟩ := world_of_progress moves
    refine ⟨?_, paired.progress moves, .inl tasklist, ?_⟩
    · intro pid live
      rw [tree]
      exact live
    · intro cleaning
      rw [inside] at cleaning
      exact .inr (cleaning.progress
        (guarded.within walker member region inside) moves)
  · cases moves
  · rename_i instr rest outside code
    have entered := entered_of_enter moves
    obtain ⟨live, tasklist⟩ := world_of_entered entered
    rw [code] at paired
    refine ⟨live, paired.entered entered, ?_, ?_⟩
    · rcases tasklist with same | freed | ⟨locks, region, after, taken⟩
      · exact .inl same
      · exact .inr (.inl freed)
      · right
        right
        refine ⟨taken, ?_⟩
        rw [locks] at paired
        obtain ⟨⟨later, sweeps⟩, _⟩ := paired
        rw [region, after, sweeps]
        exact .loop
    · intro cleaning
      rw [outside, code] at cleaning
      exact cleaning.entered entered

theorem Orderly.advance {index : Nat} (guarded : Guarded state)
    (orderly : Orderly state)
    (taken : state.advance index = some next) : Orderly next := by
  simp only [Fine.advance] at taken
  split at taken
  · cases taken
  rename_i walker listed
  obtain ⟨moved, moves, rfl⟩ := Option.map_eq_some_iff.mp taken
  have turn := orderly.turn guarded listed moves
  have pid_max := (guarded.careful listed moves).pid_max
  have length := (List.getElem?_eq_some_iff.mp listed).1
  have member := List.mem_of_getElem? listed
  constructor
  · intro other inside busy
    rcases List.mem_or_eq_of_mem_set inside with older | rfl
    · exact turn.live _ (orderly.alive other older busy)
    · apply turn.live
      apply orderly.alive walker member
      -- a process without code does not move
      rintro ⟨outside, done⟩
      simp only [move, outside, done] at moves
      split at moves
      · cases moves
      · cases moves
  · intro other inside
    rcases List.mem_or_eq_of_mem_set inside with older | rfl
    · exact orderly.paired other older
    · exact turn.paired
  · intro holder held
    change ∃ other, (state.walkers.set index _)[holder]? = some other ∧
      Cleaning moved.shared.table.pid_max _ _
    rw [pid_max]
    rcases turn.tasklist with same | freed | ⟨mine, cleaning⟩
    · have before : state.shared.tasklist = some holder := same ▸ held
      obtain ⟨other, listedOther, cleaning⟩ := orderly.cleaning holder before
      by_cases own : index = holder
      · subst own
        cases listed.symm.trans listedOther
        rcases turn.cleaning cleaning with freed | still
        · cases freed.symm.trans held
        · exact ⟨_, List.getElem?_set_self length, still⟩
      · exact ⟨other, (List.getElem?_set_ne own).trans listedOther,
          cleaning⟩
    · cases freed.symm.trans held
    · cases mine.symm.trans held
      exact ⟨_, List.getElem?_set_self length, cleaning⟩

theorem Orderly.step {event : ConcEvent} (guarded : Guarded state)
    (orderly : Orderly state) (taken : state.step event = some next) :
    Orderly next := by
  cases event with
  | advance index => exact orderly.advance guarded taken
  | call pid call =>
      simp only [Fine.step, Fine.call] at taken
      split at taken
      · cases taken
      rename_i current found
      split at taken
      · cases taken
        constructor
        · intro walker inside busy
          rcases List.mem_append.mp inside with older | new
          · exact orderly.alive walker older busy
          · rw [List.mem_singleton.mp new, found]
            rfl
        · intro walker inside
          rcases List.mem_append.mp inside with older | new
          · exact orderly.paired walker older
          · rw [List.mem_singleton.mp new]
            exact paired_code current call
        · intro holder held
          obtain ⟨walker, listed, cleaning⟩ := orderly.cleaning holder held
          have length := (List.getElem?_eq_some_iff.mp listed).1
          exact ⟨walker, (List.getElem?_append_left length).trans listed,
            cleaning⟩
      · cases taken
  | exit pid =>
      simp only [Fine.step] at taken
      split at taken
      · rename_i allowed
        cases taken
        constructor
        · intro walker inside busy
          have different : walker.current ≠ pid := by
            intro same
            exact busy (allowed.2.2.1 walker inside same)
          rw [ProcTree.find_exit_of_ne different, Option.isSome_map]
          exact orderly.alive walker inside busy
        · exact orderly.paired
        · exact orderly.cleaning
      · cases taken
  | writeValid euid buf count outcome =>
      cases taken
      exact ⟨orderly.alive, orderly.paired, orderly.cleaning⟩

theorem orderly_of_run {pid_max : Nat} {tree : ProcTree}
    {events : List ConcEvent}
    (reached : run Fine.step (.init pid_max tree) events = some state) :
    Orderly state := by
  have both : Guarded state ∧ Orderly state := by
    apply @run_invariant _ _ _ (fun _ _ => True)
      (fun state => Guarded state ∧ Orderly state) _ _ _ _ reached
    · exact along_of_forall (fun _ _ => trivial) _ _
    · exact ⟨Guarded.init pid_max tree, Orderly.init pid_max tree⟩
    · rintro before event after ⟨guarded, orderly⟩ _ taken
      exact ⟨guarded.step taken, orderly.step guarded taken⟩
  exact both.2

def ahead (state : Fine) (index : Nat) : Option Instr :=
  state.walkers[index]?.bind fun walker =>
    match walker.region with
    | none => walker.code.head?
    | some _ => none

/-- The process is alive and in no region, and the lock of the entry is not
to be had. -/
def AwaitsEntry (state : Fine) (index slot : Nat) : Prop :=
  slot < state.shared.table.pid_max ∧
    (state.ahead index).bind Instr.entry = some slot ∧
    state.advance index = none

def Holds (state : Fine) (index slot : Nat) : Prop :=
  ∃ hold, state.held[index]? = some (some hold) ∧ hold.index = slot

/-- The process is about to read `t->start_time`, and `t` is `NULL`. -/
def AtNull (state : Fine) (index : Nat) : Prop :=
  ∃ slot, state.walkers[index]?.bind Walker.region =
    some (.sweepTime slot none)

theorem held_eq_some_iff {index : Nat} {hold : Hold Nat} :
    state.held[index]? = some (some hold) ↔
      ∃ walker region, state.walkers[index]? = some walker ∧
        walker.region = some region ∧ region.hold = some hold := by
  rw [held, List.getElem?_map, Option.map_eq_some_iff]
  constructor
  · rintro ⟨walker, listed, holds⟩
    obtain ⟨region, inside, same⟩ := Option.bind_eq_some_iff.mp holds
    exact ⟨walker, region, listed, inside, same⟩
  · rintro ⟨walker, region, listed, inside, same⟩
    exact ⟨walker, listed, Option.bind_eq_some_iff.mpr ⟨_, inside, same⟩⟩

theorem advance_eq_of_region {index : Nat} {walker : Walker}
    {region : Region} (orderly : Orderly state)
    (listed : state.walkers[index]? = some walker)
    (inside : walker.region = some region) :
    state.advance index =
      (region.progress state.shared state.locks walker.code).map
        fun moved =>
          { shared := moved.shared
            locks := moved.locks
            walkers := state.walkers.set index
              { walker with region := moved.region, code := moved.code } } := by
  have live := orderly.alive walker (List.mem_of_getElem? listed) (by
    rintro ⟨outside, _⟩
    cases inside.symm.trans outside)
  obtain ⟨current, found⟩ := Option.isSome_iff_exists.mp live
  simp only [Fine.advance, listed, move, found, inside]

theorem advance_eq_of_code {index : Nat} {walker : Walker}
    {instr : Instr} {rest : List Instr} (orderly : Orderly state)
    (listed : state.walkers[index]? = some walker)
    (outside : walker.region = none) (code : walker.code = instr :: rest) :
    ∃ current, state.advance index =
      (enter state.shared state.locks rest index current instr).map
        fun moved =>
          { shared := moved.shared
            locks := moved.locks
            walkers := state.walkers.set index
              { walker with region := moved.region, code := moved.code } } := by
  have live := orderly.alive walker (List.mem_of_getElem? listed) (by
    rintro ⟨_, done⟩
    cases code.symm.trans done)
  obtain ⟨current, found⟩ := Option.isSome_iff_exists.mp live
  exact ⟨current, by
    simp only [Fine.advance, listed, move, found, outside, code]⟩

theorem Orderly.holder_advances {index slot : Nat} (orderly : Orderly state)
    (holds : state.Holds index slot) : (state.advance index).isSome := by
  obtain ⟨hold, held, _⟩ := holds
  obtain ⟨walker, region, listed, inside, same⟩ := held_eq_some_iff.mp held
  have busy : region.hold ≠ none := same ▸ Option.some_ne_none hold
  obtain ⟨moved, progressed, _⟩ := Region.progress_of_hold busy
    state.shared state.locks walker.code
  rw [advance_eq_of_region orderly listed inside, progressed]
  rfl

/-- A process that cannot take the lock of an entry. -/
theorem locked_of_enter {shared : Shared} {locks : Nat → RwLock}
    {rest : List Instr} {me slot : Nat} {current : Task} {instr : Instr}
    (below : slot < shared.table.pid_max)
    (locks_entry : instr.entry = some slot)
    (stuck : enter shared locks rest me current instr = none) :
    (locks slot).readLock = none ∨ (locks slot).writeLock = none := by
  have accessed := Table.proc_eq_ok below
  cases instr with
  | lookup task =>
      cases task with
      | none => cases locks_entry
      | some task =>
          simp only [Instr.entry] at locks_entry
          split at locks_entry
          · cases locks_entry
          rename_i above
          cases locks_entry
          simp only [enter, if_neg above, if_neg (Nat.not_lt_of_lt below),
            takeRead, accessed, Option.map_eq_none_iff] at stuck
          exact .inl stuck
  | setCheck link task =>
      cases locks_entry
      simp only [enter, if_neg (Nat.not_lt_of_lt below), takeRead, accessed,
        Option.map_eq_none_iff] at stuck
      exact .inl stuck
  | setStore link task =>
      cases locks_entry
      simp only [enter, takeWrite, accessed,
        Option.map_eq_none_iff] at stuck
      exact .inr stuck
  | resetSwap index =>
      cases locks_entry
      simp only [enter, takeWrite, accessed,
        Option.map_eq_none_iff] at stuck
      exact .inr stuck
  | _ => cases locks_entry

theorem ahead_eq_some {index : Nat} {instr : Instr}
    (stands : state.ahead index = some instr) :
    ∃ walker rest, state.walkers[index]? = some walker ∧
      walker.region = none ∧ walker.code = instr :: rest := by
  obtain ⟨walker, listed, head⟩ := Option.bind_eq_some_iff.mp stands
  cases inside : walker.region with
  | some region =>
      simp only [inside] at head
      cases head
  | none =>
      simp only [inside] at head
      obtain ⟨rest, code⟩ := List.head?_eq_some_iff.mp head
      exact ⟨walker, rest, listed, inside, code⟩

theorem ahead_eq {index : Nat} {walker : Walker} {instr : Instr}
    {rest : List Instr} (listed : state.walkers[index]? = some walker)
    (outside : walker.region = none) (code : walker.code = instr :: rest) :
    state.ahead index = some instr := by
  simp [ahead, listed, outside, code]

/-- Who waits for an entry waits for a process that can go on. -/
theorem AwaitsEntry.holder {index slot : Nat} (guarded : Guarded state)
    (orderly : Orderly state) (waits : state.AwaitsEntry index slot) :
    ∃ holder, state.Holds holder slot ∧
      (state.advance holder).isSome := by
  obtain ⟨below, lockAhead, stuck⟩ := waits
  obtain ⟨instr, stands, entry⟩ := Option.bind_eq_some_iff.mp lockAhead
  obtain ⟨walker, rest, listed, outside, code⟩ := ahead_eq_some stands
  obtain ⟨current, advance⟩ :=
    advance_eq_of_code orderly listed outside code
  rw [advance, Option.map_eq_none_iff] at stuck
  have held : ∃ holder, state.Holds holder slot := by
    rcases locked_of_enter below entry stuck with reads | writes
    · obtain ⟨holder, holds⟩ := guarded.locked.holder_of_readLock reads
      exact ⟨holder, _, holds, rfl⟩
    · obtain ⟨holder, hold, holds, same⟩ :=
        guarded.locked.holder_of_writeLock writes
      exact ⟨holder, hold, holds, same⟩
  obtain ⟨holder, holds⟩ := held
  exact ⟨holder, holds, orderly.holder_advances holds⟩

/-- What keeps the holder of the task list from going on. -/
theorem Orderly.cleaner {holder : Nat} (orderly : Orderly state)
    (held : state.shared.tasklist = some holder) :
    (state.advance holder).isSome ∨
      (∃ slot, state.AwaitsEntry holder slot) ∨ state.AtNull holder := by
  obtain ⟨walker, listed, cleaning⟩ := orderly.cleaning holder held
  cases inside : walker.region with
  | some region =>
      have advance := advance_eq_of_region orderly listed inside
      rw [inside] at cleaning
      cases region with
      | sweepFirst slot seen =>
          left
          rw [advance, Region.progress]
          split
          · rfl
          · rfl
      | sweepSecond slot seen =>
          left
          rw [advance, Region.progress]
          split
          · rfl
          · rfl
      | sweepTime slot seen =>
          cases seen with
          | none =>
              right
              right
              exact ⟨slot, by rw [listed, Option.bind_some, inside]⟩
          | some task =>
              left
              rw [advance]
              simp only [Region.progress]
              split
              · rfl
              · rfl
      | climbing task =>
          exfalso
          generalize walker.code = code at cleaning
          cases cleaning with
          | testing sweeps => exact sweeps
          | resetting swaps => exact swaps
      | _ =>
          left
          rw [advance, Option.isSome_map]
          rfl
  | none =>
      rw [inside] at cleaning
      cases code : walker.code with
      | nil =>
          rw [code] at cleaning
          cases cleaning
      | cons instr rest =>
          obtain ⟨current, advance⟩ :=
            advance_eq_of_code orderly listed inside code
          rw [code] at cleaning
          cases cleaning with
          | loop =>
              left
              rw [advance, enter]
              split
              · rfl
              · rfl
          | reset below =>
              cases taken : state.advance holder with
              | some next => exact .inl rfl
              | none =>
                  right
                  left
                  refine ⟨_, below, ?_, taken⟩
                  rw [ahead_eq listed inside code]
                  rfl
          | dropping drops =>
              left
              rw [advance]
              cases instr with
              | dec link => rfl
              | readCount link => rfl
              | destroyRead link => rfl
              | loadText link => rfl
              | kfreeText link text => rfl
              | kfreeLink link => rfl
              | _ => exact drops.elim
          | ending =>
              left
              rw [advance]
              rfl

end Fine

namespace Fine

variable {state next : Fine}

/-- How many accesses the process has left at most before it releases its
lock. -/
def rankAt (state : Fine) (index : Nat) : Nat :=
  rankIn (state.walkers[index]?.bind Walker.region)

theorem rankAt_eq {index : Nat} {walker : Walker}
    (listed : state.walkers[index]? = some walker) :
    state.rankAt index = rankIn walker.region := by
  rw [rankAt, listed, Option.bind_some]

theorem not_holds_of_rankAt {index slot : Nat}
    (last : state.rankAt index = 0) : ¬ state.Holds index slot := by
  rintro ⟨hold, held, _⟩
  obtain ⟨walker, region, listed, inside, same⟩ := held_eq_some_iff.mp held
  rw [rankAt_eq listed, inside] at last
  have free := Region.hold_of_rank last
  cases free.symm.trans same

theorem rankAt_le (state : Fine) (index : Nat) : state.rankAt index ≤ 4 := by
  rw [rankAt]
  cases state.walkers[index]?.bind Walker.region with
  | none => exact Nat.zero_le 4
  | some region => cases region <;> simp [rankIn, Region.rank]

theorem rankAt_advance {index : Nat} (inside : 0 < state.rankAt index)
    (taken : state.advance index = some next) :
    next.rankAt index < state.rankAt index := by
  simp only [Fine.advance] at taken
  split at taken
  · cases taken
  rename_i walker listed
  obtain ⟨moved, moves, rfl⟩ := Option.map_eq_some_iff.mp taken
  have length := (List.getElem?_eq_some_iff.mp listed).1
  rw [rankAt_eq listed] at inside ⊢
  rw [rankAt_eq (List.getElem?_set_self length)]
  simp only [move] at moves
  split at moves
  · cases moves
  split at moves
  · rename_i region stands
    rw [stands] at inside ⊢
    have busy : region.hold ≠ none := by
      intro free
      have zero := Region.rank_of_hold free
      change 0 < region.rank at inside
      omega
    obtain ⟨other, progressed, less⟩ := Region.progress_of_hold busy
      state.shared state.locks walker.code
    cases moves.symm.trans progressed
    exact less
  · rename_i outside _
    rw [outside] at inside
    exact absurd inside (Nat.lt_irrefl 0)
  · rename_i outside _
    rw [outside] at inside
    exact absurd inside (Nat.lt_irrefl 0)

theorem rankAt_step {index : Nat} {event : ConcEvent}
    (other : event ≠ .advance index) (inside : 0 < state.rankAt index)
    (taken : state.step event = some next) :
    next.rankAt index = state.rankAt index := by
  cases event with
  | advance mover =>
      have different : mover ≠ index := by
        rintro rfl
        exact other rfl
      simp only [Fine.step, Fine.advance] at taken
      split at taken
      · cases taken
      obtain ⟨moved, moves, rfl⟩ := Option.map_eq_some_iff.mp taken
      rw [rankAt, List.getElem?_set_ne different]
      rfl
  | call pid call =>
      simp only [Fine.step, Fine.call] at taken
      split at taken
      · cases taken
      split at taken
      · cases taken
        cases listed : state.walkers[index]? with
        | none =>
            rw [rankAt, listed] at inside
            exact absurd inside (Nat.lt_irrefl 0)
        | some walker =>
            have length := (List.getElem?_eq_some_iff.mp listed).1
            rw [rankAt, List.getElem?_append_left length]
            rfl
      · cases taken
  | exit pid =>
      simp only [Fine.step] at taken
      split at taken
      · cases taken
        rfl
      · cases taken
  | writeValid euid buf count outcome =>
      cases taken
      rfl

theorem released {index : Nat} {later : List ConcEvent} {final : Fine}
    (continued : run Fine.step state later = some final)
    (steps : state.rankAt index ≤ later.count (.advance index)) :
    ∃ before middle, before <+: later ∧
      run Fine.step state before = some middle ∧
      middle.rankAt index = 0 := by
  induction later generalizing state with
  | nil => exact ⟨[], state, List.prefix_rfl, rfl, Nat.le_zero.mp steps⟩
  | cons event later induction =>
      by_cases last : state.rankAt index = 0
      · exact ⟨[], state, List.nil_prefix, rfl, last⟩
      have inside := Nat.pos_of_ne_zero last
      obtain ⟨next, taken, rest⟩ := run_cons_eq_some_iff.mp continued
      have fewer : next.rankAt index ≤ later.count (.advance index) := by
        by_cases own : event = .advance index
        · subst own
          have less := rankAt_advance inside taken
          rw [List.count_cons_self] at steps
          omega
        · rw [List.count_cons_of_ne own] at steps
          rw [rankAt_step own inside taken]
          exact steps
      obtain ⟨before, middle, initial, reached, released⟩ :=
        induction rest fewer
      exact ⟨event :: before, middle, List.cons_prefix_cons.mpr
        ⟨rfl, initial⟩, run_cons_eq_some_iff.mpr ⟨next, taken, reached⟩,
        released⟩

end Fine

/-- Whatever the others do in between, a process releases the lock of an
entry at the latest with its fourth own step. -/
theorem lock_released (pid_max : Nat) (tree : ProcTree)
    {events later : List ConcEvent} {state final : Fine} {index slot : Nat}
    (reached : run Fine.step (.init pid_max tree) events = some state)
    (holds : state.Holds index slot)
    (continued : run Fine.step state later = some final)
    (steps : 4 ≤ later.count (.advance index)) :
    (state.advance index).isSome ∧
    ∃ before middle, before <+: later ∧
      run Fine.step state before = some middle ∧
      ∀ slot, ¬ middle.Holds index slot := by
  have orderly := Fine.orderly_of_run reached
  refine ⟨orderly.holder_advances holds, ?_⟩
  obtain ⟨before, middle, initial, stopped, released⟩ :=
    Fine.released continued
      (Nat.le_trans (state.rankAt_le index) steps)
  exact ⟨before, middle, initial, stopped,
    fun slot => Fine.not_holds_of_rankAt released⟩

/-- Process 2 resets its entry while process 1 begins to reset its own. -/
theorem lock_released_reset :
    ∃ state, run Fine.step (.init 4 .boot)
        ([.call 1 (.fork (some ⟨2, ⟨5, 0⟩, 0, []⟩))] ++
          List.replicate 10 (.advance 0) ++
          [.call 2 .resetchos, .advance 1]) = some state ∧
      state.Holds 1 2 ∧ (state.advance 1).isSome ∧
      ∃ before middle,
        before <+: [.advance 1, .call 1 .resetchos, .advance 2, .advance 1,
          .advance 1, .advance 2, .advance 1] ∧
        run Fine.step state before = some middle ∧
        ∀ slot, ¬ middle.Holds 1 slot := by
  have ends : (run Fine.step (.init 4 .boot)
      ([.call 1 (.fork (some ⟨2, ⟨5, 0⟩, 0, []⟩))] ++
        List.replicate 10 (.advance 0) ++
        [.call 2 .resetchos, .advance 1])).any
      (fun state => state.held[1]? = some (some (.write 2)) ∧
        (run Fine.step state [.advance 1, .call 1 .resetchos, .advance 2,
          .advance 1, .advance 1, .advance 2, .advance 1]).isSome) =
        true := by
    decide +kernel
  obtain ⟨state, reached, facts⟩ := (Option.any_eq_true _ _).mp ends
  obtain ⟨held, continues⟩ := of_decide_eq_true facts
  obtain ⟨final, continued⟩ := Option.isSome_iff_exists.mp continues
  have holds : state.Holds 1 2 := ⟨_, held, rfl⟩
  exact ⟨state, reached, holds,
    lock_released 4 .boot reached holds continued (by decide)⟩

end Chos.Kernel
