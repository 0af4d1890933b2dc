import Chos.Kernel.Regions

/-!
# Regions are indivisible

Nobody writes an entry while a process is in a region of it, so what a process
has read there is still true when it releases the lock, and what it has
written there is still in place.  A region may therefore be taken as one step,
the one in which the lock is released.
-/

namespace Chos.Kernel

open Chos.Library

section Entering

variable {shared : Shared} {locks : Nat → RwLock} {rest : List Instr}
  {me : Nat} {current : Task} {instr : Instr} {moved : Moved}

/-- How a process can go on from an instruction. -/
inductive Entered (shared : Shared) (locks : Nat → RwLock)
    (rest : List Instr) (me : Nat) (current : Task) :
    Instr → Moved → Prop where
  | plain {instr : Instr} {next : Shared} {code : List Instr}
      (performed : shared.perform me current rest instr = some (next, code))
      (noStore : ∀ link task, instr ≠ .setStore link task)
      (noSwap : ∀ index, instr ≠ .resetSwap index)
      (noLink : ∀ task, instr = .lookup (some task) →
        task.pid = 0 ∨ task.pid = 1) :
      Entered shared locks rest me current instr
        ⟨next, locks, none, settle code⟩
  | looking {task : Task} {lock : RwLock}
      (above : ¬ (task.pid = 0 ∨ task.pid = 1))
      (below : task.pid < shared.table.pid_max)
      (taken : (locks task.pid).readLock = some lock) :
      Entered shared locks rest me current (.lookup (some task))
        ⟨shared, Function.update locks task.pid lock, some (.looking task),
          rest⟩
  | checking {link : Option LinkId} {task : Task} {lock : RwLock}
      (below : task.pid < shared.table.pid_max)
      (taken : (locks task.pid).readLock = some lock) :
      Entered shared locks rest me current (.setCheck link task)
        ⟨shared, Function.update locks task.pid lock,
          some (.checking link task), rest⟩
  | storing {link : Option LinkId} {task : Task} {lock : RwLock}
      (below : task.pid < shared.table.pid_max)
      (taken : (locks task.pid).writeLock = some lock) :
      Entered shared locks rest me current (.setStore link task)
        ⟨shared, Function.update locks task.pid lock,
          some (.storing link task), rest⟩
  | swapping {index : Nat} {lock : RwLock}
      (below : index < shared.table.pid_max)
      (taken : (locks index).writeLock = some lock) :
      Entered shared locks rest me current (.resetSwap index)
        ⟨shared, Function.update locks index lock, some (.swapping index),
          rest⟩
  | sweeping {index : Nat} (below : index < shared.table.pid_max) :
      Entered shared locks rest me current (.sweep index)
        ⟨shared, locks,
          some (.sweepFirst index (seenBy shared.tree current index)), rest⟩
  | swept {index : Nat} (done : ¬ index < shared.table.pid_max) :
      Entered shared locks rest me current (.sweep index)
        ⟨shared, locks, none, settle rest⟩

theorem takeRead_eq_some {index : Nat} {region : Region}
    (taken : takeRead shared locks rest index region = some moved) :
    ∃ lock, index < shared.table.pid_max ∧
      (locks index).readLock = some lock ∧
      moved = ⟨shared, Function.update locks index lock, some region,
        rest⟩ := by
  simp only [takeRead] at taken
  split at taken
  · cases taken
  rename_i entry accessed
  obtain ⟨lock, locked, rfl⟩ := Option.map_eq_some_iff.mp taken
  exact ⟨lock, (Table.proc_eq_ok_iff.mp accessed).1, locked, rfl⟩

theorem takeWrite_eq_some {index : Nat} {region : Region}
    (taken : takeWrite shared locks rest index region = some moved) :
    ∃ lock, index < shared.table.pid_max ∧
      (locks index).writeLock = some lock ∧
      moved = ⟨shared, Function.update locks index lock, some region,
        rest⟩ := by
  simp only [takeWrite] at taken
  split at taken
  · cases taken
  rename_i entry accessed
  obtain ⟨lock, locked, rfl⟩ := Option.map_eq_some_iff.mp taken
  exact ⟨lock, (Table.proc_eq_ok_iff.mp accessed).1, locked, rfl⟩

theorem entered_of_plain
    (noStore : ∀ link task, instr ≠ .setStore link task)
    (noSwap : ∀ index, instr ≠ .resetSwap index)
    (noLink : ∀ task, instr = .lookup (some task) →
      task.pid = 0 ∨ task.pid = 1)
    (taken : plain shared locks rest me current instr = some moved) :
    Entered shared locks rest me current instr moved := by
  obtain ⟨⟨next, code⟩, performed, rfl⟩ := Option.map_eq_some_iff.mp taken
  exact .plain performed noStore noSwap noLink

theorem entered_of_enter
    (taken : enter shared locks rest me current instr = some moved) :
    Entered shared locks rest me current instr moved := by
  cases instr with
  | lookup task =>
      cases task with
      | none =>
          apply entered_of_plain _ _ _ taken
          · intro link task impossible
            cases impossible
          · intro index impossible
            cases impossible
          · intro task impossible
            cases impossible
      | some task =>
          simp only [enter] at taken
          split at taken
          · rename_i root
            apply entered_of_plain _ _ _ taken
            · intro link task impossible
              cases impossible
            · intro index impossible
              cases impossible
            · intro other same
              cases same
              exact root
          rename_i above
          split at taken
          · cases taken
          obtain ⟨lock, below, locked, rfl⟩ := takeRead_eq_some taken
          exact .looking above below locked
  | setCheck link task =>
      simp only [enter] at taken
      split at taken
      · cases taken
      obtain ⟨lock, below, locked, rfl⟩ := takeRead_eq_some taken
      exact .checking below locked
  | setStore link task =>
      obtain ⟨lock, below, locked, rfl⟩ := takeWrite_eq_some taken
      exact .storing below locked
  | resetSwap index =>
      obtain ⟨lock, below, locked, rfl⟩ := takeWrite_eq_some taken
      exact .swapping below locked
  | sweep index =>
      simp only [enter] at taken
      split at taken
      · rename_i below
        cases taken
        exact .sweeping below
      · rename_i done
        cases taken
        exact .swept done
  | _ =>
      apply entered_of_plain _ _ _ taken
      · intro link task impossible
        cases impossible
      · intro index impossible
        cases impossible
      · intro task impossible
        cases impossible

/-- Entries are written in regions only, and their number does not change. -/
theorem procs_of_perform {next : Shared} {code : List Instr}
    (performed : shared.perform me current rest instr = some (next, code))
    (noStore : ∀ link task, instr ≠ .setStore link task)
    (noSwap : ∀ index, instr ≠ .resetSwap index) :
    next.table.procs = shared.table.procs ∧
      next.table.pid_max = shared.table.pid_max := by
  cases instr with
  | setStore link task => exact absurd rfl (noStore link task)
  | resetSwap index => exact absurd rfl (noSwap index)
  | lookup task =>
      cases task with
      | none =>
          cases performed
          exact ⟨rfl, rfl⟩
      | some task =>
          simp only [Shared.perform, Shared.performLookup] at performed
          split at performed
          · cases performed
            exact ⟨rfl, rfl⟩
          split at performed
          · cases performed
          split at performed
          · cases performed
          split at performed
          · cases performed
            exact ⟨rfl, rfl⟩
          · cases performed
            exact ⟨rfl, rfl⟩
  | setCheck link task =>
      simp only [Shared.perform, Shared.performSetCheck] at performed
      split at performed
      · cases performed
      split at performed
      · cases performed
      split at performed
      · cases performed
        exact ⟨rfl, rfl⟩
      · cases performed
        exact ⟨rfl, rfl⟩
  | lockTasks =>
      simp only [Shared.perform] at performed
      split at performed
      · cases performed
        exact ⟨rfl, rfl⟩
      · cases performed
  | setchos buf count outcome =>
      have result := Option.some.inj performed
      simp only [Shared.performSetchos, Table.allocText] at result
      split at result
      · split at result
        · cases result
          exact ⟨rfl, rfl⟩
        · cases result
          exact ⟨rfl, rfl⟩
      · cases result
        exact ⟨rfl, rfl⟩
  | createLink text allocated =>
      cases performed
      cases allocated with
      | true => exact ⟨rfl, rfl⟩
      | false => exact ⟨rfl, rfl⟩
  | doFork parent_link new =>
      simp only [Shared.perform] at performed
      split at performed
      · cases new with
        | none =>
            cases performed
            exact ⟨rfl, rfl⟩
        | some new =>
            simp only [Shared.performDoFork] at performed
            split at performed
            · cases performed
            split at performed
            · cases performed
            split at performed
            · cases performed
              exact ⟨rfl, rfl⟩
            · cases performed
      · cases performed
  | findChild parent_link nr =>
      simp only [Shared.perform] at performed
      split at performed
      · split at performed
        · cases performed
          exact ⟨rfl, rfl⟩
        · cases performed
          exact ⟨rfl, rfl⟩
      · cases performed
  | climbed task => cases performed
  | returns link => cases performed
  | assign task => cases performed
  | readlink => cases performed
  | forked new => cases performed
  | _ =>
      cases performed
      exact ⟨rfl, rfl⟩

end Entering

/-- What is true of the entry because of the accesses made so far. -/
def Region.Knows (entry : ChosProc) : Region → Prop
  | .timing _ => entry.link ≠ none
  | .hitting task =>
      entry.link ≠ none ∧ entry.start_time = task.start_time.tv_sec
  | .leaving task link =>
      link ≠ none ∧ entry.link = link ∧
        entry.start_time = task.start_time.tv_sec
  | .missed task =>
      entry.link = none ∨ entry.start_time ≠ task.start_time.tv_sec
  | .checked _ _ found => entry.link = found
  | .stamping link _ => entry.link = link
  | .stored link task => entry = .assigned link task
  | .clearing _ old => entry.link = old
  | .zeroing _ _ => entry.link = none
  | .swapped _ _ => entry = .cleared
  | _ => True

/-- The accesses stay inside the array, and a lookup is not at a root of the
process tree. -/
def Region.Within (pid_max : Nat) : Region → Prop
  | .looking task | .timing task | .hitting task | .leaving task _ |
      .missed task =>
      ¬ (task.pid = 0 ∨ task.pid = 1) ∧ task.pid < pid_max
  | .climbing _ => True
  | region => region.index < pid_max

theorem Region.index_of_hold {region : Region} {hold : Hold Nat}
    (held : region.hold = some hold) : hold.index = region.index := by
  cases region with
  | climbing task => cases held
  | sweepFirst index seen => cases held
  | sweepSecond index seen => cases held
  | sweepTime index seen => cases held
  | _ =>
      cases held
      rfl

theorem Region.knows_of_free {region : Region} (free : region.hold = none)
    (entry : ChosProc) : region.Knows entry := by
  cases region with
  | climbing task => trivial
  | sweepFirst index seen => trivial
  | sweepSecond index seen => trivial
  | sweepTime index seen => trivial
  | _ => cases free

/-- A step of a process that is in a region: what it does to the entry, to
what it holds, and what it knows afterwards. -/
structure Region.Steps (region : Region) (shared : Shared)
    (locks : Nat → RwLock) (moved : Moved) : Prop where
  others : ∀ index,
    region.hold ≠ some (.write index) →
      moved.shared.table.procs index = shared.table.procs index
  knows : ∀ next ∈ moved.region,
    next.Knows (moved.shared.table.procs next.index)
  pid_max : moved.shared.table.pid_max = shared.table.pid_max
  locked : moved.locks = locks ∧
      moved.region.bind Region.hold = region.hold ∨
    moved.region.bind Region.hold = none ∧
      (region.hold = some (.read region.index) ∧
          moved.locks = Function.update locks region.index
            (locks region.index).readUnlock ∨
        region.hold = some (.write region.index) ∧
          moved.locks = Function.update locks region.index
            (locks region.index).writeUnlock)

namespace Region.Steps

variable {region next : Region} {shared : Shared} {locks : Nat → RwLock}
  {code : List Instr}

theorem reads (held : next.hold = region.hold)
    (knows : next.Knows (shared.table.procs next.index)) :
    region.Steps shared locks ⟨shared, locks, some next, code⟩ where
  others := by
    intro index _
    rfl
  knows := by
    intro other standing
    cases standing
    exact knows
  pid_max := rfl
  locked := Or.inl ⟨rfl, held⟩

theorem writes {entry : ChosProc}
    (holds : region.hold = some (.write region.index))
    (held : next.hold = region.hold) (same : next.index = region.index)
    (knows : next.Knows entry) :
    region.Steps shared locks
      ⟨shared.withTable (shared.table.store region.index entry), locks,
        some next, code⟩ where
  others := by
    intro index elsewhere
    apply Function.update_of_ne
    rintro rfl
    exact elsewhere holds
  knows := by
    intro other standing
    cases standing
    rw [same]
    have stored : (shared.withTable
        (shared.table.store region.index entry)).table.procs region.index =
        entry := Function.update_self _ _ _
    rw [stored]
    exact knows
  pid_max := rfl
  locked := Or.inl ⟨rfl, held⟩

theorem readUnlocks (holds : region.hold = some (.read region.index))
    {standing : Option Region} (free : standing.bind Region.hold = none) :
    region.Steps shared locks
      ⟨shared, Function.update locks region.index
        (locks region.index).readUnlock, standing, code⟩ where
  others := by
    intro index _
    rfl
  knows := by
    intro other stands
    cases stands
    exact Region.knows_of_free free _
  pid_max := rfl
  locked := Or.inr ⟨free, Or.inl ⟨holds, rfl⟩⟩

theorem writeUnlocks (holds : region.hold = some (.write region.index)) :
    region.Steps shared locks
      ⟨shared, Function.update locks region.index
        (locks region.index).writeUnlock, none, code⟩ where
  others := by
    intro index _
    rfl
  knows := by
    intro other impossible
    cases impossible
  pid_max := rfl
  locked := Or.inr ⟨rfl, Or.inr ⟨holds, rfl⟩⟩

theorem ends (free : region.hold = none) :
    region.Steps shared locks ⟨shared, locks, none, code⟩ where
  others := by
    intro index _
    rfl
  knows := by
    intro other impossible
    cases impossible
  pid_max := rfl
  locked := Or.inl ⟨rfl, free.symm⟩

end Region.Steps

theorem Region.steps_of_progress {region : Region} {shared : Shared}
    {locks : Nat → RwLock} {rest : List Instr} {moved : Moved}
    (knows : region.Knows (shared.table.procs region.index))
    (progressed : region.progress shared locks rest = some moved) :
    region.Steps shared locks moved := by
  cases region with
  | looking task =>
      cases progressed
      split
      · rename_i empty
        exact .reads rfl (Or.inl empty)
      · rename_i linked
        exact .reads rfl linked
  | timing task =>
      cases progressed
      split
      · rename_i other
        exact .reads rfl (Or.inr other)
      · rename_i same
        exact .reads rfl ⟨knows, not_not.mp same⟩
  | hitting task =>
      cases progressed
      exact .reads rfl ⟨knows.1, rfl, knows.2⟩
  | leaving task link =>
      cases progressed
      exact .readUnlocks rfl rfl
  | missed task =>
      cases progressed
      exact .readUnlocks rfl rfl
  | climbing task =>
      cases progressed
      exact .ends rfl
  | checking link task =>
      cases progressed
      exact .reads rfl rfl
  | checked link task found =>
      cases progressed
      exact .readUnlocks rfl rfl
  | storing link task =>
      cases progressed
      exact .writes rfl rfl rfl rfl
  | stamping link task =>
      cases progressed
      refine .writes rfl rfl rfl ?_
      have held : (shared.table.procs task.pid).link = link := knows
      simp [Knows, ChosProc.assigned, held]
  | stored link task =>
      cases progressed
      exact .writeUnlocks rfl
  | swapping index =>
      cases progressed
      exact .reads rfl rfl
  | clearing index old =>
      cases progressed
      exact .writes rfl rfl rfl rfl
  | zeroing index old =>
      cases progressed
      refine .writes rfl rfl rfl ?_
      have held : (shared.table.procs index).link = none := knows
      simp [Knows, ChosProc.cleared, held]
  | swapped index old =>
      cases progressed
      exact .writeUnlocks rfl
  | sweepFirst index seen =>
      simp only [progress] at progressed
      split at progressed
      · cases progressed
        exact .ends rfl
      · cases progressed
        exact .reads rfl trivial
  | sweepSecond index seen =>
      simp only [progress] at progressed
      split at progressed
      · cases progressed
        exact .reads rfl trivial
      · cases progressed
        exact .ends rfl
  | sweepTime index seen =>
      simp only [progress] at progressed
      split at progressed
      · cases progressed
      split at progressed
      · cases progressed
        exact .ends rfl
      · cases progressed
        exact .ends rfl

theorem Region.within_of_progress {region next : Region} {shared : Shared}
    {locks : Nat → RwLock} {rest : List Instr} {moved : Moved}
    {pid_max : Nat} (within : region.Within pid_max)
    (progressed : region.progress shared locks rest = some moved)
    (stands : moved.region = some next) : next.Within pid_max := by
  cases region with
  | looking task =>
      cases progressed
      cases stands
      split
      · exact within
      · exact within
  | timing task =>
      cases progressed
      cases stands
      split
      · exact within
      · exact within
  | sweepFirst index seen =>
      simp only [progress] at progressed
      split at progressed
      · cases progressed
        cases stands
      · cases progressed
        cases stands
        exact within
  | sweepSecond index seen =>
      simp only [progress] at progressed
      split at progressed
      · cases progressed
        cases stands
        exact within
      · cases progressed
        cases stands
  | sweepTime index seen =>
      simp only [progress] at progressed
      split at progressed
      · cases progressed
      split at progressed
      · cases progressed
        cases stands
      · cases progressed
        cases stands
  | missed task =>
      cases progressed
      cases stands
      trivial
  | leaving task link =>
      cases progressed
      cases stands
  | climbing task =>
      cases progressed
      cases stands
  | checked link task found =>
      cases progressed
      cases stands
  | stored link task =>
      cases progressed
      cases stands
  | swapped index old =>
      cases progressed
      cases stands
  | _ =>
      cases progressed
      cases stands
      exact within

namespace Fine

variable {state next : Fine}

def held (state : Fine) : List (Option (Hold Nat)) :=
  state.walkers.map fun walker => walker.region.bind Region.hold

theorem held_getElem? {index : Nat} {walker : Walker}
    (listed : state.walkers[index]? = some walker) :
    state.held[index]? = some (walker.region.bind Region.hold) := by
  rw [held, List.getElem?_map, listed]
  rfl

/-- The locks agree with the processes, and each process is right about the
entry it has locked. -/
structure Guarded (state : Fine) : Prop where
  locked : Locked state.locks state.held
  knows : ∀ walker ∈ state.walkers, ∀ region ∈ walker.region,
    region.Knows (state.shared.table.procs region.index)
  within : ∀ walker ∈ state.walkers, ∀ region ∈ walker.region,
    region.Within state.shared.table.pid_max

theorem Guarded.init (pid_max : Nat) (tree : ProcTree) :
    Guarded (.init pid_max tree) where
  locked := Locked.nobody
  knows := by
    intro walker impossible
    cases impossible
  within := by
    intro walker impossible
    cases impossible

/-- What one process does to the entries and to the locks. -/
structure Careful (state : Fine) (index : Nat) (walker : Walker)
    (moved : Moved) : Prop where
  others : ∀ slot, walker.region.bind Region.hold ≠ some (.write slot) →
    moved.shared.table.procs slot = state.shared.table.procs slot
  knows : ∀ region ∈ moved.region,
    region.Knows (moved.shared.table.procs region.index)
  pid_max : moved.shared.table.pid_max = state.shared.table.pid_max
  within : ∀ region ∈ moved.region,
    region.Within state.shared.table.pid_max
  locked : Locked moved.locks
    (state.held.set index (moved.region.bind Region.hold))

theorem Guarded.careful_of_entered {index : Nat} {walker : Walker}
    {current : Task} {instr : Instr} {rest : List Instr} {moved : Moved}
    (guarded : Guarded state)
    (listed : state.walkers[index]? = some walker)
    (outside : walker.region = none)
    (entered : Entered state.shared state.locks rest index current instr
      moved) :
    Careful state index walker moved := by
  have standing : state.held[index]? = some none := by
    rw [held_getElem? listed, outside]
    rfl
  cases entered with
  | plain performed noStore noSwap noLink =>
      obtain ⟨procs, pid_max⟩ := procs_of_perform performed noStore noSwap
      refine ⟨?_, ?_, pid_max, ?_, guarded.locked.keep standing⟩
      · intro slot _
        rw [procs]
      · intro region impossible
        cases impossible
      · intro region impossible
        cases impossible
  | looking above below taken =>
      refine ⟨fun _ _ => rfl, ?_, rfl, ?_,
        guarded.locked.readLock standing taken⟩
      · intro region stands
        cases stands
        trivial
      · intro region stands
        cases stands
        exact ⟨above, below⟩
  | checking below taken =>
      refine ⟨fun _ _ => rfl, ?_, rfl, ?_,
        guarded.locked.readLock standing taken⟩
      · intro region stands
        cases stands
        trivial
      · intro region stands
        cases stands
        exact below
  | storing below taken =>
      refine ⟨fun _ _ => rfl, ?_, rfl, ?_,
        guarded.locked.writeLock standing taken⟩
      · intro region stands
        cases stands
        trivial
      · intro region stands
        cases stands
        exact below
  | swapping below taken =>
      refine ⟨fun _ _ => rfl, ?_, rfl, ?_,
        guarded.locked.writeLock standing taken⟩
      · intro region stands
        cases stands
        trivial
      · intro region stands
        cases stands
        exact below
  | sweeping below =>
      refine ⟨fun _ _ => rfl, ?_, rfl, ?_, guarded.locked.keep standing⟩
      · intro region stands
        cases stands
        trivial
      · intro region stands
        cases stands
        exact below
  | swept done =>
      refine ⟨fun _ _ => rfl, ?_, rfl, ?_, guarded.locked.keep standing⟩
      · intro region impossible
        cases impossible
      · intro region impossible
        cases impossible

theorem Guarded.careful_of_steps {index : Nat} {walker : Walker}
    {region : Region} {moved : Moved} (guarded : Guarded state)
    (listed : state.walkers[index]? = some walker)
    (inside : walker.region = some region)
    (steps : region.Steps state.shared state.locks moved)
    (within : ∀ next ∈ moved.region,
      next.Within state.shared.table.pid_max) :
    Careful state index walker moved := by
  have standing : state.held[index]? = some region.hold := by
    rw [held_getElem? listed, inside]
    rfl
  refine ⟨?_, steps.knows, steps.pid_max, within, ?_⟩
  · rw [inside]
    exact steps.others
  · rcases steps.locked with ⟨same, holds⟩ | ⟨free, unlocks⟩
    · rw [same, holds]
      exact guarded.locked.keep standing
    · rw [free]
      rcases unlocks with ⟨reads, unlocked⟩ | ⟨writes, unlocked⟩
      · rw [reads] at standing
        rw [unlocked]
        exact guarded.locked.readUnlock standing
      · rw [writes] at standing
        rw [unlocked]
        exact guarded.locked.writeUnlock standing

theorem Guarded.careful {index : Nat} {walker : Walker} {moved : Moved}
    (guarded : Guarded state)
    (listed : state.walkers[index]? = some walker)
    (moves : state.move index walker = some moved) :
    Careful state index walker moved := by
  simp only [move] at moves
  split at moves
  · cases moves
  split at moves
  · rename_i region inside
    have member := List.mem_of_getElem? listed
    apply guarded.careful_of_steps listed inside
    · exact Region.steps_of_progress
        (guarded.knows walker member region inside) moves
    · intro next stands
      exact Region.within_of_progress
        (guarded.within walker member region inside) moves stands
  · cases moves
  · rename_i instr rest outside code
    exact guarded.careful_of_entered listed outside
      (entered_of_enter moves)

/-- Whoever holds a lock is spared by the steps of the others. -/
theorem Guarded.knows_of_other {index other : Nat}
    {walker standing : Walker} {region : Region} {moved : Moved}
    (guarded : Guarded state)
    (listed : state.walkers[index]? = some walker)
    (careful : Careful state index walker moved)
    (listedOther : state.walkers[other]? = some standing)
    (different : index ≠ other) (inside : standing.region = some region) :
    region.Knows (moved.shared.table.procs region.index) := by
  have knew := guarded.knows standing (List.mem_of_getElem? listedOther)
    region inside
  cases holds : region.hold with
  | none => exact Region.knows_of_free holds _
  | some hold =>
      have same : moved.shared.table.procs region.index =
          state.shared.table.procs region.index := by
        apply careful.others
        intro writes
        have writer := held_getElem? listed
        rw [writes] at writer
        have holder := held_getElem? listedOther
        rw [inside, Option.bind_some, holds] at holder
        exact different (guarded.locked.exclusive writer holder
          (Region.index_of_hold holds))
      rw [same]
      exact knew

theorem Guarded.advance {index : Nat} (guarded : Guarded state)
    (taken : state.advance index = some next) : Guarded next := by
  simp only [Fine.advance] at taken
  split at taken
  · cases taken
  rename_i walker listed
  obtain ⟨moved, moves, rfl⟩ := Option.map_eq_some_iff.mp taken
  have careful := guarded.careful listed moves
  constructor
  · have locked := careful.locked
    rw [held, List.map_set]
    exact locked
  · intro standing inside region stands
    obtain ⟨other, listedOther⟩ := List.mem_iff_getElem?.mp inside
    by_cases same : index = other
    · subst same
      have length := (List.getElem?_eq_some_iff.mp listed).1
      rw [List.getElem?_set_self length] at listedOther
      cases listedOther
      exact careful.knows region stands
    · rw [List.getElem?_set_ne same] at listedOther
      exact guarded.knows_of_other listed careful listedOther same stands
  · intro standing inside region stands
    change region.Within moved.shared.table.pid_max
    rw [careful.pid_max]
    rcases List.mem_or_eq_of_mem_set inside with older | rfl
    · exact guarded.within standing older region stands
    · exact careful.within region stands

theorem Guarded.step {event : ConcEvent} (guarded : Guarded state)
    (taken : state.step event = some next) : Guarded next := by
  cases event with
  | advance index => exact guarded.advance taken
  | call pid call =>
      simp only [Fine.step, Fine.call] at taken
      split at taken
      · cases taken
      split at taken
      · cases taken
        constructor
        · rw [held, List.map_append]
          exact guarded.locked.enter
        · intro walker inside region stands
          rcases List.mem_append.mp inside with older | new
          · exact guarded.knows walker older region stands
          · rw [List.mem_singleton.mp new] at stands
            cases stands
        · intro walker inside region stands
          rcases List.mem_append.mp inside with older | new
          · exact guarded.within walker older region stands
          · rw [List.mem_singleton.mp new] at stands
            cases stands
      · cases taken
  | exit pid =>
      simp only [Fine.step] at taken
      split at taken
      · cases taken
        exact ⟨guarded.locked, guarded.knows, guarded.within⟩
      · cases taken
  | writeValid euid buf count outcome =>
      cases taken
      exact ⟨guarded.locked, guarded.knows, guarded.within⟩

theorem guarded_of_run {pid_max : Nat} {tree : ProcTree}
    {events : List ConcEvent}
    (reached : run Fine.step (.init pid_max tree) events = some state) :
    Guarded state :=
  run_invariant (fun _ _ _ guarded _ taken => Guarded.step guarded taken)
    reached (along_of_forall (fun _ _ => trivial) _ _)
    (Guarded.init pid_max tree)

end Fine

/-- At the release of a lock the process goes on as after the indivisible
region, taken in the state of that moment; a store is in place.  What
`reset_link` has to drop is settled when it overwrites the link. -/
def Region.Agrees (shared : Shared) (rest : List Instr) : Region → Prop
  | .leaving task link =>
      shared.performLookup rest (some task) =
        some (shared, returning link rest)
  | .missed task =>
      shared.performLookup rest (some task) =
        some (shared,
          .lookup (shared.tree.parentOf task) :: .climbed task :: rest)
  | .checked link task found =>
      shared.performSetCheck rest link task =
        some (shared, if found ≠ none then
          .resetSwap task.pid :: setting link task :: rest
        else setting link task :: rest)
  | .stored link task =>
      shared.table.store task.pid (.assigned link task) = shared.table
  | .clearing index old =>
      (shared.performResetSwap rest index).map
          (fun (next, code) => (next, settle code)) =
        some (shared.withTable (shared.table.store index .cleared),
          dropping old rest)
  | .swapped index _ => shared.table.store index .cleared = shared.table
  | _ => True

theorem Table.proc_eq_ok {table : Table} {index : Nat}
    (below : index < table.pid_max) :
    table.proc index = .ok (table.procs index) := by
  rw [proc, if_pos below]

theorem Table.store_self {table : Table} {index : Nat} {entry : ChosProc}
    (same : table.procs index = entry) : table.store index entry = table := by
  rw [store, ← same, Function.update_eq_self]

theorem Region.agrees {region : Region} {shared : Shared}
    {rest : List Instr}
    (knows : region.Knows (shared.table.procs region.index))
    (within : region.Within shared.table.pid_max) :
    region.Agrees shared rest := by
  cases region with
  | leaving task link =>
      obtain ⟨above, below⟩ := within
      obtain ⟨linked, held, started⟩ := knows
      have valid : ¬ ((shared.table.procs task.pid).link = none ∨
          (shared.table.procs task.pid).start_time ≠
            task.start_time.tv_sec) := by
        rintro (empty | other)
        · exact linked (held.symm.trans empty)
        · exact other started
      rw [Agrees, Shared.performLookup, if_neg above,
        if_neg (Nat.not_lt_of_lt below), Table.proc_eq_ok below]
      dsimp only
      rw [if_neg valid]
      exact held ▸ rfl
  | missed task =>
      obtain ⟨above, below⟩ := within
      rw [Agrees, Shared.performLookup, if_neg above,
        if_neg (Nat.not_lt_of_lt below), Table.proc_eq_ok below]
      exact if_pos knows
  | checked link task found =>
      have below : task.pid < shared.table.pid_max := within
      have held : (shared.table.procs task.pid).link = found := knows
      rw [Agrees, Shared.performSetCheck, if_neg (Nat.not_lt_of_lt below),
        Table.proc_eq_ok below]
      dsimp only
      rw [held]
      split
      · rfl
      · rfl
  | stored link task => exact Table.store_self knows
  | clearing index old =>
      have below : index < shared.table.pid_max := within
      have held : (shared.table.procs index).link = old := knows
      rw [Agrees, Shared.performResetSwap, Table.proc_eq_ok below]
      dsimp only
      rw [held]
      cases old with
      | none => rfl
      | some link => rfl
  | swapped index old => exact Table.store_self knows
  | _ => trivial

/-- In every state of every run: two processes are in regions of one entry at
the same time only if both read it; and whatever the others do, a process
that has come to the end of a region stands where the indivisible region
would have taken it. -/
theorem regions_indivisible (pid_max : Nat) (tree : ProcTree)
    {events : List ConcEvent} {state : Fine}
    (reached : run Fine.step (.init pid_max tree) events = some state) :
    (∀ (first second : Nat) (one two : Region), first ≠ second →
      state.walkers[first]?.bind Walker.region = some one →
      state.walkers[second]?.bind Walker.region = some two →
      one.hold ≠ none → two.hold ≠ none → one.index = two.index →
      one.hold = some (.read one.index) ∧
        two.hold = some (.read two.index)) ∧
    ∀ walker ∈ state.walkers, ∀ region ∈ walker.region,
      region.Agrees state.shared walker.code := by
  have guarded := Fine.guarded_of_run reached
  constructor
  · have holding : ∀ (index : Nat) (region : Region),
        state.walkers[index]?.bind Walker.region = some region →
        state.held[index]? = some region.hold := by
      intro index region stands
      obtain ⟨walker, listed, inside⟩ := Option.bind_eq_some_iff.mp stands
      rw [Fine.held_getElem? listed, inside]
      rfl
    -- if one of them writes, the two are the same process
    have reads : ∀ (first second : Nat) (one two : Region), first ≠ second →
        state.held[first]? = some one.hold →
        state.held[second]? = some two.hold →
        two.hold ≠ none → one.index = two.index →
        one.hold ≠ some (.write one.index) := by
      intro first second one two different firstHolds secondHolds busy same
        writes
      obtain ⟨hold, holds⟩ := Option.ne_none_iff_exists'.mp busy
      rw [writes] at firstHolds
      rw [holds] at secondHolds
      exact different (guarded.locked.exclusive firstHolds secondHolds
        ((Region.index_of_hold holds).trans same.symm))
    have reader : ∀ region : Region, region.hold ≠ none →
        region.hold ≠ some (.write region.index) →
        region.hold = some (.read region.index) := by
      intro region busy notWrites
      obtain ⟨hold, holds⟩ := Option.ne_none_iff_exists'.mp busy
      have index := Region.index_of_hold holds
      rw [holds] at notWrites ⊢
      cases hold with
      | read slot => exact index ▸ rfl
      | write slot => exact absurd (index ▸ rfl) notWrites
    intro first second one two different firstStands secondStands firstBusy
      secondBusy same
    have firstHolds := holding first one firstStands
    have secondHolds := holding second two secondStands
    exact ⟨reader one firstBusy (reads first second one two different
        firstHolds secondHolds secondBusy same),
      reader two secondBusy (reads second first two one different.symm
        secondHolds firstHolds firstBusy same.symm)⟩
  · intro walker inside region stands
    exact Region.agrees (guarded.knows walker inside region stands)
      (guarded.within walker inside region stands)

/-- Process 2 sets a path and looks its own entry up; its child 3 has no link
of its own and climbs to the same entry. -/
def Fine.twoReaders : List ConcEvent :=
  [.writeValid 0 [47, 97] 2 ⟨true, true⟩,
    .call 1 (.fork (some ⟨2, ⟨5, 0⟩, 0, []⟩))] ++
    List.replicate 10 (.advance 0) ++
    [.call 2 (.fork (some ⟨3, ⟨6, 0⟩, 0, []⟩))] ++
    List.replicate 19 (.advance 1) ++
    [.call 2 (.setchos [47, 97] 2 ⟨true, true, true, .other 0⟩)] ++
    List.replicate 25 (.advance 2) ++
    [.call 2 .readlink, .call 3 .readlink] ++
    List.replicate 8 (.advance 4) ++ List.replicate 4 (.advance 3)

/-- Both are in the region of entry 2 at once, and both only read it. -/
theorem regions_indivisible_readers :
    ∃ state task,
      run Fine.step (.init 4 .boot) Fine.twoReaders = some state ∧
      state.walkers[3]?.bind Walker.region =
        some (.leaving task (some 0)) ∧
      state.walkers[4]?.bind Walker.region =
        some (.leaving task (some 0)) ∧
      (Region.leaving task (some 0)).hold = some (.read task.pid) ∧
      ∀ walker ∈ state.walkers, ∀ region ∈ walker.region,
        region.Agrees state.shared walker.code := by
  have ends : (run Fine.step (.init 4 .boot) Fine.twoReaders).any
      (fun state =>
        state.walkers[3]?.bind Walker.region = some
          (.leaving ⟨2, ⟨5, 0⟩, 1, 0, [], .nochroot⟩ (some 0)) ∧
        state.walkers[4]?.bind Walker.region = some
          (.leaving ⟨2, ⟨5, 0⟩, 1, 0, [], .nochroot⟩ (some 0))) = true := by
    decide +kernel
  obtain ⟨state, reached, facts⟩ := (Option.any_eq_true _ _).mp ends
  obtain ⟨third, fourth⟩ := of_decide_eq_true facts
  obtain ⟨shared, agree⟩ := regions_indivisible 4 .boot reached
  have reads := (shared 3 4 _ _ (by decide) third fourth nofun nofun rfl).1
  exact ⟨state, _, reached, third, fourth, reads, agree⟩

end Chos.Kernel
