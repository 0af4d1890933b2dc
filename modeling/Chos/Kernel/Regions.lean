import Chos.Kernel.MemorySafety
import Chos.Library.RwLock

/-!
# Inside the regions

The concurrent machine takes a region under a lock as one step.  Here a step
is a single access to an entry of `ch->procs`, and the locks of the entries
are part of the state: a process takes the lock, reads or writes `link` and
`start_time` one after the other, and releases the lock.  `cleanup_links`
reads entries without their locks, and `lookup_link` reads the parent after it
has released the lock.
-/

namespace Chos.Kernel

open Chos.Library

namespace Table

def storeLink (table : Table) (index : Nat) (link : Option LinkId) : Table :=
  table.store index { table.procs index with link := link }

def storeTime (table : Table) (index time : Nat) : Table :=
  table.store index { table.procs index with start_time := time }

end Table

/-- The next access of a process to the entry it is at, or the release of the
lock.  The first six are in `lookup_link`, then come the two regions of
`set_link`, that of `reset_link`, and the tests of `cleanup_links`, where
`seen` is the task it has found. -/
inductive Region where
  | looking (task : Task)
  | timing (task : Task)
  | hitting (task : Task)
  | leaving (task : Task) (link : Option LinkId)
  | missed (task : Task)
  | climbing (task : Task)
  | checking (link : Option LinkId) (task : Task)
  | checked (link : Option LinkId) (task : Task) (found : Option LinkId)
  | storing (link : Option LinkId) (task : Task)
  | stamping (link : Option LinkId) (task : Task)
  | stored (link : Option LinkId) (task : Task)
  | swapping (index : Nat)
  | clearing (index : Nat) (old : Option LinkId)
  | zeroing (index : Nat) (old : Option LinkId)
  | swapped (index : Nat) (old : Option LinkId)
  | sweepFirst (index : Nat) (seen : Option Task)
  | sweepSecond (index : Nat) (seen : Option Task)
  | sweepTime (index : Nat) (seen : Option Task)
  deriving DecidableEq, Repr

def Region.index : Region → Nat
  | .looking task => task.pid
  | .timing task => task.pid
  | .hitting task => task.pid
  | .leaving task _ => task.pid
  | .missed task => task.pid
  | .climbing task => task.pid
  | .checking _ task => task.pid
  | .checked _ task _ => task.pid
  | .storing _ task => task.pid
  | .stamping _ task => task.pid
  | .stored _ task => task.pid
  | .swapping index => index
  | .clearing index _ => index
  | .zeroing index _ => index
  | .swapped index _ => index
  | .sweepFirst index _ => index
  | .sweepSecond index _ => index
  | .sweepTime index _ => index

def Region.hold (region : Region) : Option (Hold Nat) :=
  match region with
  | .looking _ | .timing _ | .hitting _ | .leaving _ _ | .missed _ |
      .checking _ _ | .checked _ _ _ => some (.read region.index)
  | .storing _ _ | .stamping _ _ | .stored _ _ | .swapping _ |
      .clearing _ _ | .zeroing _ _ | .swapped _ _ =>
      some (.write region.index)
  | .climbing _ | .sweepFirst _ _ | .sweepSecond _ _ | .sweepTime _ _ =>
      none

/-- What a step leaves: the shared state, the locks, and where the process
stands. -/
structure Moved where
  shared : Shared
  locks : Nat → RwLock
  region : Option Region
  code : List Instr

/-- What is left of `reset_link` after its region. -/
def dropping (old : Option LinkId) (rest : List Instr) : List Instr :=
  match old with
  | some link => .dec link :: rest
  | none => settle rest

section Steps

variable (shared : Shared) (locks : Nat → RwLock) (rest : List Instr)

/-- One access to the entry, or the release of its lock.  `none` is the
access to `t->start_time` without a task. -/
def Region.progress : Region → Option Moved
  | .looking task =>
      some ⟨shared, locks,
        some (if shared.table.linkAt task.pid = none then .missed task
          else .timing task), rest⟩
  | .timing task =>
      some ⟨shared, locks,
        some (if (shared.table.procs task.pid).start_time ≠
            task.start_time.tv_sec then .missed task
          else .hitting task), rest⟩
  | .hitting task =>
      some ⟨shared, locks,
        some (.leaving task (shared.table.linkAt task.pid)), rest⟩
  | .leaving task link =>
      some ⟨shared,
        Function.update locks task.pid (locks task.pid).readUnlock, none,
        settle (returning link rest)⟩
  | .missed task =>
      some ⟨shared,
        Function.update locks task.pid (locks task.pid).readUnlock,
        some (.climbing task), rest⟩
  | .climbing task =>
      some ⟨shared, locks, none,
        .lookup (shared.tree.parentOf task) :: .climbed task :: rest⟩
  | .checking link task =>
      some ⟨shared, locks,
        some (.checked link task (shared.table.linkAt task.pid)), rest⟩
  | .checked link task found =>
      some ⟨shared,
        Function.update locks task.pid (locks task.pid).readUnlock, none,
        if found ≠ none then
          .resetSwap task.pid :: setting link task :: rest
        else setting link task :: rest⟩
  | .storing link task =>
      some ⟨shared.withTable (shared.table.storeLink task.pid link), locks,
        some (.stamping link task), rest⟩
  | .stamping link task =>
      some ⟨shared.withTable
          (shared.table.storeTime task.pid task.start_time.tv_sec), locks,
        some (.stored link task), rest⟩
  | .stored _ task =>
      some ⟨shared,
        Function.update locks task.pid (locks task.pid).writeUnlock, none,
        settle rest⟩
  | .swapping index =>
      some ⟨shared, locks,
        some (.clearing index (shared.table.linkAt index)), rest⟩
  | .clearing index old =>
      some ⟨shared.withTable (shared.table.storeLink index none), locks,
        some (.zeroing index old), rest⟩
  | .zeroing index old =>
      some ⟨shared.withTable (shared.table.storeTime index 0), locks,
        some (.swapped index old), rest⟩
  | .swapped index old =>
      some ⟨shared,
        Function.update locks index (locks index).writeUnlock, none,
        dropping old rest⟩
  | .sweepFirst index seen =>
      if shared.table.linkAt index ≠ none ∧ seen = none then
        some ⟨shared, locks, none,
          .resetSwap index :: .sweep (index + 1) :: rest⟩
      else some ⟨shared, locks, some (.sweepSecond index seen), rest⟩
  | .sweepSecond index seen =>
      if shared.table.linkAt index ≠ none then
        some ⟨shared, locks, some (.sweepTime index seen), rest⟩
      else some ⟨shared, locks, none, .sweep (index + 1) :: rest⟩
  | .sweepTime index seen =>
      match seen with
      | none => none
      | some task =>
          if (shared.table.procs index).start_time ≠
              task.start_time.tv_sec then
            some ⟨shared, locks, none,
              .resetSwap index :: .sweep (index + 1) :: rest⟩
          else some ⟨shared, locks, none, .sweep (index + 1) :: rest⟩

/-- An instruction with no region of its own. -/
def plain (me : Nat) (current : Task) (instr : Instr) : Option Moved :=
  (shared.perform me current rest instr).map fun (shared, code) =>
    ⟨shared, locks, none, settle code⟩

def takeRead (index : Nat) (region : Region) : Option Moved :=
  match shared.table.proc index with
  | .error _ => none
  | .ok _ =>
      (locks index).readLock.map fun lock =>
        ⟨shared, Function.update locks index lock, some region, rest⟩

def takeWrite (index : Nat) (region : Region) : Option Moved :=
  match shared.table.proc index with
  | .error _ => none
  | .ok _ =>
      (locks index).writeLock.map fun lock =>
        ⟨shared, Function.update locks index lock, some region, rest⟩

/-- The step from one instruction to the next, or into its region. -/
def enter (me : Nat) (current : Task) : Instr → Option Moved
  | .lookup (some task) =>
      if task.pid = 0 ∨ task.pid = 1 then
        plain shared locks rest me current (.lookup (some task))
      else if task.pid > shared.table.pid_max then none
      else takeRead shared locks rest task.pid (.looking task)
  | .setCheck link task =>
      if task.pid > shared.table.pid_max then none
      else takeRead shared locks rest task.pid (.checking link task)
  | .setStore link task =>
      takeWrite shared locks rest task.pid (.storing link task)
  | .resetSwap index => takeWrite shared locks rest index (.swapping index)
  | .sweep index =>
      if index < shared.table.pid_max then
        some ⟨shared, locks,
          some (.sweepFirst index (seenBy shared.tree current index)), rest⟩
      else some ⟨shared, locks, none, settle rest⟩
  | instr => plain shared locks rest me current instr

end Steps

/-- A process, the region it is in, and the code after that. -/
structure Walker where
  current : Nat
  region : Option Region
  code : List Instr

structure Fine where
  shared : Shared
  locks : Nat → RwLock
  walkers : List Walker

namespace Fine

def Idle (state : Fine) (pid : Nat) : Prop :=
  ∀ walker ∈ state.walkers, walker.current = pid →
    walker.region = none ∧ walker.code = []

instance (state : Fine) (pid : Nat) : Decidable (state.Idle pid) :=
  inferInstanceAs (Decidable (∀ walker ∈ state.walkers, _ → _))

def call (state : Fine) (pid : Nat) (call : Call) : Option Fine :=
  match state.shared.tree.find pid with
  | none => none
  | some current =>
      if state.Idle pid then
        some { state with
          walkers := state.walkers ++
            [{ current := pid, region := none, code := call.code current }] }
      else none

/-- One step of a process. -/
def move (state : Fine) (index : Nat) (walker : Walker) : Option Moved :=
  match state.shared.tree.find walker.current with
  | none => none
  | some current =>
      match walker.region, walker.code with
      | some region, code => region.progress state.shared state.locks code
      | none, [] => none
      | none, instr :: rest =>
          enter state.shared state.locks rest index current instr

def advance (state : Fine) (index : Nat) : Option Fine :=
  match state.walkers[index]? with
  | none => none
  | some walker =>
      (state.move index walker).map fun moved =>
        { shared := moved.shared
          locks := moved.locks
          walkers := state.walkers.set index
            { walker with region := moved.region, code := moved.code } }

def step (state : Fine) : ConcEvent → Option Fine
  | .call pid call => state.call pid call
  | .advance index => state.advance index
  | .exit pid =>
      if (state.shared.tree.find pid).isSome ∧ 1 < pid ∧ state.Idle pid ∧
          state.shared.tasklist = none then
        some { state with
          shared :=
            { state.shared with tree := state.shared.tree.exit pid } }
      else none
  | .writeValid euid buf count outcome =>
      some { state with
        shared :=
          { state.shared with
            valid_paths := (Kernel.writeValid euid buf count outcome
              state.shared.valid_paths).2 } }

def init (pid_max : Nat) (tree : ProcTree) : Fine :=
  { shared := (Conc.init pid_max tree).shared
    locks := fun _ => .free
    walkers := [] }

end Fine

end Chos.Kernel
