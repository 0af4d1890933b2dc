import Chos.Library.Pool
import Chos.Library.Runs
import Chos.Kernel.System

/-!
# Handlers that run concurrently

Every process that is inside a handler is a list of pending instructions, the
rest of the C functions it is in.  One instruction is one indivisible step:
a region under one `chos_proc` lock, an `atomic_t` operation, a `kfree`, a
read of `link->text`.  The operations on the table are those of the
sequential functions.  Root directories play no part and are left out.
-/

namespace Chos.Kernel

open Chos.Library

/-- The program points of the module's functions, with the local variables
that are still needed there.  `climbed`, `readlink`, `assign` and `forked`
wait for the value of a call; `returns` brings it. -/
inductive Instr where
  | lookup (task : Option Task)
  | climbed (task : Task)
  | returns (link : Option LinkId)
  | setCheck (link : Option LinkId) (task : Task)
  | setInc (link : LinkId) (task : Task)
  | setStore (link : Option LinkId) (task : Task)
  | resetSwap (index : Nat)
  | dec (link : LinkId)
  | readCount (link : LinkId)
  | destroyRead (link : LinkId)
  | loadText (link : LinkId)
  | kfreeText (link : LinkId) (text : TextId)
  | kfreeLink (link : LinkId)
  | lockTasks
  | sweep (index : Nat)
  | unlockTasks
  | setchos (buf : List UInt8) (count : Nat) (outcome : SetchosOutcome)
  | createLink (text : TextId) (allocated : Bool)
  | assign (task : Task)
  | readlink
  | readText (link : LinkId)
  | copyText (link : LinkId) (text : TextId)
  | forked (new : Option NewTask)
  | doFork (parent_link : Option LinkId) (new : Option NewTask)
  | findChild (parent_link : Option LinkId) (nr : Nat)
  deriving DecidableEq, Repr

/-- The value of a call, if somebody waits for it. -/
def returning (link : Option LinkId) : List Instr → List Instr
  | [] => []
  | frame :: rest => .returns link :: frame :: rest

/-- What a waiting function does with the value it gets. -/
def resume (link : Option LinkId) (frame : Instr) (rest : List Instr) :
    List Instr :=
  match frame with
  | .climbed task =>
      match link with
      | some found =>
          .setCheck (some found) task :: returning (some found) rest
      | none => .resetSwap task.pid :: returning none rest
  | .readlink =>
      match link with
      | some found => .readText found :: rest
      | none => rest
  | .assign task => .setCheck link task :: rest
  | .forked new => .doFork link new :: rest
  | other => other :: rest

/-- A return is no step of its own. -/
def settle : List Instr → List Instr
  | .returns link :: frame :: rest => resume link frame rest
  | code => code

def setting (link : Option LinkId) (task : Task) : Instr :=
  match link with
  | some link => .setInc link task
  | none => .setStore none task

def sweeping : List Instr := [.lockTasks, .sweep 0, .unlockTasks]

/-- What the processes share; `tasklist` is the holder of the lock of the
task list. -/
structure Shared where
  tree : ProcTree
  table : Table
  valid_paths : List ValidPath
  tasklist : Option Nat

/-- The same state with no handler in progress. -/
def Shared.sys (shared : Shared) : Sys :=
  { table := shared.table
    tree := shared.tree
    forks := []
    valid_paths := shared.valid_paths }

def ProcTree.parentOf (tree : ProcTree) (task : Task) : Option Task :=
  match tree.find task.pid with
  | some now =>
      if now.start_time = task.start_time then tree.find now.parent
      else tree.find task.parent
  | none => tree.find task.parent

namespace Shared

def withTable (shared : Shared) (table : Table) : Shared :=
  { shared with table := table }

/-- The region of `lookup_link` under the read lock, and the tests before
it. -/
def performLookup (shared : Shared) (rest : List Instr) :
    Option Task → Option (Shared × List Instr)
  | none => some (shared, returning none rest)
  | some task =>
      if task.pid = 0 ∨ task.pid = 1 then
        some (shared, returning none rest)
      else if task.pid > shared.table.pid_max then none
      else
        match shared.table.proc task.pid with
        | .error _ => none
        | .ok entry =>
            if entry.link = none ∨
                entry.start_time ≠ task.start_time.tv_sec then
              some (shared,
                .lookup (shared.tree.parentOf task) :: .climbed task :: rest)
            else some (shared, returning entry.link rest)

/-- The region of `set_link` under the read lock. -/
def performSetCheck (shared : Shared) (rest : List Instr)
    (link : Option LinkId) (task : Task) : Option (Shared × List Instr) :=
  if task.pid > shared.table.pid_max then none
  else
    match shared.table.proc task.pid with
    | .error _ => none
    | .ok entry =>
        if entry.link ≠ none then
          some (shared, .resetSwap task.pid :: setting link task :: rest)
        else some (shared, setting link task :: rest)

def performResetSwap (shared : Shared) (rest : List Instr) (index : Nat) :
    Option (Shared × List Instr) :=
  match shared.table.proc index with
  | .error _ => none
  | .ok entry =>
      let shared := shared.withTable (shared.table.store index .cleared)
      match entry.link with
      | some link => some (shared, .dec link :: rest)
      | none => some (shared, rest)

def performSweep (shared : Shared) (current : Task) (rest : List Instr)
    (index : Nat) : List Instr :=
  if index < shared.table.pid_max then
    if stale (seenBy shared.tree current index)
        (shared.table.procs index) then
      .resetSwap index :: .sweep (index + 1) :: rest
    else .sweep (index + 1) :: rest
  else rest

/-- `write_setchos` up to the point where the text is accepted. -/
def performSetchos (shared : Shared) (current : Task) (rest : List Instr)
    (buf : List UInt8) (count : Nat) (outcome : SetchosOutcome) :
    Shared × List Instr :=
  if outcome.textAlloc then
    let content := copied buf count
    let (text, table) := shared.table.allocText content
    if isRootPath content ∨ isValidPath content shared.valid_paths then
      (shared.withTable table,
        sweeping ++
          .createLink text outcome.linkAlloc :: .assign current :: rest)
    else (shared.withTable table, rest)
  else (shared, rest)

/-- The call of `do_fork`, with the child it creates or `none` if it fails. -/
def performDoFork (shared : Shared) (current : Task) (rest : List Instr)
    (parent_link : Option LinkId) :
    Option NewTask → Option (Shared × List Instr)
  | none => some (shared, .lookup (some current) :: rest)
  | some new =>
      match found : shared.tree.find current.pid with
      | none => none
      | some creator =>
          match (new.toTask creator).nrIn creator.pid_ns with
          | none => none
          | some nr =>
              if fits : shared.sys.Creatable creator new then
                some
                  ({ shared with
                    tree := shared.tree.create (new.toTask creator)
                      (fun task live => (fits.1 task live).1)
                      (by
                        have samePid := ProcTree.find_pid found
                        simp [NewTask.toTask, samePid, found]) },
                    .findChild parent_link nr :: rest)
              else none

/-- One instruction of the thread `me`, which runs for `current`: the shared
state after it and the code that is left.  `none` stands for a lock that is
taken, a `BUG_ON`, an index outside `ch->procs`, or a child the kernel cannot
create. -/
def perform (shared : Shared) (me : Nat) (current : Task)
    (rest : List Instr) : Instr → Option (Shared × List Instr)
  | .lookup task => shared.performLookup rest task
  | .setCheck link task => shared.performSetCheck rest link task
  | .setInc link task =>
      some (shared.withTable (shared.table.atomicInc link),
        .setStore (some link) task :: rest)
  | .setStore link task =>
      some (shared.withTable
        (shared.table.store task.pid (.assigned link task)), rest)
  | .resetSwap index => shared.performResetSwap rest index
  | .dec link =>
      some (shared.withTable (shared.table.atomicDec link),
        .readCount link :: rest)
  | .readCount link =>
      let (count, table) := shared.table.atomicRead link
      some (shared.withTable table,
        if count = 0 then .destroyRead link :: rest else rest)
  | .destroyRead link =>
      let (count, table) := shared.table.atomicRead link
      some (shared.withTable table,
        if count = 0 then .loadText link :: rest else rest)
  | .loadText link =>
      let (text, table) := shared.table.loadText link
      some (shared.withTable table, .kfreeText link text :: rest)
  | .kfreeText link text =>
      some (shared.withTable (shared.table.kfreeText text),
        .kfreeLink link :: rest)
  | .kfreeLink link =>
      some (shared.withTable (shared.table.kfreeLink link), rest)
  | .lockTasks =>
      if shared.tasklist = none then
        some ({ shared with tasklist := some me }, rest)
      else none
  | .sweep index => some (shared, shared.performSweep current rest index)
  | .unlockTasks => some ({ shared with tasklist := none }, rest)
  | .setchos buf count outcome =>
      some (shared.performSetchos current rest buf count outcome)
  | .createLink text allocated =>
      let (link, table) := Kernel.createLink text allocated shared.table
      some (shared.withTable table, returning link rest)
  | .readText link =>
      let (text, table) := shared.table.loadText link
      some (shared.withTable table, .copyText link text :: rest)
  | .copyText _ text =>
      some (shared.withTable (shared.table.readText text).2, rest)
  | .doFork parent_link new =>
      if shared.tasklist = none then
        shared.performDoFork current rest parent_link new
      else none
  | .findChild parent_link nr =>
      if shared.tasklist = none then
        match seenBy shared.tree current nr with
        | some child => some (shared, .setCheck parent_link child :: rest)
        | none => some (shared, rest)
      else none
  | .climbed _ => none
  | .returns _ => none
  | .assign _ => none
  | .readlink => none
  | .forked _ => none

end Shared

/-- The handlers; `link_readlink` and `link_follow_link` take the same
steps. -/
inductive Call where
  | readlink
  | setchos (buf : List UInt8) (count : Nat) (outcome : SetchosOutcome)
  | resetchos
  | fork (new : Option NewTask)
  deriving DecidableEq, Repr

def Call.code (current : Task) : Call → List Instr
  | .readlink => [.lookup (some current), .readlink]
  | .setchos buf count outcome => [.setchos buf count outcome]
  | .resetchos => .resetSwap current.pid :: sweeping
  | .fork new => [.lookup (some current), .forked new]

structure Thread where
  current : Nat
  code : List Instr

structure Conc where
  shared : Shared
  threads : List Thread

inductive ConcEvent where
  | call (pid : Nat) (call : Call)
  | advance (index : Nat)
  | exit (pid : Nat)
  | writeValid (euid : Nat) (buf : List UInt8) (count : Nat)
      (outcome : ValidOutcome)
  deriving DecidableEq, Repr

namespace Conc

def Idle (state : Conc) (pid : Nat) : Prop :=
  ∀ thread ∈ state.threads, thread.current = pid → thread.code = []

instance (state : Conc) (pid : Nat) : Decidable (state.Idle pid) :=
  inferInstanceAs (Decidable (∀ thread ∈ state.threads, _ → _))

def call (state : Conc) (pid : Nat) (call : Call) : Option Conc :=
  match state.shared.tree.find pid with
  | none => none
  | some current =>
      if state.Idle pid then
        some { state with
          threads := state.threads ++
            [{ current := pid, code := call.code current }] }
      else none

def advance (state : Conc) (index : Nat) : Option Conc :=
  match state.threads[index]? with
  | none => none
  | some thread =>
      match state.shared.tree.find thread.current, thread.code with
      | some current, instr :: rest =>
          (state.shared.perform index current rest instr).map
            fun (shared, code) =>
              { shared := shared
                threads := state.threads.set index
                  { thread with code := settle code } }
      | _, _ => none

def step (state : Conc) : ConcEvent → Option Conc
  | .call pid call => state.call pid call
  | .advance index => state.advance index
  | .exit pid =>
      if (state.shared.tree.find pid).isSome ∧ 1 < pid ∧ state.Idle pid ∧
          state.shared.tasklist = none then
        some { state with
          shared :=
            { state.shared with tree := state.shared.tree.exit pid } }
      else none
  | .writeValid euid buf count outcome =>
      some { state with
        shared :=
          { state.shared with
            valid_paths := (Kernel.writeValid euid buf count outcome
              state.shared.valid_paths).2 } }

def init (pid_max : Nat) (tree : ProcTree) : Conc :=
  { shared :=
      { tree := tree
        table := .init pid_max
        valid_paths := []
        tasklist := none }
    threads := [] }

end Conc

end Chos.Kernel
