import Chos.Library.Runs
import Chos.Kernel.Handlers

/-!
# The running system

Processes, the link table, the valid paths and the forks in progress.  A
call of `chos_do_fork` is three events: `begin` looks the caller's link up,
`create` is the point inside `do_fork` where the child becomes runnable, and
`finish` stores the link on the child if its pid is still found.  Every other
handler is one event.  A process inside its own `do_fork` takes no other
step.
-/

namespace Chos.Kernel

open Chos.Library

/-- A call of `chos_do_fork` that has not returned: `child` is the number
`do_fork` will return, in the caller's namespace, once the child exists. -/
structure PendingFork where
  parent : Nat
  parent_link : Option LinkId
  child : Option Nat
  deriving DecidableEq, Repr

/-- What is new about a child; the rest it takes from its creator. -/
structure NewTask where
  pid : Nat
  start_time : Timespec
  pid_ns : Nat
  numbers : List (Nat × Nat)
  deriving DecidableEq, Repr

def NewTask.toTask (new : NewTask) (creator : Task) : Task :=
  { pid := new.pid
    start_time := new.start_time
    parent := creator.pid
    pid_ns := new.pid_ns
    numbers := new.numbers
    root := creator.root }

structure Sys where
  table : Table
  tree : ProcTree
  forks : List PendingFork
  valid_paths : List ValidPath

inductive Event where
  | setchos (pid : Nat) (buf : List UInt8) (count : Nat)
      (outcome : SetchosOutcome)
  | resetchos (pid : Nat)
  | readlink (pid : Nat)
  | cleanup (pid : Nat)
  | begin (pid : Nat)
  | create (pid : Nat) (new : NewTask)
  | finish (pid : Nat)
  | exit (pid : Nat)
  | chroot (pid : Nat) (dir : Nat)
  | writeValid (euid : Nat) (buf : List UInt8) (count : Nat)
      (outcome : ValidOutcome)
  deriving DecidableEq, Repr

namespace Sys

def init (pid_max : Nat) (tree : ProcTree) : Sys :=
  { table := .init pid_max
    tree := tree
    forks := []
    valid_paths := [] }

/-- The fork a process is inside of, if any. -/
def forkOf (state : Sys) (pid : Nat) : Option PendingFork :=
  state.forks.find? fun fork => fork.parent = pid

def current (state : Sys) (pid : Nat) : Option Task :=
  match state.forkOf pid with
  | some _ => none
  | none => state.tree.find pid

def dropFork (state : Sys) (pid : Nat) : List PendingFork :=
  state.forks.filter fun fork => fork.parent ≠ pid

/-- The value `write_setchos` returns to the process, and the state after
it. -/
def setchos (state : Sys) (pid : Nat) (buf : List UInt8) (count : Nat)
    (outcome : SetchosOutcome) : Option (Except Errno Nat × Sys) :=
  match state.current pid with
  | none => none
  | some current =>
      match writeSetchos state.tree state.valid_paths current buf count
          outcome state.table with
      | .error _ => none
      | .ok (result, root, table) =>
          some (result,
            { state with
              table := table
              tree := state.tree.setRoot pid root })

def resetchos (state : Sys) (pid : Nat) : Option Sys :=
  match state.current pid with
  | none => none
  | some current =>
      match writeResetchos state.tree current 0 state.table with
      | .error _ => none
      | .ok (_, table) => some { state with table := table }

/-- The text `link_readlink` and `link_follow_link` find. -/
def readlink (state : Sys) (pid : Nat) : Option (Text × Sys) :=
  match state.current pid with
  | none => none
  | some current =>
      match linkText state.tree current state.table with
      | .error _ => none
      | .ok (text, table) => some (text, { state with table := table })

def cleanup (state : Sys) (pid : Nat) : Option Sys :=
  match state.current pid with
  | none => none
  | some current =>
      some { state with
        table := cleanupLinks (seenBy state.tree current) state.table }

def begin (state : Sys) (pid : Nat) : Option Sys :=
  match state.current pid with
  | none => none
  | some _ =>
      match state.tree.lookup pid state.table with
      | .error _ => none
      | .ok (link, table) =>
          some { state with
            table := table
            forks :=
              { parent := pid
                parent_link := link
                child := none } :: state.forks }

/-- No live task uses a number of the new one, in any namespace. -/
def Unused (state : Sys) (new : NewTask) : Prop :=
  ∀ task ∈ state.tree.tasks, task.pid ≠ new.pid ∧
    ∀ number ∈ new.numbers, task.nrIn number.1 ≠ some number.2

instance (state : Sys) (new : NewTask) : Decidable (state.Unused new) :=
  inferInstanceAs (Decidable (∀ task ∈ state.tree.tasks, _ ∧ _))

/-- What the kernel guarantees of a child: numbers nobody alive uses, a pid
above 1 and below the size of the table, a number in its creator's
namespace. -/
def Creatable (state : Sys) (creator : Task) (new : NewTask) : Prop :=
  state.Unused new ∧ 1 < new.pid ∧ new.pid < state.table.pid_max ∧
    ((new.toTask creator).nrIn creator.pid_ns).isSome

instance (state : Sys) (creator : Task) (new : NewTask) :
    Decidable (state.Creatable creator new) :=
  inferInstanceAs (Decidable (_ ∧ _ ∧ _ ∧ _))

def create (state : Sys) (pid : Nat) (new : NewTask) : Option Sys :=
  match state.forkOf pid with
  | none => none
  | some fork =>
      match found : state.tree.find pid with
      | none => none
      | some creator =>
          if fits : fork.child = none ∧ state.Creatable creator new then
            some { state with
              tree := state.tree.create (new.toTask creator)
                (fun task live => (fits.2.1 task live).1)
                (by
                  have samePid := ProcTree.find_pid found
                  simp [NewTask.toTask, samePid, found])
              forks :=
                { fork with
                  child := (new.toTask creator).nrIn creator.pid_ns } ::
                  state.dropFork pid }
          else none

/-- The part of `chos_do_fork` after `do_fork` returned. -/
def finishTable (state : Sys) (fork : PendingFork) (current : Task) :
    Except Stop Table :=
  match fork.child with
  | some nr =>
      match seenBy state.tree current nr with
      | some child => setLink fork.parent_link child state.table
      | none => .ok state.table
  | none => do
      let (_, table) ← state.tree.lookup current.pid state.table
      return table

def finish (state : Sys) (pid : Nat) : Option Sys :=
  match state.forkOf pid with
  | none => none
  | some fork =>
      match state.tree.find pid with
      | none => none
      | some current =>
          match state.finishTable fork current with
          | .error _ => none
          | .ok table =>
              some { state with
                table := table
                forks := state.dropFork pid }

def exit (state : Sys) (pid : Nat) : Option Sys :=
  match state.current pid with
  | none => none
  | some _ =>
      if 1 < pid then some { state with tree := state.tree.exit pid }
      else none

/-- An ordinary `chroot` into some directory that is neither the real root
nor CHOSROOT. -/
def chroot (state : Sys) (pid dir : Nat) : Option Sys :=
  match state.current pid with
  | none => none
  | some _ =>
      some { state with tree := state.tree.setRoot pid (.other dir) }

def step (state : Sys) : Event → Option Sys
  | .setchos pid buf count outcome =>
      (state.setchos pid buf count outcome).map Prod.snd
  | .resetchos pid => state.resetchos pid
  | .readlink pid => (state.readlink pid).map Prod.snd
  | .cleanup pid => state.cleanup pid
  | .begin pid => state.begin pid
  | .create pid new => state.create pid new
  | .finish pid => state.finish pid
  | .exit pid => state.exit pid
  | .chroot pid dir => state.chroot pid dir
  | .writeValid euid buf count outcome =>
      some { state with
        valid_paths :=
          (Kernel.writeValid euid buf count outcome state.valid_paths).2 }

end Sys

/-- Handlers that run to completion: a fork is its three events in a row, or
the two around a `do_fork` that fails. -/
inductive Handler where
  | single (event : Event)
  | fork (pid : Nat) (new : NewTask)
  | failedFork (pid : Nat)
  deriving DecidableEq, Repr

def Event.isPhase : Event → Bool
  | .begin _ => true
  | .create _ _ => true
  | .finish _ => true
  | _ => false

def Sys.handle (state : Sys) : Handler → Option Sys
  | .single event => if event.isPhase then none else state.step event
  | .fork pid new =>
      run Sys.step state [.begin pid, .create pid new, .finish pid]
  | .failedFork pid => run Sys.step state [.begin pid, .finish pid]

end Chos.Kernel
