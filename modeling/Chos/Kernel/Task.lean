import Chos.Library.Climb

/-!
# Tasks and the process tree

The part of the kernel's process table the module looks at: pid, start time,
`PARENT` and root directory of each live task, and the numbers a task has in
the pid namespaces below the initial one.  Pointers to tasks are represented
by global pids, which are distinct among live tasks.
-/

namespace Chos.Kernel

open Chos.Library

structure Timespec where
  tv_sec : Nat
  tv_nsec : Nat
  deriving DecidableEq, Repr

/-- A root directory as the module tells them apart: the real root
(`ch->nochroot`), CHOSROOT (`ch->named`), or any other directory. -/
inductive Root where
  | nochroot
  | named
  | other (dir : Nat)
  deriving DecidableEq, Repr

/-- `numbers` lists the task's pid in every namespace below the initial one
that it lives in, as pairs of namespace and number; namespace `0` is the
initial one. -/
structure Task where
  pid : Nat
  start_time : Timespec
  parent : Nat
  pid_ns : Nat
  numbers : List (Nat × Nat)
  root : Root
  deriving DecidableEq, Repr

def Task.nrIn (task : Task) (ns : Nat) : Option Nat :=
  if ns = 0 then some task.pid else task.numbers.lookup ns

@[simp] theorem Task.nrIn_zero (task : Task) : task.nrIn 0 = some task.pid :=
  rfl

def findTask (tasks : List Task) (pid : Nat) : Option Task :=
  tasks.find? fun task => task.pid = pid

/-- `s_find_task_by_pid_ns`: the task whose pid inside `ns` is `nr`. -/
def findTaskByPidNs (tasks : List Task) (nr ns : Nat) : Option Task :=
  tasks.find? fun task => task.nrIn ns = some nr

theorem findTaskByPidNs_zero (tasks : List Task) (nr : Nat) :
    findTaskByPidNs tasks nr 0 = findTask tasks nr := by
  simp [findTaskByPidNs, findTask]

theorem findTaskByPidNs_mem {tasks : List Task} {nr ns : Nat} {task : Task}
    (found : findTaskByPidNs tasks nr ns = some task) : task ∈ tasks :=
  List.mem_of_find?_eq_some found

theorem nrIn_of_findTaskByPidNs {tasks : List Task} {nr ns : Nat}
    {task : Task} (found : findTaskByPidNs tasks nr ns = some task) :
    task.nrIn ns = some nr := by
  simpa using List.find?_some found

theorem findTask_mem {tasks : List Task} {pid : Nat} {task : Task}
    (found : findTask tasks pid = some task) : task ∈ tasks :=
  List.mem_of_find?_eq_some found

theorem findTask_pid {tasks : List Task} {pid : Nat} {task : Task}
    (found : findTask tasks pid = some task) : task.pid = pid := by
  simpa using List.find?_some found

theorem findTask_eq_none_iff {tasks : List Task} {pid : Nat} :
    findTask tasks pid = none ↔ ∀ task ∈ tasks, task.pid ≠ pid := by
  simp [findTask]

theorem findTask_map {tasks : List Task} {change : Task → Task}
    (samePid : ∀ task, (change task).pid = task.pid) (pid : Nat) :
    findTask (tasks.map change) pid = (findTask tasks pid).map change := by
  simp only [findTask, List.find?_map, Function.comp_def, samePid]

theorem findTask_filter_ne {tasks : List Task} {gone pid : Nat}
    (different : pid ≠ gone) :
    findTask (tasks.filter fun task => task.pid ≠ gone) pid =
      findTask tasks pid := by
  unfold findTask
  rw [List.find?_filter]
  congr 1
  funext task
  by_cases same : task.pid = pid
  · simp [same, different]
  · simp [same]

/-- With distinct pids a member is found under its own pid. -/
theorem findTask_eq_some_of_mem {tasks : List Task} {task : Task}
    (distinct : (tasks.map Task.pid).Nodup) (live : task ∈ tasks) :
    findTask tasks task.pid = some task := by
  induction tasks with
  | nil => simp at live
  | cons head tail induction =>
      simp only [List.map_cons, List.nodup_cons, List.mem_map] at distinct
      rcases List.mem_cons.mp live with same | later
      · simp [findTask, same]
      · have different : head.pid ≠ task.pid := by
          intro equal
          exact distinct.1 ⟨task, later, equal.symm⟩
        simpa [findTask, different] using induction distinct.2 later

/-- The pid of a live task's `PARENT`. -/
def parentIn (tasks : List Task) (pid : Nat) : Option Nat :=
  (findTask tasks pid).map Task.parent

/-- The walk of `lookup_link` ends at process 0 or 1. -/
def isInit (pid : Nat) : Prop := pid ≤ 1

instance : DecidablePred isInit :=
  fun pid => inferInstanceAs (Decidable (pid ≤ 1))

/-- The test of the source. -/
theorem isInit_iff (pid : Nat) : isInit pid ↔ pid = 0 ∨ pid = 1 := by
  unfold isInit
  omega

/-- The live tasks: distinct pids, and every `PARENT` chain reaches pid 0
or 1. -/
structure ProcTree where
  tasks : List Task
  distinct : (tasks.map Task.pid).Nodup
  rooted : ∀ task ∈ tasks,
    ∃ chain, Climb isInit (parentIn tasks) task.pid chain

namespace ProcTree

def find (tree : ProcTree) (pid : Nat) : Option Task :=
  findTask tree.tasks pid

theorem find_mem {tree : ProcTree} {pid : Nat} {task : Task}
    (found : tree.find pid = some task) : task ∈ tree.tasks :=
  findTask_mem found

theorem find_pid {tree : ProcTree} {pid : Nat} {task : Task}
    (found : tree.find pid = some task) : task.pid = pid :=
  findTask_pid found

theorem find_of_mem {tree : ProcTree} {task : Task}
    (live : task ∈ tree.tasks) : tree.find task.pid = some task :=
  findTask_eq_some_of_mem tree.distinct live

theorem eq_of_pid_eq {tree : ProcTree} {left right : Task}
    (leftLive : left ∈ tree.tasks) (rightLive : right ∈ tree.tasks)
    (same : left.pid = right.pid) : left = right := by
  have found := find_of_mem leftLive
  rw [same, find_of_mem rightLive] at found
  exact (Option.some.inj found).symm

/-- A live task's chain upwards from `pid`, strictly below pid 0 and 1. -/
def Chain (tree : ProcTree) (pid : Nat) (chain : List Nat) : Prop :=
  Climb isInit (parentIn tree.tasks) pid chain

/-- The same chain, computed. -/
def chain (tree : ProcTree) (pid : Nat) : List Nat :=
  climbList isInit (parentIn tree.tasks) tree.tasks.length pid

theorem Chain.find_isSome {tree : ProcTree} {pid member : Nat}
    {chain : List Nat} (climb : tree.Chain pid chain)
    (inside : member ∈ chain) : ∃ task, tree.find member = some task := by
  have present := climb.up_isSome_of_mem inside
  rw [parentIn, Option.isSome_map] at present
  exact Option.isSome_iff_exists.mp present

theorem Chain.length_le {tree : ProcTree} {pid : Nat} {chain : List Nat}
    (climb : tree.Chain pid chain) : chain.length ≤ tree.tasks.length := by
  have within : ∀ member ∈ chain, member ∈ tree.tasks.map Task.pid := by
    intro member inside
    obtain ⟨task, found⟩ := climb.find_isSome inside
    exact List.mem_map.mpr ⟨task, find_mem found, find_pid found⟩
  simpa using Climb.length_le climb within

theorem Chain.chain_eq {tree : ProcTree} {pid : Nat} {chain : List Nat}
    (climb : tree.Chain pid chain) : tree.chain pid = chain :=
  climb.climbList_eq climb.length_le

theorem chain_of_mem {tree : ProcTree} {task : Task}
    (live : task ∈ tree.tasks) :
    tree.Chain task.pid (tree.chain task.pid) := by
  obtain ⟨chain, climb⟩ := tree.rooted task live
  have climb : tree.Chain task.pid chain := climb
  rw [climb.chain_eq]
  exact climb

/-- Nobody is above a pid that no live task has. -/
theorem chain_of_find_none {tree : ProcTree} {pid : Nat}
    (absent : tree.find pid = none) : tree.chain pid = [] := by
  have orphan : parentIn tree.tasks pid = none := by
    rw [parentIn, show findTask tree.tasks pid = none from absent]
    rfl
  rw [chain]
  cases tree.tasks.length with
  | zero => rfl
  | succ fuel => simp [climbList, orphan]

/-- A live task stands at the head of its chain, and its parent begins the
rest. -/
theorem exists_chain_parent {tree : ProcTree} {task : Task}
    (live : task ∈ tree.tasks) (above : 1 < task.pid) :
    ∃ chain, tree.Chain task.pid (task.pid :: chain) ∧
      tree.Chain task.parent chain := by
  obtain ⟨chain, climb⟩ := tree.rooted task live
  cases climb with
  | top init => exact absurd init (Nat.not_le_of_lt above)
  | next going parentEq rest =>
      have found : findTask tree.tasks task.pid = some task :=
        find_of_mem live
      have whole := Climb.next going parentEq rest
      rw [parentIn, found, Option.map_some, Option.some.injEq] at parentEq
      rw [← parentEq] at rest
      exact ⟨_, whole, rest⟩

theorem find_parent {tree : ProcTree} {task : Task}
    (live : task ∈ tree.tasks) (above : 1 < task.pid)
    (parentAbove : 1 < task.parent) :
    ∃ parent, tree.find task.parent = some parent := by
  obtain ⟨chain, _, rest⟩ := exists_chain_parent live above
  cases rest with
  | top init => exact absurd init (Nat.not_le_of_lt parentAbove)
  | next _ grandparentEq _ =>
      obtain ⟨parent, found, _⟩ := Option.map_eq_some_iff.mp grandparentEq
      exact ⟨parent, found⟩

theorem parent_ne {tree : ProcTree} {task : Task}
    (live : task ∈ tree.tasks) (above : 1 < task.pid) :
    task.parent ≠ task.pid := by
  intro same
  obtain ⟨chain, climb, rest⟩ := exists_chain_parent live above
  rw [same] at rest
  have lengths := congrArg List.length (rest.unique climb)
  simp at lengths

end ProcTree

end Chos.Kernel
