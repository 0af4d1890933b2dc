import Chos.Kernel.Task

/-!
# What the kernel does to the process tree

Creation of a child, exit with reparenting to pid 1, and a change of one
task's root directory.  Each is a function on trees, so the tree it returns
again has distinct pids and rooted `PARENT` chains.
-/

namespace Chos.Kernel

open Chos.Library

namespace ProcTree

/-- Process 1 alone, at the real root. -/
def boot : ProcTree :=
  { tasks :=
      [{ pid := 1
         start_time := { tv_sec := 0, tv_nsec := 0 }
         parent := 0
         pid_ns := 0
         numbers := []
         root := .nochroot }]
    distinct := by simp
    rooted := by
      intro task live
      refine ⟨[], .top ?_⟩
      rw [List.mem_singleton.mp live]
      exact Nat.le_refl 1 }

theorem boot_below {pid_max : Nat} (enough : 1 < pid_max) :
    ∀ task ∈ boot.tasks, task.pid < pid_max := by
  intro task live
  rw [List.mem_singleton.mp live]
  exact enough

private theorem parentIn_cons_of_ne {tasks : List Task} {child : Task}
    {pid : Nat} (different : child.pid ≠ pid) :
    parentIn (child :: tasks) pid = parentIn tasks pid := by
  simp [parentIn, findTask, different]

private theorem rooted_cons {tasks : List Task} {child : Task}
    (fresh : ∀ task ∈ tasks, task.pid ≠ child.pid)
    {pid : Nat} {chain : List Nat}
    (climb : Climb isInit (parentIn tasks) pid chain) :
    Climb isInit (parentIn (child :: tasks)) pid chain := by
  apply climb.congr
  intro member inside
  apply parentIn_cons_of_ne
  have present := climb.up_isSome_of_mem inside
  rw [parentIn, Option.isSome_map] at present
  obtain ⟨task, found⟩ := Option.isSome_iff_exists.mp present
  rw [← findTask_pid found]
  exact Ne.symm (fresh task (findTask_mem found))

/-- A new task whose `PARENT` is a live task. -/
def create (tree : ProcTree) (child : Task)
    (fresh : ∀ task ∈ tree.tasks, task.pid ≠ child.pid)
    (parentLive : (tree.find child.parent).isSome) : ProcTree :=
  { tasks := child :: tree.tasks
    distinct := by
      rw [List.map_cons, List.nodup_cons]
      refine ⟨?_, tree.distinct⟩
      rintro member
      obtain ⟨task, live, same⟩ := List.mem_map.mp member
      exact fresh task live same
    rooted := by
      obtain ⟨parent, found⟩ := Option.isSome_iff_exists.mp parentLive
      obtain ⟨chain, climb⟩ := tree.rooted parent (find_mem found)
      rw [find_pid found] at climb
      intro task live
      rcases List.mem_cons.mp live with same | older
      · subst same
        by_cases init : isInit task.pid
        · exact ⟨[], .top init⟩
        · refine ⟨task.pid :: chain, .next init ?_ (rooted_cons fresh climb)⟩
          simp [parentIn, findTask]
      · obtain ⟨olderChain, olderClimb⟩ := tree.rooted task older
        exact ⟨olderChain, rooted_cons fresh olderClimb⟩ }

section Create

variable {tree : ProcTree} {child : Task}
  (fresh : ∀ task ∈ tree.tasks, task.pid ≠ child.pid)
  (parentLive : (tree.find child.parent).isSome)

theorem mem_create {task : Task} :
    task ∈ (tree.create child fresh parentLive).tasks ↔
      task = child ∨ task ∈ tree.tasks := by
  simp [create]

theorem find_create_self :
    (tree.create child fresh parentLive).find child.pid = some child := by
  simp [create, find, findTask]

theorem find_create_of_ne {pid : Nat} (different : pid ≠ child.pid) :
    (tree.create child fresh parentLive).find pid = tree.find pid := by
  simp [create, find, findTask, Ne.symm different]

theorem Chain.create {pid : Nat} {chain : List Nat}
    (climb : tree.Chain pid chain) :
    (tree.create child fresh parentLive).Chain pid chain :=
  rooted_cons fresh climb

end Create

private theorem parentIn_map {tasks : List Task} {change : Task → Task}
    (samePid : ∀ task, (change task).pid = task.pid)
    (sameParent : ∀ task, (change task).parent = task.parent) :
    parentIn (tasks.map change) = parentIn tasks := by
  funext pid
  simp [parentIn, findTask_map samePid, Function.comp_def, sameParent]

/-- Give the task `pid` another root directory. -/
def setRoot (tree : ProcTree) (pid : Nat) (root : Root) : ProcTree :=
  let change : Task → Task := fun task =>
    if task.pid = pid then { task with root := root } else task
  have samePid : ∀ task, (change task).pid = task.pid := by
    intro task
    by_cases same : task.pid = pid <;> simp [change, same]
  have sameParent : ∀ task, (change task).parent = task.parent := by
    intro task
    by_cases same : task.pid = pid <;> simp [change, same]
  { tasks := tree.tasks.map change
    distinct := by
      simpa [Function.comp_def, samePid] using tree.distinct
    rooted := by
      intro task live
      obtain ⟨old, oldLive, rfl⟩ := List.mem_map.mp live
      rw [parentIn_map samePid sameParent, samePid]
      exact tree.rooted old oldLive }

section SetRoot

variable {tree : ProcTree} {pid : Nat} {root : Root}

theorem find_setRoot (query : Nat) :
    (tree.setRoot pid root).find query =
      (tree.find query).map fun task =>
        if task.pid = pid then { task with root := root } else task := by
  apply findTask_map
  intro task
  by_cases same : task.pid = pid <;> simp [same]

theorem mem_setRoot {task : Task} :
    task ∈ (tree.setRoot pid root).tasks ↔
      ∃ old ∈ tree.tasks,
        (if old.pid = pid then { old with root := root } else old) = task :=
  List.mem_map

theorem parentIn_setRoot :
    parentIn (tree.setRoot pid root).tasks = parentIn tree.tasks := by
  apply parentIn_map
  · intro task
    by_cases same : task.pid = pid <;> simp [same]
  · intro task
    by_cases same : task.pid = pid <;> simp [same]

theorem setRoot_same {task : Task} (found : tree.find pid = some task) :
    (tree.setRoot pid task.root).tasks = tree.tasks := by
  have fixed : ∀ other ∈ tree.tasks,
      (if other.pid = pid then { other with root := task.root } else other) =
        id other := by
    intro other live
    by_cases same : other.pid = pid
    · have equal : other = task :=
        eq_of_pid_eq live (find_mem found) (same.trans (find_pid found).symm)
      simp [equal]
    · simp [same]
  exact (List.map_congr_left fixed).trans (List.map_id _)

end SetRoot

/-- The children of an exited task become children of pid 1. -/
def reparent (gone : Nat) (task : Task) : Task :=
  if task.parent = gone then { task with parent := 1 } else task

@[simp] theorem reparent_pid (gone : Nat) (task : Task) :
    (reparent gone task).pid = task.pid := by
  by_cases orphan : task.parent = gone <;> simp [reparent, orphan]

@[simp] theorem reparent_start_time (gone : Nat) (task : Task) :
    (reparent gone task).start_time = task.start_time := by
  by_cases orphan : task.parent = gone <;> simp [reparent, orphan]

@[simp] theorem reparent_root (gone : Nat) (task : Task) :
    (reparent gone task).root = task.root := by
  by_cases orphan : task.parent = gone <;> simp [reparent, orphan]

def remaining (gone : Nat) (tasks : List Task) : List Task :=
  (tasks.filter fun task => task.pid ≠ gone).map (reparent gone)

theorem findTask_remaining_of_ne {tasks : List Task} {gone pid : Nat}
    (different : pid ≠ gone) :
    findTask (remaining gone tasks) pid =
      (findTask tasks pid).map (reparent gone) := by
  rw [remaining, findTask_map (reparent_pid gone),
    findTask_filter_ne different]

/-- Cutting a chain at the exited task: what was below it now hangs from
pid 1, everything else is as before. -/
private theorem climb_remaining {tasks : List Task} {gone pid : Nat}
    {chain : List Nat}
    (climb : Climb isInit (parentIn tasks) pid chain)
    (different : pid ≠ gone) :
    Climb isInit (parentIn (remaining gone tasks)) pid
      (chain.takeWhile (· ≠ gone)) := by
  induction climb with
  | top init => exact .top init
  | @next pid parent chain going parentEq rest induction =>
      obtain ⟨task, found, rfl⟩ := Option.map_eq_some_iff.mp parentEq
      rw [List.takeWhile_cons_of_pos (by simpa using different)]
      by_cases orphan : task.parent = gone
      · have adopted : parentIn (remaining gone tasks) pid = some 1 := by
          simp [parentIn, findTask_remaining_of_ne different, found,
            reparent, orphan]
        refine .next going adopted ?_
        have cut : chain.takeWhile (· ≠ gone) = [] := by
          cases rest with
          | top _ => rfl
          | next _ _ _ => simp [orphan]
        rw [cut]
        exact .top (Nat.le_refl 1)
      · refine .next going ?_ (induction orphan)
        simp [parentIn, findTask_remaining_of_ne different, found, reparent,
          orphan]

def exit (tree : ProcTree) (gone : Nat) : ProcTree :=
  { tasks := remaining gone tree.tasks
    distinct := by
      rw [remaining, List.map_map]
      have pids : Task.pid ∘ reparent gone = Task.pid := by
        funext task
        simp
      rw [pids]
      exact (tree.distinct).sublist
        ((List.filter_sublist).map Task.pid)
    rooted := by
      intro task live
      obtain ⟨old, kept, rfl⟩ := List.mem_map.mp live
      obtain ⟨oldLive, different⟩ := List.mem_filter.mp kept
      obtain ⟨chain, climb⟩ := tree.rooted old oldLive
      rw [reparent_pid]
      exact ⟨_, climb_remaining climb (by simpa using different)⟩ }

section Exit

variable {tree : ProcTree} {gone : Nat}

theorem mem_exit {task : Task} :
    task ∈ (tree.exit gone).tasks ↔
      ∃ old ∈ tree.tasks, old.pid ≠ gone ∧ reparent gone old = task := by
  simp [exit, remaining, and_assoc]

theorem find_exit_of_ne {pid : Nat} (different : pid ≠ gone) :
    (tree.exit gone).find pid = (tree.find pid).map (reparent gone) :=
  findTask_remaining_of_ne different

theorem Chain.exit {pid : Nat} {chain : List Nat}
    (climb : tree.Chain pid chain) (different : pid ≠ gone) :
    (tree.exit gone).Chain pid (chain.takeWhile (· ≠ gone)) :=
  climb_remaining climb different

theorem find_exit_self : (tree.exit gone).find gone = none := by
  apply findTask_eq_none_iff.mpr
  intro task live
  obtain ⟨old, _, different, rfl⟩ := mem_exit.mp live
  rw [reparent_pid]
  exact different

end Exit

end ProcTree

end Chos.Kernel
