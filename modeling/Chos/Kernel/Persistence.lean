import Chos.Kernel.Steps

/-!
# Processes across events

A process keeps its pid, start time and numbers as long as it lives; its
`PARENT` changes only when the parent exits.  A process inside a fork cannot
exit, so what a pending fork says about its caller stays true.
-/

namespace Chos.Kernel

open Chos.Library

/-- Everything about a task that `lookup_link` and `cleanup_links` compare. -/
structure Task.Same (older newer : Task) : Prop where
  pid : newer.pid = older.pid
  start_time : newer.start_time = older.start_time
  pid_ns : newer.pid_ns = older.pid_ns
  numbers : newer.numbers = older.numbers

theorem Task.Same.refl (task : Task) : task.Same task :=
  { pid := rfl
    start_time := rfl
    pid_ns := rfl
    numbers := rfl }

theorem Task.Same.nrIn {older newer : Task} (same : older.Same newer)
    (ns : Nat) : newer.nrIn ns = older.nrIn ns := by
  simp [Task.nrIn, same.pid, same.numbers]

theorem Task.Same.validFor {older newer : Task} (same : older.Same newer)
    (entry : ChosProc) : entry.validFor newer = entry.validFor older := by
  simp [ChosProc.validFor, same.start_time]

namespace ProcTree

variable {tree : ProcTree} {pid : Nat} {task : Task}

theorem find_setRoot_same (changed : Nat) (root : Root)
    (found : tree.find pid = some task) :
    ∃ later, (tree.setRoot changed root).find pid = some later ∧
      task.Same later ∧ later.parent = task.parent := by
  rw [find_setRoot, found]
  refine ⟨_, rfl, ?_, ?_⟩
  · dsimp only
    split <;> exact ⟨rfl, rfl, rfl, rfl⟩
  · dsimp only
    split <;> rfl

theorem find_setRoot_ne_some {changed : Nat} {root : Root}
    (absent : tree.find pid = none) :
    (tree.setRoot changed root).find pid ≠ some task := by
  rw [find_setRoot, absent]
  simp

theorem find_exit_ne_some {gone : Nat} (absent : tree.find pid = none) :
    (tree.exit gone).find pid ≠ some task := by
  by_cases same : pid = gone
  · subst same
    rw [find_exit_self]
    simp
  · rw [find_exit_of_ne same, absent]
    simp

theorem find_exit_same {gone : Nat} (different : pid ≠ gone)
    (found : tree.find pid = some task) :
    ∃ later, (tree.exit gone).find pid = some later ∧
      task.Same later ∧
      later.parent = if task.parent = gone then 1 else task.parent := by
  refine ⟨reparent gone task, ?_, ?_, ?_⟩
  · rw [find_exit_of_ne different, found]
    rfl
  · unfold reparent
    split <;> exact ⟨rfl, rfl, rfl, rfl⟩
  · unfold reparent
    split <;> rfl

end ProcTree

namespace Sys

/-- A live process after an event that is not its own exit. -/
theorem Taken.find {state next : Sys} {event : Event}
    (taken : Taken state event next) {pid : Nat} {task : Task}
    (found : state.tree.find pid = some task) (stays : event ≠ .exit pid) :
    ∃ later, next.tree.find pid = some later ∧ task.Same later ∧
      later.parent = if event = .exit task.parent then 1
        else task.parent := by
  cases taken with
  | setchos buf count outcome running =>
      obtain ⟨later, foundLater, same, parent⟩ :=
        ProcTree.find_setRoot_same _ _ found
      exact ⟨later, foundLater, same, by simpa using parent⟩
  | chroot dir running =>
      obtain ⟨later, foundLater, same, parent⟩ :=
        ProcTree.find_setRoot_same _ _ found
      exact ⟨later, foundLater, same, by simpa using parent⟩
  | create inside alone foundParent fits fresh parentLive =>
      have different := fresh task (ProcTree.find_mem found)
      rw [ProcTree.find_pid found] at different
      refine ⟨task, ?_, .refl task, by simp⟩
      exact (ProcTree.find_create_of_ne fresh parentLive different).trans
        found
  | @exit gone _ running above =>
      have different : pid ≠ gone := by
        intro same
        exact stays (by rw [same])
      obtain ⟨later, foundLater, same, parent⟩ :=
        ProcTree.find_exit_same different found
      refine ⟨later, foundLater, same, ?_⟩
      simpa [eq_comm] using parent
  | _ => exact ⟨task, found, .refl task, by simp⟩

/-- A process found after an event was there before, unless the event is its
creation. -/
theorem Taken.found {state next : Sys} {event : Event}
    (taken : Taken state event next) {pid : Nat} {later : Task}
    (foundLater : next.tree.find pid = some later) :
    (∃ task, state.tree.find pid = some task ∧ event ≠ .exit pid) ∨
      ∃ creator new task, event = .create creator new ∧
        state.tree.find creator = some task ∧ later = new.toTask task ∧
        new.pid = pid ∧ state.tree.find pid = none := by
  cases old : state.tree.find pid with
  | some task =>
      left
      refine ⟨task, rfl, ?_⟩
      rintro rfl
      cases taken with
      | exit running above =>
          have gone : (state.tree.exit pid).find pid = none :=
            ProcTree.find_exit_self
          rw [gone] at foundLater
          cases foundLater
  | none =>
      right
      cases taken with
      | setchos buf count outcome running =>
          exact absurd foundLater (ProcTree.find_setRoot_ne_some old)
      | chroot dir running =>
          exact absurd foundLater (ProcTree.find_setRoot_ne_some old)
      | @create creator fork task new inside alone found fits fresh parentLive =>
          by_cases same : pid = (new.toTask task).pid
          · subst same
            have self := ProcTree.find_create_self fresh parentLive
            rw [self] at foundLater
            exact ⟨creator, new, task, rfl, found,
              (Option.some.inj foundLater).symm, rfl, rfl⟩
          · have unchanged :=
              ProcTree.find_create_of_ne fresh parentLive same
            rw [unchanged, old] at foundLater
            cases foundLater
      | @exit gone _ running above =>
          exact absurd foundLater (ProcTree.find_exit_ne_some old)
      | _ =>
          rw [old] at foundLater
          cases foundLater

end Sys

end Chos.Kernel
