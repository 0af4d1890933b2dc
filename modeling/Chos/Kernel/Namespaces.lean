import Chos.Kernel.Agreement

/-!
# Cleanup from inside a pid namespace

`set_link` and `lookup_link` index the table by global pids, `cleanup_links`
asks for the task that has the index as its number in the caller's namespace.
The entry of a live process survives exactly when that other task happens to
exist and to have started in the same second.
-/

namespace Chos.Kernel

open Chos.Library

/-- The process that runs `cleanup_links` inside one of the two write
handlers, and the table as `cleanup_links` finds it. -/
def Sys.cleaning (state : Sys) : Event → Option (Task × Table)
  | .setchos pid buf count outcome =>
      if outcome.textAlloc ∧ accepts state.valid_paths (copied buf count) then
        (state.current pid).map fun current =>
          (current, (state.table.allocText (copied buf count)).2)
      else none
  | .resetchos pid =>
      (state.current pid).map fun current =>
        (current, resetLink pid state.table)
  | _ => none

/-- The numbers in the caller's namespace do as well as global pids: at the
index of each valid entry of a live task the namespace has a task that
started in the same second. -/
def NumbersAgree (tree : ProcTree) (caller : Task) (table : Table) : Prop :=
  ∀ task ∈ tree.tasks, task.pid < table.pid_max →
    ((table.procs task.pid).validFor task).isSome →
    ∃ seen ∈ seenBy tree caller task.pid,
      seen.start_time.tv_sec = task.start_time.tv_sec

instance (tree : ProcTree) (caller : Task) (table : Table) :
    Decidable (NumbersAgree tree caller table) :=
  inferInstanceAs (Decidable (∀ task ∈ tree.tasks, _ → _ →
    ∃ seen ∈ seenBy tree caller task.pid, _))

/-- A cleanup clears no entry of a live process, and leaves the link of every
process outside the caller's namespace as it was.  The whole handler changes
no link outside the namespace either; a process below the caller, which would
be inside the namespace with it, is left out of this. -/
structure SparesLive (state : Sys) (caller : Task) (table : Table)
    (next : Sys) : Prop where
  entries : ∀ index, table.linkAt index ≠ none →
    (cleanupLinks (seenBy state.tree caller) table).linkAt index = none →
    ¬ ∃ task ∈ state.tree.tasks, task.pid = index ∧
      task.start_time.tv_sec = (table.procs index).start_time
  cleaned : ∀ task ∈ state.tree.tasks, task.nrIn caller.pid_ns = none →
    state.tree.resolve (cleanupLinks (seenBy state.tree caller) table)
      task.pid = state.tree.resolve table task.pid
  texts : ∀ link,
    (cleanupLinks (seenBy state.tree caller) table).textOf link =
      table.textOf link
  handled : ∀ task ∈ state.tree.tasks, task.nrIn caller.pid_ns = none →
    caller.pid ∉ state.tree.chain task.pid →
    next.tree.resolve next.table task.pid =
      state.tree.resolve state.table task.pid

theorem stale_iff {seen : Option Task} {entry : ChosProc} :
    stale seen entry = true ↔ entry.link ≠ none ∧
      ∀ task ∈ seen, entry.start_time ≠ task.start_time.tv_sec := by
  cases seen with
  | none => simp [stale]
  | some task => simp [stale]

/-- A filled entry is lost to a cleanup when it is stale to it. -/
theorem linkAt_cleanupLinks_eq_none_iff {seen : Nat → Option Task}
    {table : Table} {index : Nat} (filled : table.linkAt index ≠ none) :
    (cleanupLinks seen table).linkAt index = none ↔
      index < table.pid_max ∧ stale (seen index) (table.procs index) := by
  have entry := cleanupLinks_procs seen table index
  unfold Table.linkAt at filled ⊢
  rw [entry]
  split
  · rename_i cleared
    simp [ChosProc.cleared, cleared]
  · rename_i kept
    simp only [filled, kept]

theorem NumbersAgree.not_stale {tree : ProcTree} {caller : Task}
    {table : Table} (agree : NumbersAgree tree caller table) {task : Task}
    (live : task ∈ tree.tasks) (below : task.pid < table.pid_max)
    (valid : ((table.procs task.pid).validFor task).isSome) :
    ¬ stale (seenBy tree caller task.pid) (table.procs task.pid) := by
  obtain ⟨seen, found, sameSecond⟩ := agree task live below valid
  obtain ⟨link, accepted⟩ := Option.isSome_iff_exists.mp valid
  rw [stale_iff]
  rintro ⟨_, other⟩
  apply other seen found
  rw [sameSecond]
  exact (validFor_link accepted).2

theorem NumbersAgree.validLink_cleanupLinks {tree : ProcTree}
    {caller : Task} {table : Table}
    (agree : NumbersAgree tree caller table) :
    tree.validLink (cleanupLinks (seenBy tree caller) table) =
      tree.validLink table := by
  funext pid
  rw [ProcTree.validLink_cleanupLinks]
  split
  · rename_i cleared
    cases valid : tree.validLink table pid with
    | none => rfl
    | some link =>
        obtain ⟨task, found, accepted⟩ :=
          ProcTree.validLink_eq_some_iff.mp valid
        have samePid := ProcTree.find_pid found
        subst samePid
        exact absurd cleared.2 (agree.not_stale (ProcTree.find_mem found)
          cleared.1 (by simp [accepted]))
  · rfl

theorem cleanupLinks_textOf (seen : Nat → Option Task) (table : Table)
    (link : LinkId) :
    (cleanupLinks seen table).textOf link = table.textOf link := by
  apply cleanupLinks_induction
    (fun current => current.textOf link = table.textOf link)
  · rfl
  · intro current index same _ _
    rw [← same]
    simp [Table.textOf]

theorem entries_iff_numbersAgree {tree : ProcTree} {caller : Task}
    {table : Table} :
    (∀ index, table.linkAt index ≠ none →
      (cleanupLinks (seenBy tree caller) table).linkAt index = none →
      ¬ ∃ task ∈ tree.tasks, task.pid = index ∧
        task.start_time.tv_sec = (table.procs index).start_time) ↔
      NumbersAgree tree caller table := by
  constructor
  · intro spares task live below valid
    obtain ⟨link, accepted⟩ := Option.isSome_iff_exists.mp valid
    obtain ⟨held, started⟩ := validFor_link accepted
    have filled : table.linkAt task.pid ≠ none := by
      simp [Table.linkAt, held]
    by_contra alone
    have isStale : stale (seenBy tree caller task.pid)
        (table.procs task.pid) = true := by
      refine stale_iff.mpr ⟨filled, ?_⟩
      intro seen found sameSecond
      exact alone ⟨seen, found, by rw [← sameSecond, started]⟩
    have cleared :=
      (linkAt_cleanupLinks_eq_none_iff filled).mpr ⟨below, isStale⟩
    exact spares task.pid filled cleared ⟨task, live, rfl, started.symm⟩
  · rintro agree index filled cleared ⟨task, live, rfl, started⟩
    obtain ⟨below, isStale⟩ :=
      (linkAt_cleanupLinks_eq_none_iff filled).mp cleared
    have valid : ((table.procs task.pid).validFor task).isSome := by
      rw [ChosProc.validFor, if_pos started.symm]
      exact Option.isSome_iff_ne_none.mpr filled
    exact agree.not_stale live below valid isStale

theorem below_of_setLink {link : Option LinkId} {task : Task}
    {table newer : Table} (returned : setLink link task table = .ok newer) :
    task.pid < table.pid_max := by
  unfold setLink at returned
  split at returned
  · cases returned
  · cases entry : table.proc task.pid with
    | error stop => simp [entry, bind, Except.bind] at returned
    | ok found => exact (Table.proc_eq_ok_iff.mp entry).1

theorem below_of_writeSetchos {tree : ProcTree} {paths : List ValidPath}
    {current : Task} {buf : List UInt8} {count : Nat}
    {outcome : SetchosOutcome} {table : Table}
    (allocated : outcome.textAlloc = true)
    (accepted : accepts paths (copied buf count) = true)
    {result : Except Errno Nat × Root × Table}
    (returned : writeSetchos tree paths current buf count outcome table =
      .ok result) : current.pid < table.pid_max := by
  have installs : ∀ older text newer,
      installLink tree current text outcome.linkAlloc older = .ok newer →
      current.pid < older.pid_max := by
    intro older text newer installed
    have below : current.pid < (createLink text outcome.linkAlloc
        (cleanupLinks (seenBy tree current) older)).2.pid_max :=
      below_of_setLink installed
    rw [createLink_pid_max, cleanupLinks_pid_max] at below
    exact below
  simp only [writeSetchos, allocated, if_true] at returned
  cases installed : installLink tree current
      (table.allocText (copied buf count)).1 outcome.linkAlloc
      (table.allocText (copied buf count)).2 with
  | ok newer => exact installs (table.allocText _).2 _ _ installed
  | error stop =>
      simp only [installed, bind, Except.bind] at returned
      simp only [accepts, Bool.or_eq_true] at accepted
      split at returned
      · cases returned
      · rename_i notRoot
        rw [if_pos (accepted.resolve_left notRoot)] at returned
        cases returned

theorem below_of_writeResetchos {tree : ProcTree} {current : Task}
    {count : Nat} {table : Table} {result : Nat × Table}
    (returned : writeResetchos tree current count table = .ok result) :
    current.pid < table.pid_max := by
  unfold writeResetchos at returned
  split at returned
  · cases returned
  · cases entry : table.proc current.pid with
    | error stop => simp [entry, bind, Except.bind] at returned
    | ok found => exact (Table.proc_eq_ok_iff.mp entry).1

namespace Sys

/-- What a handler that runs a cleanup leaves behind: the chains as they
were, and away from the caller's own entry what the cleanup left. -/
theorem step_of_cleaning {state next : Sys} {event : Event} {caller : Task}
    {table : Table} (cleans : state.cleaning event = some (caller, table))
    (stepped : state.step event = some next) :
    (∀ newer pid,
        next.tree.resolve newer pid = state.tree.resolve newer pid) ∧
      ∀ pid, pid ≠ caller.pid →
        table.procs pid = state.table.procs pid ∧
        next.table.procs pid =
          (cleanupLinks (seenBy state.tree caller) table).procs pid := by
  cases event with
  | setchos pid buf count outcome =>
      simp only [cleaning] at cleans
      split at cleans
      · rename_i passed
        obtain ⟨current, running, same⟩ := Option.map_eq_some_iff.mp cleans
        cases same
        simp only [step, setchos, running] at stepped
        split at stepped
        · cases stepped
        · rename_i result root after returned
          cases stepped
          have below := below_of_writeSetchos passed.1 passed.2 returned
          rw [writeSetchos_eq below] at returned
          cases returned
          refine ⟨fun newer pid => ProcTree.resolve_setRoot _ _ _ _ _, ?_⟩
          intro other different
          refine ⟨rfl, ?_⟩
          simp only [setchosTable, passed.1, passed.2, if_true, installed]
          rw [assignLink_procs, Function.update_of_ne different,
            createLink_procs]
      · cases cleans
  | resetchos pid =>
      obtain ⟨current, running, same⟩ := Option.map_eq_some_iff.mp cleans
      cases same
      have samePid := ProcTree.find_pid (current_find running)
      subst samePid
      simp only [step, resetchos, running] at stepped
      split at stepped
      · cases stepped
      · rename_i result after returned
        cases stepped
        rw [writeResetchos_eq (below_of_writeResetchos returned)] at returned
        cases returned
        refine ⟨fun newer pid => rfl, ?_⟩
        intro other different
        refine ⟨?_, rfl⟩
        rw [resetLink_procs, Function.update_of_ne different]
  | _ => cases cleans

/-- A write handler spares the live processes outside its caller's pid
namespace if and only if the numbers of that namespace agree with the global
pids at every valid entry. -/
theorem cleanup_spares_live_iff {state next : Sys} {event : Event}
    {caller : Task} {table : Table}
    (cleans : state.cleaning event = some (caller, table))
    (stepped : state.step event = some next) :
    SparesLive state caller table next ↔
      NumbersAgree state.tree caller table := by
  constructor
  · intro spares
    exact entries_iff_numbersAgree.mp spares.entries
  · intro agree
    obtain ⟨sameChains, entries⟩ := step_of_cleaning cleans stepped
    have cleaned := agree.validLink_cleanupLinks
    refine ⟨entries_iff_numbersAgree.mpr agree, ?_,
      cleanupLinks_textOf _ table, ?_⟩
    · intro task _ _
      rw [ProcTree.resolve, cleaned]
      rfl
    · intro task _ _ notBelow
      rw [sameChains]
      apply findSome?_congr
      intro pid inside
      have different : pid ≠ caller.pid := by
        rintro rfl
        exact notBelow inside
      obtain ⟨before, after⟩ := entries pid different
      calc
        state.tree.validLink next.table pid
        _ = state.tree.validLink
              (cleanupLinks (seenBy state.tree caller) table) pid :=
            ProcTree.validLink_congr after
        _ = state.tree.validLink table pid := congrFun cleaned pid
        _ = state.tree.validLink state.table pid :=
            ProcTree.validLink_congr before

theorem cleanup_spares_live_iff_numbered :
    ∃ state next caller table,
      run Sys.step (Sys.init 32 .boot)
        [.writeValid 0 [47, 97] 2 ⟨true, true⟩, .begin 1,
          .create 1 ⟨10, ⟨5, 0⟩, 0, []⟩, .finish 1, .begin 1,
          .create 1 ⟨20, ⟨5, 0⟩, 1, [(1, 1)]⟩, .finish 1, .begin 1,
          .create 1 ⟨21, ⟨5, 0⟩, 1, [(1, 10)]⟩, .finish 1,
          .setchos 10 [47, 97] 2 ⟨true, true, true, .other 0⟩] = some state ∧
      state.cleaning (.resetchos 20) = some (caller, table) ∧
      state.step (.resetchos 20) = some next ∧ caller.pid_ns ≠ 0 ∧
      SparesLive state caller table next := by
  have ends : (run Sys.step (Sys.init 32 .boot)
      [.writeValid 0 [47, 97] 2 ⟨true, true⟩, .begin 1,
        .create 1 ⟨10, ⟨5, 0⟩, 0, []⟩, .finish 1, .begin 1,
        .create 1 ⟨20, ⟨5, 0⟩, 1, [(1, 1)]⟩, .finish 1, .begin 1,
        .create 1 ⟨21, ⟨5, 0⟩, 1, [(1, 10)]⟩, .finish 1,
        .setchos 10 [47, 97] 2 ⟨true, true, true, .other 0⟩]).any
        (fun state => (state.step (.resetchos 20)).isSome ∧
          (state.cleaning (.resetchos 20)).any fun cleaned =>
            cleaned.1.pid_ns ≠ 0 ∧
              NumbersAgree state.tree cleaned.1 cleaned.2) = true := by
    decide +kernel
  obtain ⟨state, reached, facts⟩ := (Option.any_eq_true _ _).mp ends
  obtain ⟨takes, cleaning⟩ := of_decide_eq_true facts
  obtain ⟨next, stepped⟩ := Option.isSome_iff_exists.mp takes
  obtain ⟨⟨caller, table⟩, cleans, facts⟩ :=
    (Option.any_eq_true _ _).mp cleaning
  obtain ⟨foreign, agree⟩ := of_decide_eq_true facts
  exact ⟨state, next, caller, table, reached, cleans, stepped, foreign,
    (cleanup_spares_live_iff cleans stepped).mpr agree⟩

/-- Process 20 is alone in namespace 1.  Its `resetchos` clears the entry of
process 10, which lives outside, and 10 is back in the real tree. -/
theorem foreign_cleanup_clears_live :
    ∃ state next caller table,
      run Sys.step (Sys.init 32 .boot)
        [.writeValid 0 [47, 97] 2 ⟨true, true⟩, .begin 1,
          .create 1 ⟨10, ⟨5, 0⟩, 0, []⟩, .finish 1, .begin 1,
          .create 1 ⟨20, ⟨5, 0⟩, 1, [(1, 1)]⟩, .finish 1,
          .setchos 10 [47, 97] 2 ⟨true, true, true, .other 0⟩] = some state ∧
      state.cleaning (.resetchos 20) = some (caller, table) ∧
      state.step (.resetchos 20) = some next ∧ caller.pid_ns ≠ 0 ∧
      (state.tree.find 10).map (Task.nrIn · caller.pid_ns) = some none ∧
      state.textSeen 10 = [47, 97] ∧ next.textSeen 10 = rootText ∧
      ¬ SparesLive state caller table next := by
  have ends : (run Sys.step (Sys.init 32 .boot)
      [.writeValid 0 [47, 97] 2 ⟨true, true⟩, .begin 1,
        .create 1 ⟨10, ⟨5, 0⟩, 0, []⟩, .finish 1, .begin 1,
        .create 1 ⟨20, ⟨5, 0⟩, 1, [(1, 1)]⟩, .finish 1,
        .setchos 10 [47, 97] 2 ⟨true, true, true, .other 0⟩]).any
        (fun state => (state.step (.resetchos 20)).any fun next =>
          (state.cleaning (.resetchos 20)).any fun cleaned =>
            cleaned.1.pid_ns ≠ 0 ∧
            (state.tree.find 10).map (Task.nrIn · cleaned.1.pid_ns) =
              some none ∧
            state.textSeen 10 = [47, 97] ∧ next.textSeen 10 = rootText ∧
            ∃ task ∈ state.tree.tasks,
              task.nrIn cleaned.1.pid_ns = none ∧
              state.tree.resolve (cleanupLinks
                (seenBy state.tree cleaned.1) cleaned.2) task.pid ≠
              state.tree.resolve cleaned.2 task.pid) = true := by
    decide +kernel
  obtain ⟨state, reached, takes⟩ := (Option.any_eq_true _ _).mp ends
  obtain ⟨next, stepped, cleaning⟩ := (Option.any_eq_true _ _).mp takes
  obtain ⟨⟨caller, table⟩, cleans, facts⟩ :=
    (Option.any_eq_true _ _).mp cleaning
  obtain ⟨foreign, outside, before, after, task, live, hidden, changed⟩ :=
    of_decide_eq_true facts
  refine ⟨state, next, caller, table, reached, cleans, stepped, foreign,
    outside, before, after, ?_⟩
  intro spares
  exact changed (spares.cleaned task live hidden)

end Sys

end Chos.Kernel
