import Chos.Kernel.System

/-!
# Indices into `ch->procs`

`ch->procs` has `ch->pid_max` entries, and every operation but
`cleanup_links` takes its index from a task.  The guards compare with `>`, so
the pid `ch->pid_max` itself passes them.
-/

namespace Chos.Kernel

open Chos.Library

/-- The operation used no index outside `ch->procs`; it may have ended in a
`BUG_ON`. -/
def InRange {α : Type} (result : Except Stop α) : Prop :=
  ∀ index, result ≠ .error (.outOfRange index)

theorem inRange_ok {α : Type} (value : α) :
    InRange (Except.ok value : Except Stop α) := by
  intro index stopped
  cases stopped

theorem inRange_bugOn {α : Type} :
    InRange (Except.error Stop.bugOn : Except Stop α) := by
  intro index stopped
  cases stopped

theorem inRange_error_congr {α β : Type} (stop : Stop) :
    InRange (Except.error stop : Except Stop α) ↔
      InRange (Except.error stop : Except Stop β) := by
  constructor
  · intro inside index stopped
    cases stopped
    exact inside index rfl
  · intro inside index stopped
    cases stopped
    exact inside index rfl

theorem inRange_bind_iff {α β : Type} {first : Except Stop α}
    {second : α → Except Stop β}
    (later : ∀ value, first = .ok value → InRange (second value)) :
    InRange (first >>= second) ↔ InRange first := by
  cases first with
  | error stop => exact inRange_error_congr stop
  | ok value =>
      constructor
      · intro _
        exact inRange_ok value
      · intro _
        exact later value rfl

theorem inRange_map_iff {α β : Type} (result : Except Stop α)
    (change : α → β) :
    InRange (result.map change) ↔ InRange result := by
  cases result with
  | error stop => exact inRange_error_congr stop
  | ok value => exact iff_of_true (inRange_ok _) (inRange_ok value)

/-- One round of the loop of `cleanup_links`, with `ch->procs[i]` checked. -/
def checkedCleanupStep (seen : Nat → Option Task) (table : Table)
    (index : Nat) : Except Stop Table := do
  let entry ← table.proc index
  return if stale (seen index) entry then resetLink index table else table

def checkedCleanup (seen : Nat → Option Task) (table : Table) :
    Except Stop Table :=
  (List.range table.pid_max).foldlM (checkedCleanupStep seen) table

theorem checkedCleanupStep_eq {table : Table} {index : Nat}
    (below : index < table.pid_max) (seen : Nat → Option Task) :
    checkedCleanupStep seen table index =
      .ok (cleanupStep seen table index) := by
  rw [checkedCleanupStep, Table.proc, if_pos below]
  rfl

/-- The loop of `cleanup_links` never leaves the table. -/
theorem checkedCleanup_eq (seen : Nat → Option Task) (table : Table) :
    checkedCleanup seen table = .ok (cleanupLinks seen table) := by
  have rule : ∀ (indices : List Nat) (current : Table),
      (∀ index ∈ indices, index < current.pid_max) →
      indices.foldlM (checkedCleanupStep seen) current =
        .ok (indices.foldl (cleanupStep seen) current) := by
    intro indices
    induction indices with
    | nil =>
        intro current _
        rfl
    | cons index indices induction =>
        intro current below
        have first := checkedCleanupStep_eq (below index (by simp)) seen
        rw [List.foldlM_cons, first, List.foldl_cons]
        apply induction
        intro other inside
        rw [cleanupStep_pid_max]
        exact below other (by simp [inside])
  exact rule _ table (by simp)

theorem proc_inRange_iff (table : Table) (index : Nat) :
    InRange (table.proc index) ↔ index < table.pid_max := by
  by_cases below : index < table.pid_max
  · rw [Table.proc, if_pos below]
    exact iff_of_true (inRange_ok _) below
  · rw [Table.proc, if_neg below]
    exact iff_of_false (fun inside => inside index rfl) below

/-- The shape of every guard: a `BUG_ON` with `>`, and then the entry. -/
theorem guard_inRange_iff {α : Type} {table : Table} {index : Nat}
    {rest : ChosProc → Except Stop α}
    (later : ∀ entry, InRange (rest entry)) :
    InRange (if index > table.pid_max then .error .bugOn
      else table.proc index >>= rest) ↔ index ≠ table.pid_max := by
  by_cases stopped : index > table.pid_max
  · rw [if_pos stopped]
    exact iff_of_true inRange_bugOn (by omega)
  · rw [if_neg stopped, inRange_bind_iff (fun entry _ => later entry),
      proc_inRange_iff]
    omega

theorem setLink_inRange_iff (link : Option LinkId) (task : Task)
    (table : Table) :
    InRange (setLink link task table) ↔ task.pid ≠ table.pid_max :=
  guard_inRange_iff fun _ => inRange_ok _

theorem writeResetchos_inRange_iff (tree : ProcTree) (current : Task)
    (count : Nat) (table : Table) :
    InRange (writeResetchos tree current count table) ↔
      current.pid ≠ table.pid_max :=
  guard_inRange_iff fun _ => inRange_ok _

theorem setLink_pid_max {link : Option LinkId} {task : Task}
    {table after : Table} (done : setLink link task table = .ok after) :
    after.pid_max = table.pid_max := by
  rw [setLink] at done
  split at done
  · cases done
  · rw [Table.proc] at done
    split at done
    · cases done
      exact assignLink_pid_max link task table
    · cases done

/-- Where the climb of `lookup_link` ends: at a pid that a guard should stop,
or at an entry that is valid. -/
def ProcTree.endsClimb (tree : ProcTree) (table : Table) (pid : Nat) : Bool :=
  decide (table.pid_max ≤ pid) || (tree.validLink table pid).isSome

theorem lookupLink_pid_max {tree : ProcTree} {fuel : Nat}
    {task : Option Task} {table after : Table} {link : Option LinkId}
    (done : lookupLink tree fuel task table = .ok (link, after)) :
    after.pid_max = table.pid_max := by
  induction fuel generalizing task table link after with
  | zero => cases done
  | succ fuel induction =>
      cases task with
      | none =>
          cases done
          rfl
      | some task =>
          rw [lookupLink] at done
          split at done
          · cases done
            rfl
          · split at done
            · cases done
            · obtain ⟨entry, _, done⟩ := exists_ok_of_bind done
              split at done
              · obtain ⟨⟨found, above⟩, climbed, done⟩ :=
                  exists_ok_of_bind done
                have kept := induction climbed
                cases found with
                | none =>
                    cases done
                    rw [resetLink_pid_max]
                    exact kept
                | some found =>
                    obtain ⟨set, stored, done⟩ := exists_ok_of_bind done
                    cases done
                    exact (setLink_pid_max stored).trans kept
              · cases done
                rfl

/-- `lookup_link` stays in range exactly when its climb does not end at the
pid the guard lets through. -/
theorem lookupLink_inRange_iff {tree : ProcTree} {table : Table} {pid : Nat}
    {chain : List Nat} (climb : tree.Chain pid chain) {fuel : Nat}
    (enough : chain.length < fuel) :
    InRange (lookupLink tree fuel (tree.find pid) table) ↔
      chain.find? (tree.endsClimb table) ≠ some table.pid_max := by
  unfold ProcTree.Chain at climb
  induction climb generalizing fuel with
  | @top pid init =>
      obtain ⟨fuel, rfl⟩ := Nat.exists_eq_add_of_lt enough
      refine iff_of_true ?_ (by simp)
      cases found : tree.find pid with
      | none => exact inRange_ok _
      | some task =>
          have small : task.pid = 0 ∨ task.pid = 1 := by
            rw [ProcTree.find_pid found]
            exact (isInit_iff pid).mp init
          rw [lookupLink, if_pos small]
          exact inRange_ok _
  | @next pid parent chain going parentEq rest induction =>
      obtain ⟨task, found, rfl⟩ := Option.map_eq_some_iff.mp parentEq
      have found : tree.find pid = some task := found
      have taskPid : task.pid = pid := ProcTree.find_pid found
      cases fuel with
      | zero => simp at enough
      | succ fuel =>
          have deeper : chain.length < fuel := by simpa using enough
          have big : ¬ (task.pid = 0 ∨ task.pid = 1) := by
            rw [taskPid]
            exact mt (isInit_iff pid).mpr going
          rw [found, lookupLink, if_neg big, taskPid]
          by_cases outside : table.pid_max ≤ pid
          · have ends : tree.endsClimb table pid = true := by
              simp [ProcTree.endsClimb, outside]
            rw [List.find?_cons_of_pos ends, Ne, Option.some.injEq]
            by_cases stopped : pid > table.pid_max
            · rw [if_pos stopped]
              exact iff_of_true inRange_bugOn (by omega)
            · rw [if_neg stopped, Table.proc, if_neg (by omega)]
              exact iff_of_false (fun inside => inside pid rfl) (by omega)
          · have below : pid < table.pid_max := by omega
            rw [if_neg (by omega), Table.proc, if_pos below]
            simp only [bind, Except.bind]
            have valid := validLink_of_find table found
            by_cases cached : tree.validLink table pid = none
            · have climbs : ¬ tree.endsClimb table pid = true := by
                simp [ProcTree.endsClimb, outside, cached]
              rw [valid] at cached
              rw [if_pos (validFor_eq_none_iff.mp cached),
                List.find?_cons_of_neg climbs, ← induction deeper]
              -- on the way back the same index is used again
              apply inRange_bind_iff
              rintro ⟨link, above⟩ climbed
              have kept := lookupLink_pid_max climbed
              cases link with
              | none => exact inRange_ok _
              | some link =>
                  have again : setLink (some link) task above = _ :=
                    setLink_eq (by omega)
                  simp only [again]
                  exact inRange_ok _
            · have ends : tree.endsClimb table pid = true := by
                rw [ProcTree.endsClimb, Option.isSome_iff_ne_none.mpr cached,
                  Bool.or_true]
              rw [valid] at cached
              rw [if_neg (fun miss => cached (validFor_eq_none_iff.mpr miss)),
                List.find?_cons_of_pos ends, Ne, Option.some.injEq]
              exact iff_of_true (inRange_ok _) (by omega)

def ProcTree.climbAvoidsBoundary (tree : ProcTree) (table : Table)
    (pid : Nat) : Prop :=
  (tree.chain pid).find? (tree.endsClimb table) ≠ some table.pid_max

theorem lookup_inRange_iff (tree : ProcTree) (table : Table) (pid : Nat) :
    InRange (tree.lookup pid table) ↔
      tree.climbAvoidsBoundary table pid := by
  cases found : tree.find pid with
  | none =>
      have nobody : tree.chain pid = [] := ProcTree.chain_of_find_none found
      rw [ProcTree.lookup, found, ProcTree.climbAvoidsBoundary, nobody]
      exact iff_of_true (inRange_ok _) (by simp)
  | some task =>
      have climb := ProcTree.chain_of_mem (ProcTree.find_mem found)
      rw [ProcTree.find_pid found] at climb
      exact lookupLink_inRange_iff climb (Nat.lt_succ_of_le climb.length_le)

/-- The operations that use an index into `ch->procs`; `chosDoFork` is what
`chos_do_fork` does once `do_fork` has returned. -/
inductive TableOp where
  | setLink (link : Option LinkId) (task : Task)
  | lookupLink (pid : Nat)
  | writeResetchos (current : Task)
  | cleanupLinks (current : Task)
  | chosDoFork (fork : PendingFork) (current : Task)

def checkedResetchos (tree : ProcTree) (current : Task) (table : Table) :
    Except Stop Table :=
  if current.pid > table.pid_max then .error .bugOn
  else do
    let _ ← table.proc current.pid
    checkedCleanup (seenBy tree current) (resetLink current.pid table)

theorem checkedResetchos_eq (tree : ProcTree) (current : Task) (count : Nat)
    (table : Table) :
    checkedResetchos tree current table =
      (writeResetchos tree current count table).map Prod.snd := by
  rw [checkedResetchos, writeResetchos]
  by_cases stopped : current.pid > table.pid_max
  · rw [if_pos stopped, if_pos stopped]
    rfl
  · rw [if_neg stopped, if_neg stopped]
    cases table.proc current.pid with
    | error stop => rfl
    | ok entry => exact checkedCleanup_eq _ _

def TableOp.run (state : Sys) : TableOp → Except Stop Table
  | .setLink link task => Kernel.setLink link task state.table
  | .lookupLink pid =>
      (state.tree.lookup pid state.table).map Prod.snd
  | .writeResetchos current =>
      checkedResetchos state.tree current state.table
  | .cleanupLinks current =>
      checkedCleanup (seenBy state.tree current) state.table
  | .chosDoFork fork current => state.finishTable fork current

/-- The operation does not come to the entry of a task whose pid is
`ch->pid_max`. -/
def TableOp.AvoidsBoundary (state : Sys) : TableOp → Prop
  | .setLink _ task => task.pid ≠ state.table.pid_max
  | .lookupLink pid => state.tree.climbAvoidsBoundary state.table pid
  | .writeResetchos current => current.pid ≠ state.table.pid_max
  | .cleanupLinks _ => True
  | .chosDoFork fork current =>
      match fork.child with
      | some nr => ∀ child, seenBy state.tree current nr = some child →
          child.pid ≠ state.table.pid_max
      | none => state.tree.climbAvoidsBoundary state.table current.pid

theorem finishTable_inRange_iff (state : Sys) (fork : PendingFork)
    (current : Task) :
    InRange (state.finishTable fork current) ↔
      (TableOp.chosDoFork fork current).AvoidsBoundary state := by
  rw [Sys.finishTable, TableOp.AvoidsBoundary]
  cases fork.child with
  | some nr =>
      simp only
      cases seenBy state.tree current nr with
      | none => exact iff_of_true (inRange_ok _) (by simp)
      | some child =>
          simp only [Option.some.injEq, forall_eq']
          exact setLink_inRange_iff fork.parent_link child state.table
  | none =>
      apply Iff.trans _
        (lookup_inRange_iff state.tree state.table current.pid)
      exact inRange_bind_iff fun _ _ => inRange_ok _

/-- No operation uses an index outside `ch->procs`, unless a `BUG_ON` stopped
it first, exactly when it does not come to the entry of a task whose pid is
`ch->pid_max`. -/
theorem tableOp_inRange_iff (state : Sys) (op : TableOp) :
    InRange (op.run state) ↔ op.AvoidsBoundary state := by
  cases op with
  | setLink link task => exact setLink_inRange_iff link task state.table
  | lookupLink pid =>
      rw [TableOp.run, inRange_map_iff]
      exact lookup_inRange_iff state.tree state.table pid
  | writeResetchos current =>
      rw [TableOp.run, checkedResetchos_eq state.tree current 0,
        inRange_map_iff]
      exact writeResetchos_inRange_iff state.tree current 0 state.table
  | cleanupLinks current =>
      rw [TableOp.run, checkedCleanup_eq]
      exact iff_of_true (inRange_ok _) trivial
  | chosDoFork fork current =>
      exact finishTable_inRange_iff state fork current

/-- A module loaded with `max=2`, and a process with pid 2. -/
def atBoundary : Sys :=
  Sys.init 2 (ProcTree.boot.create
    { pid := 2
      start_time := { tv_sec := 7, tv_nsec := 0 }
      parent := 1
      pid_ns := 0
      numbers := []
      root := .nochroot }
    (by simp [ProcTree.boot])
    (by simp [ProcTree.boot, ProcTree.find, findTask]))

/-- Its lookup passes the guard and uses index 2 of two entries. -/
theorem boundary_pid_out_of_range :
    (TableOp.lookupLink 2).run atBoundary =
        .error (.outOfRange 2) ∧
      ¬ InRange ((TableOp.lookupLink 2).run atBoundary) := by
  have stopped : (TableOp.lookupLink 2).run atBoundary =
      .error (.outOfRange 2) := rfl
  exact ⟨stopped, fun inside => inside 2 stopped⟩

end Chos.Kernel
