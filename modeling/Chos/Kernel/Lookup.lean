import Chos.Kernel.Entries
import Chos.Kernel.ProcTree

/-!
# Lookup and cleanup as functions on the table

`lookup_link` walks up to the first task with a valid entry and, on the way
back, writes the link it found into every entry it passed.  `lookupLink_eq`
states just that; the rules at the end let an invariant of the table be
carried over a lookup or a cleanup from what single updates keep.
-/

namespace Chos.Kernel

open Chos.Library

/-- The entry of a live task, if `lookup_link` would accept it. -/
def ProcTree.validLink (tree : ProcTree) (table : Table) (pid : Nat) :
    Option LinkId :=
  match tree.find pid with
  | none => none
  | some task => (table.procs pid).validFor task

/-- The abstract meaning of `/proc/chos/link`: the link of the nearest task
on the `PARENT` chain with a valid entry. -/
def ProcTree.resolve (tree : ProcTree) (table : Table) (pid : Nat) :
    Option LinkId :=
  (tree.chain pid).findSome? (tree.validLink table)

def ProcTree.InRange (tree : ProcTree) (table : Table) : Prop :=
  ∀ task ∈ tree.tasks, task.pid < table.pid_max

theorem setLink_eq {link : Option LinkId} {task : Task} {table : Table}
    (below : task.pid < table.pid_max) :
    setLink link task table = .ok (assignLink link task table) := by
  have noBug : ¬ task.pid > table.pid_max := by omega
  simp [setLink, Table.proc, noBug, below, pure, Except.pure, bind,
    Except.bind]

/-- The update `lookup_link` makes at a task it passed. -/
def cacheLink (tree : ProcTree) (link : Option LinkId) (pid : Nat)
    (table : Table) : Table :=
  match tree.find pid, link with
  | none, _ => table
  | some task, some found => assignLink (some found) task table
  | some _, none => resetLink pid table

@[simp] theorem cacheLink_pid_max (tree : ProcTree) (link : Option LinkId)
    (pid : Nat) (table : Table) :
    (cacheLink tree link pid table).pid_max = table.pid_max := by
  unfold cacheLink
  split <;> simp

theorem foldr_cacheLink_pid_max (tree : ProcTree) (link : Option LinkId)
    (passed : List Nat) (table : Table) :
    (passed.foldr (cacheLink tree link) table).pid_max = table.pid_max := by
  induction passed with
  | nil => rfl
  | cons pid passed induction => simp [induction]

theorem validLink_of_find {tree : ProcTree} (table : Table)
    {pid : Nat} {task : Task} (found : tree.find pid = some task) :
    tree.validLink table pid = (table.procs pid).validFor task := by
  simp [ProcTree.validLink, found]

theorem validFor_eq_none_iff {entry : ChosProc} {task : Task} :
    entry.validFor task = none ↔
      entry.link = none ∨ entry.start_time ≠ task.start_time.tv_sec := by
  unfold ChosProc.validFor
  by_cases same : entry.start_time = task.start_time.tv_sec
  · simp [same]
  · simp [same]

/-- `lookup_link` finds the nearest valid entry and caches it at every task
passed on the way. -/
theorem lookupLink_eq {tree : ProcTree} {table : Table}
    (inRange : tree.InRange table) {pid : Nat} {chain : List Nat}
    (climb : tree.Chain pid chain) {fuel : Nat}
    (enough : chain.length < fuel) :
    lookupLink tree fuel (tree.find pid) table =
      .ok (chain.findSome? (tree.validLink table),
        (beforeHit (tree.validLink table) chain).foldr
          (cacheLink tree (chain.findSome? (tree.validLink table))) table) := by
  unfold ProcTree.Chain at climb
  induction climb generalizing fuel with
  | @top pid init =>
      obtain ⟨fuel, rfl⟩ := Nat.exists_eq_add_of_lt enough
      cases found : tree.find pid with
      | none => rfl
      | some task =>
          have small : task.pid = 0 ∨ task.pid = 1 := by
            rw [ProcTree.find_pid found]
            exact (isInit_iff pid).mp init
          simp [lookupLink, small]
  | @next pid parent chain going parentEq rest induction =>
      obtain ⟨task, found, rfl⟩ := Option.map_eq_some_iff.mp parentEq
      have taskPid : task.pid = pid := findTask_pid found
      have below : task.pid < table.pid_max :=
        inRange task (findTask_mem found)
      have found : tree.find pid = some task := found
      cases fuel with
      | zero => simp at enough
      | succ fuel =>
          have deeper : chain.length < fuel := by simpa using enough
          have big : ¬ (task.pid = 0 ∨ task.pid = 1) := by
            rw [taskPid]
            exact mt (isInit_iff pid).mpr going
          have noBug : ¬ task.pid > table.pid_max := by omega
          have entryAt : table.proc task.pid = .ok (table.procs pid) := by
            rw [Table.proc, if_pos below, taskPid]
          have valid := validLink_of_find table found
          rw [found, lookupLink, if_neg big, if_neg noBug, entryAt]
          simp only [bind, Except.bind]
          by_cases cached : (table.procs pid).validFor task = none
          · rw [if_pos (validFor_eq_none_iff.mp cached), induction deeper]
            rw [cached] at valid
            cases result : chain.findSome? (tree.validLink table) with
            | none =>
                simp [pure, Except.pure, beforeHit_cons_of_none valid, valid,
                  result, cacheLink, found, taskPid]
            | some link =>
                have stillBelow : task.pid <
                    ((beforeHit (tree.validLink table) chain).foldr
                      (cacheLink tree (some link)) table).pid_max := by
                  rw [foldr_cacheLink_pid_max]
                  exact below
                simp [setLink_eq stillBelow, pure, Except.pure,
                  beforeHit_cons_of_none valid, valid, result, cacheLink,
                  found]
          · rw [if_neg (fun miss => cached (validFor_eq_none_iff.mpr miss))]
            have hit : ∃ link, (table.procs pid).link = some link ∧
                tree.validLink table pid = some link := by
              rw [valid]
              unfold ChosProc.validFor at cached ⊢
              by_cases same :
                  (table.procs pid).start_time = task.start_time.tv_sec
              · rw [if_pos same] at cached ⊢
                obtain ⟨link, held⟩ := Option.ne_none_iff_exists'.mp cached
                exact ⟨link, held, held⟩
              · rw [if_neg same] at cached
                exact absurd rfl cached
            obtain ⟨link, held, hit⟩ := hit
            simp [pure, Except.pure, held, hit, beforeHit_cons_of_some hit]

/-- What `cacheLink` leaves in the entry of a task. -/
def cachedEntry (link : Option LinkId) (task : Task) : ChosProc :=
  match link with
  | some found => .assigned (some found) task
  | none => .cleared

theorem cacheLink_procs_self {tree : ProcTree} {link : Option LinkId}
    {pid : Nat} {task : Task} (found : tree.find pid = some task)
    (table : Table) :
    (cacheLink tree link pid table).procs pid = cachedEntry link task := by
  have taskPid := ProcTree.find_pid found
  cases link with
  | none => simp [cacheLink, cachedEntry, found]
  | some given =>
      simp [cacheLink, cachedEntry, found, assignLink_procs, taskPid]

theorem cacheLink_procs_of_ne {tree : ProcTree} {link : Option LinkId}
    {pid other : Nat} (different : other ≠ pid) (table : Table) :
    (cacheLink tree link pid table).procs other = table.procs other := by
  unfold cacheLink
  split
  · rfl
  · rename_i task given found
    rw [assignLink_procs, ProcTree.find_pid found,
      Function.update_of_ne different]
  · rw [resetLink_procs, Function.update_of_ne different]

theorem foldr_cacheLink_procs_of_not_mem {tree : ProcTree}
    {link : Option LinkId} {passed : List Nat} {other : Nat}
    (outside : other ∉ passed) (table : Table) :
    (passed.foldr (cacheLink tree link) table).procs other =
      table.procs other := by
  induction passed with
  | nil => rfl
  | cons pid passed induction =>
      simp only [List.mem_cons, not_or] at outside
      rw [List.foldr_cons, cacheLink_procs_of_ne outside.1,
        induction outside.2]

theorem foldr_cacheLink_procs_of_mem {tree : ProcTree}
    {link : Option LinkId} {passed : List Nat} (distinct : passed.Nodup)
    {pid : Nat} {task : Task} (inside : pid ∈ passed)
    (found : tree.find pid = some task) (table : Table) :
    (passed.foldr (cacheLink tree link) table).procs pid =
      cachedEntry link task := by
  induction passed with
  | nil => simp at inside
  | cons head passed induction =>
      rw [List.nodup_cons] at distinct
      rw [List.foldr_cons]
      rcases List.mem_cons.mp inside with same | later
      · subst same
        exact cacheLink_procs_self found _
      · have different : pid ≠ head := by
          intro equal
          exact distinct.1 (equal ▸ later)
        rw [cacheLink_procs_of_ne different, induction distinct.2 later]

/-- The table after `lookup_link` of `pid`, whatever fuel it was given. -/
def ProcTree.lookedUp (tree : ProcTree) (table : Table) (pid : Nat) : Table :=
  (beforeHit (tree.validLink table) (tree.chain pid)).foldr
    (cacheLink tree (tree.resolve table pid)) table

/-- `lookup_link` as the handlers call it, with fuel for every live task. -/
def ProcTree.lookup (tree : ProcTree) (pid : Nat) (table : Table) :
    Except Stop (Option LinkId × Table) :=
  lookupLink tree (tree.tasks.length + 1) (tree.find pid) table

theorem ProcTree.lookup_eq {tree : ProcTree} {table : Table}
    (inRange : tree.InRange table) {task : Task}
    (live : task ∈ tree.tasks) :
    tree.lookup task.pid table =
      .ok (tree.resolve table task.pid, tree.lookedUp table task.pid) := by
  have climb := ProcTree.chain_of_mem live
  exact lookupLink_eq inRange climb (Nat.lt_succ_of_le climb.length_le)

/-- An invariant that a reset keeps, and that a store keeps when some other
entry holds the stored link, is kept by a lookup.  The other entry is that of
the parent, which the recursion has filled by then.  Only entries that were
not valid are touched. -/
theorem lookedUp_induction (invariant : Table → Prop) {tree : ProcTree}
    {table : Table} (inRange : tree.InRange table)
    (initially : invariant table)
    (reset : ∀ current index, invariant current →
      index < current.pid_max → tree.validLink table index = none →
      invariant (resetLink index current))
    (assign : ∀ current link task holder, invariant current →
      task.pid < current.pid_max → holder < current.pid_max →
      holder ≠ task.pid → current.linkAt holder = some link →
      tree.validLink table task.pid = none →
      invariant (assignLink (some link) task current))
    {pid : Nat} {chain : List Nat} (climb : tree.Chain pid chain) :
    invariant ((beforeHit (tree.validLink table) chain).foldr
      (cacheLink tree (chain.findSome? (tree.validLink table))) table) := by
  have rule : invariant ((beforeHit (tree.validLink table) chain).foldr
        (cacheLink tree (chain.findSome? (tree.validLink table))) table) ∧
      ∀ link, chain.findSome? (tree.validLink table) = some link →
        ((beforeHit (tree.validLink table) chain).foldr
          (cacheLink tree (chain.findSome? (tree.validLink table)))
          table).linkAt pid = some link := by
    unfold ProcTree.Chain at climb
    induction climb with
    | top _ => exact ⟨initially, by simp⟩
    | @next pid parent chain going parentEq rest induction =>
        obtain ⟨kept, parentHolds⟩ := induction
        obtain ⟨task, found, rfl⟩ := Option.map_eq_some_iff.mp parentEq
        have found : tree.find pid = some task := found
        have below : task.pid < table.pid_max :=
          inRange task (ProcTree.find_mem found)
        have taskPid := ProcTree.find_pid found
        cases valid : tree.validLink table pid with
        | some hit =>
            simp only [beforeHit_cons_of_some valid, List.findSome?_cons,
              valid, List.foldr_nil, Option.some.injEq, forall_eq']
            refine ⟨initially, ?_⟩
            rw [validLink_of_find table found] at valid
            unfold ChosProc.validFor at valid
            split at valid
            · exact valid
            · cases valid
        | none =>
            simp only [beforeHit_cons_of_none valid, List.findSome?_cons,
              valid, List.foldr_cons]
            cases result : chain.findSome? (tree.validLink table) with
            | none =>
                rw [result] at kept
                simp only [cacheLink, found, reduceCtorEq, false_implies,
                  implies_true, and_true]
                apply reset _ _ kept _ valid
                rw [foldr_cacheLink_pid_max]
                omega
            | some link =>
                rw [result] at kept parentHolds
                have inside : task.parent ∈ chain := by
                  cases rest with
                  | top _ => simp at result
                  | next _ _ _ => simp
                obtain ⟨parent, parentFound⟩ :=
                  ProcTree.Chain.find_isSome rest inside
                have parentBelow : task.parent < table.pid_max := by
                  rw [← ProcTree.find_pid parentFound]
                  exact inRange parent (ProcTree.find_mem parentFound)
                have different : task.parent ≠ task.pid := by
                  intro equal
                  have above := Climb.head_not_mem
                    (.next going parentEq rest)
                  exact above (by rw [← taskPid, ← equal]; exact inside)
                simp only [cacheLink, found]
                refine ⟨?_, ?_⟩
                · apply assign _ link task task.parent kept
                  · rw [foldr_cacheLink_pid_max]
                    exact below
                  · rw [foldr_cacheLink_pid_max]
                    exact parentBelow
                  · exact different
                  · exact parentHolds link rfl
                  · rw [taskPid]
                    exact valid
                · intro other same
                  rw [assignLink_linkAt, taskPid, Function.update_self]
                  exact same
  exact rule.1

@[simp] theorem cleanupStep_pid_max (seen : Nat → Option Task)
    (table : Table) (index : Nat) :
    (cleanupStep seen table index).pid_max = table.pid_max := by
  unfold cleanupStep
  split <;> simp

theorem cleanupStep_procs_of_ne {index other : Nat}
    (different : other ≠ index) (seen : Nat → Option Task) (table : Table) :
    (cleanupStep seen table index).procs other = table.procs other := by
  unfold cleanupStep
  split
  · rw [resetLink_procs, Function.update_of_ne different]
  · rfl

theorem cleanupStep_procs_self (seen : Nat → Option Task) (table : Table)
    (index : Nat) :
    (cleanupStep seen table index).procs index =
      if stale (seen index) (table.procs index) then .cleared
      else table.procs index := by
  unfold cleanupStep
  split <;> simp

private theorem foldl_cleanupStep_procs (seen : Nat → Option Task)
    {indices : List Nat} (distinct : indices.Nodup) (table : Table)
    (index : Nat) :
    (indices.foldl (cleanupStep seen) table).procs index =
      if index ∈ indices ∧ stale (seen index) (table.procs index)
      then .cleared else table.procs index := by
  induction indices generalizing table with
  | nil => simp
  | cons head indices induction =>
      rw [List.nodup_cons] at distinct
      rw [List.foldl_cons, induction distinct.2]
      by_cases same : index = head
      · subst same
        simp [distinct.1, cleanupStep_procs_self]
      · rw [cleanupStep_procs_of_ne same]
        simp [same]

theorem cleanupLinks_procs (seen : Nat → Option Task) (table : Table)
    (index : Nat) :
    (cleanupLinks seen table).procs index =
      if index < table.pid_max ∧ stale (seen index) (table.procs index)
      then .cleared else table.procs index := by
  rw [cleanupLinks, foldl_cleanupStep_procs seen List.nodup_range]
  simp

theorem cleanupLinks_induction (invariant : Table → Prop)
    (seen : Nat → Option Task) {table : Table}
    (initially : invariant table)
    (reset : ∀ current index, invariant current →
      index < current.pid_max → stale (seen index) (current.procs index) →
      invariant (resetLink index current)) :
    invariant (cleanupLinks seen table) := by
  have rule : ∀ (indices : List Nat) (current : Table),
      (∀ index ∈ indices, index < current.pid_max) → invariant current →
        invariant (indices.foldl (cleanupStep seen) current) := by
    intro indices
    induction indices with
    | nil =>
        intro current _ kept
        exact kept
    | cons index indices induction =>
        intro current below kept
        apply induction
        · intro other inside
          rw [cleanupStep_pid_max]
          exact below other (by simp [inside])
        · unfold cleanupStep
          split
          · rename_i isStale
            exact reset current index kept (below index (by simp)) isStale
          · exact kept
  exact rule _ table (by simp) initially

end Chos.Kernel
