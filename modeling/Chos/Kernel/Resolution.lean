import Chos.Kernel.Frame
import Chos.Kernel.RefCounts

/-!
# The cache is invisible

`lookup_link` writes to the table and `cleanup_links` clears entries, yet
neither changes what any live task resolves to: a lookup records only what
its tasks resolve to anyway, and a cleanup that sees all tasks clears only
entries no lookup would accept.
-/

namespace Chos.Kernel

open Chos.Library

namespace ProcTree

variable {tree : ProcTree} {table : Table}

theorem validLink_congr {older newer : Table} {pid : Nat}
    (same : newer.procs pid = older.procs pid) :
    tree.validLink newer pid = tree.validLink older pid := by
  simp [validLink, same]

theorem validLink_assigned {newer : Table} {task : Task}
    (found : tree.find task.pid = some task) {link : Option LinkId}
    (stored : newer.procs task.pid = .assigned link task) :
    tree.validLink newer task.pid = link := by
  simp [validLink, found, stored, ChosProc.validFor, ChosProc.assigned]

theorem validLink_cleared {newer : Table} {pid : Nat}
    (stored : newer.procs pid = .cleared) :
    tree.validLink newer pid = none := by
  unfold validLink
  cases tree.find pid with
  | none => rfl
  | some task =>
      simp [stored, ChosProc.validFor, ChosProc.cleared]

theorem chain_eq_cons {task : Task} (live : task ∈ tree.tasks)
    (above : 1 < task.pid) :
    tree.chain task.pid = task.pid :: tree.chain task.parent := by
  obtain ⟨chain, climb, rest⟩ := exists_chain_parent live above
  rw [climb.chain_eq, rest.chain_eq]

theorem not_mem_chain_parent {task : Task} (live : task ∈ tree.tasks)
    (above : 1 < task.pid) : task.pid ∉ tree.chain task.parent := by
  have climb := chain_of_mem live
  rw [chain_eq_cons live above] at climb
  exact climb.head_not_mem

/-- The nearest valid entry of a process, one step at a time. -/
theorem resolve_eq {task : Task} (live : task ∈ tree.tasks)
    (above : 1 < task.pid) :
    tree.resolve table task.pid =
      match tree.validLink table task.pid with
      | some link => some link
      | none => tree.resolve table task.parent := by
  rw [resolve, chain_eq_cons live above, List.findSome?_cons]
  cases tree.validLink table task.pid with
  | none => rfl
  | some link => rfl

theorem resolve_of_init {pid : Nat} (init : isInit pid) :
    tree.resolve table pid = none := by
  have top : tree.Chain pid [] := .top init
  rw [resolve, top.chain_eq]
  rfl

theorem resolve_of_valid {pid : Nat} (above : 1 < pid) {link : LinkId}
    (valid : tree.validLink table pid = some link) :
    tree.resolve table pid = some link := by
  obtain ⟨task, found, _⟩ := validLink_eq_some_iff.mp valid
  have samePid := find_pid found
  subst samePid
  rw [resolve_eq (find_mem found) above, valid]

section ChangedEntry

variable {older newer : Table} {changed : Nat}
  (agree : ∀ pid, pid ≠ changed →
    tree.validLink newer pid = tree.validLink older pid)

include agree

/-- A task that does not rely on the changed entry resolves as before. -/
theorem resolve_of_not_mem_upToHit {pid : Nat}
    (outside : changed ∉ upToHit (tree.validLink older) (tree.chain pid)) :
    tree.resolve newer pid = tree.resolve older pid :=
  findSome?_of_not_mem_upToHit agree outside

/-- A task that relies on it resolves, before and after, like the task whose
entry it is. -/
theorem resolve_of_mem_upToHit {task : Task} (live : task ∈ tree.tasks)
    (inside : changed ∈
      upToHit (tree.validLink older) (tree.chain task.pid)) :
    tree.resolve older task.pid = tree.resolve older changed ∧
      tree.resolve newer task.pid = tree.resolve newer changed := by
  have climb := chain_of_mem live
  obtain ⟨lower, lowerClimb, same⟩ := climb.resolves_of_mem_upToHit inside
  obtain ⟨again, againClimb, sameNewer⟩ := climb.resolves_of_mem_upToHit
    (mem_upToHit_of_agree agree inside)
  have chainEq : tree.chain changed = lower := Chain.chain_eq lowerClimb
  have chainAgain : tree.chain changed = again := Chain.chain_eq againClimb
  refine ⟨?_, ?_⟩
  · rw [resolve, resolve, chainEq]
    exact same.symm
  · rw [resolve, resolve, chainAgain]
    exact sameNewer.symm

theorem resolve_parent_of_changed {task : Task} (live : task ∈ tree.tasks)
    (above : 1 < task.pid) (isChanged : task.pid = changed) :
    tree.resolve newer task.parent = tree.resolve older task.parent := by
  apply resolve_of_not_mem_upToHit agree
  intro inside
  rw [← isChanged] at inside
  exact not_mem_chain_parent live above (mem_of_mem_upToHit inside)

end ChangedEntry

theorem lookedUp_procs_of_not_mem {pid index : Nat}
    (outside : index ∉ beforeHit (tree.validLink table) (tree.chain pid)) :
    (tree.lookedUp table pid).procs index = table.procs index :=
  foldr_cacheLink_procs_of_not_mem outside table

theorem lookedUp_procs_of_mem {task : Task} (live : task ∈ tree.tasks)
    {passed : Task}
    (inside : passed.pid ∈
      beforeHit (tree.validLink table) (tree.chain task.pid))
    (found : tree.find passed.pid = some passed) :
    (tree.lookedUp table task.pid).procs passed.pid =
      cachedEntry (tree.resolve table task.pid) passed := by
  have distinct := (chain_of_mem live).nodup
  exact foldr_cacheLink_procs_of_mem
    (distinct.sublist (List.takeWhile_sublist _)) inside found table

/-- After a successful lookup every task up to the one the link was found at
has a valid entry for it. -/
theorem validLink_lookedUp {task : Task} (live : task ∈ tree.tasks)
    {link : LinkId} (resolved : tree.resolve table task.pid = some link)
    {member : Nat}
    (inside : member ∈
      upToHit (tree.validLink table) (tree.chain task.pid)) :
    tree.validLink (tree.lookedUp table task.pid) member = some link := by
  by_cases passed :
      member ∈ beforeHit (tree.validLink table) (tree.chain task.pid)
  · obtain ⟨owner, found⟩ := (chain_of_mem live).find_isSome
      (mem_of_mem_beforeHit passed)
    have ownPid := find_pid found
    subst ownPid
    have stored := lookedUp_procs_of_mem live passed found
    rw [resolved] at stored
    exact validLink_assigned found stored
  · rw [validLink_congr (lookedUp_procs_of_not_mem passed)]
    rcases mem_beforeHit_or_mark inside resolved with before | hit
    · exact absurd before passed
    · exact hit

theorem validLink_lookedUp_self {task : Task} (live : task ∈ tree.tasks)
    {link : LinkId} (resolved : tree.resolve table task.pid = some link) :
    tree.validLink (tree.lookedUp table task.pid) task.pid = some link := by
  have climb := chain_of_mem live
  apply validLink_lookedUp live resolved
  unfold resolve at resolved
  generalize tree.chain task.pid = chain at climb resolved
  cases climb with
  | top _ => simp at resolved
  | next _ _ _ =>
      rw [upToHit]
      split <;> simp

/-- A lookup only records what tasks resolve to already. -/
theorem lookedUp_completes {task : Task} (live : task ∈ tree.tasks) :
    CompletesMarks isInit (parentIn tree.tasks) (tree.validLink table)
      (tree.validLink (tree.lookedUp table task.pid)) := by
  intro member
  by_cases passed :
      member ∈ beforeHit (tree.validLink table) (tree.chain task.pid)
  · cases resolved : tree.resolve table task.pid with
    | some link =>
        right
        have upTo := mem_upToHit_of_mem_beforeHit passed
        obtain ⟨lower, climb, found⟩ :=
          (chain_of_mem live).resolves_of_mem_upToHit upTo
        exact ⟨link, lower, validLink_lookedUp live resolved upTo, climb,
          found.trans resolved⟩
    | none =>
        left
        obtain ⟨owner, found⟩ := (chain_of_mem live).find_isSome
          (mem_of_mem_beforeHit passed)
        have ownPid := find_pid found
        subst ownPid
        have stored := lookedUp_procs_of_mem live passed found
        rw [resolved] at stored
        rw [validLink_cleared stored, mark_of_mem_beforeHit passed]
  · left
    exact validLink_congr (lookedUp_procs_of_not_mem passed)

theorem resolve_lookedUp {task other : Task} (live : task ∈ tree.tasks)
    (otherLive : other ∈ tree.tasks) :
    tree.resolve (tree.lookedUp table task.pid) other.pid =
      tree.resolve table other.pid :=
  (lookedUp_completes live).resolves_eq (chain_of_mem otherLive)

/-- What a cleanup does to a task's entry, seen through `validLink`. -/
theorem validLink_cleanupLinks (seen : Nat → Option Task) (pid : Nat) :
    tree.validLink (cleanupLinks seen table) pid =
      if pid < table.pid_max ∧ stale (seen pid) (table.procs pid) then none
      else tree.validLink table pid := by
  have entry := cleanupLinks_procs seen table pid
  split
  · rename_i cleared
    rw [if_pos cleared] at entry
    exact validLink_cleared entry
  · rename_i kept
    rw [if_neg kept] at entry
    exact validLink_congr entry

/-- Seen from the initial namespace, a stale entry is one no lookup
accepts. -/
theorem validLink_of_stale {caller : Task} (initial : caller.pid_ns = 0)
    {pid : Nat} (cleared : stale (seenBy tree caller pid) (table.procs pid)) :
    tree.validLink table pid = none := by
  rw [seenBy, initial, findTaskByPidNs_zero] at cleared
  unfold validLink find
  cases found : findTask tree.tasks pid with
  | none => rfl
  | some task =>
      rw [found] at cleared
      simp only [stale, decide_eq_true_eq] at cleared
      simp [ChosProc.validFor, cleared.2]

theorem validLink_cleanupLinks_initial {caller : Task}
    (initial : caller.pid_ns = 0) :
    tree.validLink (cleanupLinks (seenBy tree caller) table) =
      tree.validLink table := by
  funext pid
  rw [validLink_cleanupLinks]
  split
  · rename_i cleared
    exact (validLink_of_stale initial cleared.2).symm
  · rfl

theorem resolve_cleanupLinks {caller : Task} (initial : caller.pid_ns = 0)
    (pid : Nat) :
    tree.resolve (cleanupLinks (seenBy tree caller) table) pid =
      tree.resolve table pid := by
  rw [resolve, validLink_cleanupLinks_initial initial]
  rfl

/-- `lookup_link` refines nearest-valid-ancestor resolution. -/
theorem lookupLink_refines_resolve (counts : RefCounts table)
    (inRange : tree.InRange table) {task : Task}
    (live : task ∈ tree.tasks) :
    ∃ chain link newer,
      tree.Chain task.pid chain ∧
      (∀ fuel, chain.length < fuel →
        lookupLink tree fuel (some task) table = .ok (link, newer)) ∧
      link = chain.findSome? (tree.validLink table) ∧
      (∀ found, link = some found →
        (∀ pid ∈ upToHit (tree.validLink table) chain,
          tree.validLink newer pid = some found) ∧
        (∀ index, index ∉ upToHit (tree.validLink table) chain →
          newer.procs index = table.procs index) ∧
        newer.links.Live found) ∧
      RefCounts newer ∧
      (∀ other ∈ tree.tasks,
        tree.resolve newer other.pid = tree.resolve table other.pid) ∧
      (∀ caller ∈ tree.tasks, caller.pid_ns = 0 → ∀ other ∈ tree.tasks,
        tree.resolve (cleanupLinks (seenBy tree caller) table) other.pid =
          tree.resolve table other.pid) := by
  have climb := chain_of_mem live
  have kept : RefCounts (tree.lookedUp table task.pid) :=
    counts.lookedUp inRange live
  refine ⟨tree.chain task.pid, tree.resolve table task.pid,
    tree.lookedUp table task.pid, climb, ?_, rfl, ?_, kept, ?_, ?_⟩
  · intro fuel enough
    rw [← find_of_mem live]
    exact lookupLink_eq inRange climb enough
  · intro found resolved
    refine ⟨?_, ?_, ?_⟩
    · intro pid inside
      exact validLink_lookedUp live resolved inside
    · intro index outside
      apply lookedUp_procs_of_not_mem
      intro passed
      exact outside (mem_upToHit_of_mem_beforeHit passed)
    · obtain ⟨holder, holderLive, holds⟩ := resolve_held
        ((resolve_lookedUp live live).trans resolved)
      apply kept.allocated holder.pid _ found holds
      have samePidMax : (tree.lookedUp table task.pid).pid_max =
          table.pid_max := foldr_cacheLink_pid_max _ _ _ _
      rw [samePidMax]
      exact inRange holder holderLive
  · intro other otherLive
    exact resolve_lookedUp live otherLive
  · intro caller _ initial other _
    exact resolve_cleanupLinks initial other.pid

theorem lookupLink_refines_resolve_child :
    ∃ tree table task newer,
      RefCounts table ∧ tree.InRange table ∧ task ∈ tree.tasks ∧
      lookupLink tree 3 (some task) table = .ok (some 0, newer) ∧
      RefCounts newer ∧ newer.linkAt 11 = some 0 := by
  let parent : Task := ⟨10, ⟨5, 0⟩, 1, 0, [], .nochroot⟩
  let child : Task := ⟨11, ⟨6, 0⟩, 10, 0, [], .nochroot⟩
  let tree := (boot.create parent (by decide) (by decide)).create child
    (by decide) (by decide)
  let table := installed tree parent 0 true
    ((Table.init 16).allocText [47, 97]).2
  have filled : RefCounts ((Table.init 16).allocText [47, 97]).2 :=
    (RefCounts.init 16).congr rfl rfl rfl
  have counts : RefCounts table := filled.installed (by decide) 0 true
  have inRange : tree.InRange table := by
    unfold InRange
    decide +kernel
  have live : child ∈ tree.tasks := by decide
  obtain ⟨chain, link, newer, climb, looked, found, cached, kept, _⟩ :=
    lookupLink_refines_resolve counts inRange live
  have chainEq : chain = [11, 10] := by
    rw [← climb.chain_eq]
    decide +kernel
  have linkEq : link = some 0 := by
    rw [found, chainEq]
    decide +kernel
  subst chainEq linkEq
  have valid := (cached 0 rfl).1 11 (by decide +kernel)
  obtain ⟨_, _, valid⟩ := validLink_eq_some_iff.mp valid
  exact ⟨tree, table, child, newer, counts, inRange, live,
    looked 3 (by decide), kept, (validFor_link valid).1⟩

/-- The child of process 1 has a number above the largest one the table was
built for, and its lookup stops. -/
theorem lookupLink_stops_above_pid_max :
    ∃ (tree : ProcTree) (table : Table) (task : Task),
      RefCounts table ∧ task ∈ tree.tasks ∧
      table.pid_max < task.pid ∧ tree.Chain task.pid [task.pid] ∧
      ∀ fuel link newer,
        lookupLink tree fuel (some task) table ≠ .ok (link, newer) := by
  let task : Task := ⟨20, ⟨5, 0⟩, 1, 0, [], .nochroot⟩
  let tree := boot.create task (by decide) (by decide)
  have live : task ∈ tree.tasks := by decide
  have climb : tree.Chain task.pid [task.pid] := by
    have alone : tree.chain task.pid = [task.pid] := by decide +kernel
    rw [← alone]
    exact chain_of_mem live
  refine ⟨tree, .init 16, task, .init 16, live, by decide, climb, ?_⟩
  intro fuel link newer
  cases fuel with
  | zero => simp [lookupLink]
  | succ fuel => simp [lookupLink, task, Table.init]

end ProcTree

end Chos.Kernel
