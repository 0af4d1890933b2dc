import Chos.Kernel.Agreement
import Chos.Kernel.Access

/-!
# What `write_setchos` reports

Three things can fail after the text has been accepted or before, and the
handler looks at one of them: without memory for the text it returns an
error.  Without memory for the link it stores a null link, and a failed
`sys_chroot` leaves the root as it is; both are reported as success.
-/

namespace Chos.Kernel

open Chos.Library

namespace Sys

/-- The root a process should have once it was told that its link is
`text`. -/
def rootFor (text : Text) : Root :=
  if text = rootText then .nochroot else .named

/-- The value returned to the process says what happened: the count means that
it now looks up the text it wrote and has the root that goes with it, an error
means that its entry, the counters and its root are as before. -/
structure Truthful (state : Sys) (pid : Nat) (buf : List UInt8)
    (count : Nat) (result : Except Errno Nat) (next : Sys) : Prop where
  success : result = .ok count →
    (∃ link table, next.tree.lookup pid next.table = .ok (some link, table) ∧
      next.table.textOf link = trim buf count) ∧
    next.rootOf pid = some (rootFor (trim buf count))
  failure : ∀ errno, result = .error errno →
    next.table.procs pid = state.table.procs pid ∧
      (∀ link, next.table.count link = state.table.count link) ∧
      next.rootOf pid = state.rootOf pid

/-- The valid entry of a task, unless the caller's cleanup would take it for a
stale one. -/
def sparedLink (state : Sys) (caller : Task) (pid : Nat) : Option LinkId :=
  if stale (seenBy state.tree caller pid) (state.table.procs pid) then none
  else state.tree.validLink state.table pid

def inheritedLink (state : Sys) (caller : Task) : Option LinkId :=
  (state.tree.chain caller.parent).findSome? (state.sparedLink caller)

theorem validLink_cleaned {state : Sys} (inRange : state.InRange)
    (caller : Task) (content : Text) :
    state.tree.validLink (cleanupLinks (seenBy state.tree caller)
        (state.table.allocText content).2) = state.sparedLink caller := by
  funext pid
  rw [ProcTree.validLink_cleanupLinks]
  show (if pid < state.table.pid_max ∧
      stale (seenBy state.tree caller pid) (state.table.procs pid) then none
    else state.tree.validLink state.table pid) = _
  rw [sparedLink]
  cases found : state.tree.find pid with
  | none =>
      have nobody : state.tree.validLink state.table pid = none := by
        rw [ProcTree.validLink, found]
      rw [nobody, ite_self, ite_self]
  | some task =>
      have below := inRange task (ProcTree.find_mem found)
      rw [ProcTree.find_pid found] at below
      simp only [below, true_and]

theorem inheritedLink_known {state : Sys} (sound : state.Sound)
    {caller : Task} {link : LinkId}
    (inherited : state.inheritedLink caller = some link) :
    link < state.table.links.next := by
  obtain ⟨ancestor, _, spared⟩ := List.exists_of_findSome?_eq_some inherited
  rw [sparedLink] at spared
  split at spared
  · cases spared
  · obtain ⟨task, found, valid⟩ := ProcTree.validLink_eq_some_iff.mp spared
    have below := sound.inRange task (ProcTree.find_mem found)
    rw [ProcTree.find_pid found] at below
    exact sound.table.entries ancestor below link (validFor_link valid).1

theorem resolve_setchos_of_unlinked {state : Sys} (sound : state.Sound)
    {pid : Nat} (above : 1 < pid) {current : Task}
    (running : state.current pid = some current)
    {buf : List UInt8} {count : Nat} {outcome : SetchosOutcome}
    (textAlloc : outcome.textAlloc = true)
    (accepted : accepts state.valid_paths (copied buf count) = true)
    (unlinked : outcome.linkAlloc = false) (root : Root) :
    (state.tree.setRoot pid root).resolve
        (setchosTable state.tree state.valid_paths current buf count outcome
          state.table) pid = state.inheritedLink current := by
  have found := current_find running
  have samePid := ProcTree.find_pid found
  subst samePid
  have live := ProcTree.find_mem found
  have table : setchosTable state.tree state.valid_paths current buf count
      outcome state.table =
        assignLink none current (cleanupLinks (seenBy state.tree current)
          (state.table.allocText (copied buf count)).2) := by
    simp [setchosTable, textAlloc, accepted, unlinked, installed, createLink]
  rw [ProcTree.resolve_setRoot, table]
  -- the entry of the process itself is valid no longer
  have own : state.tree.validLink (assignLink none current
      (cleanupLinks (seenBy state.tree current)
        (state.table.allocText (copied buf count)).2)) current.pid =
      none := by
    apply ProcTree.validLink_assigned (ProcTree.find_of_mem live)
    rw [assignLink_procs, Function.update_self]
  rw [ProcTree.resolve_eq live above, own]
  apply findSome?_congr
  intro ancestor inside
  have other : ancestor ≠ current.pid := by
    intro same
    exact ProcTree.not_mem_chain_parent live above (same ▸ inside)
  rw [← validLink_cleaned sound.inRange current (copied buf count)]
  apply ProcTree.validLink_congr
  rw [assignLink_procs, Function.update_of_ne other]

/-- The process finds the text it wrote exactly when there was memory for the
link, or its ancestors leave it a link with the same text. -/
theorem lookup_setchos_iff {state : Sys} (sound : state.Sound)
    {pid : Nat} (above : 1 < pid) {current : Task}
    (running : state.current pid = some current)
    {buf : List UInt8} {count : Nat} {outcome : SetchosOutcome}
    (textAlloc : outcome.textAlloc = true)
    (accepted : accepts state.valid_paths (copied buf count) = true)
    {next : Sys} (taken : Taken state (.setchos pid buf count outcome) next) :
    (∃ link table, next.tree.lookup pid next.table = .ok (some link, table) ∧
        next.table.textOf link = trim buf count) ↔
      outcome.linkAlloc = true ∨
        ∃ link, state.inheritedLink current = some link ∧
          state.table.textOf link = trim buf count := by
  have found := current_find running
  obtain ⟨later, foundLater, _⟩ := taken.find found (by simp)
  have looked := lookup_eq (sound.taken taken).inRange foundLater
  cases linked : outcome.linkAlloc with
  | true =>
      obtain ⟨valid, _, text⟩ :=
        valid_of_setchos sound running textAlloc accepted linked taken
      rw [ProcTree.resolve_of_valid above valid] at looked
      exact iff_of_true ⟨_, _, looked, text⟩ (Or.inl rfl)
  | false =>
      have evolves := sound.evolves taken
      have resolved : next.tree.resolve next.table pid =
          state.inheritedLink current := by
        cases taken with
        | setchos _ _ _ again =>
            rw [running, Option.some.injEq] at again
            subst again
            exact resolve_setchos_of_unlinked sound above running textAlloc
              accepted linked _
      rw [resolved] at looked
      rw [looked]
      constructor
      · rintro ⟨link, table, same, text⟩
        rw [Except.ok.injEq, Prod.mk.injEq] at same
        have known := inheritedLink_known sound same.1
        rw [evolves.textOf link known] at text
        exact Or.inr ⟨link, same.1, text⟩
      · rintro (impossible | ⟨link, inherited, text⟩)
        · cases impossible
        · have known := inheritedLink_known sound inherited
          rw [← evolves.textOf link known] at text
          exact ⟨link, _, by rw [inherited], text⟩

/-- The root goes with the text exactly when the process is to leave CHOSROOT,
or is there already, or gets there: from the real root with any `sys_chroot`
that succeeds, from another root with one that ends at CHOSROOT. -/
theorem setchosRoot_eq_rootFor_iff {paths : List ValidPath} {current : Task}
    {buf : List UInt8} {count : Nat} {outcome : SetchosOutcome}
    (textAlloc : outcome.textAlloc = true)
    (accepted : accepts paths (copied buf count) = true) :
    setchosRoot paths current buf count outcome =
        rootFor (trim buf count) ↔
      trim buf count = rootText ∨ current.root = .named ∨
        outcome.chroot = true ∧
          (current.root = .nochroot ∨ outcome.chosIn = .named) := by
  have slash := @isRootPath_trim buf count
  rw [setchosRoot, if_pos ⟨textAlloc, accepted⟩, rootFor, copied_eq_trim]
  by_cases rooted : trim buf count = rootText
  · rw [if_pos (slash.mpr rooted), if_pos rooted]
    exact iff_of_true rfl (Or.inl rooted)
  · have named : isRootPath (trim buf count) = false := by
      simpa using fun same => rooted (slash.mp same)
    rw [named, if_neg rooted]
    cases current.root with
    | named => simp [isChrooted]
    | nochroot => simp [isChrooted, myChroot, rooted]
    | other dir =>
        cases changes : outcome.chroot with
        | true => simp [isChrooted, myChroot, rooted, changes]
        | false => simp [isChrooted, myChroot, rooted, changes]

/-- What makes the report true, should the text be allocated and accepted:
the link gets memory or would be found anyway, and the root is there, or the
change to it works. -/
def ReportHolds (state : Sys) (current : Task) (buf : List UInt8)
    (count : Nat) (outcome : SetchosOutcome) : Prop :=
  outcome.textAlloc = true →
  accepts state.valid_paths (copied buf count) = true →
    (outcome.linkAlloc = true ∨
      ∃ link, state.inheritedLink current = some link ∧
        state.table.textOf link = trim buf count) ∧
    (trim buf count = rootText ∨ current.root = .named ∨
      outcome.chroot = true ∧
        (current.root = .nochroot ∨ outcome.chosIn = .named))

theorem truthful_of_error {state next : Sys} {pid : Nat} {buf : List UInt8}
    {count : Nat} {errno : Errno}
    (sameProcs : next.table.procs = state.table.procs)
    (sameCounts : ∀ link, next.table.count link = state.table.count link)
    (sameTasks : next.tree.tasks = state.tree.tasks) :
    state.Truthful pid buf count (.error errno) next := by
  constructor
  · intro impossible
    cases impossible
  · intro _ _
    refine ⟨congrFun sameProcs pid, sameCounts, ?_⟩
    rw [rootOf, rootOf, ProcTree.find, ProcTree.find, sameTasks]

theorem truthful_of_accepted {state next : Sys} (sound : state.Sound)
    {pid : Nat} (above : 1 < pid) {current : Task}
    (running : state.current pid = some current)
    {buf : List UInt8} {count : Nat} {outcome : SetchosOutcome}
    (textAlloc : outcome.textAlloc = true)
    (accepted : accepts state.valid_paths (copied buf count) = true)
    (taken : Taken state (.setchos pid buf count outcome) next) :
    state.Truthful pid buf count (.ok count) next ↔
      state.ReportHolds current buf count outcome := by
  have link := lookup_setchos_iff sound above running textAlloc accepted
    taken
  have root : next.rootOf pid = some
      (setchosRoot state.valid_paths current buf count outcome) := by
    have found := current_find running
    cases taken with
    | setchos _ _ _ again =>
        rw [running, Option.some.injEq] at again
        subst again
        simp [rootOf, ProcTree.find_setRoot, found, ProcTree.find_pid found]
  have rootIff := @setchosRoot_eq_rootFor_iff state.valid_paths current buf
    count outcome textAlloc accepted
  constructor
  · intro truthful _ _
    obtain ⟨found, rooted⟩ := truthful.success rfl
    rw [root, Option.some.injEq] at rooted
    exact ⟨link.mp found, rootIff.mp rooted⟩
  · intro holds
    obtain ⟨linked, rooted⟩ := holds textAlloc accepted
    constructor
    · intro _
      refine ⟨link.mpr linked, ?_⟩
      rw [root, rootIff.mpr rooted]
    · intro errno impossible
      cases impossible

/-- `write_setchos` tells the truth exactly when, if the text is allocated
and accepted, the two calls whose failure it ignores do what they should. -/
theorem setchos_truthful_iff {pid_max : Nat} {tree : ProcTree}
    (below : ∀ task ∈ tree.tasks, task.pid < pid_max)
    {events : List Event} {state : Sys}
    (reached : run Sys.step (Sys.init pid_max tree) events = some state)
    {pid : Nat} (above : 1 < pid) {current : Task}
    (running : state.current pid = some current)
    {buf : List UInt8} {count : Nat} {outcome : SetchosOutcome}
    {result : Except Errno Nat} {next : Sys}
    (wrote : state.setchos pid buf count outcome = some (result, next)) :
    state.Truthful pid buf count result next ↔
      state.ReportHolds current buf count outcome := by
  have sound := (init_sound below).run reached
  have taken := Taken.setchos buf count outcome running
  have value := setchos_eq sound.inRange running buf count outcome
  cases textAlloc : outcome.textAlloc with
  | false =>
      have failed := wrote.symm.trans value
      simp only [setchosResult, setchosTable, setchosRoot, textAlloc,
        Bool.false_eq_true, if_false, false_and, Option.some.injEq,
        Prod.mk.injEq] at failed
      obtain ⟨rfl, rfl⟩ := failed
      have same := ProcTree.setRoot_same (current_find running)
      refine iff_of_true
        (truthful_of_error rfl (fun _ => rfl) same) ?_
      intro allocated
      rw [textAlloc] at allocated
      cases allocated
  | true =>
      cases accepted : accepts state.valid_paths (copied buf count) with
      | false =>
          obtain ⟨after, refused, sameProcs, sameCounts, sameTasks⟩ :=
            setchos_refused sound running textAlloc accepted
          rw [wrote, Option.some.injEq, Prod.mk.injEq] at refused
          obtain ⟨rfl, rfl⟩ := refused
          refine iff_of_true
            (truthful_of_error sameProcs sameCounts sameTasks) ?_
          intro _ taken
          rw [accepted] at taken
          cases taken
      | true =>
          have success : setchosResult state.valid_paths buf count outcome =
              .ok count := by
            simp [setchosResult, textAlloc, accepted]
          rw [wrote, Option.some.injEq, Prod.mk.injEq, success] at value
          obtain ⟨rfl, rfl⟩ := value
          exact truthful_of_accepted sound above running textAlloc accepted
            taken

theorem setchos_truthful_iff_listed :
    ∃ state next, run Sys.step (Sys.init 16 .boot)
        [.writeValid 0 [47, 97] 2 ⟨true, true⟩,
          .begin 1, .create 1 ⟨10, ⟨5, 0⟩, 0, []⟩, .finish 1] =
        some state ∧
      state.setchos 10 [47, 97] 2 ⟨true, true, true, .other 0⟩ =
        some (.ok 2, next) ∧
      state.Truthful 10 [47, 97] 2 (.ok 2) next := by
  have ends : (run Sys.step (Sys.init 16 .boot)
      [.writeValid 0 [47, 97] 2 ⟨true, true⟩,
        .begin 1, .create 1 ⟨10, ⟨5, 0⟩, 0, []⟩, .finish 1]).any
      (fun state =>
        (state.current 10).any (fun task => task.root = .nochroot) &&
        (state.setchos 10 [47, 97] 2 ⟨true, true, true, .other 0⟩).any
          (fun wrote => decide (wrote.1.toOption = some 2))) = true := by
    decide +kernel
  obtain ⟨state, reached, holds⟩ := (Option.any_eq_true _ _).mp ends
  obtain ⟨task, write⟩ := Bool.and_eq_true_iff.mp holds
  obtain ⟨current, running, root⟩ := (Option.any_eq_true _ _).mp task
  obtain ⟨⟨result, next⟩, wrote, value⟩ :=
    (Option.any_eq_true _ _).mp write
  have success : result = .ok 2 := eq_ok_of_toOption (of_decide_eq_true value)
  subst success
  refine ⟨state, next, reached, wrote, ?_⟩
  apply (setchos_truthful_iff (ProcTree.boot_below (by decide)) reached
    (by decide) running wrote).mpr
  intro _ _
  exact ⟨Or.inl rfl,
    Or.inr (Or.inr ⟨rfl, Or.inl (of_decide_eq_true root)⟩)⟩

/-- A failed `sys_chroot` leaves the process at the real root, and the count
is returned all the same. -/
theorem failed_chroot_reports_success :
    ∃ state next, run Sys.step (Sys.init 16 .boot)
        [.writeValid 0 [47, 97] 2 ⟨true, true⟩,
          .begin 1, .create 1 ⟨10, ⟨5, 0⟩, 0, []⟩, .finish 1] =
        some state ∧
      state.setchos 10 [47, 97] 2 ⟨true, true, false, .other 0⟩ =
        some (.ok 2, next) ∧
      next.rootOf 10 = some .nochroot ∧
      ¬ state.Truthful 10 [47, 97] 2 (.ok 2) next := by
  have ends : (run Sys.step (Sys.init 16 .boot)
      [.writeValid 0 [47, 97] 2 ⟨true, true⟩,
        .begin 1, .create 1 ⟨10, ⟨5, 0⟩, 0, []⟩, .finish 1]).any
      (fun state =>
        (state.setchos 10 [47, 97] 2 ⟨true, true, false, .other 0⟩).any
          (fun wrote => decide (wrote.1.toOption = some 2 ∧
            wrote.2.rootOf 10 = some .nochroot))) = true := by
    decide +kernel
  obtain ⟨state, reached, write⟩ := (Option.any_eq_true _ _).mp ends
  obtain ⟨⟨result, next⟩, wrote, holds⟩ :=
    (Option.any_eq_true _ _).mp write
  obtain ⟨value, root⟩ := of_decide_eq_true holds
  have success : result = .ok 2 := eq_ok_of_toOption value
  subst success
  refine ⟨state, next, reached, wrote, root, ?_⟩
  intro truthful
  have rooted := (truthful.success rfl).2
  rw [root] at rooted
  exact absurd rooted (by decide)

end Sys

end Chos.Kernel
