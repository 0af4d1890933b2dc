import Chos.Kernel.CompletedRuns
import Chos.Kernel.OwnEntry
import Chos.Kernel.Roots

/-!
# Root directory and link

A process in CHOSROOT should be one whose link leads to some other tree than
`/`, and the other way round.  The root directory belongs to the process while
the link is looked up through its ancestors, so a step that changes what
others find without moving their root breaks the agreement.  `Keeps` says
exactly which steps do not.
-/

namespace Chos.Kernel

open Chos.Library

theorem ProcTree.chain_setRoot (tree : ProcTree) (changed : Nat)
    (root : Root) (pid : Nat) :
    (tree.setRoot changed root).chain pid = tree.chain pid := by
  have sameLength : (tree.setRoot changed root).tasks.length =
      tree.tasks.length := List.length_map _
  rw [chain, chain, parentIn_setRoot, sameLength]

theorem ProcTree.validLink_setRoot (tree : ProcTree) (changed : Nat)
    (root : Root) (table : Table) :
    (tree.setRoot changed root).validLink table = tree.validLink table := by
  funext pid
  rw [validLink, validLink, find_setRoot]
  cases tree.find pid with
  | none => rfl
  | some task =>
      simp only [Option.map_some]
      split <;> rfl

theorem ProcTree.resolve_setRoot (tree : ProcTree) (changed : Nat)
    (root : Root) (table : Table) (pid : Nat) :
    (tree.setRoot changed root).resolve table pid =
      tree.resolve table pid := by
  rw [resolve, resolve, chain_setRoot, validLink_setRoot]

namespace Sys

/-- The process looks up a link to some other tree than `/`. -/
def InChos (state : Sys) (pid : Nat) : Prop :=
  ∃ link, state.tree.resolve state.table pid = some link ∧
    state.table.textOf link ≠ rootText

def Agree (state : Sys) : Prop :=
  ∀ task ∈ state.tree.tasks, 1 < task.pid →
    (task.root = .named ↔ state.InChos task.pid)

/-- Some other process finds the entry of this one, or finds nothing up to
it. -/
def Supports (state : Sys) (pid : Nat) : Prop :=
  ∃ task ∈ state.tree.tasks, task.pid ≠ pid ∧
    pid ∈ upToHit (state.tree.validLink state.table)
      (state.tree.chain task.pid)

instance (state : Sys) (pid : Nat) : Decidable (state.Supports pid) :=
  inferInstanceAs (Decidable (∃ task ∈ state.tree.tasks, _ ∧ _))

/-- The steps after which root directory and link still agree. -/
def Keeps (state : Sys) : Handler → Prop
  | .single (.setchos pid buf count _) =>
      accepts state.valid_paths (copied buf count) →
      state.Supports pid →
      (state.rootOf pid = some .named ↔ trim buf count ≠ rootText)
  | .single (.resetchos pid) =>
      ∀ task, state.tree.find pid = some task → 1 < pid →
        (task.root = .named ↔
          1 < task.parent ∧ state.rootOf task.parent = some .named)
  | .single (.exit pid) =>
      state.Supports pid → state.rootOf pid ≠ some .named
  | .fork pid _ => pid ≤ 1 → state.rootOf pid ≠ some .named
  | _ => True

instance (state : Sys) : (handler : Handler) →
    Decidable (state.Keeps handler)
  | .single (.setchos _ _ _ _) =>
      inferInstanceAs (Decidable (_ → _ → (_ ↔ _)))
  | .single (.resetchos pid) =>
      inferInstanceAs (Decidable (∀ task ∈ state.tree.find pid, _ → (_ ↔ _)))
  | .single (.exit _) => inferInstanceAs (Decidable (_ → _))
  | .fork _ _ => inferInstanceAs (Decidable (_ → _))
  | .single (.readlink _) => .isTrue trivial
  | .single (.cleanup _) => .isTrue trivial
  | .single (.begin _) => .isTrue trivial
  | .single (.create _ _) => .isTrue trivial
  | .single (.finish _) => .isTrue trivial
  | .single (.chroot _ _) => .isTrue trivial
  | .single (.writeValid _ _ _ _) => .isTrue trivial
  | .failedFork _ => .isTrue trivial

/-- Roots change only through `write_setchos`, its allocations and its
`sys_chroot` succeed, and cleanups run in the initial namespace. -/
def Ordinary (state : Sys) : Handler → Prop
  | .single event =>
      (∀ current, state.cleaner event = some current →
        current.pid_ns = 0) ∧
      match event with
      | .setchos _ _ _ outcome =>
          outcome.textAlloc ∧ outcome.linkAlloc ∧ outcome.chroot
      | .chroot _ _ => False
      | _ => True
  | _ => True

instance (state : Sys) : (handler : Handler) →
    Decidable (state.Ordinary handler)
  | .single event =>
      @instDecidableAnd _ _
        (inferInstanceAs (Decidable (∀ current ∈ state.cleaner event, _)))
        (match event with
        | .setchos _ _ _ _ => inferInstanceAs (Decidable (_ ∧ _ ∧ _))
        | .chroot _ _ => .isFalse id
        | .resetchos _ => .isTrue trivial
        | .readlink _ => .isTrue trivial
        | .cleanup _ => .isTrue trivial
        | .begin _ => .isTrue trivial
        | .create _ _ => .isTrue trivial
        | .finish _ => .isTrue trivial
        | .exit _ => .isTrue trivial
        | .writeValid _ _ _ _ => .isTrue trivial)
  | .fork _ _ => .isTrue trivial
  | .failedFork _ => .isTrue trivial

/-- Only the real root and CHOSROOT occur. -/
def TwoRoots (state : Sys) : Prop :=
  ∀ pid root, state.rootOf pid = some root →
    root = .nochroot ∨ root = .named

/-- The states of an agreeing run between two handlers. -/
structure Harmony (state : Sys) : Prop where
  sound : state.Sound
  idle : state.forks = []
  agree : state.Agree
  roots : state.TwoRoots

/-- A process that resolves as some process did before is inside CHOS as
that one was. -/
theorem inChos_iff {state next : Sys} (sound : state.Sound)
    (evolves : state.table.Evolves next.table) {pid other : Nat}
    (same : next.tree.resolve next.table pid =
      state.tree.resolve state.table other) :
    next.InChos pid ↔ state.InChos other := by
  unfold InChos
  rw [same]
  constructor
  · rintro ⟨link, resolved, text⟩
    refine ⟨link, resolved, ?_⟩
    rw [evolves.textOf link (sound.resolve_known resolved)] at text
    exact text
  · rintro ⟨link, resolved, text⟩
    refine ⟨link, resolved, ?_⟩
    rw [evolves.textOf link (sound.resolve_known resolved)]
    exact text

theorem not_inChos_of_none {state : Sys} {pid : Nat}
    (empty : state.tree.resolve state.table pid = none) :
    ¬ state.InChos pid := by
  rintro ⟨link, resolved, _⟩
  rw [empty] at resolved
  cases resolved

theorem not_inChos_of_init {state : Sys} {pid : Nat} (init : pid ≤ 1) :
    ¬ state.InChos pid :=
  not_inChos_of_none (ProcTree.resolve_of_init init)

theorem Agree.rootOf {state : Sys} (agree : state.Agree) {pid : Nat}
    (above : 1 < pid) {task : Task} (found : state.tree.find pid = some task) :
    state.rootOf pid = some .named ↔ state.InChos pid := by
  have samePid := ProcTree.find_pid found
  subst samePid
  rw [rootOf_of_find found, Option.some.injEq]
  exact agree task (ProcTree.find_mem found) above

/-- The next state differs in the entry of one process, as far as lookups
are concerned. -/
structure Replaced (changed : Nat) (state next : Sys) : Prop where
  evolves : state.table.Evolves next.table
  resolves : ∀ pid, next.tree.resolve next.table pid =
    state.tree.resolve next.table pid
  others : ∀ pid, pid ≠ changed →
    state.tree.validLink next.table pid =
      state.tree.validLink state.table pid

theorem Replaced.inChos_of_relies {changed : Nat} {state next : Sys}
    (replaced : Replaced changed state next) (sound : state.Sound)
    {task : Task} (live : task ∈ state.tree.tasks)
    (relies : changed ∈ upToHit (state.tree.validLink state.table)
      (state.tree.chain task.pid)) :
    (state.InChos task.pid ↔ state.InChos changed) ∧
      (next.InChos task.pid ↔ next.InChos changed) := by
  obtain ⟨before, after⟩ :=
    ProcTree.resolve_of_mem_upToHit replaced.others live relies
  rw [← replaced.resolves, ← replaced.resolves] at after
  refine ⟨inChos_iff sound sound.table.evolves before, ?_⟩
  unfold InChos
  rw [after]

theorem Replaced.inChos_of_not_relies {changed : Nat} {state next : Sys}
    (replaced : Replaced changed state next) (sound : state.Sound)
    {pid : Nat}
    (free : changed ∉ upToHit (state.tree.validLink state.table)
      (state.tree.chain pid)) :
    next.InChos pid ↔ state.InChos pid := by
  apply inChos_iff sound replaced.evolves
  rw [replaced.resolves]
  exact ProcTree.resolve_of_not_mem_upToHit replaced.others free

/-- A task can rely only on tasks above process 1. -/
theorem above_of_relies {tree : ProcTree} {table : Table} {task : Task}
    (live : task ∈ tree.tasks) {pid : Nat}
    (relies : pid ∈ upToHit (tree.validLink table) (tree.chain task.pid)) :
    1 < pid ∧ 1 < task.pid ∧ ∃ other, tree.find pid = some other := by
  have climb := ProcTree.chain_of_mem live
  have inside := mem_of_mem_upToHit relies
  refine ⟨Nat.lt_of_not_le (climb.not_stop_of_mem inside), ?_,
    climb.find_isSome inside⟩
  by_contra small
  have init : isInit task.pid := Nat.le_of_not_lt small
  have top : tree.Chain task.pid [] := .top init
  rw [top.chain_eq] at inside
  cases inside

theorem setchosRoot_eq_named_iff {paths : List ValidPath} {current : Task}
    {buf : List UInt8} {count : Nat} {outcome : SetchosOutcome}
    (accepted : accepts paths (copied buf count) = true)
    (succeeds : outcome.textAlloc ∧ outcome.linkAlloc ∧ outcome.chroot)
    (root : current.root = .nochroot ∨ current.root = .named) :
    (setchosRoot paths current buf count outcome = .named ↔
      trim buf count ≠ rootText) ∧
    (setchosRoot paths current buf count outcome = .nochroot ∨
      setchosRoot paths current buf count outcome = .named) := by
  have slash := @isRootPath_trim buf count
  rw [← copied_eq_trim] at slash ⊢
  rw [setchosRoot, if_pos ⟨succeeds.1, accepted⟩]
  cases rooted : isRootPath (copied buf count) with
  | true => simp [slash.mp rooted]
  | false =>
      have different : copied buf count ≠ rootText := by
        intro same
        rw [slash.mpr same] at rooted
        cases rooted
      rcases root with outside | inside
      · simp [outside, isChrooted, myChroot, succeeds.2.2, different]
      · simp [inside, isChrooted, different]

/-- A step that changes neither roots nor what anybody finds. -/
theorem Harmony.neutral {state next : Sys} (harmony : state.Harmony)
    (evolves : state.table.Evolves next.table)
    (sameTasks : next.tree.tasks = state.tree.tasks)
    (resolves : ∀ task ∈ state.tree.tasks,
      next.tree.resolve next.table task.pid =
        state.tree.resolve state.table task.pid) :
    next.Agree ∧ next.TwoRoots := by
  refine ⟨?_, ?_⟩
  · intro task live above
    rw [sameTasks] at live
    rw [inChos_iff harmony.sound evolves (resolves task live)]
    exact harmony.agree task live above
  · intro pid root isRoot
    rw [rootOf, ProcTree.find, sameTasks] at isRoot
    exact harmony.roots pid root isRoot

theorem setchos_replaced {state : Sys} (sound : state.Sound) {pid : Nat}
    {current : Task} (running : state.current pid = some current)
    {buf : List UInt8} {count : Nat} {outcome : SetchosOutcome}
    (initial : outcome.textAlloc ∧
      accepts state.valid_paths (copied buf count) → current.pid_ns = 0) :
    Replaced pid state
      { state with
        table := setchosTable state.tree state.valid_paths current buf count
          outcome state.table
        tree := state.tree.setRoot pid
          (setchosRoot state.valid_paths current buf count outcome) } :=
  { evolves := sound.evolves (.setchos buf count outcome running)
    resolves := fun _ => ProcTree.resolve_setRoot _ _ _ _ _
    others := by
      intro other different
      apply validLink_setchosTable_of_ne _ initial
      rw [ProcTree.find_pid (current_find running)]
      exact different }

theorem agree_iff_rootOf {state : Sys} :
    state.Agree ↔ ∀ pid root, 1 < pid → state.rootOf pid = some root →
      (root = .named ↔ state.InChos pid) := by
  constructor
  · intro agree pid root above isRoot
    obtain ⟨task, found, rfl⟩ := Option.map_eq_some_iff.mp isRoot
    have samePid := ProcTree.find_pid found
    subst samePid
    exact agree task (ProcTree.find_mem found) above
  · intro agree task live above
    exact agree task.pid task.root above
      (rootOf_of_find (ProcTree.find_of_mem live))

theorem Harmony.setchos_accepted {state next : Sys}
    (harmony : state.Harmony) {pid : Nat} {current : Task}
    (running : state.current pid = some current)
    {buf : List UInt8} {count : Nat} {outcome : SetchosOutcome}
    (ordinary : state.Ordinary (.single (.setchos pid buf count outcome)))
    (accepted : accepts state.valid_paths (copied buf count) = true)
    (taken : Taken state (.setchos pid buf count outcome) next) :
    (next.Agree ↔ (state.Supports pid →
      (state.rootOf pid = some .named ↔ trim buf count ≠ rootText))) ∧
    next.TwoRoots := by
  have sound := harmony.sound
  obtain ⟨initial, textAlloc, linkAlloc, chroot⟩ := ordinary
  have found := current_find running
  have samePid := ProcTree.find_pid found
  have ownRoot := harmony.roots pid current.root (rootOf_of_find found)
  obtain ⟨moved, newRoots⟩ := setchosRoot_eq_named_iff accepted
    ⟨textAlloc, linkAlloc, chroot⟩ ownRoot
  obtain ⟨valid, _, text⟩ :=
    valid_of_setchos sound running textAlloc accepted linkAlloc taken
  have replaced : Replaced pid state next := by
    cases taken with
    | setchos _ _ _ again =>
        apply setchos_replaced sound again
        intro _
        apply initial
        simp [cleaner, textAlloc, accepted, again]
  have roots : ∀ query, next.rootOf query =
      if query = pid then
        some (setchosRoot state.valid_paths current buf count outcome)
      else state.rootOf query := by
    intro query
    cases taken with
    | setchos _ _ _ again =>
        rw [running, Option.some.injEq] at again
        subst again
        exact find_setRoot_map_root found _ query
  have own : 1 < pid → (next.InChos pid ↔ trim buf count ≠ rootText) := by
    intro above
    rw [InChos, ProcTree.resolve_of_valid above valid]
    simp [text]
  refine ⟨?_, ?_⟩
  · rw [agree_iff_rootOf]
    constructor
    · rintro agree ⟨task, live, different, relies⟩
      obtain ⟨above, taskAbove, _⟩ := above_of_relies live relies
      obtain ⟨before, after⟩ := replaced.inChos_of_relies sound live relies
      have kept := roots task.pid
      rw [if_neg different, rootOf_of_find (ProcTree.find_of_mem live)]
        at kept
      calc state.rootOf pid = some .named
          ↔ state.InChos pid := harmony.agree.rootOf above found
        _ ↔ state.InChos task.pid := before.symm
        _ ↔ task.root = .named := (harmony.agree task live taskAbove).symm
        _ ↔ next.InChos task.pid := agree task.pid task.root taskAbove kept
        _ ↔ next.InChos pid := after
        _ ↔ trim buf count ≠ rootText := own above
    · intro keeps query root queryAbove isRoot
      rw [roots] at isRoot
      by_cases same : query = pid
      · subst same
        rw [if_pos rfl, Option.some.injEq] at isRoot
        rw [← isRoot, moved, own queryAbove]
      · rw [if_neg same] at isRoot
        have agreed := agree_iff_rootOf.mp harmony.agree query root
          queryAbove isRoot
        obtain ⟨task, foundTask, _⟩ := Option.map_eq_some_iff.mp isRoot
        have taskPid := ProcTree.find_pid foundTask
        subst taskPid
        have live := ProcTree.find_mem foundTask
        by_cases relies : pid ∈ upToHit
            (state.tree.validLink state.table) (state.tree.chain task.pid)
        · obtain ⟨above, _⟩ := above_of_relies live relies
          obtain ⟨before, after⟩ :=
            replaced.inChos_of_relies sound live relies
          calc root = .named
              ↔ state.InChos task.pid := agreed
            _ ↔ state.InChos pid := before
            _ ↔ state.rootOf pid = some .named :=
              (harmony.agree.rootOf above found).symm
            _ ↔ trim buf count ≠ rootText := keeps ⟨task, live, same, relies⟩
            _ ↔ next.InChos pid := (own above).symm
            _ ↔ next.InChos task.pid := after.symm
        · rw [agreed, replaced.inChos_of_not_relies sound relies]
  · intro query root isRoot
    rw [roots] at isRoot
    split at isRoot
    · rw [Option.some.injEq] at isRoot
      rw [← isRoot]
      exact newRoots
    · exact harmony.roots query root isRoot

theorem Harmony.setchos_iff {state next : Sys} (harmony : state.Harmony)
    {pid : Nat} {buf : List UInt8} {count : Nat} {outcome : SetchosOutcome}
    (ordinary : state.Ordinary (.single (.setchos pid buf count outcome)))
    (taken : Taken state (.setchos pid buf count outcome) next) :
    (next.Agree ↔
      state.Keeps (.single (.setchos pid buf count outcome))) ∧
    next.TwoRoots := by
  have evolves := harmony.sound.evolves taken
  cases accepted : accepts state.valid_paths (copied buf count) with
  | true =>
      cases taken with
      | setchos _ _ _ running =>
          have decided := harmony.setchos_accepted running ordinary accepted
            (.setchos buf count outcome running)
          simp only [Keeps, accepted, forall_const]
          exact decided
  | false =>
      have kept : next.Agree ∧ next.TwoRoots := by
        cases taken with
        | @setchos _ current _ _ _ running =>
            have unmoved : setchosRoot state.valid_paths current buf count
                outcome = current.root := by
              simp [setchosRoot, accepted]
            have unwritten : (setchosTable state.tree state.valid_paths
                current buf count outcome state.table).procs =
                  state.table.procs := by
              simp only [setchosTable, accepted]
              split
              · rfl
              · rfl
            apply harmony.neutral evolves
            · simp only [unmoved]
              exact ProcTree.setRoot_same (current_find running)
            · intro task live
              refine (ProcTree.resolve_setRoot _ _ _ _ _).trans ?_
              unfold ProcTree.resolve
              congr 1
              funext member
              exact ProcTree.validLink_congr (congrFun unwritten member)
      refine ⟨?_, kept.2⟩
      simp only [Keeps, accepted]
      simp [kept.1]

theorem Harmony.resetchos_iff {state next : Sys} (harmony : state.Harmony)
    {pid : Nat} (ordinary : state.Ordinary (.single (.resetchos pid)))
    (taken : Taken state (.resetchos pid) next) :
    (next.Agree ↔ state.Keeps (.single (.resetchos pid))) ∧
    next.TwoRoots := by
  have sound := harmony.sound
  have evolves := sound.evolves taken
  cases taken with
  | @resetchos _ current running =>
  have initial := ordinary.1 current running
  have found := current_find running
  have live := ProcTree.find_mem found
  have samePid := ProcTree.find_pid found
  subst samePid
  have replaced : Replaced current.pid state
      { state with
        table := cleanupLinks (seenBy state.tree current)
          (resetLink current.pid state.table) } :=
    { evolves := evolves
      resolves := fun _ => rfl
      others := fun _ different =>
        validLink_resetchos_of_ne initial different }
  have own : 1 < current.pid →
      (InChos { state with
        table := cleanupLinks (seenBy state.tree current)
          (resetLink current.pid state.table) } current.pid ↔
        1 < current.parent ∧
          state.rootOf current.parent = some .named) := by
    intro above
    have cleared : state.tree.validLink
        (cleanupLinks (seenBy state.tree current)
          (resetLink current.pid state.table)) current.pid = none := by
      rw [congrFun (ProcTree.validLink_cleanupLinks_initial initial) _]
      apply ProcTree.validLink_cleared
      rw [resetLink_procs, Function.update_self]
    have resolved := @ProcTree.resolve_eq state.tree
      (cleanupLinks (seenBy state.tree current)
        (resetLink current.pid state.table)) current live above
    rw [cleared] at resolved
    have parentSame := ProcTree.resolve_parent_of_changed replaced.others
      live above rfl
    rw [inChos_iff sound evolves (resolved.trans parentSame)]
    by_cases parentAbove : 1 < current.parent
    · obtain ⟨parent, foundParent⟩ :=
        ProcTree.find_parent live above parentAbove
      rw [harmony.agree.rootOf parentAbove foundParent]
      simp [parentAbove]
    · simp [parentAbove, not_inChos_of_init (Nat.le_of_not_lt parentAbove)]
  refine ⟨?_, harmony.roots⟩
  constructor
  · intro agree task foundTask above
    rw [found, Option.some.injEq] at foundTask
    subst foundTask
    rw [← own above]
    exact agree current live above
  · intro keeps task taskLive taskAbove
    by_cases relies : current.pid ∈ upToHit
        (state.tree.validLink state.table) (state.tree.chain task.pid)
    · obtain ⟨above, _⟩ := above_of_relies taskLive relies
      obtain ⟨before, after⟩ :=
        replaced.inChos_of_relies sound taskLive relies
      calc task.root = .named
          ↔ state.InChos task.pid := harmony.agree task taskLive taskAbove
        _ ↔ state.InChos current.pid := before
        _ ↔ current.root = .named := (harmony.agree current live above).symm
        _ ↔ 1 < current.parent ∧
            state.rootOf current.parent = some .named :=
          keeps current found above
        _ ↔ InChos _ current.pid := (own above).symm
        _ ↔ InChos _ task.pid := after.symm
    · rw [replaced.inChos_of_not_relies sound relies]
      exact harmony.agree task taskLive taskAbove

theorem resolve_exit {tree : ProcTree} (table : Table) {gone : Nat}
    {task : Task} (live : task ∈ tree.tasks) (different : task.pid ≠ gone) :
    (tree.exit gone).resolve table task.pid =
      if gone ∈ upToHit (tree.validLink table) (tree.chain task.pid)
      then none else tree.resolve table task.pid := by
  have climb := (ProcTree.chain_of_mem live).exit different
  have marks : ∀ member ∈ (tree.chain task.pid).takeWhile (· ≠ gone),
      (tree.exit gone).validLink table member =
        tree.validLink table member := by
    intro member inside
    have other : member ≠ gone := by
      simpa using List.mem_takeWhile_imp inside
    rw [ProcTree.validLink, ProcTree.validLink,
      ProcTree.find_exit_of_ne other]
    cases tree.find member with
    | none => rfl
    | some owner => simp [ChosProc.validFor]
  rw [ProcTree.resolve, climb.chain_eq, findSome?_congr marks]
  split
  · rename_i relies
    exact findSome?_cut_of_mem_upToHit relies
  · rename_i free
    exact findSome?_cut_of_not_mem_upToHit free

theorem Harmony.exit_iff {state next : Sys} (harmony : state.Harmony)
    {pid : Nat} (taken : Taken state (.exit pid) next) :
    (next.Agree ↔ state.Keeps (.single (.exit pid))) ∧ next.TwoRoots := by
  have sound := harmony.sound
  have evolves := sound.evolves taken
  cases taken with
  | @exit _ current running above =>
  have found := current_find running
  have relied : ∀ task ∈ state.tree.tasks, task.pid ≠ pid →
      (pid ∈ upToHit (state.tree.validLink state.table)
        (state.tree.chain task.pid)) →
      (task.root = .named ↔ state.rootOf pid = some .named) ∧
        ¬ InChos { state with tree := state.tree.exit pid } task.pid := by
    intro task live different relies
    obtain ⟨_, taskAbove, _⟩ := above_of_relies live relies
    have like := (ProcTree.resolve_of_mem_upToHit
      (fun _ _ => rfl : ∀ other, other ≠ pid →
        state.tree.validLink state.table other =
          state.tree.validLink state.table other) live relies).1
    refine ⟨?_, ?_⟩
    · rw [harmony.agree task live taskAbove,
        harmony.agree.rootOf above found]
      exact inChos_iff sound sound.table.evolves like
    · apply not_inChos_of_none
      exact (resolve_exit state.table live different).trans (if_pos relies)
  refine ⟨?_, ?_⟩
  · constructor
    · rintro agree ⟨task, live, different, relies⟩
      obtain ⟨_, taskAbove, _⟩ := above_of_relies live relies
      obtain ⟨same, outside⟩ := relied task live different relies
      have agreed := agree (ProcTree.reparent pid task)
        (ProcTree.mem_exit.mpr ⟨task, live, different, rfl⟩)
        (by rw [ProcTree.reparent_pid]; exact taskAbove)
      rw [ProcTree.reparent_root, ProcTree.reparent_pid] at agreed
      intro inside
      exact outside (agreed.mp (same.mpr inside))
    · intro keeps later live laterAbove
      obtain ⟨task, taskLive, different, rfl⟩ := ProcTree.mem_exit.mp live
      rw [ProcTree.reparent_pid] at laterAbove ⊢
      rw [ProcTree.reparent_root]
      by_cases relies : pid ∈ upToHit (state.tree.validLink state.table)
          (state.tree.chain task.pid)
      · obtain ⟨same, outside⟩ := relied task taskLive different relies
        have away := keeps ⟨task, taskLive, different, relies⟩
        exact ⟨fun inside => absurd (same.mp inside) away,
          fun inside => absurd inside outside⟩
      · rw [inChos_iff sound evolves
          ((resolve_exit state.table taskLive different).trans
            (if_neg relies))]
        exact harmony.agree task taskLive laterAbove
  · intro query root isRoot
    obtain ⟨later, foundLater, rfl⟩ := Option.map_eq_some_iff.mp isRoot
    obtain ⟨task, live, _, rfl⟩ :=
      ProcTree.mem_exit.mp (ProcTree.find_mem foundLater)
    rw [ProcTree.reparent_root]
    exact harmony.roots task.pid task.root
      (rootOf_of_find (ProcTree.find_of_mem live))

/-- A new child finds what its parent finds, everybody else what they found
before. -/
theorem resolve_forked {tree : ProcTree} {table : Table} {creator : Task}
    (live : creator ∈ tree.tasks) {new : NewTask} (above : 1 < new.pid)
    (fresh : ∀ task ∈ tree.tasks, task.pid ≠ (new.toTask creator).pid)
    (parentLive : (tree.find (new.toTask creator).parent).isSome) :
    let forked := tree.create (new.toTask creator) fresh parentLive
    let later := assignLink (tree.resolve table creator.pid)
      (new.toTask creator) (tree.lookedUp table creator.pid)
    (∀ task ∈ tree.tasks,
      forked.resolve later task.pid = tree.resolve table task.pid) ∧
    forked.resolve later new.pid = tree.resolve table creator.pid := by
  intro forked later
  have older : ∀ task ∈ tree.tasks,
      forked.resolve later task.pid = tree.resolve table task.pid := by
    intro task taskLive
    have climb := ProcTree.chain_of_mem taskLive
    have sameChain : forked.Chain task.pid (tree.chain task.pid) :=
      climb.create fresh parentLive
    rw [← ProcTree.resolve_lookedUp live taskLive, ProcTree.resolve,
      ProcTree.resolve, sameChain.chain_eq]
    apply findSome?_congr
    intro member inside
    obtain ⟨owner, found⟩ := climb.find_isSome inside
    have different : member ≠ (new.toTask creator).pid := by
      rw [← ProcTree.find_pid found]
      exact fresh owner (ProcTree.find_mem found)
    have kept : later.procs member =
        (tree.lookedUp table creator.pid).procs member := by
      rw [assignLink_procs, Function.update_of_ne different]
    have sameFind : forked.find member = tree.find member :=
      ProcTree.find_create_of_ne fresh parentLive different
    rw [ProcTree.validLink, ProcTree.validLink, sameFind, kept]
  refine ⟨older, ?_⟩
  have self : forked.find (new.toTask creator).pid =
      some (new.toTask creator) := ProcTree.find_create_self fresh parentLive
  have marked : forked.validLink later (new.toTask creator).pid =
      tree.resolve table creator.pid := by
    apply ProcTree.validLink_assigned self
    rw [assignLink_procs, Function.update_self]
  have stepped := @ProcTree.resolve_eq forked later (new.toTask creator)
    (ProcTree.find_mem self) above
  rw [marked] at stepped
  refine stepped.trans ?_
  cases resolved : tree.resolve table creator.pid with
  | some link => rfl
  | none => exact (older creator live).trans resolved

theorem Harmony.fork_iff {state next : Sys} (harmony : state.Harmony)
    {pid : Nat} {new : NewTask}
    (handled : state.handle (.fork pid new) = some next) :
    (next.Agree ↔ state.Keeps (.fork pid new)) ∧ next.TwoRoots := by
  have sound := harmony.sound
  have evolves : state.table.Evolves next.table := sound.run_evolves handled
  obtain ⟨creator, fresh, parentLive, found, above, _, rfl⟩ :=
    forked sound harmony.idle handled
  have live := ProcTree.find_mem found
  have samePid := ProcTree.find_pid found
  subst samePid
  obtain ⟨older, child⟩ :=
    @resolve_forked state.tree state.table creator live new above fresh
      parentLive
  have childInside := inChos_iff sound evolves child
  refine ⟨?_, ?_⟩
  · constructor
    · intro agree init inside
      have agreed := agree (new.toTask creator)
        ((ProcTree.mem_create fresh parentLive).mpr (.inl rfl)) above
      rw [rootOf_of_find found, Option.some.injEq] at inside
      exact not_inChos_of_init init (childInside.mp (agreed.mp inside))
    · intro keeps task taskLive taskAbove
      rcases (ProcTree.mem_create fresh parentLive).mp taskLive with
        same | old
      · subst same
        rw [show (new.toTask creator).pid = new.pid from rfl, childInside]
        by_cases init : creator.pid ≤ 1
        · have outside := keeps init
          rw [rootOf_of_find found] at outside
          have away : creator.root ≠ .named := by simpa using outside
          exact ⟨fun inside => absurd inside away,
            fun inside => absurd inside (not_inChos_of_init init)⟩
        · exact harmony.agree creator live (Nat.lt_of_not_le init)
      · rw [inChos_iff sound evolves (older task old)]
        exact harmony.agree task old taskAbove
  · intro query root isRoot
    obtain ⟨task, foundTask, rfl⟩ := Option.map_eq_some_iff.mp isRoot
    rcases (ProcTree.mem_create fresh parentLive).mp
      (ProcTree.find_mem foundTask) with same | old
    · rw [same]
      exact harmony.roots creator.pid creator.root (rootOf_of_find found)
    · exact harmony.roots task.pid task.root
        (rootOf_of_find (ProcTree.find_of_mem old))

theorem Harmony.readlink {state next : Sys} (harmony : state.Harmony)
    {pid : Nat} (taken : Taken state (.readlink pid) next) :
    next.Agree ∧ next.TwoRoots := by
  have evolves := harmony.sound.evolves taken
  cases taken with
  | @readlink _ current running =>
  have found := current_find running
  apply harmony.neutral evolves rfl
  intro task live
  have looked := @ProcTree.resolve_lookedUp state.tree state.table current
    task (ProcTree.find_mem found) live
  rw [ProcTree.find_pid found] at looked
  simp only [readTable]
  split
  · exact looked
  · exact looked

theorem Harmony.failedFork {state next : Sys} (harmony : state.Harmony)
    {pid : Nat} (handled : state.handle (.failedFork pid) = some next) :
    next.Agree ∧ next.TwoRoots := by
  have evolves : state.table.Evolves next.table :=
    harmony.sound.run_evolves handled
  obtain ⟨creator, found, rfl⟩ :=
    failedForked harmony.sound harmony.idle handled
  have live := ProcTree.find_mem found
  have samePid := ProcTree.find_pid found
  subst samePid
  apply harmony.neutral evolves rfl
  intro task taskLive
  exact (ProcTree.resolve_lookedUp live taskLive).trans
    (ProcTree.resolve_lookedUp live taskLive)

/-- One event keeps the agreement exactly when `Keeps` says so. -/
theorem Harmony.single_iff {state next : Sys} (harmony : state.Harmony)
    {event : Event} (handler : event.isPhase = false)
    (ordinary : state.Ordinary (.single event))
    (taken : Taken state event next) :
    (next.Agree ↔ state.Keeps (.single event)) ∧ next.TwoRoots ∧
      next.forks = [] := by
  have evolves := harmony.sound.evolves taken
  have idle : next.forks = [] := by
    cases taken with
    | begin => cases handler
    | create => cases handler
    | finish => cases handler
    | _ => exact harmony.idle
  have decided : (next.Agree ↔ state.Keeps (.single event)) ∧
      next.TwoRoots := by
    cases event with
    | setchos pid buf count outcome =>
        exact harmony.setchos_iff ordinary taken
    | resetchos pid => exact harmony.resetchos_iff ordinary taken
    | exit pid => exact harmony.exit_iff taken
    | readlink pid =>
        obtain ⟨agree, roots⟩ := harmony.readlink taken
        exact ⟨⟨fun _ => trivial, fun _ => agree⟩, roots⟩
    | cleanup pid =>
        cases taken with
        | @cleanup _ current running =>
            have initial := ordinary.1 current running
            obtain ⟨agree, roots⟩ := harmony.neutral evolves rfl
              fun task _ => ProcTree.resolve_cleanupLinks initial task.pid
            exact ⟨⟨fun _ => trivial, fun _ => agree⟩, roots⟩
    | writeValid euid buf count outcome =>
        cases taken with
        | writeValid =>
            obtain ⟨agree, roots⟩ := harmony.neutral evolves rfl
              fun _ _ => rfl
            exact ⟨⟨fun _ => trivial, fun _ => agree⟩, roots⟩
    | chroot pid dir => exact absurd ordinary.2 id
    | begin pid => cases handler
    | create pid new => cases handler
    | finish pid => cases handler
  exact ⟨decided.1, decided.2, idle⟩

theorem Harmony.handle_iff {state next : Sys} (harmony : state.Harmony)
    {handler : Handler} (ordinary : state.Ordinary handler)
    (handled : state.handle handler = some next) :
    (next.Agree ↔ state.Keeps handler) ∧ next.TwoRoots ∧
      next.forks = [] := by
  cases handler with
  | single event =>
      simp only [Sys.handle] at handled
      split at handled
      · cases handled
      · rename_i noPhase
        exact harmony.single_iff (by simpa using noPhase) ordinary
          ((step_iff_taken harmony.sound.inRange).mp handled)
  | fork pid new =>
      obtain ⟨decided, roots⟩ := harmony.fork_iff handled
      obtain ⟨_, _, _, _, _, _, rfl⟩ :=
        forked harmony.sound harmony.idle handled
      exact ⟨decided, roots, rfl⟩
  | failedFork pid =>
      obtain ⟨agree, roots⟩ := harmony.failedFork handled
      obtain ⟨_, _, rfl⟩ := failedForked harmony.sound harmony.idle handled
      exact ⟨⟨fun _ => trivial, fun _ => agree⟩, roots, harmony.idle⟩

theorem init_harmony {pid_max : Nat} {tree : ProcTree}
    (below : ∀ task ∈ tree.tasks, task.pid < pid_max)
    (real : ∀ task ∈ tree.tasks, task.root = .nochroot) :
    (Sys.init pid_max tree).Harmony := by
  have empty : ∀ pid, (Sys.init pid_max tree).tree.resolve
      (Sys.init pid_max tree).table pid = none := by
    intro pid
    apply List.findSome?_eq_none_iff.mpr
    intro member _
    unfold ProcTree.validLink
    split
    · rfl
    · rw [ChosProc.validFor]
      split <;> rfl
  refine ⟨init_sound below, rfl, ?_, ?_⟩
  · intro task live _
    rw [real task live]
    constructor
    · intro impossible
      cases impossible
    · intro inside
      exact absurd inside (not_inChos_of_none (empty task.pid))
  · intro pid root isRoot
    obtain ⟨task, found, rfl⟩ := Option.map_eq_some_iff.mp isRoot
    exact .inl (real task (ProcTree.find_mem found))

/-- Root directory and link agree in every state of a run exactly when every
handler of the run is one that `Keeps` admits. -/
theorem agree_throughout_iff {pid_max : Nat} {tree : ProcTree}
    (below : ∀ task ∈ tree.tasks, task.pid < pid_max)
    (real : ∀ task ∈ tree.tasks, task.root = .nochroot)
    {handlers : List Handler} {final : Sys}
    (finished : run Sys.handle (Sys.init pid_max tree) handlers =
      some final)
    (ordinary : Along Sys.handle Sys.Ordinary (Sys.init pid_max tree)
      handlers) :
    Throughout Sys.handle Sys.Agree (Sys.init pid_max tree) handlers ↔
      Along Sys.handle Sys.Keeps (Sys.init pid_max tree) handlers := by
  apply throughout_iff_along Sys.Harmony _ _ _ finished ordinary
    (init_harmony below real)
  · intro state harmony
    exact harmony.agree
  · intro state handler next harmony usual keeps handled
    obtain ⟨decided, roots, idle⟩ := harmony.handle_iff usual handled
    exact ⟨harmony.sound.handle handled, idle, decided.mpr keeps, roots⟩
  · intro state handler next harmony usual forbidden handled agree
    obtain ⟨decided, _⟩ := harmony.handle_iff usual handled
    exact forbidden (decided.mp agree)

theorem agree_throughout_iff_nested :
    Throughout Sys.handle Sys.Agree (Sys.init 16 .boot)
      [.single (.writeValid 0 [47, 97] 2 ⟨true, true⟩),
        .fork 1 ⟨10, ⟨5, 0⟩, 0, []⟩,
        .single (.setchos 10 [47, 97] 2 ⟨true, true, true, .other 0⟩),
        .fork 10 ⟨11, ⟨6, 0⟩, 0, []⟩,
        .single (.setchos 11 [47] 1 ⟨true, true, true, .other 0⟩),
        .single (.exit 10)] := by
  have ends : (run Sys.handle (Sys.init 16 .boot)
      [.single (.writeValid 0 [47, 97] 2 ⟨true, true⟩),
        .fork 1 ⟨10, ⟨5, 0⟩, 0, []⟩,
        .single (.setchos 10 [47, 97] 2 ⟨true, true, true, .other 0⟩),
        .fork 10 ⟨11, ⟨6, 0⟩, 0, []⟩,
        .single (.setchos 11 [47] 1 ⟨true, true, true, .other 0⟩),
        .single (.exit 10)]).isSome := by
    decide +kernel
  obtain ⟨final, finished⟩ := Option.isSome_iff_exists.mp ends
  apply (agree_throughout_iff (ProcTree.boot_below (by decide)) (by decide)
    finished (by decide +kernel)).mpr
  decide +kernel

/-- Process 10 enters CHOS and writes to `resetchos`: it stays in CHOSROOT
without a link. -/
theorem resetchos_keeps_root :
    ∃ final, run Sys.handle (Sys.init 16 .boot)
        [.single (.writeValid 0 [47, 97] 2 ⟨true, true⟩),
          .fork 1 ⟨10, ⟨5, 0⟩, 0, []⟩,
          .single (.setchos 10 [47, 97] 2 ⟨true, true, true, .other 0⟩),
          .single (.resetchos 10)] = some final ∧
      final.rootOf 10 = some .named ∧
      final.tree.resolve final.table 10 = none ∧ ¬ final.Agree := by
  have ends : (run Sys.handle (Sys.init 16 .boot)
      [.single (.writeValid 0 [47, 97] 2 ⟨true, true⟩),
        .fork 1 ⟨10, ⟨5, 0⟩, 0, []⟩,
        .single (.setchos 10 [47, 97] 2 ⟨true, true, true, .other 0⟩),
        .single (.resetchos 10)]).any
        (fun final => final.rootOf 10 = some .named ∧
          final.tree.resolve final.table 10 = none) = true := by
    decide +kernel
  obtain ⟨final, finished, facts⟩ := (Option.any_eq_true _ _).mp ends
  obtain ⟨inside, empty⟩ := of_decide_eq_true facts
  refine ⟨final, finished, inside, empty, ?_⟩
  intro agree
  obtain ⟨task, found, _⟩ := Option.map_eq_some_iff.mp inside
  exact not_inChos_of_none empty
    ((agree.rootOf (by decide) found).mp inside)

end Sys

end Chos.Kernel
