import Chos.Kernel.OwnEntry

/-!
# Inheritance across forks

Everything a process creates resolves to its link, however the phases of the
forks interleave with exits.  The invariant: each live descendant has a valid
entry for the link, or its creator has one and is still inside the fork that
created it.  What is assumed of the kernel is that it does not give a pid out
again in the second its earlier owner started, nor while a fork still waits
for that number.
-/

namespace Chos.Kernel

open Chos.Library

def Event.PhaseOf (pid : Nat) : Event → Prop
  | .begin caller => caller = pid
  | .create caller _ => caller = pid
  | .finish caller => caller = pid
  | _ => False

namespace Sys

private theorem find_dropFork_self (state : Sys) (pid : Nat) :
    (state.dropFork pid).find? (fun fork => fork.parent = pid) = none := by
  simp [dropFork]

private theorem find_dropFork_of_ne {state : Sys} {pid other : Nat}
    (different : pid ≠ other) :
    (state.dropFork other).find? (fun fork => fork.parent = pid) =
      state.forkOf pid := by
  unfold dropFork forkOf
  rw [List.find?_filter]
  congr 1
  funext fork
  by_cases same : fork.parent = pid
  · simp [same, different]
  · simp [same]

theorem forkOf_taken {state next : Sys} {event : Event}
    (taken : Taken state event next) {pid : Nat}
    (elsewhere : ¬ event.PhaseOf pid) :
    next.forkOf pid = state.forkOf pid := by
  cases taken with
  | @begin caller current running =>
      have different : caller ≠ pid := elsewhere
      simp [forkOf, different]
  | @create caller fork creator new inside =>
      have different : caller ≠ pid := elsewhere
      have other : fork.parent ≠ pid := by
        rw [forkOf_parent inside]
        exact different
      rw [forkOf, List.find?_cons_of_neg (by simpa using other)]
      exact find_dropFork_of_ne different.symm
  | @finish caller fork current inside found =>
      have different : caller ≠ pid := elsewhere
      exact find_dropFork_of_ne different.symm
  | _ => rfl

/-- How an event may leave an entry: untouched, cleared, or assigned to the
live task at that index. -/
inductive Written (tree : ProcTree) (index : Nat) (older : ChosProc) :
    ChosProc → Prop where
  | kept : Written tree index older older
  | cleared : Written tree index older .cleared
  | assigned {task : Task} (link : Option LinkId)
      (found : tree.find index = some task) :
      Written tree index older (.assigned link task)

theorem Written.trans_cleanupLinks {tree : ProcTree} {table newer : Table}
    {index : Nat} (seen : Nat → Option Task)
    (written : Written tree index (table.procs index) (newer.procs index)) :
    Written tree index (table.procs index)
      ((cleanupLinks seen newer).procs index) := by
  rw [cleanupLinks_procs]
  split
  · exact .cleared
  · exact written

theorem written_resetLink (tree : ProcTree) (table : Table)
    (index other : Nat) :
    Written tree index (table.procs index)
      ((resetLink other table).procs index) := by
  rw [resetLink_procs]
  by_cases same : index = other
  · subst same
    rw [Function.update_self]
    exact .cleared
  · rw [Function.update_of_ne same]
    exact .kept

theorem written_assignLink {tree : ProcTree} {task : Task}
    (found : tree.find task.pid = some task) (table newer : Table)
    (link : Option LinkId) {index : Nat}
    (written : Written tree index (table.procs index)
      (newer.procs index)) :
    Written tree index (table.procs index)
      ((assignLink link task newer).procs index) := by
  rw [assignLink_procs]
  by_cases same : index = task.pid
  · subst same
    rw [Function.update_self]
    exact .assigned link found
  · rw [Function.update_of_ne same]
    exact written

theorem written_lookedUp {tree : ProcTree} (table : Table) {task : Task}
    (live : task ∈ tree.tasks) (index : Nat) :
    Written tree index (table.procs index)
      ((tree.lookedUp table task.pid).procs index) := by
  by_cases passed :
      index ∈ beforeHit (tree.validLink table) (tree.chain task.pid)
  · obtain ⟨owner, found⟩ := (ProcTree.chain_of_mem live).find_isSome
      (mem_of_mem_beforeHit passed)
    have ownPid := ProcTree.find_pid found
    subst ownPid
    rw [ProcTree.lookedUp_procs_of_mem live passed found]
    unfold cachedEntry
    split
    · exact .assigned _ found
    · exact .cleared
  · rw [ProcTree.lookedUp_procs_of_not_mem passed]
    exact .kept

/-- What any event does to any entry. -/
theorem written_taken {state next : Sys} {event : Event}
    (taken : Taken state event next) (index : Nat) :
    Written state.tree index (state.table.procs index)
      (next.table.procs index) := by
  have lookedUp : ∀ {pid : Nat} {current : Task},
      state.tree.find pid = some current →
        Written state.tree index (state.table.procs index)
          ((state.tree.lookedUp state.table pid).procs index) := by
    intro pid current found
    rw [← ProcTree.find_pid found]
    exact written_lookedUp state.table (ProcTree.find_mem found) index
  cases taken with
  | @setchos pid current buf count outcome running =>
      have found := current_find running
      have ownPid := ProcTree.find_pid found
      subst ownPid
      simp only [setchosTable]
      split
      · split
        · apply written_assignLink found state.table
          rw [createLink_procs]
          apply Written.trans_cleanupLinks
          exact .kept
        · exact .kept
      · exact .kept
  | resetchos running =>
      exact (written_resetLink _ _ _ _).trans_cleanupLinks _
  | readlink running =>
      have looked := lookedUp (current_find running)
      simp only [Sys.readTable]
      split
      · exact looked
      · exact looked
  | cleanup running => exact Written.kept.trans_cleanupLinks _
  | begin running => exact lookedUp (current_find running)
  | @finish pid fork current inside found =>
      simp only [Sys.finishedTable]
      split
      · split
        · rename_i child seen
          have live := findTaskByPidNs_mem seen
          exact written_assignLink (ProcTree.find_of_mem live) state.table _
            _ .kept
        · exact .kept
      · rw [ProcTree.find_pid found]
        exact lookedUp found
  | _ => exact .kept

end Sys

/-- The pids and start seconds of all processes so far, and the live
processes descending from one of them, with the state they are in. -/
structure Lineage where
  sys : Sys
  born : List (Nat × Nat)
  family : List Nat

def Event.births (born : List (Nat × Nat)) : Event → List (Nat × Nat)
  | .create _ new => (new.pid, new.start_time.tv_sec) :: born
  | _ => born

/-- The family gains what its members create and loses who exits. -/
def Event.heirs (family : List Nat) : Event → List Nat
  | .create caller new =>
      if caller ∈ family then new.pid :: family else family
  | .exit pid => family.filter (· ≠ pid)
  | _ => family

def ProcTree.births (tree : ProcTree) : List (Nat × Nat) :=
  tree.tasks.map fun task => (task.pid, task.start_time.tv_sec)

namespace Lineage

def step (lineage : Lineage) (event : Event) : Option Lineage :=
  (lineage.sys.step event).map fun next =>
    { sys := next
      born := event.births lineage.born
      family := event.heirs lineage.family }

/-- What the kernel promises of a new task: its pid was not used by a task
that started in the same second, and no fork waits for one of its numbers. -/
def Reassigns (lineage : Lineage) (caller : Nat) (new : NewTask) : Prop :=
  (new.pid, new.start_time.tv_sec) ∈ lineage.born ∨
    ∃ creator ∈ lineage.sys.tree.find caller,
      ∃ fork ∈ lineage.sys.forks,
      ∃ parent ∈ lineage.sys.tree.find fork.parent,
      ∃ nr ∈ fork.child,
        (new.toTask creator).nrIn parent.pid_ns = some nr

instance (lineage : Lineage) (caller : Nat) (new : NewTask) :
    Decidable (lineage.Reassigns caller new) :=
  inferInstanceAs (Decidable (_ ∨ _))

/-- Members of the family do not write, cleanups run in the initial
namespace, and the kernel keeps its promise. -/
structure Permits (lineage : Lineage) (event : Event) : Prop where
  outside : ∀ pid ∈ lineage.family, event = .exit pid ∨ ¬ event.OwnAct pid
  initial : ∀ current, lineage.sys.cleaner event = some current →
    current.pid_ns = 0
  fresh : ∀ caller new, event = .create caller new →
    ¬ lineage.Reassigns caller new

instance (lineage : Lineage) : (event : Event) →
    Decidable (∀ caller new, event = .create caller new →
      ¬ lineage.Reassigns caller new)
  | .create caller new =>
      decidable_of_iff (¬ lineage.Reassigns caller new)
        ⟨fun promised _ _ same => by
          cases same
          exact promised,
          fun promised => promised caller new rfl⟩
  | .setchos _ _ _ _ => .isTrue fun _ _ same => by cases same
  | .resetchos _ => .isTrue fun _ _ same => by cases same
  | .readlink _ => .isTrue fun _ _ same => by cases same
  | .cleanup _ => .isTrue fun _ _ same => by cases same
  | .begin _ => .isTrue fun _ _ same => by cases same
  | .finish _ => .isTrue fun _ _ same => by cases same
  | .exit _ => .isTrue fun _ _ same => by cases same
  | .chroot _ _ => .isTrue fun _ _ same => by cases same
  | .writeValid _ _ _ _ => .isTrue fun _ _ same => by cases same

instance (lineage : Lineage) (event : Event) :
    Decidable (∀ current, lineage.sys.cleaner event = some current →
      current.pid_ns = 0) :=
  inferInstanceAs (Decidable (∀ current ∈ lineage.sys.cleaner event, _))

instance (lineage : Lineage) (event : Event) :
    Decidable (lineage.Permits event) :=
  decidable_of_iff
    ((∀ pid ∈ lineage.family, event = .exit pid ∨ ¬ event.OwnAct pid) ∧
      (∀ current, lineage.sys.cleaner event = some current →
        current.pid_ns = 0) ∧
      ∀ caller new, event = .create caller new →
        ¬ lineage.Reassigns caller new)
    ⟨fun ⟨outside, initial, fresh⟩ => ⟨outside, initial, fresh⟩,
      fun permits => ⟨permits.outside, permits.initial, permits.fresh⟩⟩

end Lineage

/-- Every filled entry belongs to some process that was born, and every live
process was. -/
structure Recorded (born : List (Nat × Nat)) (state : Sys) : Prop where
  entries : ∀ index, (state.table.procs index).link ≠ none →
    (index, (state.table.procs index).start_time) ∈ born
  alive : ∀ task ∈ state.tree.tasks,
    (task.pid, task.start_time.tv_sec) ∈ born

theorem Event.births_mono {born : List (Nat × Nat)} (event : Event)
    {birth : Nat × Nat} (old : birth ∈ born) : birth ∈ event.births born := by
  cases event with
  | create caller new => exact List.mem_cons_of_mem _ old
  | _ => exact old

theorem Recorded.taken {born : List (Nat × Nat)} {state next : Sys}
    (recorded : Recorded born state) {event : Event}
    (taken : Sys.Taken state event next) :
    Recorded (event.births born) next := by
  refine ⟨?_, ?_⟩
  · intro index filled
    apply event.births_mono
    have written := Sys.written_taken taken index
    generalize next.table.procs index = entry at written filled
    cases written with
    | kept => exact recorded.entries index filled
    | cleared => exact absurd rfl filled
    | assigned link found =>
        have live := recorded.alive _ (ProcTree.find_mem found)
        rw [ProcTree.find_pid found] at live
        exact live
  · intro later live
    have foundLater := ProcTree.find_of_mem live
    rcases taken.found foundLater with ⟨task, found, stays⟩ |
      ⟨caller, new, creator, rfl, _, rfl, _⟩
    · apply event.births_mono
      obtain ⟨same, foundSame, isSame, _⟩ := taken.find found stays
      rw [foundLater, Option.some.injEq] at foundSame
      subst foundSame
      have old := recorded.alive task (ProcTree.find_mem found)
      rw [isSame.pid, isSame.start_time]
      exact old
    · exact List.mem_cons_self

theorem recorded_of_run {born : List (Nat × Nat)} {state final : Sys}
    (sound : state.Sound) (recorded : Recorded born state)
    {events : List Event}
    (finished : run Sys.step state events = some final) :
    Recorded (events.foldl Event.births born) final := by
  induction events generalizing state born with
  | nil =>
      cases finished
      exact recorded
  | cons event events induction =>
      obtain ⟨next, stepped, rest⟩ := run_cons_eq_some_iff.mp finished
      have taken := (Sys.step_iff_taken sound.inRange).mp stepped
      exact induction (sound.taken taken) (recorded.taken taken) rest

theorem init_recorded (pid_max : Nat) (tree : ProcTree) :
    Recorded tree.births (Sys.init pid_max tree) := by
  refine ⟨?_, ?_⟩
  · intro index filled
    exact absurd rfl filled
  · intro task live
    exact List.mem_map.mpr ⟨task, live, rfl⟩

theorem Recorded.validFor_eq_none {born : List (Nat × Nat)} {state : Sys}
    (recorded : Recorded born state) {task : Task}
    (unborn : (task.pid, task.start_time.tv_sec) ∉ born) :
    (state.table.procs task.pid).validFor task = none := by
  cases valid : (state.table.procs task.pid).validFor task with
  | none => rfl
  | some link =>
      obtain ⟨held, started⟩ := validFor_link valid
      have filled : (state.table.procs task.pid).link ≠ none := by
        rw [held]
        simp
      have known := recorded.entries task.pid filled
      rw [started] at known
      exact absurd known unborn

namespace Lineage

/-- The creator of the task is a member of the family, and still inside the
fork that created it. -/
structure Expects (lineage : Lineage) (task : Task) (fork : PendingFork)
    (parent : Task) (nr : Nat) : Prop where
  member : task.parent ∈ lineage.family
  inside : lineage.sys.forkOf task.parent = some fork
  found : lineage.sys.tree.find task.parent = some parent
  child : fork.child = some nr
  numbered : task.nrIn parent.pid_ns = some nr
  only : ∀ other ∈ lineage.sys.tree.tasks,
    other.nrIn parent.pid_ns = some nr → other.pid = task.pid

structure Heir (link : LinkId) (lineage : Lineage) (pid : Nat) : Prop where
  above : 1 < pid
  mark : lineage.sys.tree.validLink lineage.sys.table pid = some link ∨
    ∃ task fork parent nr, lineage.sys.tree.find pid = some task ∧
      lineage.sys.tree.validLink lineage.sys.table pid = none ∧
      lineage.Expects task fork parent nr
  awaited : ∀ fork ∈ lineage.sys.forks, lineage.sys.Awaits fork pid →
    fork.parent_link = some link
  inside : ∀ fork, lineage.sys.forkOf pid = some fork →
    fork.parent_link = some link ∧
      lineage.sys.tree.validLink lineage.sys.table pid = some link

structure Inherits (link : LinkId) (lineage : Lineage) : Prop where
  sound : lineage.sys.Sound
  recorded : Recorded lineage.born lineage.sys
  heirs : ∀ pid ∈ lineage.family, lineage.Heir link pid

theorem Heir.find {link : LinkId} {lineage : Lineage} {pid : Nat}
    (heir : lineage.Heir link pid) :
    ∃ task, lineage.sys.tree.find pid = some task := by
  rcases heir.mark with valid | ⟨task, _, _, _, found, _⟩
  · obtain ⟨task, found, _⟩ := ProcTree.validLink_eq_some_iff.mp valid
    exact ⟨task, found⟩
  · exact ⟨task, found⟩

/-- The invariant makes every member resolve to the link. -/
theorem Inherits.resolve {link : LinkId} {lineage : Lineage}
    (inherits : lineage.Inherits link) {pid : Nat}
    (member : pid ∈ lineage.family) :
    lineage.sys.tree.resolve lineage.sys.table pid = some link := by
  have heir := inherits.heirs pid member
  rcases heir.mark with valid | ⟨task, fork, parent, nr, found, unmarked,
    expects⟩
  · exact ProcTree.resolve_of_valid heir.above valid
  · have creator := inherits.heirs task.parent expects.member
    have valid := (creator.inside fork expects.inside).2
    have above := heir.above
    have samePid := ProcTree.find_pid found
    subst samePid
    rw [ProcTree.resolve_eq (ProcTree.find_mem found) above, unmarked]
    exact ProcTree.resolve_of_valid creator.above valid

theorem validLink_taken {state next : Sys} {event : Event}
    (taken : Sys.Taken state event next) {pid : Nat} {task : Task}
    (found : state.tree.find pid = some task) (stays : event ≠ .exit pid)
    (table : Table) :
    next.tree.validLink table pid = state.tree.validLink table pid := by
  obtain ⟨later, foundLater, same, _⟩ := taken.find found stays
  simp [ProcTree.validLink, found, foundLater, same.validFor]

/-- A lookup fills a member's entry only with the link of the family. -/
theorem Inherits.mark_lookedUp {link : LinkId} {lineage : Lineage}
    (inherits : lineage.Inherits link) {pid : Nat}
    (member : pid ∈ lineage.family) {caller : Nat} {current : Task}
    (found : lineage.sys.tree.find caller = some current) :
    lineage.sys.tree.validLink
        (lineage.sys.tree.lookedUp lineage.sys.table caller) pid =
        lineage.sys.tree.validLink lineage.sys.table pid ∨
      lineage.sys.tree.validLink
        (lineage.sys.tree.lookedUp lineage.sys.table caller) pid =
        some link := by
  have callerPid := ProcTree.find_pid found
  subst callerPid
  have completes := @ProcTree.lookedUp_completes lineage.sys.tree
    lineage.sys.table current (ProcTree.find_mem found) pid
  rcases completes with same | ⟨filled, lower, valid, climb, resolved⟩
  · exact .inl same
  · right
    have climb : lineage.sys.tree.Chain pid lower := climb
    have expected := inherits.resolve member
    rw [ProcTree.resolve, climb.chain_eq, resolved] at expected
    rw [valid]
    exact expected

theorem Inherits.mark_finished {link : LinkId} {lineage : Lineage}
    (inherits : lineage.Inherits link) {pid : Nat}
    (member : pid ∈ lineage.family) {caller : Nat} {fork : PendingFork}
    (inside : lineage.sys.forkOf caller = some fork) {current : Task}
    (found : lineage.sys.tree.find caller = some current) :
    lineage.sys.tree.validLink
        (lineage.sys.finishedTable fork current) pid =
        lineage.sys.tree.validLink lineage.sys.table pid ∨
      lineage.sys.tree.validLink
        (lineage.sys.finishedTable fork current) pid = some link := by
  unfold Sys.finishedTable
  cases child : fork.child with
  | none =>
      dsimp only
      rw [ProcTree.find_pid found]
      exact inherits.mark_lookedUp member found
  | some nr =>
      dsimp only
      cases seen : seenBy lineage.sys.tree current nr with
      | none => exact .inl rfl
      | some other =>
          have otherFound := ProcTree.find_of_mem (findTaskByPidNs_mem seen)
          dsimp only
          by_cases same : pid = other.pid
          · right
            subst same
            have awaits : lineage.sys.Awaits fork other.pid := by
              refine ⟨current, other, nr, ?_, otherFound, child,
                nrIn_of_findTaskByPidNs seen⟩
              rw [Sys.forkOf_parent inside]
              exact found
            rw [(inherits.heirs other.pid member).awaited fork
              (Sys.forkOf_mem inside) awaits]
            apply ProcTree.validLink_assigned otherFound
            rw [assignLink_procs, Function.update_self]
          · left
            apply ProcTree.validLink_congr
            rw [assignLink_procs, Function.update_of_ne same]

theorem Inherits.mark_taken {link : LinkId} {lineage : Lineage}
    (inherits : lineage.Inherits link) {event : Event}
    (permits : lineage.Permits event) {next : Sys}
    (taken : Sys.Taken lineage.sys event next) {pid : Nat}
    (member : pid ∈ lineage.family) (stays : event ≠ .exit pid) :
    next.tree.validLink next.table pid =
        lineage.sys.tree.validLink lineage.sys.table pid ∨
      next.tree.validLink next.table pid = some link := by
  obtain ⟨task, found⟩ := (inherits.heirs pid member).find
  rw [validLink_taken taken found stays]
  have others : ¬ event.OwnAct pid := by
    rcases permits.outside pid member with exits | others
    · exact absurd exits stays
    · exact others
  cases taken with
  | @setchos caller current buf count outcome running =>
      have different : pid ≠ current.pid := by
        rw [ProcTree.find_pid (Sys.current_find running)]
        exact fun same => others same.symm
      left
      apply validLink_setchosTable_of_ne different
      intro installs
      apply permits.initial
      simp [Sys.cleaner, installs, running]
  | @resetchos caller current running =>
      left
      exact validLink_resetchos_of_ne (permits.initial current running)
        fun same => others same.symm
  | readlink running =>
      have looked := inherits.mark_lookedUp member
        (Sys.current_find running)
      simp only [Sys.readTable]
      split
      · exact looked
      · exact looked
  | @cleanup caller current running =>
      left
      exact congrFun (ProcTree.validLink_cleanupLinks_initial
        (permits.initial current running)) pid
  | begin running =>
      exact inherits.mark_lookedUp member (Sys.current_find running)
  | finish inside foundCaller =>
      exact inherits.mark_finished member inside foundCaller
  | _ => exact .inl rfl

/-- The fork that created the task stores the link on it when it ends. -/
theorem Expects.finished {lineage : Lineage} {task : Task}
    {fork : PendingFork} {parent : Task} {nr : Nat}
    (expects : lineage.Expects task fork parent nr) {pid : Nat}
    (found : lineage.sys.tree.find pid = some task) :
    lineage.sys.tree.validLink
      (lineage.sys.finishedTable fork parent) pid = fork.parent_link := by
  have samePid := ProcTree.find_pid found
  subst samePid
  have seen : seenBy lineage.sys.tree parent nr = some task := by
    unfold seenBy findTaskByPidNs
    cases result : lineage.sys.tree.tasks.find?
        (fun other => other.nrIn parent.pid_ns = some nr) with
    | none =>
        rw [List.find?_eq_none] at result
        have absent := result task (ProcTree.find_mem found)
        simp [expects.numbered] at absent
    | some other =>
        have live := List.mem_of_find?_eq_some result
        have numbered : other.nrIn parent.pid_ns = some nr := by
          simpa using List.find?_some result
        exact congrArg some (ProcTree.eq_of_pid_eq live
          (ProcTree.find_mem found) (expects.only other live numbered))
  rw [Sys.finishedTable, expects.child]
  dsimp only
  rw [seen]
  apply ProcTree.validLink_assigned found
  rw [assignLink_procs, Function.update_self]

def after (lineage : Lineage) (event : Event) (next : Sys) : Lineage :=
  { sys := next
    born := event.births lineage.born
    family := event.heirs lineage.family }

theorem step_eq_some_iff {lineage later : Lineage} {event : Event} :
    lineage.step event = some later ↔
      ∃ next, lineage.sys.step event = some next ∧
        later = lineage.after event next := by
  rw [step, Option.map_eq_some_iff]
  constructor
  · rintro ⟨next, stepped, rfl⟩
    exact ⟨next, stepped, rfl⟩
  · rintro ⟨next, stepped, rfl⟩
    exact ⟨next, stepped, rfl⟩

theorem mem_heirs_of_mem {family : List Nat} {event : Event} {pid : Nat}
    (member : pid ∈ family) (stays : event ≠ .exit pid) :
    pid ∈ event.heirs family := by
  cases event with
  | create caller new =>
      simp only [Event.heirs]
      split
      · exact List.mem_cons_of_mem _ member
      · exact member
  | exit gone =>
      apply List.mem_filter.mpr
      refine ⟨member, ?_⟩
      simp only [decide_eq_true_eq]
      rintro rfl
      exact stays rfl
  | _ => exact member

theorem mem_heirs_cases {family : List Nat} {event : Event} {pid : Nat}
    (member : pid ∈ event.heirs family) :
    (pid ∈ family ∧ event ≠ .exit pid) ∨
      ∃ caller new, event = .create caller new ∧ caller ∈ family ∧
        pid = new.pid := by
  cases event with
  | create caller new =>
      simp only [Event.heirs] at member
      split at member
      · rename_i callerMember
        rcases List.mem_cons.mp member with born | old
        · exact .inr ⟨caller, new, rfl, callerMember, born⟩
        · exact .inl ⟨old, by simp⟩
      · exact .inl ⟨member, by simp⟩
  | exit gone =>
      obtain ⟨old, different⟩ := List.mem_filter.mp member
      refine .inl ⟨old, ?_⟩
      simp only [decide_eq_true_eq] at different
      intro same
      exact different (Event.exit.inj same).symm
  | _ => exact .inl ⟨member, by simp⟩

theorem Expects.taken {lineage : Lineage} {task : Task} {fork : PendingFork}
    {parent : Task} {nr : Nat}
    (expects : lineage.Expects task fork parent nr) {pid : Nat}
    (found : lineage.sys.tree.find pid = some task) {event : Event}
    {next : Sys} (taken : Sys.Taken lineage.sys event next)
    (stays : event ≠ .exit pid) (unfinished : event ≠ .finish task.parent)
    {later : Task} (foundLater : next.tree.find pid = some later) :
    ∃ parentLater, (lineage.after event next).Expects later fork
      parentLater nr := by
  have pending := Sys.forkOf_mem expects.inside
  have forkParent := Sys.forkOf_parent expects.inside
  have parentStays : event ≠ .exit task.parent := by
    rw [← forkParent]
    exact Sys.exit_ne_of_fork taken pending
  have elsewhere : ¬ event.PhaseOf task.parent := by
    intro phase
    cases taken with
    | begin running =>
        have same : _ = task.parent := phase
        subst same
        have outside := (Sys.current_eq_some_iff.mp running).1
        rw [expects.inside] at outside
        cases outside
    | create inside alone =>
        have same : _ = task.parent := phase
        subst same
        rw [expects.inside, Option.some.injEq] at inside
        subst inside
        rw [expects.child] at alone
        cases alone
    | finish inside =>
        have same : _ = task.parent := phase
        subst same
        exact unfinished rfl
    | _ => exact phase
  obtain ⟨again, foundAgain, same, sameParent⟩ := taken.find found stays
  rw [foundLater, Option.some.injEq] at foundAgain
  subst foundAgain
  rw [if_neg parentStays] at sameParent
  obtain ⟨parentLater, foundParent, parentSame, _⟩ :=
    taken.find expects.found parentStays
  refine ⟨parentLater, ?_, ?_, ?_, expects.child, ?_, ?_⟩
  · rw [sameParent]
    exact mem_heirs_of_mem expects.member parentStays
  · rw [sameParent]
    exact (Sys.forkOf_taken taken elsewhere).trans expects.inside
  · rw [sameParent]
    exact foundParent
  · rw [same.nrIn, parentSame.pid_ns]
    exact expects.numbered
  · intro other live numbered
    rw [parentSame.pid_ns] at numbered
    rw [same.pid]
    have foundOther : next.tree.find other.pid = some other :=
      ProcTree.find_of_mem live
    rcases taken.found foundOther with ⟨old, foundOld, oldStays⟩ |
      ⟨caller, new, creator, rfl, _, rfl, _⟩
    · obtain ⟨kept, foundKept, keptSame, _⟩ := taken.find foundOld oldStays
      rw [foundOther, Option.some.injEq] at foundKept
      subst foundKept
      rw [keptSame.nrIn] at numbered
      rw [keptSame.pid]
      exact expects.only old (ProcTree.find_mem foundOld) numbered
    · cases taken with
      | create inside alone foundCreator fits =>
          exact absurd expects.numbered
            (fits.1.nrIn_ne (ProcTree.find_mem found) numbered)

theorem Inherits.heir_taken {link : LinkId} {lineage : Lineage}
    (inherits : lineage.Inherits link) {event : Event}
    (permits : lineage.Permits event) {next : Sys}
    (taken : Sys.Taken lineage.sys event next) {pid : Nat}
    (member : pid ∈ lineage.family) (stays : event ≠ .exit pid) :
    (lineage.after event next).Heir link pid := by
  have heir := inherits.heirs pid member
  obtain ⟨task, found⟩ := heir.find
  have marked := inherits.mark_taken permits taken member stays
  have keeps : lineage.sys.tree.validLink lineage.sys.table pid =
      some link → next.tree.validLink next.table pid = some link := by
    intro valid
    rcases marked with same | filled
    · exact same.trans valid
    · exact filled
  refine ⟨heir.above, ?_, ?_, ?_⟩
  · rcases heir.mark with valid | ⟨again, fork, parent, nr, foundAgain,
      unmarked, expects⟩
    · exact .inl (keeps valid)
    · rw [found, Option.some.injEq] at foundAgain
      subst foundAgain
      by_cases finishes : event = .finish task.parent
      · left
        subst finishes
        have creator := inherits.heirs task.parent expects.member
        have carried := (creator.inside fork expects.inside).1
        cases taken with
        | finish inside foundParent =>
            rw [expects.inside, Option.some.injEq] at inside
            rw [expects.found, Option.some.injEq] at foundParent
            subst inside foundParent
            exact (expects.finished found).trans carried
      · rcases marked with same | filled
        · right
          obtain ⟨later, foundLater, _⟩ := taken.find found stays
          obtain ⟨parentLater, expectsLater⟩ :=
            expects.taken found taken stays finishes foundLater
          exact ⟨later, fork, parentLater, nr, foundLater,
            same.trans unmarked, expectsLater⟩
        · exact .inl filled
  · intro fork pending awaits
    obtain ⟨old, awaited⟩ := Sys.awaits_taken inherits.sound taken found
      stays pending awaits
    exact heir.awaited fork old awaited
  · intro fork inside
    by_cases phase : event.PhaseOf pid
    · cases taken with
      | @begin caller current running =>
          have same : caller = pid := phase
          subst same
          have resolved := inherits.resolve member
          have head : fork =
              { parent := caller
                parent_link := lineage.sys.tree.resolve lineage.sys.table
                  caller
                child := none } := by
            simpa [Sys.forkOf, after] using inside.symm
          refine ⟨by rw [head]; exact resolved, ?_⟩
          have live := ProcTree.find_mem found
          have samePid := ProcTree.find_pid found
          subst samePid
          exact ProcTree.validLink_lookedUp_self live resolved
      | @create caller begun creator new insideBefore =>
          have same : caller = pid := phase
          subst same
          have samePid := Sys.forkOf_parent insideBefore
          have head : fork =
              { begun with
                child := (new.toTask creator).nrIn creator.pid_ns } := by
            simpa [Sys.forkOf, after, samePid] using inside.symm
          obtain ⟨carried, valid⟩ := heir.inside begun insideBefore
          exact ⟨by rw [head]; exact carried, keeps valid⟩
      | @finish caller begun current insideBefore =>
          have same : caller = pid := phase
          subst same
          have gone := Sys.find_dropFork_self lineage.sys caller
          exact absurd (gone.symm.trans inside) (by simp)
      | _ => exact absurd phase id
    · have before := (Sys.forkOf_taken taken phase).symm.trans inside
      obtain ⟨carried, valid⟩ := heir.inside fork before
      exact ⟨carried, keeps valid⟩

/-- What a member creates is an heir from its first moment on. -/
theorem Inherits.heir_created {link : LinkId} {lineage : Lineage}
    (inherits : lineage.Inherits link) {caller : Nat} {new : NewTask}
    (permits : lineage.Permits (.create caller new)) {next : Sys}
    (taken : Sys.Taken lineage.sys (.create caller new) next)
    (member : caller ∈ lineage.family) :
    (lineage.after (.create caller new) next).Heir link new.pid := by
  have parent := inherits.heirs caller member
  have promised := permits.fresh caller new rfl
  cases taken with
  | @create _ begun creator _ inside alone found fits fresh parentLive =>
  obtain ⟨carried, _⟩ := parent.inside begun inside
  have callerPid := ProcTree.find_pid found
  have begunParent := Sys.forkOf_parent inside
  have self := ProcTree.find_create_self fresh parentLive
  have kept : ∀ {pid : Nat} {task : Task},
      lineage.sys.tree.find pid = some task →
        (lineage.sys.tree.create (new.toTask creator) fresh
          parentLive).find pid = some task := by
    intro pid task foundTask
    have different := fresh task (ProcTree.find_mem foundTask)
    rw [ProcTree.find_pid foundTask] at different
    exact (ProcTree.find_create_of_ne fresh parentLive different).trans
      foundTask
  have newcomer : ∀ {pid : Nat} {task : Task},
      lineage.sys.tree.find pid = some task → pid ≠ new.pid := by
    intro pid task foundTask
    rw [← ProcTree.find_pid foundTask]
    exact fresh task (ProcTree.find_mem foundTask)
  obtain ⟨nr, numbered⟩ := Option.isSome_iff_exists.mp fits.2.2.2
  refine ⟨fits.2.1, .inr ⟨new.toTask creator, { begun with
    child := (new.toTask creator).nrIn creator.pid_ns }, creator, nr, self,
    ?_, ?_⟩, ?_, ?_⟩
  · have unborn : ((new.toTask creator).pid,
        (new.toTask creator).start_time.tv_sec) ∉ lineage.born :=
      fun known => promised (.inl known)
    have invalid := inherits.recorded.validFor_eq_none unborn
    rw [ProcTree.validLink]
    simp only [after]
    rw [show new.pid = (new.toTask creator).pid from rfl, self]
    exact invalid
  · refine ⟨?_, ?_, ?_, numbered, numbered, ?_⟩
    · have creatorMember : creator.pid ∈ lineage.family := by
        rw [callerPid]
        exact member
      exact @mem_heirs_of_mem _ (.create caller new) _ creatorMember
        (by simp)
    · simp only [after, NewTask.toTask, Sys.forkOf]
      rw [List.find?_cons_of_pos]
      simp [begunParent, callerPid]
    · have foundCreator := kept found
      rw [← callerPid] at foundCreator
      exact foundCreator
    · intro other live otherNumbered
      rcases (ProcTree.mem_create fresh parentLive).mp live with same | old
      · rw [same]
      · exact absurd otherNumbered (fits.1.nrIn_ne old numbered)
  · intro fork pending awaits
    obtain ⟨parentTask, task, awaitedNr, foundParent, foundTask, childNr,
      awaitedNumber⟩ := awaits
    rcases List.mem_cons.mp pending with head | old
    · rw [head]
      exact carried
    · have wasPending := Sys.dropFork_subset old
      obtain ⟨before, foundBefore⟩ :=
        inherits.sound.parents fork wasPending
      have sameParent : parentTask = before :=
        Option.some.inj (foundParent.symm.trans (kept foundBefore))
      have sameTask : task = new.toTask creator :=
        Option.some.inj (foundTask.symm.trans self)
      subst sameParent sameTask
      exact absurd (Or.inr ⟨creator, found, fork, wasPending, parentTask,
        foundBefore, awaitedNr, childNr, awaitedNumber⟩) promised
  · intro fork insideNew
    have forkParent := Sys.forkOf_parent insideNew
    rcases List.mem_cons.mp (Sys.forkOf_mem insideNew) with head | old
    · rw [head] at forkParent
      exact absurd (begunParent.symm.trans forkParent) (newcomer found)
    · obtain ⟨before, foundBefore⟩ :=
        inherits.sound.parents fork (Sys.dropFork_subset old)
      exact absurd forkParent (newcomer foundBefore)

theorem Inherits.step {link : LinkId} {lineage later : Lineage}
    (inherits : lineage.Inherits link) {event : Event}
    (permits : lineage.Permits event)
    (stepped : lineage.step event = some later) : later.Inherits link := by
  obtain ⟨next, moved, rfl⟩ := step_eq_some_iff.mp stepped
  have taken := (Sys.step_iff_taken inherits.sound.inRange).mp moved
  refine ⟨inherits.sound.taken taken, inherits.recorded.taken taken, ?_⟩
  intro pid member
  rcases mem_heirs_cases member with ⟨old, stays⟩ |
    ⟨caller, new, rfl, creates, rfl⟩
  · exact inherits.heir_taken permits taken old stays
  · exact inherits.heir_created permits taken creates

/-- A process with a valid entry, outside any fork, starts a family. -/
theorem inherits_of_valid {pid_max : Nat} {tree : ProcTree}
    (below : ∀ task ∈ tree.tasks, task.pid < pid_max)
    {before : List Event} {state : Sys}
    (reached : run Sys.step (Sys.init pid_max tree) before = some state)
    {pid : Nat} (above : 1 < pid) {link : LinkId}
    (valid : state.tree.validLink state.table pid = some link)
    (outside : state.forkOf pid = none)
    (unawaited : ¬ state.Awaited pid) :
    ({ sys := state
       born := before.foldl Event.births tree.births
       family := [pid] } : Lineage).Inherits link := by
  have sound := Sys.init_sound below
  refine ⟨sound.run reached,
    recorded_of_run sound (init_recorded pid_max tree) reached, ?_⟩
  intro member only
  rw [List.mem_singleton.mp only]
  refine ⟨above, .inl valid, ?_, ?_⟩
  · intro fork pending awaits
    exact absurd ⟨fork, pending, awaits⟩ unawaited
  · intro fork inside
    rw [outside] at inside
    cases inside

end Lineage

/-- Every process that A or one of its descendants creates finds the link of
A at every moment of its life. -/
theorem descendants_resolve {pid_max : Nat} {tree : ProcTree}
    (below : ∀ task ∈ tree.tasks, task.pid < pid_max)
    {before : List Event} {state : Sys}
    (reached : run Sys.step (Sys.init pid_max tree) before = some state)
    {pid : Nat} (above : 1 < pid) {link : LinkId}
    (valid : state.tree.validLink state.table pid = some link)
    (outside : state.forkOf pid = none)
    (unawaited : ¬ state.Awaited pid)
    {events : List Event} {final : Lineage}
    (finished : run Lineage.step
      { sys := state
        born := before.foldl Event.births tree.births
        family := [pid] } events = some final)
    (permitted : Along Lineage.step Lineage.Permits
      { sys := state
        born := before.foldl Event.births tree.births
        family := [pid] } events) :
    ∀ member ∈ final.family, ∃ table,
      final.sys.tree.lookup member final.sys.table =
        .ok (some link, table) := by
  have initially := Lineage.inherits_of_valid below reached above valid
    outside unawaited
  have inherits := run_invariant
    (fun _ _ _ kept permits stepped =>
      Lineage.Inherits.step kept permits stepped)
    finished permitted initially
  intro member inside
  obtain ⟨task, found⟩ := (inherits.heirs member inside).find
  have looked := Sys.lookup_eq inherits.sound.inRange found
  rw [inherits.resolve inside] at looked
  exact ⟨_, looked⟩

/-- Process 11 forks and exits before the fork that created it has returned;
its child 12 still finds the link of 10. -/
theorem descendants_resolve_early_exit :
    ∃ state final,
      run Sys.step (Sys.init 16 .boot)
        [.writeValid 0 [47, 97] 2 ⟨true, true⟩, .begin 1,
          .create 1 ⟨10, ⟨5, 0⟩, 0, []⟩, .finish 1,
          .setchos 10 [47, 97] 2 ⟨true, true, true, .other 0⟩] = some state ∧
      run Lineage.step
        { sys := state
          born := [(10, 5), (1, 0)]
          family := [10] }
        [.begin 10, .create 10 ⟨11, ⟨6, 0⟩, 0, []⟩, .begin 11,
          .create 11 ⟨12, ⟨6, 0⟩, 0, []⟩, .finish 11, .exit 11, .cleanup 1,
          .finish 10, .exit 10] = some final ∧
      12 ∈ final.family ∧
      ∃ table, final.sys.tree.lookup 12 final.sys.table =
        .ok (some 0, table) := by
  have ends : (run Sys.step (Sys.init 16 .boot)
      [.writeValid 0 [47, 97] 2 ⟨true, true⟩, .begin 1,
        .create 1 ⟨10, ⟨5, 0⟩, 0, []⟩, .finish 1,
        .setchos 10 [47, 97] 2 ⟨true, true, true, .other 0⟩]).any
        (fun state => state.forks = [] ∧
          state.tree.validLink state.table 10 = some 0 ∧
          Along Lineage.step Lineage.Permits
            { sys := state
              born := [(10, 5), (1, 0)]
              family := [10] }
            [.begin 10, .create 10 ⟨11, ⟨6, 0⟩, 0, []⟩, .begin 11,
              .create 11 ⟨12, ⟨6, 0⟩, 0, []⟩, .finish 11, .exit 11,
              .cleanup 1, .finish 10, .exit 10] ∧
          (run Lineage.step
            { sys := state
              born := [(10, 5), (1, 0)]
              family := [10] }
            [.begin 10, .create 10 ⟨11, ⟨6, 0⟩, 0, []⟩, .begin 11,
              .create 11 ⟨12, ⟨6, 0⟩, 0, []⟩, .finish 11, .exit 11,
              .cleanup 1, .finish 10, .exit 10]).any
            fun final => 12 ∈ final.family) = true := by
    decide +kernel
  obtain ⟨state, reached, facts⟩ := (Option.any_eq_true _ _).mp ends
  obtain ⟨idle, valid, permitted, completes⟩ := of_decide_eq_true facts
  obtain ⟨final, finished, member⟩ := (Option.any_eq_true _ _).mp completes
  have member : 12 ∈ final.family := of_decide_eq_true member
  have outside : state.forkOf 10 = none := by
    rw [Sys.forkOf, idle]
    rfl
  have unawaited : ¬ state.Awaited 10 := by
    rintro ⟨fork, pending, _⟩
    rw [idle] at pending
    cases pending
  exact ⟨state, final, reached, finished, member, descendants_resolve
    (ProcTree.boot_below (by decide)) reached (by decide) valid outside
    unawaited finished permitted 12 member⟩

end Chos.Kernel
