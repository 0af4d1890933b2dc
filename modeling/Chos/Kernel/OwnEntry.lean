import Chos.Kernel.Resolution
import Chos.Kernel.Access

/-!
# A process's own entry

An entry that is valid for its process stays as it is, whatever the other
processes do, with two exceptions: the `set_link` at the end of the fork that
created the process, and a `cleanup_links` from a pid namespace in which the
index of the entry does not name the process.
-/

namespace Chos.Kernel

open Chos.Library

/-- Entry `index` holds a link that was freed `freed` times. -/
structure Holding (index : Nat) (entry : ChosProc) (link : LinkId)
    (freed : Nat) (table : Table) : Prop where
  sound : table.Sound
  below : index < table.pid_max
  stored : table.procs index = entry
  held : entry.link = some link
  frees : table.links.frees link = freed

namespace Holding

variable {index : Nat} {entry : ChosProc} {link : LinkId} {freed : Nat}
  {table : Table}

theorem linkAt (holding : Holding index entry link freed table) :
    table.linkAt index = some link := by
  rw [Table.linkAt, holding.stored]
  exact holding.held

theorem known (holding : Holding index entry link freed table) :
    link < table.links.next :=
  holding.sound.entries index holding.below link holding.linkAt

theorem replace {other : Nat} {given : Option LinkId} {newer : Table}
    (holding : Holding index entry link freed table) (sound : newer.Sound)
    (replaces : Replaces other given table newer)
    (otherBelow : other < table.pid_max) (different : index ≠ other)
    (same : newer.procs index = table.procs index) :
    Holding index entry link freed newer :=
  { sound := sound
    below := by
      rw [replaces.pid_max]
      exact holding.below
    stored := same.trans holding.stored
    held := holding.held
    frees := by
      rw [replaces.frees_of_other otherBelow
        (holding.sound.balanced link holding.known) holding.below different
        holding.linkAt]
      exact holding.frees }

theorem resetLink (holding : Holding index entry link freed table) {other : Nat}
    (otherBelow : other < table.pid_max) (different : index ≠ other) :
    Holding index entry link freed (resetLink other table) := by
  apply holding.replace (holding.sound.resetLink otherBelow).sound
    (resetLink_replaces otherBelow) otherBelow different
  rw [resetLink_procs, Function.update_of_ne different]

theorem assignLink (holding : Holding index entry link freed table)
    {given : Option LinkId} {task : Task}
    (otherBelow : task.pid < table.pid_max) (different : index ≠ task.pid)
    (known : ∀ stored, given = some stored → stored < table.links.next) :
    Holding index entry link freed (assignLink given task table) := by
  apply holding.replace (holding.sound.assignLink otherBelow known).sound
    (assignLink_replaces otherBelow) otherBelow different
  rw [assignLink_procs, Function.update_of_ne different]

theorem cleanupLinks (holding : Holding index entry link freed table)
    {seen : Nat → Option Task} (spared : ¬ stale (seen index) entry) :
    Holding index entry link freed (cleanupLinks seen table) := by
  apply cleanupLinks_induction (Holding index entry link freed) seen holding
  intro current other kept otherBelow isStale
  apply kept.resetLink otherBelow
  intro same
  rw [← same, kept.stored] at isStale
  exact spared isStale

theorem lookedUp (holding : Holding index entry link freed table)
    {tree : ProcTree} (inRange : tree.InRange table) {task : Task}
    (live : task ∈ tree.tasks)
    (valid : tree.validLink table index = some link) :
    Holding index entry link freed (tree.lookedUp table task.pid) := by
  apply lookedUp_induction (Holding index entry link freed) inRange holding
  · intro current other kept otherBelow unmarked
    apply kept.resetLink otherBelow
    rintro rfl
    rw [valid] at unmarked
    cases unmarked
  · intro current given passed holder kept passedBelow holderBelow _ holds
      unmarked
    apply kept.assignLink passedBelow
    · intro same
      rw [← same, valid] at unmarked
      cases unmarked
    · intro stored same
      cases same
      exact kept.sound.entries holder holderBelow given holds
  · exact ProcTree.chain_of_mem live

theorem allocText (holding : Holding index entry link freed table)
    (content : Text) :
    Holding index entry link freed (table.allocText content).2 :=
  { sound := (holding.sound.allocText content).sound
    below := holding.below
    stored := holding.stored
    held := holding.held
    frees := holding.frees }

theorem createLink (holding : Holding index entry link freed table)
    {text : TextId} (known : text < table.texts.next) (allocated : Bool) :
    Holding index entry link freed (createLink text allocated table).2 :=
  { sound := (holding.sound.createLink known allocated).sound
    below := by
      rw [createLink_pid_max]
      exact holding.below
    stored := by
      rw [createLink_procs]
      exact holding.stored
    held := holding.held
    frees := by
      cases allocated with
      | false => exact holding.frees
      | true =>
          have old := Nat.ne_of_lt holding.known
          exact (Heap.alloc_frees_of_ne old).trans holding.frees }

theorem installed (holding : Holding index entry link freed table)
    {tree : ProcTree} {current : Task} {text : TextId}
    (known : text < table.texts.next) {allocated : Bool}
    (currentBelow : current.pid < table.pid_max)
    (different : index ≠ current.pid)
    (spared : ¬ stale (seenBy tree current index) entry) :
    Holding index entry link freed
      (installed tree current text allocated table) := by
  have cleaned := holding.cleanupLinks spared
  have created := cleaned.createLink
    (by rw [cleanupLinks_texts_next]; exact known) allocated
  apply created.assignLink _ different
  · intro stored same
    exact createLink_known same
  · rw [createLink_pid_max, cleanupLinks_pid_max]
    exact currentBelow

theorem misuse (holding : Holding index entry link freed table) (misuse : Nat) :
    Holding index entry link freed { table with misuse := misuse } :=
  { sound := (holding.sound.evolves_misuse misuse).sound
    below := holding.below
    stored := holding.stored
    held := holding.held
    frees := holding.frees }

end Holding

/-- The fork waits for the number of this process: its final `set_link` will
find it. -/
def Sys.Awaits (state : Sys) (fork : PendingFork) (pid : Nat) : Prop :=
  ∃ parent task nr,
    state.tree.find fork.parent = some parent ∧
    state.tree.find pid = some task ∧
    fork.child = some nr ∧
    task.nrIn parent.pid_ns = some nr

def Sys.Awaited (state : Sys) (pid : Nat) : Prop :=
  ∃ fork ∈ state.forks, state.Awaits fork pid

def Event.OwnAct (pid : Nat) : Event → Prop
  | .setchos caller _ _ _ => caller = pid
  | .resetchos caller => caller = pid
  | .exit caller => caller = pid
  | _ => False

instance (pid : Nat) : (event : Event) → Decidable (event.OwnAct pid)
  | .setchos caller _ _ _ => inferInstanceAs (Decidable (caller = pid))
  | .resetchos caller => inferInstanceAs (Decidable (caller = pid))
  | .exit caller => inferInstanceAs (Decidable (caller = pid))
  | .readlink _ => .isFalse id
  | .cleanup _ => .isFalse id
  | .begin _ => .isFalse id
  | .create _ _ => .isFalse id
  | .finish _ => .isFalse id
  | .chroot _ _ => .isFalse id
  | .writeValid _ _ _ _ => .isFalse id

/-- The process on whose behalf an event runs `cleanup_links`. -/
def Sys.cleaner (state : Sys) : Event → Option Task
  | .setchos caller buf count outcome =>
      if outcome.textAlloc ∧ accepts state.valid_paths (copied buf count)
      then state.current caller else none
  | .resetchos caller => state.current caller
  | .cleanup caller => state.current caller
  | _ => none

/-- A valid entry of this process is not stale to the cleanup the event
runs. -/
def Sys.Spares (pid : Nat) (state : Sys) (event : Event) : Prop :=
  ∀ current, state.cleaner event = some current →
    (state.tree.validLink state.table pid).isSome →
    ¬ stale (seenBy state.tree current pid) (state.table.procs pid)

theorem validLink_setchosTable_of_ne {tree : ProcTree}
    {paths : List ValidPath} {current : Task} {buf : List UInt8}
    {count : Nat} {outcome : SetchosOutcome} {table : Table} {pid : Nat}
    (different : pid ≠ current.pid)
    (initial : outcome.textAlloc ∧ accepts paths (copied buf count) →
      current.pid_ns = 0) :
    tree.validLink
        (setchosTable tree paths current buf count outcome table) pid =
      tree.validLink table pid := by
  simp only [setchosTable]
  split
  · rename_i textAlloc
    split
    · rename_i accepted
      have cleaned := @ProcTree.validLink_cleanupLinks_initial tree
        (table.allocText (copied buf count)).2 current
        (initial ⟨textAlloc, accepted⟩)
      refine Eq.trans (ProcTree.validLink_congr ?_) (congrFun cleaned pid)
      rw [installed, assignLink_procs, Function.update_of_ne different,
        createLink_procs]
    · rfl
  · rfl

theorem validLink_resetchos_of_ne {tree : ProcTree} {current : Task}
    (initial : current.pid_ns = 0) {table : Table} {pid caller : Nat}
    (different : pid ≠ caller) :
    tree.validLink
        (cleanupLinks (seenBy tree current) (resetLink caller table)) pid =
      tree.validLink table pid := by
  have cleaned := @ProcTree.validLink_cleanupLinks_initial tree
    (resetLink caller table) current initial
  refine (congrFun cleaned pid).trans (ProcTree.validLink_congr ?_)
  rw [resetLink_procs, Function.update_of_ne different]

theorem Sys.spares_of_initial {state : Sys} {event : Event} (pid : Nat)
    (initial : ∀ current, state.cleaner event = some current →
      current.pid_ns = 0) : state.Spares pid event := by
  intro current cleaning valid isStale
  have unmarked := ProcTree.validLink_of_stale
    (initial current cleaning) isStale
  rw [unmarked] at valid
  cases valid

namespace Sys

theorem Unused.nrIn_ne {state : Sys} {new : NewTask} {creator task : Task}
    (unused : state.Unused new) (live : task ∈ state.tree.tasks) {ns nr : Nat}
    (numbered : (new.toTask creator).nrIn ns = some nr) :
    task.nrIn ns ≠ some nr := by
  obtain ⟨otherPid, otherNumbers⟩ := unused task live
  unfold Task.nrIn at numbered ⊢
  split at numbered
  · rename_i initial
    rw [if_pos initial]
    intro same
    rw [← numbered] at same
    exact otherPid (Option.some.inj same)
  · rename_i below
    rw [if_neg below]
    have listed : (ns, nr) ∈ new.numbers := by
      obtain ⟨front, back, split, _⟩ := List.lookup_eq_some_iff.mp numbered
      have whole : new.numbers = front ++ (ns, nr) :: back := split
      simp [whole]
    have different := otherNumbers (ns, nr) listed
    rw [Task.nrIn, if_neg below] at different
    exact different

/-- A fork that starts after a process exists never waits for it. -/
theorem awaits_taken {state next : Sys} (sound : state.Sound)
    {event : Event} (taken : Taken state event next) {pid : Nat}
    {task : Task} (found : state.tree.find pid = some task)
    (stays : event ≠ .exit pid) {fork : PendingFork}
    (pending : fork ∈ next.forks) (awaits : next.Awaits fork pid) :
    fork ∈ state.forks ∧ state.Awaits fork pid := by
  obtain ⟨later, foundLater, same, _⟩ := taken.find found stays
  obtain ⟨parent, again, nr, foundParent, foundAgain, child, numbered⟩ :=
    awaits
  rw [foundLater, Option.some.injEq] at foundAgain
  subst foundAgain
  have older : fork ∈ state.forks → fork ∈ state.forks ∧
      state.Awaits fork pid := by
    intro old
    obtain ⟨before, foundBefore⟩ := sound.parents fork old
    obtain ⟨after, foundAfter, sameParent, _⟩ :=
      taken.find foundBefore (exit_ne_of_fork taken old)
    rw [foundAfter, Option.some.injEq] at foundParent
    subst foundParent
    rw [same.nrIn, sameParent.pid_ns] at numbered
    exact ⟨old, before, task, nr, foundBefore, found, child, numbered⟩
  cases taken with
  | begin running =>
      rcases List.mem_cons.mp pending with new | old
      · rw [new] at child
        cases child
      · exact older old
  | @create caller begun creator new inside alone foundCreator fits fresh
      parentLive =>
      rcases List.mem_cons.mp pending with created | old
      · subst created
        have samePid : begun.parent = caller := forkOf_parent inside
        have callerOld : caller ≠ (new.toTask creator).pid := by
          have different := fresh creator (ProcTree.find_mem foundCreator)
          rw [ProcTree.find_pid foundCreator] at different
          exact different
        have sameParent : parent = creator := by
          have kept := ProcTree.find_create_of_ne fresh parentLive callerOld
          rw [samePid] at foundParent
          exact Option.some.inj
            (foundParent.symm.trans (kept.trans foundCreator))
        rw [sameParent, same.nrIn] at numbered
        exact absurd numbered
          (fits.1.nrIn_ne (ProcTree.find_mem found) child)
      · exact older (dropFork_subset old)
  | finish inside foundCaller => exact older (dropFork_subset pending)
  | _ => exact older pending

theorem not_awaited_taken {state next : Sys} (sound : state.Sound)
    {event : Event} (taken : Taken state event next) {pid : Nat}
    {task : Task} (found : state.tree.find pid = some task)
    (stays : event ≠ .exit pid) (unawaited : ¬ state.Awaited pid) :
    ¬ next.Awaited pid := by
  rintro ⟨fork, pending, awaits⟩
  exact unawaited ⟨fork, awaits_taken sound taken found stays pending awaits⟩

/-- The process has a valid entry for the link, and no fork waits for
it. -/
structure Settles (pid : Nat) (link : LinkId) (freed : Nat) (state : Sys) :
    Prop where
  sound : state.Sound
  valid : state.tree.validLink state.table pid = some link
  frees : state.table.links.frees link = freed
  unawaited : ¬ state.Awaited pid

theorem Settles.holding {pid : Nat} {link : LinkId} {freed : Nat} {state : Sys}
    (settles : state.Settles pid link freed) :
    Holding pid (state.table.procs pid) link freed state.table := by
  obtain ⟨task, found, valid⟩ :=
    ProcTree.validLink_eq_some_iff.mp settles.valid
  have below := settles.sound.inRange task (ProcTree.find_mem found)
  rw [ProcTree.find_pid found] at below
  exact
    { sound := settles.sound.table
      below := below
      stored := rfl
      held := (validFor_link valid).1
      frees := settles.frees }

/-- The child a fork finds at its end is another process. -/
theorem ne_of_not_awaited {state : Sys} {pid caller : Nat}
    (unawaited : ¬ state.Awaited pid) {task : Task}
    (found : state.tree.find pid = some task) {fork : PendingFork}
    (inside : state.forkOf caller = some fork) {current : Task}
    (foundCaller : state.tree.find caller = some current) {nr : Nat}
    (child : fork.child = some nr) {other : Task}
    (seen : seenBy state.tree current nr = some other) :
    pid ≠ other.pid := by
  intro same
  have equal : other = task := by
    apply ProcTree.eq_of_pid_eq (findTaskByPidNs_mem seen)
      (ProcTree.find_mem found)
    rw [← same, ProcTree.find_pid found]
  apply unawaited
  refine ⟨fork, forkOf_mem inside, current, task, nr, ?_, found, child, ?_⟩
  · rw [forkOf_parent inside]
    exact foundCaller
  · rw [← equal]
    exact nrIn_of_findTaskByPidNs seen

theorem Settles.finishedTable {pid caller : Nat} {link : LinkId}
    {freed : Nat} {state : Sys} (settles : state.Settles pid link freed)
    {fork : PendingFork}
    (inside : state.forkOf caller = some fork) {current : Task}
    (found : state.tree.find caller = some current) :
    Holding pid (state.table.procs pid) link freed
      (state.finishedTable fork current) := by
  have holding := settles.holding
  have inRange := settles.sound.inRange
  obtain ⟨task, foundTask, _⟩ :=
    ProcTree.validLink_eq_some_iff.mp settles.valid
  unfold Sys.finishedTable
  cases child : fork.child with
  | none =>
      exact holding.lookedUp inRange (ProcTree.find_mem found) settles.valid
  | some nr =>
      dsimp only
      cases seen : seenBy state.tree current nr with
      | none => exact holding
      | some other =>
          have otherLive := findTaskByPidNs_mem seen
          apply holding.assignLink (inRange other otherLive)
          · exact ne_of_not_awaited settles.unawaited foundTask inside found
              child seen
          · exact settles.sound.parentLinks fork (forkOf_mem inside)

/-- What one event of other processes keeps. -/
theorem Settles.taken {pid : Nat} {link : LinkId} {freed : Nat}
    {state next : Sys} (settles : state.Settles pid link freed) {event : Event}
    (taken : Taken state event next) (others : ¬ event.OwnAct pid)
    (spares : state.Spares pid event) : next.Settles pid link freed := by
  have holding := settles.holding
  have sound := settles.sound
  have inRange := sound.inRange
  have isSome : (state.tree.validLink state.table pid).isSome := by
    rw [settles.valid]
    rfl
  obtain ⟨task, found, valid⟩ :=
    ProcTree.validLink_eq_some_iff.mp settles.valid
  have stays : event ≠ .exit pid := by
    rintro rfl
    exact others rfl
  have kept : Holding pid (state.table.procs pid) link freed next.table := by
    cases taken with
    | @setchos caller current buf count outcome running =>
        have currentPid := ProcTree.find_pid (current_find running)
        have different : pid ≠ current.pid := by
          rw [currentPid]
          exact fun same => others same.symm
        have filled := holding.allocText (copied buf count)
        simp only [setchosTable]
        split
        · rename_i textAlloc
          split
          · rename_i accepted
            apply filled.installed (Nat.lt_succ_self _)
              (current_below inRange running) different
            apply spares current _ isSome
            simp [cleaner, textAlloc, accepted, running]
          · exact filled
        · exact holding
    | @resetchos caller current running =>
        have callerBelow := current_below inRange running
        rw [ProcTree.find_pid (current_find running)] at callerBelow
        have reset := holding.resetLink callerBelow
          fun same => others same.symm
        exact reset.cleanupLinks (spares current running isSome)
    | @readlink caller current running =>
        have looked := holding.lookedUp inRange
          (ProcTree.find_mem (current_find running)) settles.valid
        rw [ProcTree.find_pid (current_find running)] at looked
        simp only [Sys.readTable]
        split
        · exact looked
        · exact looked.misuse _
    | @cleanup caller current running =>
        exact holding.cleanupLinks (spares current running isSome)
    | begin running =>
        have looked := holding.lookedUp inRange
          (ProcTree.find_mem (current_find running)) settles.valid
        rw [ProcTree.find_pid (current_find running)] at looked
        exact looked
    | finish inside foundCaller =>
        exact settles.finishedTable inside foundCaller
    | _ => exact holding
  obtain ⟨later, foundLater, same, _⟩ := taken.find found stays
  exact
    { sound := sound.taken taken
      valid := by
        apply ProcTree.validLink_eq_some_iff.mpr
        refine ⟨later, foundLater, ?_⟩
        rw [kept.stored, same.validFor]
        exact valid
      frees := kept.frees
      unawaited := not_awaited_taken sound taken found stays
        settles.unawaited }

theorem Settles.run {pid : Nat} {link : LinkId} {freed : Nat}
    {state final : Sys} (settles : state.Settles pid link freed) {events : List Event}
    (finished : run Sys.step state events = some final)
    (others : ∀ event ∈ events, ¬ event.OwnAct pid)
    (spared : Along Sys.step (Sys.Spares pid) state events) :
    final.Settles pid link freed := by
  have along := ((along_iff_forall_mem finished).mpr others).and spared
  apply run_invariant _ finished along settles
  rintro current event next kept ⟨other, spares⟩ stepped
  exact kept.taken ((step_iff_taken kept.sound.inRange).mp stepped) other
    spares

theorem Settles.lookup {pid : Nat} {link : LinkId} {freed : Nat} {state : Sys}
    (settles : state.Settles pid link freed) (above : 1 < pid) :
    state.tree.resolve state.table pid = some link ∧
      ∃ table, state.tree.lookup pid state.table = .ok (some link, table) := by
  obtain ⟨task, found, _⟩ := ProcTree.validLink_eq_some_iff.mp settles.valid
  have resolved := ProcTree.resolve_of_valid above settles.valid
  have looked := lookup_eq settles.sound.inRange found
  rw [resolved] at looked
  exact ⟨resolved, _, looked⟩

/-- An accepted write leaves a valid entry for a new link with its text. -/
theorem valid_of_setchos {state : Sys} (sound : state.Sound) {pid : Nat}
    {current : Task} (running : state.current pid = some current)
    {buf : List UInt8} {count : Nat} {outcome : SetchosOutcome}
    (textAlloc : outcome.textAlloc = true)
    (accepted : accepts state.valid_paths (copied buf count) = true)
    (linkAlloc : outcome.linkAlloc = true) {next : Sys}
    (taken : Taken state (.setchos pid buf count outcome) next) :
    next.tree.validLink next.table pid = some state.table.links.next ∧
      next.table.links.Live state.table.links.next ∧
      next.table.textOf state.table.links.next = trim buf count := by
  have found := current_find running
  have samePid := ProcTree.find_pid found
  subst samePid
  have below := current_below sound.inRange running
  obtain ⟨later, foundLater, same, _⟩ := taken.find found (by simp)
  cases taken with
  | setchos _ _ _ again =>
  rw [running, Option.some.injEq] at again
  subst again
  have table : setchosTable state.tree state.valid_paths current buf count
      outcome state.table =
        installed state.tree current state.table.texts.next true
          (state.table.allocText (copied buf count)).2 := by
    simp [setchosTable, textAlloc, accepted, linkAlloc]
  refine ⟨?_, ?_, ?_⟩
  · apply ProcTree.validLink_eq_some_iff.mpr
    refine ⟨later, foundLater, ?_⟩
    rw [same.validFor]
    simp only [table, installed, assignLink_procs, Function.update_self]
    simp [ChosProc.validFor, ChosProc.assigned, createLink,
      Table.allocText]
  · simp only [table]
    exact (sound.table.allocText (copied buf count)).sound.installed_live
      below _
  · simp only [table]
    refine (installed_textOf _ _ _ _).trans ?_
    rw [← copied_eq_trim]
    exact Heap.alloc_block_self _ _

theorem accepts_of_setchosResult {paths : List ValidPath}
    {buf : List UInt8} {count : Nat} {outcome : SetchosOutcome}
    (result : setchosResult paths buf count outcome = .ok count) :
    outcome.textAlloc = true ∧ accepts paths (copied buf count) = true := by
  unfold setchosResult at result
  split at result
  · split at result
    · exact ⟨by assumption, by assumption⟩
    · cases result
  · cases result

theorem settles_of_setchos {state next : Sys} (sound : state.Sound)
    {pid : Nat} {current : Task}
    (running : state.current pid = some current)
    {buf : List UInt8} {count : Nat} {outcome : SetchosOutcome}
    (wrote : state.setchos pid buf count outcome = some (.ok count, next))
    (allocated : outcome.linkAlloc = true)
    (unawaited : ¬ state.Awaited pid) :
    next.Settles pid state.table.links.next 0 ∧
      next.table.textOf state.table.links.next = trim buf count := by
  have found := current_find running
  have taken := Taken.setchos buf count outcome running
  rw [setchos_eq sound.inRange running, Option.some.injEq,
    Prod.mk.injEq] at wrote
  obtain ⟨result, rfl⟩ := wrote
  obtain ⟨textAlloc, accepted⟩ := accepts_of_setchosResult result
  obtain ⟨valid, live, text⟩ :=
    valid_of_setchos sound running textAlloc accepted allocated taken
  refine ⟨⟨sound.taken taken, valid, live.2, ?_⟩, text⟩
  exact not_awaited_taken sound taken found (by simp) unawaited

/-- Once a write has returned, every lookup of the writer finds what it set,
until it writes again or exits: no fork was waiting for the writer, and no
cleanup mistakes its entry for a stale one. -/
theorem lookup_after_setchos {pid_max : Nat} {tree : ProcTree}
    (below : ∀ task ∈ tree.tasks, task.pid < pid_max)
    {before : List Event} {state : Sys}
    (reached : run Sys.step (Sys.init pid_max tree) before = some state)
    {pid : Nat} (above : 1 < pid) {current : Task}
    (running : state.current pid = some current)
    {buf : List UInt8} {count : Nat} {outcome : SetchosOutcome} {next : Sys}
    (wrote : state.setchos pid buf count outcome = some (.ok count, next))
    (allocated : outcome.linkAlloc = true)
    (unawaited : ¬ state.Awaited pid)
    {events : List Event} {final : Sys}
    (finished : run Sys.step next events = some final)
    (others : ∀ event ∈ events, ¬ event.OwnAct pid)
    (spared : Along Sys.step (Sys.Spares pid) next events) :
    ∃ link table,
      final.tree.lookup pid final.table = .ok (some link, table) ∧
      final.table.links.Live link ∧
      final.table.textOf link = trim buf count := by
  have sound := (init_sound below).run reached
  obtain ⟨settles, text⟩ :=
    settles_of_setchos sound running wrote allocated unawaited
  have kept := settles.run finished others spared
  obtain ⟨_, table, looked⟩ := kept.lookup above
  have sameText := (settles.sound.run_evolves finished).textOf _
    settles.holding.known
  exact ⟨state.table.links.next, table, looked,
    ⟨kept.holding.known, kept.frees⟩, sameText.trans text⟩

theorem lookup_after_setchos_forked :
    ∃ state next final,
      run Sys.step (Sys.init 16 .boot)
        [.writeValid 0 [47, 97] 2 ⟨true, true⟩, .begin 1,
          .create 1 ⟨10, ⟨5, 0⟩, 0, []⟩, .finish 1, .begin 10,
          .create 10 ⟨11, ⟨6, 0⟩, 0, []⟩, .finish 10] = some state ∧
      state.setchos 11 [47, 97] 2 ⟨true, true, true, .other 0⟩ =
        some (.ok 2, next) ∧
      run Sys.step next [.resetchos 10, .readlink 11] = some final ∧
      ∃ link table,
        final.tree.lookup 11 final.table = .ok (some link, table) ∧
        final.table.links.Live link ∧
        final.table.textOf link = [47, 97] := by
  have ends : (run Sys.step (Sys.init 16 .boot)
      [.writeValid 0 [47, 97] 2 ⟨true, true⟩, .begin 1,
        .create 1 ⟨10, ⟨5, 0⟩, 0, []⟩, .finish 1, .begin 10,
        .create 10 ⟨11, ⟨6, 0⟩, 0, []⟩, .finish 10]).any
        (fun state => state.forks = [] ∧ (state.current 11).isSome ∧
          (state.setchos 11 [47, 97] 2 ⟨true, true, true, .other 0⟩).any
            fun wrote => wrote.1.toOption = some 2 ∧
              (wrote.2.current 10).map Task.pid_ns = some 0 ∧
              (run Sys.step wrote.2 [.resetchos 10, .readlink 11]).isSome) =
      true := by
    decide +kernel
  obtain ⟨state, reached, facts⟩ := (Option.any_eq_true _ _).mp ends
  obtain ⟨idle, live, writes⟩ := of_decide_eq_true facts
  obtain ⟨current, running⟩ := Option.isSome_iff_exists.mp live
  obtain ⟨⟨result, next⟩, wrote, facts⟩ := (Option.any_eq_true _ _).mp writes
  obtain ⟨returned, initial, completes⟩ := of_decide_eq_true facts
  have result : result = .ok 2 := eq_ok_of_toOption returned
  subst result
  obtain ⟨final, finished⟩ := Option.isSome_iff_exists.mp completes
  have unawaited : ¬ state.Awaited 11 := by
    rintro ⟨fork, pending, _⟩
    rw [idle] at pending
    cases pending
  have spared : Along Sys.step (Sys.Spares 11) next
      [.resetchos 10, .readlink 11] := by
    refine ⟨?_, ?_⟩
    · apply spares_of_initial
      intro caller cleaning
      have named : next.current 10 = some caller := cleaning
      rw [named] at initial
      exact Option.some.inj initial
    · intro later _
      refine ⟨?_, fun _ _ => trivial⟩
      intro caller impossible
      cases impossible
  obtain ⟨link, table, looked, linkLive, text⟩ := lookup_after_setchos
    (ProcTree.boot_below (by decide)) reached (by decide) running wrote rfl
    unawaited finished (by simp [Event.OwnAct]) spared
  exact ⟨state, next, final, reached, wrote, finished, link, table, looked,
    linkLive, text.trans (by decide)⟩

/-- Process 11 writes while its parent is still inside `do_fork`; the fork
then stores the link the parent had before. -/
theorem fork_overwrites_setchos :
    ∃ state next final,
      run Sys.step (Sys.init 16 .boot)
        [.writeValid 0 [47, 97] 2 ⟨true, true⟩, .begin 1,
          .create 1 ⟨10, ⟨5, 0⟩, 0, []⟩, .finish 1, .begin 10,
          .create 10 ⟨11, ⟨6, 0⟩, 0, []⟩] = some state ∧
      state.setchos 11 [47, 97] 2 ⟨true, true, true, .other 0⟩ =
        some (.ok 2, next) ∧
      next.tree.resolve next.table 11 = some 0 ∧
      next.table.textOf 0 = [47, 97] ∧
      run Sys.step next [.finish 10] = some final ∧
      ∃ table, final.tree.lookup 11 final.table = .ok (none, table) := by
  have ends : (run Sys.step (Sys.init 16 .boot)
      [.writeValid 0 [47, 97] 2 ⟨true, true⟩, .begin 1,
        .create 1 ⟨10, ⟨5, 0⟩, 0, []⟩, .finish 1, .begin 10,
        .create 10 ⟨11, ⟨6, 0⟩, 0, []⟩]).any
        (fun state =>
          (state.setchos 11 [47, 97] 2 ⟨true, true, true, .other 0⟩).any
            fun wrote => wrote.1.toOption = some 2 ∧
              wrote.2.tree.resolve wrote.2.table 11 = some 0 ∧
              wrote.2.table.textOf 0 = [47, 97] ∧
              (run Sys.step wrote.2 [.finish 10]).any fun final =>
                (final.tree.lookup 11 final.table).toOption.any
                  fun found => found.1 = none) = true := by
    decide +kernel
  obtain ⟨state, reached, writes⟩ := (Option.any_eq_true _ _).mp ends
  obtain ⟨⟨result, next⟩, wrote, facts⟩ := (Option.any_eq_true _ _).mp writes
  obtain ⟨returned, resolved, text, ended⟩ := of_decide_eq_true facts
  obtain ⟨final, finished, looked⟩ := (Option.any_eq_true _ _).mp ended
  obtain ⟨⟨link, table⟩, looked, lost⟩ := (Option.any_eq_true _ _).mp looked
  have lost : link = none := of_decide_eq_true lost
  subst lost
  have result : result = .ok 2 := eq_ok_of_toOption returned
  subst result
  exact ⟨state, next, final, reached, wrote, resolved, text, finished,
    table, eq_ok_of_toOption looked⟩

end Sys

end Chos.Kernel
