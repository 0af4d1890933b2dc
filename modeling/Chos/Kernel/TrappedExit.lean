import Chos.Kernel.Agreement
import Chos.Kernel.Inheritance

/-!
# Exits that are trapped

Built with `SCT`, the module replaces the system calls `exit` and
`exit_group` instead of wrapping `do_fork`: a child gets no link when it is
created, and before a process is gone the link of each of its children is
looked up once more.  The children are then independent of the process they
were about to lose, so nobody who stays resolves to anything else.
-/

namespace Chos.Kernel

open Chos.Library

def ProcTree.children (tree : ProcTree) (pid : Nat) : List Task :=
  tree.tasks.filter fun task => task.parent = pid

/-- The loop both system calls begin with. -/
def lookupChildren (tree : ProcTree) :
    List Task → Table → Except Stop Table
  | [], table => .ok table
  | task :: list, table => do
      let (_, table) ← tree.lookup task.pid table
      lookupChildren tree list table

/-- The children are looked up, then the original system call runs. -/
def trappedExit (tree : ProcTree) (current : Task) (table : Table) :
    Except Stop (ProcTree × Table) := do
  let table ← lookupChildren tree (tree.children current.pid) table
  return (tree.exit current.pid, table)

def mySysExit (tree : ProcTree) (current : Task) (table : Table) :
    Except Stop (ProcTree × Table) :=
  trappedExit tree current table

def mySysExitGroup (tree : ProcTree) (current : Task) (table : Table) :
    Except Stop (ProcTree × Table) :=
  trappedExit tree current table

/-- The events of an `SCT` build: a fork is the kernel's own, an exit comes
through one of the two system calls. -/
inductive TrappedEvent where
  | handler (event : Event)
  | fork (pid : Nat) (new : NewTask)
  | exit (pid : Nat)
  | exitGroup (pid : Nat)
  deriving DecidableEq, Repr

/-- Exits that do not come through a system call are none of the machine's
events. -/
def Event.isExit : Event → Bool
  | .exit _ => true
  | _ => false

namespace Sys

/-- `do_fork` as the kernel has it. -/
def plainFork (state : Sys) (pid : Nat) (new : NewTask) : Option Sys :=
  match found : state.tree.find pid with
  | none => none
  | some creator =>
      if fits : state.Creatable creator new then
        some { state with
          tree := state.tree.create (new.toTask creator)
            (fun task live => (fits.1 task live).1)
            (by
              have samePid := ProcTree.find_pid found
              change (state.tree.find creator.pid).isSome = true
              rw [samePid, found]
              rfl) }
      else none

def leave (state : Sys) (pid : Nat)
    (systemCall : ProcTree → Task → Table → Except Stop (ProcTree × Table)) :
    Option Sys :=
  match state.tree.find pid with
  | none => none
  | some current =>
      if 1 < pid then
        match systemCall state.tree current state.table with
        | .error _ => none
        | .ok (tree, table) => some { state with tree := tree, table := table }
      else none

def trappedStep (state : Sys) : TrappedEvent → Option Sys
  | .handler event =>
      if event.isPhase ∨ event.isExit then none else state.step event
  | .fork pid new => state.plainFork pid new
  | .exit pid => state.leave pid mySysExit
  | .exitGroup pid => state.leave pid mySysExitGroup

end Sys

/-- The table after the lookups of a list of tasks. -/
def ProcTree.lookedUpEach (tree : ProcTree) (table : Table)
    (list : List Task) : Table :=
  list.foldl (fun table task => tree.lookedUp table task.pid) table

namespace ProcTree

variable {tree : ProcTree}

@[simp] theorem lookedUpEach_nil (table : Table) :
    tree.lookedUpEach table [] = table := rfl

theorem lookedUpEach_cons (table : Table) (task : Task) (list : List Task) :
    tree.lookedUpEach table (task :: list) =
      tree.lookedUpEach (tree.lookedUp table task.pid) list := rfl

theorem InRange.lookedUp {table : Table} (inRange : tree.InRange table)
    (pid : Nat) : tree.InRange (tree.lookedUp table pid) :=
  Sys.inRange_congr inRange (lookedUp_pid_max tree table pid)

theorem lookupChildren_eq {table : Table} (inRange : tree.InRange table)
    {list : List Task} (live : ∀ task ∈ list, task ∈ tree.tasks) :
    lookupChildren tree list table = .ok (tree.lookedUpEach table list) := by
  induction list generalizing table with
  | nil => rfl
  | cons task list induction =>
      have first := lookup_eq inRange (live task List.mem_cons_self)
      have later : ∀ other ∈ list, other ∈ tree.tasks :=
        fun other inside => live other (List.mem_cons_of_mem _ inside)
      rw [lookupChildren, first]
      exact induction (inRange.lookedUp task.pid) later

theorem lookedUpEach_induction (property : Table → Prop)
    (kept : ∀ table task, property table → task ∈ tree.tasks →
      property (tree.lookedUp table task.pid))
    {table : Table} (initially : property table) {list : List Task}
    (live : ∀ task ∈ list, task ∈ tree.tasks) :
    property (tree.lookedUpEach table list) := by
  induction list generalizing table with
  | nil => exact initially
  | cons task list induction =>
      apply induction
      · exact kept table task initially (live task List.mem_cons_self)
      · intro other inside
        exact live other (List.mem_cons_of_mem _ inside)

theorem resolve_lookedUpEach (table : Table) {list : List Task}
    (live : ∀ task ∈ list, task ∈ tree.tasks) {other : Task}
    (otherLive : other ∈ tree.tasks) :
    tree.resolve (tree.lookedUpEach table list) other.pid =
      tree.resolve table other.pid := by
  apply lookedUpEach_induction
    (fun newer => tree.resolve newer other.pid =
      tree.resolve table other.pid)
  · intro newer task same taskLive
    rw [resolve_lookedUp taskLive otherLive]
    exact same
  · rfl
  · exact live

theorem validLink_lookedUp_of_valid {table : Table} {pid : Nat}
    {link : LinkId} (valid : tree.validLink table pid = some link)
    (caller : Nat) :
    tree.validLink (tree.lookedUp table caller) pid = some link := by
  rw [← valid]
  apply validLink_congr
  apply lookedUp_procs_of_not_mem
  intro passed
  rw [mark_of_mem_beforeHit passed] at valid
  cases valid

theorem validLink_lookedUpEach_of_valid {table : Table} {pid : Nat}
    {link : LinkId} (valid : tree.validLink table pid = some link)
    {list : List Task} (live : ∀ task ∈ list, task ∈ tree.tasks) :
    tree.validLink (tree.lookedUpEach table list) pid = some link := by
  apply lookedUpEach_induction
    (fun newer => tree.validLink newer pid = some link)
  · intro newer task marked _
    exact validLink_lookedUp_of_valid marked task.pid
  · exact valid
  · exact live

/-- Who was looked up and resolves to a link has an entry of its own for
it. -/
theorem validLink_lookedUpEach {table : Table} {list : List Task}
    (live : ∀ task ∈ list, task ∈ tree.tasks) {task : Task}
    (inside : task ∈ list) {link : LinkId}
    (resolved : tree.resolve table task.pid = some link) :
    tree.validLink (tree.lookedUpEach table list) task.pid = some link := by
  induction list generalizing table with
  | nil => cases inside
  | cons first list induction =>
      have firstLive := live first List.mem_cons_self
      have later : ∀ other ∈ list, other ∈ tree.tasks :=
        fun other member => live other (List.mem_cons_of_mem _ member)
      rw [lookedUpEach_cons]
      rcases List.mem_cons.mp inside with same | among
      · apply validLink_lookedUpEach_of_valid _ later
        rw [same] at resolved ⊢
        exact validLink_lookedUp_self firstLive resolved
      · apply induction later among
        rw [resolve_lookedUp firstLive (later task among)]
        exact resolved

end ProcTree

namespace ProcTree

variable {tree : ProcTree}

theorem mem_children {pid : Nat} {task : Task} :
    task ∈ tree.children pid ↔ task ∈ tree.tasks ∧ task.parent = pid := by
  simp [children]

theorem children_live (pid : Nat) :
    ∀ task ∈ tree.children pid, task ∈ tree.tasks :=
  fun _ inside => (mem_children.mp inside).1

/-- The table the exiting process leaves behind. -/
def leftTable (tree : ProcTree) (table : Table) (pid : Nat) : Table :=
  tree.lookedUpEach table (tree.children pid)

theorem trappedExit_eq {table : Table} (inRange : tree.InRange table)
    (current : Task) :
    trappedExit tree current table =
      .ok (tree.exit current.pid, tree.leftTable table current.pid) := by
  rw [trappedExit, lookupChildren_eq inRange (children_live current.pid)]
  rfl

theorem resolve_leftTable (table : Table) (gone : Nat) {task : Task}
    (live : task ∈ tree.tasks) :
    tree.resolve (tree.leftTable table gone) task.pid =
      tree.resolve table task.pid :=
  resolve_lookedUpEach table (children_live gone) live

theorem marked_leftTable (table : Table) (gone pid : Nat)
    (unmarked : tree.validLink (tree.leftTable table gone) pid = none) :
    tree.validLink table pid = none := by
  cases valid : tree.validLink table pid with
  | none => rfl
  | some link =>
      have live : ∀ task ∈ tree.children gone, task ∈ tree.tasks :=
        children_live gone
      have kept := validLink_lookedUpEach_of_valid valid live
      rw [leftTable] at unmarked
      rw [unmarked] at kept
      cases kept

/-- After the lookups of its children, nobody relies on the exiting process
but those who find no link. -/
theorem resolve_eq_none_of_relies (table : Table) {gone : Nat} {task : Task}
    (live : task ∈ tree.tasks) (different : task.pid ≠ gone)
    (relies : gone ∈ upToHit
      (tree.validLink (tree.leftTable table gone)) (tree.chain task.pid)) :
    tree.resolve table task.pid = none := by
  have climb := chain_of_mem live
  -- the child below the exiting process was passed, so it has no entry
  obtain ⟨child, passed, above⟩ :=
    climb.exists_passed_child relies (Ne.symm different)
  obtain ⟨owner, found, parent⟩ := Option.map_eq_some_iff.mp above
  have found : tree.find child = some owner := found
  have ownPid := find_pid found
  subst ownPid
  have among : owner ∈ tree.children gone :=
    mem_children.mpr ⟨find_mem found, parent⟩
  have unmarked := mark_of_mem_beforeHit passed
  obtain ⟨lower, lowerClimb, same⟩ :=
    climb.resolves_of_mem_upToHit (mem_upToHit_of_mem_beforeHit passed)
  have lowerEq : tree.chain owner.pid = lower := Chain.chain_eq lowerClimb
  rw [← resolve_leftTable table gone live, resolve, ← same, ← lowerEq]
  cases resolved : tree.resolve table owner.pid with
  | some link =>
      have marked :=
        validLink_lookedUpEach (children_live gone) among resolved
      rw [leftTable] at unmarked
      rw [unmarked] at marked
      cases marked
  | none =>
      rw [← resolve_leftTable table gone (find_mem found)] at resolved
      exact resolved

theorem validLink_exit_of_ne {gone pid : Nat} (different : pid ≠ gone)
    (table : Table) :
    (tree.exit gone).validLink table pid = tree.validLink table pid := by
  rw [validLink, validLink, find_exit_of_ne different]
  cases tree.find pid with
  | none => rfl
  | some task => simp [ChosProc.validFor]

/-- Whoever survives a trapped exit resolves as before. -/
theorem resolve_trappedExit (table : Table) {gone : Nat} {task : Task}
    (live : task ∈ tree.tasks) (different : task.pid ≠ gone) :
    (tree.exit gone).resolve (tree.leftTable table gone) task.pid =
      tree.resolve table task.pid := by
  have climb := (chain_of_mem live).exit different
  have marks : ∀ member ∈ (tree.chain task.pid).takeWhile (· ≠ gone),
      (tree.exit gone).validLink (tree.leftTable table gone) member =
        tree.validLink (tree.leftTable table gone) member := by
    intro member inside
    have other : member ≠ gone := by
      simpa using List.mem_takeWhile_imp inside
    exact validLink_exit_of_ne other _
  rw [resolve, climb.chain_eq, findSome?_congr marks]
  by_cases relies : gone ∈ upToHit
      (tree.validLink (tree.leftTable table gone)) (tree.chain task.pid)
  · rw [resolve_eq_none_of_relies table live different relies]
    exact findSome?_cut_of_mem_upToHit relies
  · rw [findSome?_cut_of_not_mem_upToHit relies]
    exact resolve_leftTable table gone live

end ProcTree

def TrappedEvent.leaver : TrappedEvent → Option Nat
  | .exit pid => some pid
  | .exitGroup pid => some pid
  | _ => none

namespace Sys

/-- What each event needs and does. -/
inductive TrappedTaken (state : Sys) : TrappedEvent → Sys → Prop where
  | handler {event : Event} {next : Sys}
      (handler : event.isPhase = false) (stays : event.isExit = false)
      (taken : Taken state event next) :
      TrappedTaken state (.handler event) next
  | fork {pid : Nat} {creator : Task} {new : NewTask}
      (found : state.tree.find pid = some creator)
      (fits : state.Creatable creator new)
      (fresh : ∀ task ∈ state.tree.tasks,
        task.pid ≠ (new.toTask creator).pid)
      (parentLive : (state.tree.find (new.toTask creator).parent).isSome) :
      TrappedTaken state (.fork pid new)
        { state with
          tree := state.tree.create (new.toTask creator) fresh parentLive }
  | leave {event : TrappedEvent} {pid : Nat} {current : Task}
      (leaves : event.leaver = some pid)
      (found : state.tree.find pid = some current) (above : 1 < pid) :
      TrappedTaken state event
        { state with
          tree := state.tree.exit pid
          table := state.tree.leftTable state.table pid }

theorem leave_trappedTaken {state next : Sys} (inRange : state.InRange)
    {event : TrappedEvent} {pid : Nat} (leaves : event.leaver = some pid)
    (left : state.leave pid trappedExit = some next) :
    TrappedTaken state event next := by
  simp only [leave] at left
  cases found : state.tree.find pid with
  | none =>
      rw [found] at left
      cases left
  | some current =>
      rw [found] at left
      dsimp only at left
      split at left
      · rename_i above
        rw [ProcTree.trappedExit_eq inRange current] at left
        dsimp only at left
        rw [ProcTree.find_pid found] at left
        cases left
        exact .leave leaves found above
      · cases left

theorem trappedTaken_of_step {state next : Sys} (inRange : state.InRange)
    {event : TrappedEvent} (stepped : state.trappedStep event = some next) :
    TrappedTaken state event next := by
  cases event with
  | handler event =>
      simp only [trappedStep] at stepped
      split at stepped
      · cases stepped
      · rename_i shared
        simp only [not_or, Bool.not_eq_true] at shared
        exact .handler shared.1 shared.2 (taken_of_step inRange stepped)
  | fork pid new =>
      simp only [trappedStep, plainFork] at stepped
      split at stepped
      · cases stepped
      · rename_i creator found
        split at stepped
        · rename_i fits
          cases stepped
          exact .fork found fits _ _
        · cases stepped
  | exit pid => exact leave_trappedTaken inRange rfl stepped
  | exitGroup pid => exact leave_trappedTaken inRange rfl stepped

theorem Sound.leftTable {state : Sys} (sound : state.Sound) (pid : Nat) :
    state.table.Evolves (state.tree.leftTable state.table pid) := by
  have kept : state.tree.InRange (state.tree.leftTable state.table pid) ∧
      state.table.Evolves (state.tree.leftTable state.table pid) := by
    apply ProcTree.lookedUpEach_induction (fun newer =>
      state.tree.InRange newer ∧ state.table.Evolves newer)
    · intro newer task evolved live
      refine ⟨evolved.1.lookedUp task.pid, ?_⟩
      exact evolved.2.trans (evolved.2.sound.lookedUp evolved.1 live)
    · exact ⟨sound.inRange, sound.table.evolves⟩
    · exact ProcTree.children_live pid
  exact kept.2

theorem Settled.leftTable {state : Sys} (settled : state.Settled)
    (pid : Nat) :
    Healthy none (state.tree.leftTable state.table pid) := by
  have kept : state.tree.InRange (state.tree.leftTable state.table pid) ∧
      Healthy none (state.tree.leftTable state.table pid) := by
    apply ProcTree.lookedUpEach_induction (fun newer =>
      state.tree.InRange newer ∧ Healthy none newer)
    · intro newer task healthy live
      exact ⟨healthy.1.lookedUp task.pid,
        healthy.2.lookedUp healthy.1 live⟩
    · exact ⟨settled.sound.inRange, settled.healthy⟩
    · exact ProcTree.children_live pid
  exact kept.2

theorem sound_of_idle {state : Sys} (idle : state.forks = [])
    (inRange : state.InRange) (table : state.table.Sound) : state.Sound := by
  refine ⟨inRange, table, ?_, ?_⟩
  · intro fork pending
    rw [idle] at pending
    cases pending
  · intro fork pending
    rw [idle] at pending
    cases pending

/-- What one event of an `SCT` build keeps. -/
theorem Settled.trapped {state next : Sys} (settled : state.Settled)
    {event : TrappedEvent} (taken : TrappedTaken state event next) :
    next.Settled := by
  have sound := settled.sound
  cases taken with
  | handler handler _ taken =>
      have kept := settled.single handler taken
      exact ⟨sound.taken taken, kept.1, kept.2⟩
  | fork found fits fresh parentLive =>
      refine ⟨sound_of_idle settled.idle ?_ sound.table, settled.healthy,
        settled.idle⟩
      exact inRange_create sound.inRange fits.2.2.1 fresh parentLive
  | @leave _ pid _ _ found above =>
      have evolves := sound.leftTable pid
      refine ⟨sound_of_idle settled.idle ?_ evolves.sound,
        settled.leftTable pid, settled.idle⟩
      exact inRange_exit (inRange_congr sound.inRange evolves.pid_max) pid

end Sys

def TrappedEvent.births (born : List (Nat × Nat)) :
    TrappedEvent → List (Nat × Nat)
  | .fork _ new => (new.pid, new.start_time.tv_sec) :: born
  | _ => born

/-- The family gains what its members create and loses who exits. -/
def TrappedEvent.heirs (family : List Nat) : TrappedEvent → List Nat
  | .handler _ => family
  | .fork caller new =>
      if caller ∈ family then new.pid :: family else family
  | .exit pid => family.filter (· ≠ pid)
  | .exitGroup pid => family.filter (· ≠ pid)

/-- Members of the family do not write, cleanups run in the initial
namespace, and no task gets the pid of one that started in the same
second. -/
def Lineage.Tolerates (lineage : Lineage) : TrappedEvent → Prop
  | .handler event =>
      (∀ pid ∈ lineage.family, ¬ event.OwnAct pid) ∧
        ∀ current ∈ lineage.sys.cleaner event, current.pid_ns = 0
  | .fork _ new => (new.pid, new.start_time.tv_sec) ∉ lineage.born
  | .exit _ => True
  | .exitGroup _ => True

instance (lineage : Lineage) :
    (event : TrappedEvent) → Decidable (lineage.Tolerates event)
  | .handler _ => inferInstanceAs (Decidable (_ ∧ _))
  | .fork _ _ => inferInstanceAs (Decidable (_ ∉ _))
  | .exit _ => .isTrue trivial
  | .exitGroup _ => .isTrue trivial

namespace Lineage

def trappedAfter (lineage : Lineage) (event : TrappedEvent) (next : Sys) :
    Lineage :=
  { sys := next
    born := event.births lineage.born
    family := event.heirs lineage.family }

def trappedStep (lineage : Lineage) (event : TrappedEvent) :
    Option Lineage :=
  (lineage.sys.trappedStep event).map (lineage.trappedAfter event)

end Lineage

theorem Recorded.trapped {born : List (Nat × Nat)} {state next : Sys}
    (recorded : Recorded born state) {event : TrappedEvent}
    (taken : Sys.TrappedTaken state event next) :
    Recorded (event.births born) next := by
  cases taken with
  | @handler inner _ handler _ taken =>
      have kept := recorded.taken taken
      cases inner with
      | create => cases handler
      | _ => exact kept
  | fork found fits fresh parentLive =>
      refine ⟨?_, ?_⟩
      · intro index filled
        exact List.mem_cons_of_mem _ (recorded.entries index filled)
      · intro task live
        rcases (ProcTree.mem_create fresh parentLive).mp live with same | old
        · rw [same]
          exact List.mem_cons_self
        · exact List.mem_cons_of_mem _ (recorded.alive task old)
  | @leave _ pid _ leaves found above =>
      have same : event.births born = born := by
        cases event with
        | fork => cases leaves
        | _ => rfl
      rw [same]
      refine ⟨?_, ?_⟩
      · apply ProcTree.lookedUpEach_induction (fun newer => ∀ index,
          (newer.procs index).link ≠ none →
            (index, (newer.procs index).start_time) ∈ born)
        · intro newer task entries live index filled
          have written := Sys.written_lookedUp newer live index
          generalize (state.tree.lookedUp newer task.pid).procs index =
            entry at written filled
          cases written with
          | kept => exact entries index filled
          | cleared => exact absurd rfl filled
          | assigned link foundOwner =>
              have alive := recorded.alive _ (ProcTree.find_mem foundOwner)
              rw [ProcTree.find_pid foundOwner] at alive
              exact alive
        · exact recorded.entries
        · exact ProcTree.children_live pid
      · intro task live
        obtain ⟨old, oldLive, _, rfl⟩ := ProcTree.mem_exit.mp live
        rw [ProcTree.reparent_pid, ProcTree.reparent_start_time]
        exact recorded.alive old oldLive

namespace Lineage

/-- A member of the family resolves to the link, and all it relies on for
that are members. -/
structure Kin (link : LinkId) (lineage : Lineage) (pid : Nat) : Prop where
  above : 1 < pid
  found : ∃ task, lineage.sys.tree.find pid = some task
  resolved : lineage.sys.tree.resolve lineage.sys.table pid = some link
  within : upToHit (lineage.sys.tree.validLink lineage.sys.table)
    (lineage.sys.tree.chain pid) ⊆ lineage.family

structure Endows (link : LinkId) (lineage : Lineage) : Prop where
  settled : lineage.sys.Settled
  recorded : Recorded lineage.born lineage.sys
  kin : ∀ pid ∈ lineage.family, lineage.Kin link pid

section Step

variable {link : LinkId} {lineage : Lineage}

/-- A lookup fills a member's entry only with the link of the family. -/
theorem Endows.mark_lookedUp (endows : lineage.Endows link) {pid : Nat}
    (member : pid ∈ lineage.family) {caller : Nat} {current : Task}
    (found : lineage.sys.tree.find caller = some current) :
    lineage.sys.tree.validLink
        (lineage.sys.tree.lookedUp lineage.sys.table caller) pid =
        lineage.sys.tree.validLink lineage.sys.table pid ∨
      lineage.sys.tree.validLink
        (lineage.sys.tree.lookedUp lineage.sys.table caller) pid =
        some link := by
  have callerPid := ProcTree.find_pid found
  subst callerPid
  have completes := @ProcTree.lookedUp_completes lineage.sys.tree
    lineage.sys.table current (ProcTree.find_mem found) pid
  rcases completes with same | ⟨filled, lower, valid, climb, resolved⟩
  · exact .inl same
  · right
    have climb : lineage.sys.tree.Chain pid lower := climb
    have expected := (endows.kin pid member).resolved
    rw [ProcTree.resolve, climb.chain_eq, resolved] at expected
    rw [valid]
    exact expected

/-- What the handlers of others do to a member's entry. -/
theorem Endows.mark_taken (endows : lineage.Endows link) {event : Event}
    (tolerates : lineage.Tolerates (.handler event))
    (handler : event.isPhase = false) (stays : event.isExit = false)
    {next : Sys} (taken : Sys.Taken lineage.sys event next) {pid : Nat}
    (member : pid ∈ lineage.family) :
    next.tree.validLink next.table pid =
        lineage.sys.tree.validLink lineage.sys.table pid ∨
      next.tree.validLink next.table pid = some link := by
  obtain ⟨outside, initial⟩ := tolerates
  have others := outside pid member
  cases taken with
  | @setchos caller current buf count outcome running =>
      left
      have different : pid ≠ current.pid := by
        rw [ProcTree.find_pid (Sys.current_find running)]
        exact fun same => others same.symm
      rw [ProcTree.validLink_setRoot]
      apply validLink_setchosTable_of_ne different
      intro installs
      apply initial
      simp [Sys.cleaner, installs, running]
  | @resetchos caller current running =>
      left
      exact validLink_resetchos_of_ne (initial current running)
        fun same => others same.symm
  | readlink running =>
      have looked := endows.mark_lookedUp member (Sys.current_find running)
      simp only [Sys.readTable]
      split
      · exact looked
      · exact looked
  | @cleanup caller current running =>
      left
      exact congrFun (ProcTree.validLink_cleanupLinks_initial
        (initial current running)) pid
  | chroot =>
      left
      exact congrFun (ProcTree.validLink_setRoot _ _ _ _) pid
  | writeValid => exact .inl rfl
  | begin => cases handler
  | create => cases handler
  | finish => cases handler
  | exit => cases stays

theorem chain_taken {state next : Sys} {event : Event}
    (handler : event.isPhase = false) (stays : event.isExit = false)
    (taken : Sys.Taken state event next) (pid : Nat) :
    next.tree.chain pid = state.tree.chain pid := by
  cases taken with
  | setchos => exact ProcTree.chain_setRoot _ _ _ _
  | chroot => exact ProcTree.chain_setRoot _ _ _ _
  | begin => cases handler
  | create => cases handler
  | finish => cases handler
  | exit => cases stays
  | _ => rfl

theorem Endows.kin_handler (endows : lineage.Endows link) {event : Event}
    (tolerates : lineage.Tolerates (.handler event))
    (handler : event.isPhase = false) (stays : event.isExit = false)
    {next : Sys} (taken : Sys.Taken lineage.sys event next) {pid : Nat}
    (member : pid ∈ lineage.family) :
    (lineage.trappedAfter (.handler event) next).Kin link pid := by
  have kin := endows.kin pid member
  obtain ⟨task, found⟩ := kin.found
  have remains : event ≠ .exit pid := by
    rintro rfl
    cases stays
  obtain ⟨later, foundLater, _⟩ := taken.find found remains
  have marks : ∀ other ∈ upToHit
      (lineage.sys.tree.validLink lineage.sys.table)
      (lineage.sys.tree.chain pid),
      next.tree.validLink next.table other =
          lineage.sys.tree.validLink lineage.sys.table other ∨
        next.tree.validLink next.table other = some link := by
    intro other inside
    exact endows.mark_taken tolerates handler stays taken
      (kin.within inside)
  have sameChain := chain_taken handler stays taken pid
  refine ⟨kin.above, ⟨later, foundLater⟩, ?_, ?_⟩
  · simp only [trappedAfter, ProcTree.resolve, sameChain]
    exact findSome?_of_upToHit kin.resolved marks
  · simp only [trappedAfter, sameChain]
    apply List.Subset.trans _ kin.within
    apply upToHit_subset
    intro other inside unmarked
    rcases marks other inside with same | given
    · rw [← same]
      exact unmarked
    · rw [given] at unmarked
      cases unmarked

end Step

section Fork

variable {link : LinkId} {lineage : Lineage} {creator : Task}
  {new : NewTask}
  (fresh : ∀ task ∈ lineage.sys.tree.tasks,
    task.pid ≠ (new.toTask creator).pid)
  (parentLive :
    (lineage.sys.tree.find (new.toTask creator).parent).isSome)

theorem older_fork {pid : Nat} {task : Task}
    (found : lineage.sys.tree.find pid = some task) :
    let forked :=
      lineage.sys.tree.create (new.toTask creator) fresh parentLive
    forked.chain pid = lineage.sys.tree.chain pid ∧
      ∀ member ∈ lineage.sys.tree.chain pid,
        forked.validLink lineage.sys.table member =
          lineage.sys.tree.validLink lineage.sys.table member := by
  intro forked
  have samePid := ProcTree.find_pid found
  subst samePid
  have climb := ProcTree.chain_of_mem (ProcTree.find_mem found)
  have climbLater : forked.Chain task.pid _ := climb.create fresh parentLive
  refine ⟨climbLater.chain_eq, ?_⟩
  intro member inside
  obtain ⟨owner, foundOwner⟩ := climb.find_isSome inside
  have different : member ≠ (new.toTask creator).pid := by
    rw [← ProcTree.find_pid foundOwner]
    exact fresh owner (ProcTree.find_mem foundOwner)
  have sameFind : forked.find member = lineage.sys.tree.find member :=
    ProcTree.find_create_of_ne fresh parentLive different
  rw [ProcTree.validLink, ProcTree.validLink, sameFind]

include fresh parentLive in
theorem Kin.fork {pid : Nat} (kin : lineage.Kin link pid) (caller : Nat) :
    (lineage.trappedAfter (.fork caller new)
      { lineage.sys with
        tree := lineage.sys.tree.create (new.toTask creator) fresh
          parentLive }).Kin link pid := by
  obtain ⟨task, found⟩ := kin.found
  obtain ⟨sameChain, marks⟩ := older_fork fresh parentLive found
  have different : pid ≠ (new.toTask creator).pid := by
    rw [← ProcTree.find_pid found]
    exact fresh task (ProcTree.find_mem found)
  refine ⟨kin.above, ⟨task, ?_⟩, ?_, ?_⟩
  · exact (ProcTree.find_create_of_ne fresh parentLive different).trans found
  · simp only [trappedAfter, ProcTree.resolve, sameChain]
    rw [findSome?_congr marks]
    exact kin.resolved
  · simp only [trappedAfter, sameChain]
    intro member inside
    have old : member ∈ lineage.family := by
      apply kin.within
      refine upToHit_subset ?_ inside
      intro other among unmarked
      rw [← marks other (mem_of_mem_upToHit among)]
      exact unmarked
    simp only [TrappedEvent.heirs]
    split
    · exact List.mem_cons_of_mem _ old
    · exact old

/-- The child of a member has no entry of its own and relies on its
creator. -/
theorem Endows.kin_child (endows : lineage.Endows link)
    (fits : lineage.sys.Creatable creator new)
    (unborn : (new.pid, new.start_time.tv_sec) ∉ lineage.born)
    (member : creator.pid ∈ lineage.family) :
    (lineage.trappedAfter (.fork creator.pid new)
      { lineage.sys with
        tree := lineage.sys.tree.create (new.toTask creator) fresh
          parentLive }).Kin link new.pid := by
  have parent := (endows.kin creator.pid member).fork fresh parentLive
    creator.pid
  have self := ProcTree.find_create_self fresh parentLive
  have above : 1 < (new.toTask creator).pid := fits.2.1
  have chain := ProcTree.chain_eq_cons (ProcTree.find_mem self) above
  have unmarked : (lineage.sys.tree.create (new.toTask creator) fresh
      parentLive).validLink lineage.sys.table (new.toTask creator).pid =
        none := by
    rw [validLink_of_find _ self]
    have unrecorded : ((new.toTask creator).pid,
        (new.toTask creator).start_time.tv_sec) ∉ lineage.born := unborn
    exact endows.recorded.validFor_eq_none unrecorded
  refine ⟨above, ⟨new.toTask creator, self⟩, ?_, ?_⟩
  · have stepped := @ProcTree.resolve_eq _ lineage.sys.table
      (new.toTask creator) (ProcTree.find_mem self) above
    rw [unmarked] at stepped
    exact stepped.trans parent.resolved
  · simp only [trappedAfter]
    rw [show new.pid = (new.toTask creator).pid from rfl, chain, upToHit,
      unmarked]
    intro other inside
    rcases List.mem_cons.mp inside with same | later
    · simp [TrappedEvent.heirs, member, same, NewTask.toTask]
    · exact parent.within later

end Fork

theorem heirs_of_leaver {event : TrappedEvent} {gone : Nat}
    (leaves : event.leaver = some gone) (family : List Nat) :
    event.heirs family = family.filter (· ≠ gone) := by
  cases event with
  | handler => cases leaves
  | fork => cases leaves
  | exit => rw [TrappedEvent.heirs, Option.some.inj leaves]
  | exitGroup => rw [TrappedEvent.heirs, Option.some.inj leaves]

theorem Kin.leave {link : LinkId} {lineage : Lineage} {event : TrappedEvent}
    {pid gone : Nat} (kin : lineage.Kin link pid)
    (leaves : event.leaver = some gone) (different : pid ≠ gone) :
    (lineage.trappedAfter event
      { lineage.sys with
        tree := lineage.sys.tree.exit gone
        table := lineage.sys.tree.leftTable lineage.sys.table gone }).Kin
      link pid := by
  obtain ⟨task, found⟩ := kin.found
  have samePid := ProcTree.find_pid found
  subst samePid
  have live := ProcTree.find_mem found
  have climb := (ProcTree.chain_of_mem live).exit different
  have survivors := heirs_of_leaver leaves lineage.family
  refine ⟨kin.above, ?_, ?_, ?_⟩
  · exact ⟨_, (ProcTree.find_exit_of_ne different).trans
      (by rw [found]; rfl)⟩
  · exact (ProcTree.resolve_trappedExit lineage.sys.table live
      different).trans kin.resolved
  · simp only [trappedAfter, climb.chain_eq, survivors]
    intro member inside
    have onChain := mem_of_mem_upToHit inside
    have other : member ≠ gone := by
      simpa using List.mem_takeWhile_imp onChain
    apply List.mem_filter.mpr
    refine ⟨?_, by simpa using other⟩
    apply kin.within
    apply upToHit_subset (fun node _ =>
      ProcTree.marked_leftTable lineage.sys.table gone node)
    apply upToHit_cut_subset _ _ gone
    refine upToHit_subset ?_ inside
    intro node among unmarked
    have kept : node ≠ gone := by
      simpa using List.mem_takeWhile_imp (mem_of_mem_upToHit among)
    rw [ProcTree.validLink_exit_of_ne kept] at unmarked
    exact unmarked

theorem Endows.step {link : LinkId} {lineage later : Lineage}
    (endows : lineage.Endows link) {event : TrappedEvent}
    (tolerates : lineage.Tolerates event)
    (stepped : lineage.trappedStep event = some later) :
    later.Endows link := by
  obtain ⟨next, moved, rfl⟩ := Option.map_eq_some_iff.mp stepped
  have taken :=
    Sys.trappedTaken_of_step endows.settled.sound.inRange moved
  refine ⟨endows.settled.trapped taken, endows.recorded.trapped taken, ?_⟩
  intro pid member
  cases taken with
  | handler handler stays taken =>
      exact endows.kin_handler tolerates handler stays taken member
  | @fork caller creator new found fits fresh parentLive =>
      have callerPid := ProcTree.find_pid found
      subst callerPid
      have old : pid ∈ lineage.family →
          (lineage.trappedAfter (.fork creator.pid new) _).Kin link pid :=
        fun inside => (endows.kin pid inside).fork fresh parentLive creator.pid
      simp only [trappedAfter, TrappedEvent.heirs] at member
      split at member
      · rename_i creates
        rcases List.mem_cons.mp member with born | inside
        · rw [born]
          exact endows.kin_child fresh parentLive fits tolerates creates
        · exact old inside
      · exact old member
  | @leave _ gone _ leaves found above =>
      simp only [trappedAfter, heirs_of_leaver leaves] at member
      obtain ⟨inside, different⟩ := List.mem_filter.mp member
      exact (endows.kin pid inside).leave leaves (by simpa using different)

end Lineage

end Chos.Kernel
