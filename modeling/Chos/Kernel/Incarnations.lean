import Chos.Kernel.Frame
import Chos.Kernel.Persistence
import Chos.Kernel.Resolution

/-!
# Reused pids

An entry says whose it is by the start second of a task, and a pid can be
given out again.  A run is therefore accompanied by a ledger that the module
does not keep: how often each pid has been given out, and for which of its
holders `set_link` last wrote the entry.  The entry that a lookup accepts was
written for the present holder as long as no task is created over a filled
entry with its own start second.
-/

namespace Chos.Kernel

open Chos.Library

/-- The task on the `PARENT` chain whose entry `lookup_link` takes. -/
def ProcTree.usedEntry (tree : ProcTree) (table : Table) (pid : Nat) :
    Option Nat :=
  (tree.chain pid).find? fun owner => (tree.validLink table owner).isSome

private theorem findSome?_eq_bind_find? {α β : Type*} (mark : α → Option β)
    (chain : List α) :
    chain.findSome? mark =
      (chain.find? fun node => (mark node).isSome).bind mark := by
  induction chain with
  | nil => rfl
  | cons node chain induction =>
      cases marked : mark node with
      | none => simp [marked, induction]
      | some value => simp [marked]

theorem ProcTree.lookup_usedEntry {tree : ProcTree} {table : Table}
    (inRange : tree.InRange table) {task : Task}
    (live : task ∈ tree.tasks) :
    tree.lookup task.pid table =
      .ok ((tree.usedEntry table task.pid).bind (tree.validLink table),
        tree.lookedUp table task.pid) := by
  rw [ProcTree.lookup_eq inRange live, ProcTree.resolve,
    findSome?_eq_bind_find?]
  rfl

theorem ProcTree.usedEntry_valid {tree : ProcTree} {table : Table}
    {pid owner : Nat} (used : tree.usedEntry table pid = some owner) :
    ∃ link, tree.validLink table owner = some link := by
  have valid := List.find?_some used
  exact Option.isSome_iff_exists.mp valid

theorem ProcTree.usedEntry_self {tree : ProcTree} {table : Table}
    {task : Task} (live : task ∈ tree.tasks) (above : 1 < task.pid)
    {link : LinkId} (valid : tree.validLink table task.pid = some link) :
    tree.usedEntry table task.pid = some task.pid := by
  rw [ProcTree.usedEntry, ProcTree.chain_eq_cons live above]
  simp [valid]

namespace Sys

/-- The tasks `lookup_link` calls `set_link` on: those it passes, if it finds
a link further up. -/
def lookupCalls (state : Sys) (pid : Nat) : List Nat :=
  match state.tree.resolve state.table pid with
  | none => []
  | some _ =>
      beforeHit (state.tree.validLink state.table) (state.tree.chain pid)

/-- The tasks an event calls `set_link` on. -/
def setLinkCalls (state : Sys) : Event → List Nat
  | .setchos pid buf count outcome =>
      if outcome.textAlloc ∧ accepts state.valid_paths (copied buf count)
      then [pid] else []
  | .readlink pid => state.lookupCalls pid
  | .begin pid => state.lookupCalls pid
  | .finish pid =>
      match state.forkOf pid, state.tree.find pid with
      | some fork, some current =>
          match fork.child with
          | none => state.lookupCalls pid
          | some nr => ((seenBy state.tree current nr).map Task.pid).toList
      | _, _ => []
  | _ => []

/-- What an event makes of an entry: written by `set_link` for the task that
is alive under this pid, or else left alone or cleared. -/
inductive Entered (tree : ProcTree) (index : Nat) (older newer : ChosProc) :
    List Nat → Prop where
  | called {calls : List Nat} {task : Task} (link : Option LinkId)
      (inside : index ∈ calls) (found : tree.find index = some task)
      (stored : newer = .assigned link task) :
      Entered tree index older newer calls
  | kept {calls : List Nat} (outside : index ∉ calls)
      (same : newer = older) : Entered tree index older newer calls
  | cleared {calls : List Nat} (outside : index ∉ calls)
      (reset : newer = .cleared) : Entered tree index older newer calls

theorem entered_of_cleanupLinks (tree : ProcTree) (seen : Nat → Option Task)
    (table : Table) (index : Nat) :
    Entered tree index (table.procs index)
      ((cleanupLinks seen table).procs index) [] := by
  rw [cleanupLinks_procs]
  split
  · exact .cleared List.not_mem_nil rfl
  · exact .kept List.not_mem_nil rfl

theorem entered_of_lookup {state : Sys} {pid : Nat} {current : Task}
    (found : state.tree.find pid = some current) (index : Nat) :
    Entered state.tree index (state.table.procs index)
      ((state.tree.lookedUp state.table pid).procs index)
      (state.lookupCalls pid) := by
  have ownPid := ProcTree.find_pid found
  subst ownPid
  have live := ProcTree.find_mem found
  unfold lookupCalls
  by_cases passed : index ∈ beforeHit (state.tree.validLink state.table)
      (state.tree.chain current.pid)
  · obtain ⟨owner, foundOwner⟩ := (ProcTree.chain_of_mem live).find_isSome
      (mem_of_mem_beforeHit passed)
    have samePid := ProcTree.find_pid foundOwner
    subst samePid
    have stored := ProcTree.lookedUp_procs_of_mem live passed foundOwner
    cases resolved : state.tree.resolve state.table current.pid with
    | none =>
        rw [resolved] at stored
        exact .cleared List.not_mem_nil stored
    | some link =>
        rw [resolved] at stored
        exact .called (some link) passed foundOwner stored
  · have stored := ProcTree.lookedUp_procs_of_not_mem passed
    cases state.tree.resolve state.table current.pid with
    | none => exact .kept List.not_mem_nil stored
    | some link => exact .kept passed stored

/-- `setLinkCalls` lists exactly the entries that an event assigns. -/
theorem entered_taken {state next : Sys} {event : Event}
    (taken : Taken state event next) (index : Nat) :
    Entered state.tree index (state.table.procs index)
      (next.table.procs index) (state.setLinkCalls event) := by
  cases taken with
  | @setchos pid current buf count outcome running =>
      have found := current_find running
      have ownPid := ProcTree.find_pid found
      subst ownPid
      simp only [setchosTable, setLinkCalls]
      by_cases allocated : outcome.textAlloc = true
      · by_cases accepted :
            accepts state.valid_paths (copied buf count) = true
        · rw [if_pos allocated, if_pos accepted,
            if_pos ⟨allocated, accepted⟩]
          by_cases own : index = current.pid
          · subst own
            apply Entered.called _ List.mem_cons_self found
            rw [installed, assignLink_procs, Function.update_self]
          · have outside : index ∉ [current.pid] := by simpa using own
            rw [installed, assignLink_procs, Function.update_of_ne own,
              createLink_procs, cleanupLinks_procs]
            split
            · exact .cleared outside rfl
            · exact .kept outside rfl
        · rw [if_pos allocated, if_neg accepted,
            if_neg fun both => accepted both.2]
          exact .kept List.not_mem_nil rfl
      · rw [if_neg allocated, if_neg fun both => allocated both.1]
        exact .kept List.not_mem_nil rfl
  | @resetchos pid current running =>
      have cleaned := cleanupLinks_procs (seenBy state.tree current)
        (resetLink pid state.table) index
      have outside : index ∉ state.setLinkCalls (.resetchos pid) :=
        List.not_mem_nil
      split at cleaned
      · exact .cleared outside cleaned
      · rw [resetLink_procs] at cleaned
        by_cases own : index = pid
        · subst own
          rw [Function.update_self] at cleaned
          exact .cleared outside cleaned
        · rw [Function.update_of_ne own] at cleaned
          exact .kept outside cleaned
  | readlink running =>
      have looked := entered_of_lookup (current_find running) index
      simp only [Sys.readTable]
      split
      · exact looked
      · exact looked
  | cleanup running => exact entered_of_cleanupLinks _ _ _ _
  | begin running => exact entered_of_lookup (current_find running) index
  | @finish pid fork current inside found =>
      simp only [Sys.finishedTable, setLinkCalls, inside, found]
      cases fork.child with
      | none =>
          rw [ProcTree.find_pid found]
          exact entered_of_lookup found index
      | some nr =>
          dsimp only
          cases seen : seenBy state.tree current nr with
          | none => exact .kept List.not_mem_nil rfl
          | some child =>
              have live := findTaskByPidNs_mem seen
              by_cases own : index = child.pid
              · subst own
                apply Entered.called fork.parent_link _
                  (ProcTree.find_of_mem live)
                · rw [assignLink_procs, Function.update_self]
                · simp
              · apply Entered.kept
                · simpa using own
                · rw [assignLink_procs, Function.update_of_ne own]
  | create inside alone found fits => exact .kept List.not_mem_nil rfl
  | exit running above => exact .kept List.not_mem_nil rfl
  | chroot dir running => exact .kept List.not_mem_nil rfl
  | writeValid euid buf count outcome => exact .kept List.not_mem_nil rfl

end Sys

/-- `incarnation` counts how often a pid was given out since the module was
loaded; `writtenFor` is the count at the last `set_link` on the entry. -/
structure Ledger where
  sys : Sys
  incarnation : Nat → Nat
  writtenFor : Nat → Option Nat

def Event.givenOut (incarnation : Nat → Nat) : Event → Nat → Nat
  | .create _ new =>
      Function.update incarnation new.pid (incarnation new.pid + 1)
  | _ => incarnation

namespace Ledger

def init (pid_max : Nat) (tree : ProcTree) : Ledger :=
  { sys := .init pid_max tree
    incarnation := fun _ => 0
    writtenFor := fun _ => none }

def step (ledger : Ledger) (event : Event) : Option Ledger :=
  (ledger.sys.step event).map fun next =>
    { sys := next
      incarnation := event.givenOut ledger.incarnation
      writtenFor := fun index =>
        if index ∈ ledger.sys.setLinkCalls event
        then some (ledger.incarnation index)
        else ledger.writtenFor index }

/-- Whichever task is looked up, the entry that is accepted was written by
`set_link` for the task that now has this pid. -/
def NoLeak (ledger : Ledger) : Prop :=
  ∀ task ∈ ledger.sys.tree.tasks, ∀ owner,
    ledger.sys.tree.usedEntry ledger.sys.table task.pid = some owner →
    ledger.writtenFor owner = some (ledger.incarnation owner)

instance (ledger : Ledger) : Decidable ledger.NoLeak :=
  inferInstanceAs (Decidable (∀ task ∈ ledger.sys.tree.tasks,
    ∀ owner ∈ ledger.sys.tree.usedEntry ledger.sys.table task.pid, _))

end Ledger

/-- No task is created over a filled entry with its own start second. -/
def Sys.Fresh (state : Sys) : Event → Prop
  | .create _ new => (state.table.procs new.pid).link = none ∨
      (state.table.procs new.pid).start_time ≠ new.start_time.tv_sec
  | _ => True

instance (state : Sys) : ∀ event, Decidable (state.Fresh event)
  | .create _ _ => inferInstanceAs (Decidable (_ ∨ _))
  | .setchos _ _ _ _ => .isTrue trivial
  | .resetchos _ => .isTrue trivial
  | .readlink _ => .isTrue trivial
  | .cleanup _ => .isTrue trivial
  | .begin _ => .isTrue trivial
  | .finish _ => .isTrue trivial
  | .exit _ => .isTrue trivial
  | .chroot _ _ => .isTrue trivial
  | .writeValid _ _ _ _ => .isTrue trivial

namespace Ledger

/-- The invariant behind `NoLeak`: every valid entry is the present holder's,
and no entry was written for a holder that is still to come. -/
structure Kept (ledger : Ledger) : Prop where
  sound : ledger.sys.Sound
  present : ∀ pid link,
    ledger.sys.tree.validLink ledger.sys.table pid = some link →
    ledger.writtenFor pid = some (ledger.incarnation pid)
  past : ∀ pid count, ledger.writtenFor pid = some count →
    count ≤ ledger.incarnation pid

theorem Kept.noLeak {ledger : Ledger} (kept : ledger.Kept) :
    ledger.NoLeak := by
  intro task _ owner used
  obtain ⟨link, valid⟩ := ProcTree.usedEntry_valid used
  exact kept.present owner link valid

theorem step_eq_some {ledger next : Ledger} {event : Event}
    (stepped : ledger.step event = some next) :
    ledger.sys.step event = some next.sys ∧
      next.incarnation = event.givenOut ledger.incarnation ∧
      next.writtenFor = fun index =>
        if index ∈ ledger.sys.setLinkCalls event
        then some (ledger.incarnation index)
        else ledger.writtenFor index := by
  obtain ⟨sys, taken, rfl⟩ := Option.map_eq_some_iff.mp stepped
  exact ⟨taken, rfl, rfl⟩

theorem givenOut_mono (incarnation : Nat → Nat) (event : Event) (pid : Nat) :
    incarnation pid ≤ event.givenOut incarnation pid := by
  cases event with
  | create caller new =>
      by_cases same : pid = new.pid
      · subst same
        simp [Event.givenOut]
      · simp [Event.givenOut, Function.update_of_ne same]
  | _ => exact Nat.le_refl _

theorem givenOut_of_live {state next : Sys} {event : Event}
    (taken : Sys.Taken state event next) {pid : Nat} {task : Task}
    (found : state.tree.find pid = some task) (incarnation : Nat → Nat) :
    event.givenOut incarnation pid = incarnation pid := by
  cases taken with
  | create inside alone foundParent fits =>
      have unused := (fits.1 task (ProcTree.find_mem found)).1
      rw [ProcTree.find_pid found] at unused
      exact Function.update_of_ne unused _ _
  | _ => rfl

theorem Kept.step {ledger next : Ledger} (kept : ledger.Kept)
    {event : Event} (fresh : ledger.sys.Fresh event)
    (stepped : ledger.step event = some next) : next.Kept := by
  obtain ⟨stepSys, counted, written⟩ := step_eq_some stepped
  have taken := (Sys.step_iff_taken kept.sound.inRange).mp stepSys
  refine ⟨kept.sound.taken taken, ?_, ?_⟩
  · intro pid link valid
    obtain ⟨later, foundLater, entryValid⟩ :=
      ProcTree.validLink_eq_some_iff.mp valid
    rw [written]
    rcases taken.found foundLater with ⟨task, found, stays⟩ |
      ⟨caller, new, creator, rfl, _, rfl, rfl, _⟩
    · rw [counted, givenOut_of_live taken found]
      cases Sys.entered_taken taken pid with
      | called link inside foundTask stored => simp [inside]
      | kept outside same =>
          obtain ⟨again, foundAgain, isSame, _⟩ := taken.find found stays
          rw [foundLater, Option.some.injEq] at foundAgain
          subst foundAgain
          rw [same, isSame.validFor] at entryValid
          have before := kept.present pid link
            (ProcTree.validLink_eq_some_iff.mpr ⟨task, found, entryValid⟩)
          simp [outside, before]
      | cleared outside reset =>
          rw [reset] at entryValid
          cases (validFor_link entryValid).1
    · -- the entry of a new task is what it was, and that is not its own
      cases Sys.entered_taken taken new.pid with
      | called link inside => cases inside
      | kept outside same =>
          rw [same] at entryValid
          obtain ⟨held, started⟩ := validFor_link entryValid
          rcases fresh with empty | older
          · rw [empty] at held
            cases held
          · exact absurd started older
      | cleared outside reset =>
          rw [reset] at entryValid
          cases (validFor_link entryValid).1
  · intro pid count
    have mono := givenOut_mono ledger.incarnation event pid
    rw [counted, written]
    dsimp only
    split
    · intro same
      cases same
      exact mono
    · intro same
      exact Nat.le_trans (kept.past pid count same) mono

/-- A task created over a filled entry with its own start second takes it for
its own. -/
theorem Kept.leak {ledger next : Ledger} (kept : ledger.Kept)
    {event : Event} (stale : ¬ ledger.sys.Fresh event)
    (stepped : ledger.step event = some next) : ¬ next.NoLeak := by
  obtain ⟨stepSys, counted, written⟩ := step_eq_some stepped
  have taken := (Sys.step_iff_taken kept.sound.inRange).mp stepSys
  generalize nextSys : next.sys = sys at taken
  cases taken with
  | @create caller fork creator new inside alone found fits fresh parentLive =>
      simp only [Sys.Fresh, not_or, not_not] at stale
      obtain ⟨link, held⟩ := Option.ne_none_iff_exists'.mp stale.1
      have self : next.sys.tree.find new.pid = some (new.toTask creator) := by
        rw [nextSys]
        exact ProcTree.find_create_self fresh parentLive
      have valid : next.sys.tree.validLink next.sys.table new.pid =
          some link := by
        apply ProcTree.validLink_eq_some_iff.mpr
        refine ⟨_, self, ?_⟩
        rw [nextSys]
        simp [ChosProc.validFor, NewTask.toTask, stale.2, held]
      intro noLeak
      have own := noLeak _ (ProcTree.find_mem self) new.pid
        (ProcTree.usedEntry_self (ProcTree.find_mem self) fits.2.1 valid)
      have older : ledger.writtenFor new.pid =
          some (ledger.incarnation new.pid + 1) := by
        rw [written, counted] at own
        simpa [Sys.setLinkCalls, Event.givenOut] using own
      have bound := kept.past new.pid _ older
      omega
  | _ => exact absurd trivial stale

theorem init_kept {pid_max : Nat} {tree : ProcTree}
    (below : ∀ task ∈ tree.tasks, task.pid < pid_max) :
    (Ledger.init pid_max tree).Kept := by
  refine ⟨Sys.init_sound below, ?_, ?_⟩
  · intro pid link valid
    obtain ⟨task, _, entryValid⟩ := ProcTree.validLink_eq_some_iff.mp valid
    obtain ⟨held, _⟩ := validFor_link entryValid
    cases held
  · intro pid count written
    cases written

/-- No lookup takes an earlier process's entry, in any state of a run, if and
only if each new task comes with a start second other than the one in the
filled entry it finds. -/
theorem noLeak_throughout_iff {pid_max : Nat} {tree : ProcTree}
    (below : ∀ task ∈ tree.tasks, task.pid < pid_max) {events : List Event}
    {final : Ledger}
    (finished : run Ledger.step (Ledger.init pid_max tree) events =
      some final) :
    Throughout Ledger.step NoLeak (Ledger.init pid_max tree) events ↔
      Along Ledger.step (fun ledger event => ledger.sys.Fresh event)
        (Ledger.init pid_max tree) events := by
  have every : Along Ledger.step (fun _ _ => True)
      (Ledger.init pid_max tree) events :=
    along_of_forall (fun _ _ => trivial) _ _
  exact throughout_iff_along Kept (fun _ kept => kept.noLeak)
    (fun _ _ _ kept _ fresh stepped => kept.step fresh stepped)
    (fun _ _ _ kept _ stale stepped => kept.leak stale stepped)
    finished every (init_kept below)

theorem noLeak_throughout_iff_later_second :
    ∃ final,
      run Ledger.step (Ledger.init 16 .boot)
        [.writeValid 0 [47, 97] 2 ⟨true, true⟩, .begin 1,
          .create 1 ⟨10, ⟨5, 100000000⟩, 0, []⟩, .finish 1,
          .setchos 10 [47, 97] 2 ⟨true, true, true, .other 0⟩, .exit 10,
          .begin 1, .create 1 ⟨10, ⟨6, 0⟩, 0, []⟩, .readlink 10, .finish 1] =
        some final ∧
      final.incarnation 10 = 2 ∧
      Throughout Ledger.step NoLeak (Ledger.init 16 .boot)
        [.writeValid 0 [47, 97] 2 ⟨true, true⟩, .begin 1,
          .create 1 ⟨10, ⟨5, 100000000⟩, 0, []⟩, .finish 1,
          .setchos 10 [47, 97] 2 ⟨true, true, true, .other 0⟩, .exit 10,
          .begin 1, .create 1 ⟨10, ⟨6, 0⟩, 0, []⟩, .readlink 10,
          .finish 1] := by
  have ends : (run Ledger.step (Ledger.init 16 .boot)
      [.writeValid 0 [47, 97] 2 ⟨true, true⟩, .begin 1,
        .create 1 ⟨10, ⟨5, 100000000⟩, 0, []⟩, .finish 1,
        .setchos 10 [47, 97] 2 ⟨true, true, true, .other 0⟩, .exit 10,
        .begin 1, .create 1 ⟨10, ⟨6, 0⟩, 0, []⟩, .readlink 10, .finish 1]).any
        (fun final => final.incarnation 10 = 2) = true := by
    decide +kernel
  obtain ⟨final, finished, facts⟩ := (Option.any_eq_true _ _).mp ends
  refine ⟨final, finished, of_decide_eq_true facts, ?_⟩
  apply (noLeak_throughout_iff (ProcTree.boot_below (by decide))
    finished).mpr
  decide +kernel

/-- Pid 10 is given out again within the second its first holder started in:
before the fork returns, the new process reads the link of the old one. -/
theorem pid_reuse_leaks_link :
    ∃ ledger,
      run Ledger.step (Ledger.init 16 .boot)
        [.writeValid 0 [47, 97] 2 ⟨true, true⟩, .begin 1,
          .create 1 ⟨10, ⟨5, 100000000⟩, 0, []⟩, .finish 1,
          .setchos 10 [47, 97] 2 ⟨true, true, true, .other 0⟩, .exit 10,
          .begin 1, .create 1 ⟨10, ⟨5, 900000000⟩, 0, []⟩] = some ledger ∧
      ledger.sys.tree.usedEntry ledger.sys.table 10 = some 10 ∧
      ledger.writtenFor 10 = some 1 ∧ ledger.incarnation 10 = 2 ∧
      ledger.sys.textSeen 10 = [47, 97] ∧ ¬ ledger.NoLeak := by
  have ends : (run Ledger.step (Ledger.init 16 .boot)
      [.writeValid 0 [47, 97] 2 ⟨true, true⟩, .begin 1,
        .create 1 ⟨10, ⟨5, 100000000⟩, 0, []⟩, .finish 1,
        .setchos 10 [47, 97] 2 ⟨true, true, true, .other 0⟩, .exit 10,
        .begin 1, .create 1 ⟨10, ⟨5, 900000000⟩, 0, []⟩]).any
        (fun ledger =>
          ledger.sys.tree.usedEntry ledger.sys.table 10 = some 10 ∧
          ledger.writtenFor 10 = some 1 ∧ ledger.incarnation 10 = 2 ∧
          ledger.sys.textSeen 10 = [47, 97] ∧ ¬ ledger.NoLeak) = true := by
    decide +kernel
  obtain ⟨ledger, finished, facts⟩ := (Option.any_eq_true _ _).mp ends
  exact ⟨ledger, finished, of_decide_eq_true facts⟩

end Ledger

end Chos.Kernel
