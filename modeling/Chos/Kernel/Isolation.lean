import Chos.Kernel.OwnEntry

/-!
# Isolation of a child

Two runs that differ only in what other processes write should leave a
process with the same text.  They do when the process has a valid entry of
its own, or when nobody but process 0 or 1 is above it.  A child of a process
without a link gets an entry without a link, which looks like one that was
never filled, and so follows its parent's later writes.
-/

namespace Chos.Kernel

open Chos.Library

def Event.otherWrite (pid : Nat) : Event → Bool
  | .setchos caller _ _ _ => caller ≠ pid
  | .resetchos caller => caller ≠ pid
  | _ => false

namespace Sys

/-- A continuation in which the process itself neither writes nor exits, and
no cleanup from another pid namespace clears its entry. -/
structure Continues (pid : Nat) (state : Sys) (events : List Event)
    (final : Sys) : Prop where
  finished : run Sys.step state events = some final
  others : ∀ event ∈ events, ¬ event.OwnAct pid
  spared : Along Sys.step (Sys.Spares pid) state events

/-- Continuations that differ only in the writes of other processes give the
process the same text. -/
def Isolated (state : Sys) (pid : Nat) : Prop :=
  ∀ first second one two,
    state.Continues pid first one → state.Continues pid second two →
    first.filter (fun event => !event.otherWrite pid) =
      second.filter (fun event => !event.otherWrite pid) →
    one.textSeen pid = two.textSeen pid

theorem textSeen_eq {state : Sys} (sound : state.Sound) {pid : Nat}
    {task : Task} (found : state.tree.find pid = some task) :
    state.textSeen pid =
      match state.tree.resolve state.table pid with
      | none => rootText
      | some link => state.table.textOf link := by
  unfold textSeen
  cases resolved : state.tree.resolve state.table pid with
  | none => rfl
  | some link =>
      exact (sound.lookedUp found).textOf link (sound.resolve_known resolved)

theorem Settles.textSeen {pid : Nat} {link : LinkId} {freed : Nat}
    {state : Sys} (settles : state.Settles pid link freed)
    (above : 1 < pid) : state.textSeen pid = state.table.textOf link := by
  obtain ⟨task, found, _⟩ := ProcTree.validLink_eq_some_iff.mp settles.valid
  have resolved := (settles.lookup above).1
  rw [textSeen_eq settles.sound found, resolved]

/-- No valid entry, no ancestor to ask, and no fork waits for it. -/
structure Orphan (pid : Nat) (state : Sys) : Prop where
  sound : state.Sound
  top : ∃ task, state.tree.find pid = some task ∧ isInit task.parent
  empty : state.tree.resolve state.table pid = none
  unawaited : ¬ state.Awaited pid

theorem resolve_eq_validLink {state : Sys} {pid : Nat} (above : 1 < pid)
    {task : Task} (found : state.tree.find pid = some task)
    (top : isInit task.parent) (table : Table) :
    state.tree.resolve table pid = state.tree.validLink table pid := by
  have samePid := ProcTree.find_pid found
  subst samePid
  rw [ProcTree.resolve_eq (ProcTree.find_mem found) above,
    ProcTree.resolve_of_init top]
  cases state.tree.validLink table task.pid with
  | none => rfl
  | some link => rfl

end Sys

/-- The entry is as it was, or `reset_link` has cleared it. -/
def Fades (index : Nat) (older newer : Table) : Prop :=
  newer.procs index = older.procs index ∨ newer.procs index = .cleared

theorem Fades.validFor {index : Nat} {older newer : Table}
    (fades : Fades index older newer) {task : Task}
    (invalid : (older.procs index).validFor task = none) :
    (newer.procs index).validFor task = none := by
  rcases fades with same | cleared
  · rw [same]
    exact invalid
  · rw [cleared, ChosProc.validFor]
    split <;> rfl

theorem cleanupLinks_fades (seen : Nat → Option Task) (table : Table)
    (index : Nat) : Fades index table (cleanupLinks seen table) := by
  rw [Fades, cleanupLinks_procs]
  split
  · exact .inr rfl
  · exact .inl rfl

theorem setchosTable_fades {tree : ProcTree} {paths : List ValidPath}
    {current : Task} {buf : List UInt8} {count : Nat}
    {outcome : SetchosOutcome} {table : Table} {index : Nat}
    (different : index ≠ current.pid) :
    Fades index table
      (setchosTable tree paths current buf count outcome table) := by
  simp only [setchosTable]
  split
  · split
    · have cleaned := cleanupLinks_fades (seenBy tree current)
        (table.allocText (copied buf count)).2 index
      rw [Fades, installed, assignLink_procs,
        Function.update_of_ne different, createLink_procs]
      exact cleaned
    · exact .inl rfl
  · exact .inl rfl

theorem resetchos_fades {index caller : Nat} (different : index ≠ caller)
    (seen : Nat → Option Task) (table : Table) :
    Fades index table (cleanupLinks seen (resetLink caller table)) := by
  have cleaned := cleanupLinks_fades seen (resetLink caller table) index
  rw [Fades, resetLink_procs, Function.update_of_ne different] at cleaned
  exact cleaned

namespace Sys

/-- The entry of a process no fork waits for, after a fork returned. -/
theorem finishedTable_procs {state : Sys} {pid caller : Nat}
    (unawaited : ¬ state.Awaited pid) {task : Task}
    (found : state.tree.find pid = some task) {fork : PendingFork}
    (inside : state.forkOf caller = some fork) {current : Task}
    (foundCaller : state.tree.find caller = some current) :
    state.finishedTable fork current =
        state.tree.lookedUp state.table current.pid ∨
      (state.finishedTable fork current).procs pid =
        state.table.procs pid := by
  unfold Sys.finishedTable
  cases child : fork.child with
  | none => exact .inl rfl
  | some nr =>
      right
      dsimp only
      cases seen : seenBy state.tree current nr with
      | none => rfl
      | some other =>
          have different := ne_of_not_awaited unawaited found inside
            foundCaller child seen
          dsimp only
          rw [assignLink_procs, Function.update_of_ne different]

theorem Orphan.lookedUp {pid : Nat} {state : Sys}
    (orphan : state.Orphan pid) {caller : Nat} {current : Task}
    (found : state.tree.find caller = some current) :
    state.tree.resolve (state.tree.lookedUp state.table caller) pid =
      none := by
  obtain ⟨task, foundTask, _⟩ := orphan.top
  have unchanged := @ProcTree.resolve_lookedUp state.tree state.table current
    task (ProcTree.find_mem found) (ProcTree.find_mem foundTask)
  rw [ProcTree.find_pid found, ProcTree.find_pid foundTask] at unchanged
  exact unchanged.trans orphan.empty

theorem Orphan.taken {pid : Nat} {state next : Sys}
    (orphan : state.Orphan pid) (above : 1 < pid) {event : Event}
    (taken : Taken state event next) (others : ¬ event.OwnAct pid) :
    next.Orphan pid := by
  have sound := orphan.sound
  obtain ⟨task, found, top⟩ := orphan.top
  have stays : event ≠ .exit pid := by
    rintro rfl
    exact others rfl
  obtain ⟨later, foundLater, same, parent⟩ := taken.find found stays
  have laterTop : isInit later.parent := by
    rw [parent]
    split
    · exact Nat.le_refl 1
    · exact top
  have invalid : (state.table.procs pid).validFor task = none := by
    have empty := orphan.empty
    rw [resolve_eq_validLink above found top, ProcTree.validLink, found]
      at empty
    exact empty
  have faded : Fades pid state.table next.table →
      next.tree.validLink next.table pid = none := by
    intro fades
    rw [ProcTree.validLink, foundLater]
    dsimp only
    rw [same.validFor]
    exact fades.validFor invalid
  have unmarked : next.tree.validLink next.table pid = none := by
    cases taken with
    | @setchos caller current buf count outcome running =>
        apply faded
        apply setchosTable_fades
        rw [ProcTree.find_pid (current_find running)]
        exact fun equal => others equal.symm
    | resetchos running =>
        apply faded
        exact resetchos_fades (fun equal => others equal.symm) _ _
    | readlink running =>
        have empty := orphan.lookedUp (current_find running)
        rw [resolve_eq_validLink above found top] at empty
        simp only [Sys.readTable]
        split
        · exact empty
        · exact empty
    | cleanup running =>
        apply faded
        exact cleanupLinks_fades _ _ _
    | begin running =>
        have empty := orphan.lookedUp (current_find running)
        rw [resolve_eq_validLink above found top] at empty
        exact empty
    | finish inside foundCaller =>
        rcases finishedTable_procs orphan.unawaited found inside
          foundCaller with looked | kept
        · have empty := orphan.lookedUp foundCaller
          rw [resolve_eq_validLink above found top] at empty
          simp only [looked, ProcTree.find_pid foundCaller]
          exact empty
        · exact faded (.inl kept)
    | _ => exact faded (.inl rfl)
  exact
    { sound := sound.taken taken
      top := ⟨later, foundLater, laterTop⟩
      empty := by
        rw [resolve_eq_validLink above foundLater laterTop]
        exact unmarked
      unawaited := not_awaited_taken sound taken found stays
        orphan.unawaited }

theorem Orphan.run {pid : Nat} {state final : Sys}
    (orphan : state.Orphan pid) (above : 1 < pid) {events : List Event}
    (finished : run Sys.step state events = some final)
    (others : ∀ event ∈ events, ¬ event.OwnAct pid) :
    final.Orphan pid := by
  apply run_invariant _ finished
    ((along_iff_forall_mem finished).mpr others) orphan
  intro current event next kept other stepped
  exact kept.taken above ((step_iff_taken kept.sound.inRange).mp stepped)
    other

theorem Orphan.textSeen {pid : Nat} {state : Sys}
    (orphan : state.Orphan pid) : state.textSeen pid = rootText := by
  obtain ⟨task, found, _⟩ := orphan.top
  rw [textSeen_eq orphan.sound found, orphan.empty]

/-- A process without a valid entry whose parent is free to write. -/
structure Follows (pid : Nat) (parent : Nat) (state : Sys) : Prop where
  sound : state.Sound
  child : ∃ task, state.tree.find pid = some task ∧ task.parent = parent
  running : ∃ current, state.current parent = some current
  unmarked : state.tree.validLink state.table pid = none
  unawaited : ¬ state.Awaited pid

theorem Follows.setchos {pid parent : Nat} {state : Sys}
    (follows : state.Follows pid parent) (above : 1 < pid)
    (parentAbove : 1 < parent) {buf : List UInt8} {count : Nat}
    (accepted : accepts state.valid_paths (copied buf count) = true) :
    ∃ next, state.step
        (.setchos parent buf count ⟨true, true, true, .other 0⟩) = some next ∧
      next.textSeen pid = trim buf count := by
  have sound := follows.sound
  obtain ⟨task, found, rfl⟩ := follows.child
  obtain ⟨current, running⟩ := follows.running
  have taken := Taken.setchos buf count ⟨true, true, true, .other 0⟩ running
  refine ⟨_, (step_iff_taken sound.inRange).mpr taken, ?_⟩
  obtain ⟨valid, _, text⟩ :=
    valid_of_setchos sound running rfl accepted rfl taken
  obtain ⟨later, foundLater, same, parent⟩ := taken.find found (by simp)
  have parentSame : later.parent = task.parent := by simpa using parent
  have laterPid := ProcTree.find_pid foundLater
  have nextSound := sound.taken taken
  generalize written : ({ state with
      table := setchosTable state.tree state.valid_paths current buf count
        ⟨true, true, true, .other 0⟩ state.table
      tree := state.tree.setRoot task.parent
        (setchosRoot state.valid_paths current buf count
          ⟨true, true, true, .other 0⟩) } : Sys) = next at *
  have different : pid ≠ current.pid := by
    rw [ProcTree.find_pid (current_find running)]
    have ownParent := ProcTree.parent_ne (ProcTree.find_mem found)
      (by rw [ProcTree.find_pid found]; exact above)
    rw [ProcTree.find_pid found] at ownParent
    exact ownParent.symm
  have invalid : (state.table.procs pid).validFor task = none := by
    have unmarked := follows.unmarked
    rw [ProcTree.validLink, found] at unmarked
    exact unmarked
  have stillUnmarked : next.tree.validLink next.table pid = none := by
    have fades : Fades pid state.table next.table := by
      rw [← written]
      exact setchosTable_fades different
    rw [ProcTree.validLink, foundLater]
    dsimp only
    rw [same.validFor]
    exact fades.validFor invalid
  have resolved : next.tree.resolve next.table pid =
      some state.table.links.next := by
    rw [← laterPid] at stillUnmarked above ⊢
    rw [ProcTree.resolve_eq (ProcTree.find_mem foundLater) above,
      stillUnmarked, parentSame]
    exact ProcTree.resolve_of_valid parentAbove valid
  rw [textSeen_eq nextSound foundLater, resolved]
  exact text

theorem follows_of_unmarked {pid : Nat} {state : Sys} (sound : state.Sound)
    {task : Task} (found : state.tree.find pid = some task)
    (above : 1 < pid) (parentAbove : 1 < task.parent)
    (unmarked : state.tree.validLink state.table pid = none)
    (unawaited : ¬ state.Awaited pid) :
    ∃ events next, run Sys.step state events = some next ∧
      (∀ event ∈ events, event = .finish task.parent) ∧
      next.Follows pid task.parent := by
  have samePid := ProcTree.find_pid found
  subst samePid
  have live := ProcTree.find_mem found
  obtain ⟨parent, foundParent⟩ :=
    ProcTree.find_parent live above parentAbove
  have parentPid := ProcTree.find_pid foundParent
  cases inside : state.forkOf task.parent with
  | none =>
      refine ⟨[], state, rfl, by simp, sound, ⟨task, found, rfl⟩, ?_,
        unmarked, unawaited⟩
      exact ⟨parent, current_eq_some_iff.mpr ⟨inside, foundParent⟩⟩
  | some fork =>
      have taken := Taken.finish inside foundParent
      refine ⟨[.finish task.parent], _,
        run_singleton.mpr ((step_iff_taken sound.inRange).mpr taken),
        by simp, sound.taken taken, ⟨task, found, rfl⟩, ?_, ?_,
        not_awaited_taken sound taken found (by simp) unawaited⟩
      · refine ⟨parent, current_eq_some_iff.mpr ⟨?_, foundParent⟩⟩
        simp [forkOf, dropFork]
      · have kept : (state.finishedTable fork parent).procs task.pid =
            state.table.procs task.pid := by
          rcases finishedTable_procs unawaited found inside foundParent
            with looked | kept
          · rw [looked, parentPid]
            apply ProcTree.lookedUp_procs_of_not_mem
            intro passed
            exact ProcTree.not_mem_chain_parent live above
              (mem_of_mem_beforeHit passed)
          · exact kept
        rw [ProcTree.validLink_congr kept]
        exact unmarked

end Sys

theorem isValidPath_appended {path : Text} (paths : List ValidPath)
    (length : Nat) :
    isValidPath path (paths ++ [{ path := path, length := length }]) =
      true := by
  induction paths with
  | nil => simp [isValidPath]
  | cons first rest induction =>
      rw [List.cons_append, isValidPath]
      split
      · rfl
      · exact induction

namespace Sys

theorem Follows.continues {pid parent : Nat} {state next : Sys}
    {events : List Event} (reached : run Sys.step state events = some next)
    (finishes : ∀ event ∈ events, event = .finish parent)
    (follows : next.Follows pid parent) (above : 1 < pid)
    (parentAbove : 1 < parent) (different : parent ≠ pid)
    (buf : List UInt8) (count : Nat)
    (accepted : accepts
      (writeValid 0 [47, 97] 2 ⟨true, true⟩ next.valid_paths).2
      (copied buf count) = true) :
    ∃ final, state.Continues pid
        (events ++ [.writeValid 0 [47, 97] 2 ⟨true, true⟩,
          .setchos parent buf count ⟨true, true, true, .other 0⟩]) final ∧
      final.textSeen pid = trim buf count := by
  have listing := @Taken.writeValid next 0 [47, 97] 2 ⟨true, true⟩
  have followsStill : ({ next with
      valid_paths := (writeValid 0 [47, 97] 2 ⟨true, true⟩
        next.valid_paths).2 } : Sys).Follows pid parent :=
    { sound := follows.sound.taken listing
      child := follows.child
      running := follows.running
      unmarked := follows.unmarked
      unawaited := follows.unawaited }
  obtain ⟨final, wrote, seen⟩ :=
    followsStill.setchos above parentAbove accepted
  refine ⟨final, ⟨?_, ?_, ?_⟩, seen⟩
  · apply run_append_eq_some_iff.mpr
    refine ⟨next, reached, run_cons_eq_some_iff.mpr ⟨_, rfl, ?_⟩⟩
    exact run_singleton.mpr wrote
  · intro event inside
    rcases List.mem_append.mp inside with early | late
    · rw [finishes event early]
      exact id
    · rcases List.mem_cons.mp late with same | last
      · rw [same]
        exact id
      · rw [List.mem_singleton.mp last]
        exact different
  · apply Along.append reached
    · apply ((along_iff_forall_mem reached).mpr finishes).mono
      rintro current event rfl caller cleaning
      cases cleaning
    · refine ⟨?_, ?_⟩
      · intro current cleaning
        cases cleaning
      · intro listed stepped
        cases stepped
        refine ⟨?_, fun _ _ => trivial⟩
        intro current _ valid
        have unmarked := followsStill.unmarked
        rw [unmarked] at valid
        cases valid

/-- The child of a parent above process 1 sees whatever its parent writes. -/
theorem not_isolated {pid : Nat} {state : Sys} (sound : state.Sound)
    {task : Task} (found : state.tree.find pid = some task)
    (above : 1 < pid) (parentAbove : 1 < task.parent)
    (unmarked : state.tree.validLink state.table pid = none)
    (unawaited : ¬ state.Awaited pid) : ¬ state.Isolated pid := by
  obtain ⟨events, next, reached, finishes, follows⟩ :=
    follows_of_unmarked sound found above parentAbove unmarked unawaited
  have different : task.parent ≠ pid := by
    have ownParent := ProcTree.parent_ne (ProcTree.find_mem found)
      (by rw [ProcTree.find_pid found]; exact above)
    rw [ProcTree.find_pid found] at ownParent
    exact ownParent
  have listed : (writeValid 0 [47, 97] 2 ⟨true, true⟩ next.valid_paths).2 =
      next.valid_paths ++ [{ path := [47, 97], length := 2 }] := rfl
  intro isolated
  obtain ⟨one, first, seenFirst⟩ := follows.continues reached finishes above
    parentAbove different [47, 97] 2 (by
      rw [listed, accepts, Bool.or_eq_true]
      exact .inr (isValidPath_appended next.valid_paths 2))
  obtain ⟨two, second, seenSecond⟩ := follows.continues reached finishes
    above parentAbove different [47] 1 (by
      rw [accepts, Bool.or_eq_true]
      exact .inl (by decide))
  have same := isolated _ _ one two first second (by
    simp [List.filter_append, Event.otherWrite, different])
  rw [seenFirst, seenSecond] at same
  exact absurd same (by decide)

/-- A process whose creating fork has returned is isolated exactly when it
has a valid entry of its own or stands right below process 0 or 1. -/
theorem isolated_iff {pid_max : Nat} {tree : ProcTree}
    (below : ∀ task ∈ tree.tasks, task.pid < pid_max)
    {before : List Event} {state : Sys}
    (reached : run Sys.step (Sys.init pid_max tree) before = some state)
    {pid : Nat} (above : 1 < pid) {task : Task}
    (found : state.tree.find pid = some task)
    (unawaited : ¬ state.Awaited pid) :
    state.Isolated pid ↔
      (state.tree.validLink state.table pid).isSome ∨ task.parent ≤ 1 := by
  have sound := (init_sound below).run reached
  cases valid : state.tree.validLink state.table pid with
  | some link =>
      simp only [Option.isSome_some, true_or, iff_true]
      have settles : state.Settles pid link
          (state.table.links.frees link) :=
        ⟨sound, valid, rfl, unawaited⟩
      have text : ∀ events final, state.Continues pid events final →
          final.textSeen pid = state.table.textOf link := by
        intro events final continues
        have kept := settles.run continues.finished continues.others
          continues.spared
        rw [kept.textSeen above]
        exact (sound.run_evolves continues.finished).textOf link
          settles.holding.known
      intro first second one two left right _
      rw [text first one left, text second two right]
  | none =>
      simp only [Option.isSome_none, Bool.false_eq_true, false_or]
      constructor
      · intro isolated
        by_contra parentAbove
        exact not_isolated sound found above
          (Nat.lt_of_not_le parentAbove) valid unawaited isolated
      · intro top
        have orphan : state.Orphan pid :=
          { sound := sound
            top := ⟨task, found, top⟩
            empty := by
              rw [resolve_eq_validLink above found top]
              exact valid
            unawaited := unawaited }
        intro first second one two left right _
        rw [(orphan.run above left.finished left.others).textSeen,
          (orphan.run above right.finished right.others).textSeen]

theorem isolated_iff_inherited :
    ∃ state, run Sys.step (Sys.init 16 .boot)
        [.writeValid 0 [47, 97] 2 ⟨true, true⟩, .begin 1,
          .create 1 ⟨10, ⟨5, 0⟩, 0, []⟩, .finish 1,
          .setchos 10 [47, 97] 2 ⟨true, true, true, .other 0⟩, .begin 10,
          .create 10 ⟨11, ⟨6, 0⟩, 0, []⟩, .finish 10] = some state ∧
      state.Isolated 11 := by
  have ends : (run Sys.step (Sys.init 16 .boot)
      [.writeValid 0 [47, 97] 2 ⟨true, true⟩, .begin 1,
        .create 1 ⟨10, ⟨5, 0⟩, 0, []⟩, .finish 1,
        .setchos 10 [47, 97] 2 ⟨true, true, true, .other 0⟩, .begin 10,
        .create 10 ⟨11, ⟨6, 0⟩, 0, []⟩, .finish 10]).any
        (fun state => state.forks = [] ∧ (state.tree.find 11).isSome ∧
          (state.tree.validLink state.table 11).isSome) = true := by
    decide +kernel
  obtain ⟨state, reached, facts⟩ := (Option.any_eq_true _ _).mp ends
  obtain ⟨idle, live, valid⟩ := of_decide_eq_true facts
  obtain ⟨task, found⟩ := Option.isSome_iff_exists.mp live
  have unawaited : ¬ state.Awaited 11 := by
    rintro ⟨fork, pending, _⟩
    rw [idle] at pending
    cases pending
  exact ⟨state, reached, (isolated_iff (ProcTree.boot_below (by decide))
    reached (by decide) found unawaited).mpr (.inl valid)⟩

/-- Process 11, the child of a process without a link, sees what its parent
writes after the fork has returned. -/
theorem child_follows_parent :
    ∃ state one two,
      run Sys.step (Sys.init 16 .boot)
        [.begin 1, .create 1 ⟨10, ⟨5, 0⟩, 0, []⟩, .finish 1, .begin 10,
          .create 10 ⟨11, ⟨6, 0⟩, 0, []⟩, .finish 10] = some state ∧
      state.forks = [] ∧
      run Sys.step state
        [.writeValid 0 [47, 97] 2 ⟨true, true⟩,
          .setchos 10 [47, 97] 2 ⟨true, true, true, .other 0⟩] = some one ∧
      run Sys.step state
        [.writeValid 0 [47, 97] 2 ⟨true, true⟩,
          .setchos 10 [47] 1 ⟨true, true, true, .other 0⟩] = some two ∧
      one.textSeen 11 = [47, 97] ∧ two.textSeen 11 = [47] := by
  have ends : (run Sys.step (Sys.init 16 .boot)
      [.begin 1, .create 1 ⟨10, ⟨5, 0⟩, 0, []⟩, .finish 1, .begin 10,
        .create 10 ⟨11, ⟨6, 0⟩, 0, []⟩, .finish 10]).any
        (fun state => state.forks = [] ∧
          (run Sys.step state
            [.writeValid 0 [47, 97] 2 ⟨true, true⟩,
              .setchos 10 [47, 97] 2 ⟨true, true, true, .other 0⟩]).any
            (fun one => one.textSeen 11 = [47, 97]) ∧
          (run Sys.step state
            [.writeValid 0 [47, 97] 2 ⟨true, true⟩,
              .setchos 10 [47] 1 ⟨true, true, true, .other 0⟩]).any
            (fun two => two.textSeen 11 = [47])) = true := by
    decide +kernel
  obtain ⟨state, reached, facts⟩ := (Option.any_eq_true _ _).mp ends
  obtain ⟨idle, left, right⟩ := of_decide_eq_true facts
  obtain ⟨one, first, seenFirst⟩ := (Option.any_eq_true _ _).mp left
  obtain ⟨two, second, seenSecond⟩ := (Option.any_eq_true _ _).mp right
  exact ⟨state, one, two, reached, idle, first, second,
    of_decide_eq_true seenFirst, of_decide_eq_true seenSecond⟩

end Sys

end Chos.Kernel
