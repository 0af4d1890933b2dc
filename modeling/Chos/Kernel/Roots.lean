import Chos.Kernel.Access

/-!
# Root directories

How each event moves the root directory of a process.  A process confined by
an ordinary `chroot` stays away from the real root as long as it does not
write `/` to `setchos` (that branch of `write_setchos` sets the root without
asking where the process is), and does not meet the real root under `/chos`.
-/

namespace Chos.Kernel

open Chos.Library

namespace Sys

def rootOf (state : Sys) (pid : Nat) : Option Root :=
  (state.tree.find pid).map Task.root

theorem rootOf_of_find {state : Sys} {pid : Nat} {task : Task}
    (found : state.tree.find pid = some task) :
    state.rootOf pid = some task.root := by
  simp [rootOf, found]

theorem find_setRoot_map_root {tree : ProcTree} {pid : Nat} {current : Task}
    (found : tree.find pid = some current) (root : Root) (query : Nat) :
    ((tree.setRoot pid root).find query).map Task.root =
      if query = pid then some root
      else (tree.find query).map Task.root := by
  rw [ProcTree.find_setRoot]
  by_cases same : query = pid
  · subst same
    simp [found, ProcTree.find_pid found]
  · rw [if_neg same]
    cases other : tree.find query with
    | none => rfl
    | some task =>
        have different : task.pid ≠ pid := by
          rw [ProcTree.find_pid other]
          exact same
        simp [different]

/-- The root of a process after an event that does not end it. -/
def rootAfter (state : Sys) (pid : Nat) (root : Root) : Event → Root
  | .setchos caller buf count outcome =>
      match state.current caller with
      | none => root
      | some current =>
          if pid = caller then
            setchosRoot state.valid_paths current buf count outcome
          else root
  | .chroot caller dir => if pid = caller then .other dir else root
  | _ => root

theorem rootOf_taken {state next : Sys} {event : Event}
    (taken : Taken state event next) {pid : Nat} {root : Root}
    (before : state.rootOf pid = some root)
    (stays : event ≠ .exit pid) :
    next.rootOf pid = some (state.rootAfter pid root event) := by
  cases taken with
  | setchos buf count outcome running =>
      refine (find_setRoot_map_root (current_find running) _ pid).trans ?_
      simp only [rootAfter, running]
      split
      · rfl
      · exact before
  | chroot dir running =>
      refine (find_setRoot_map_root (current_find running) _ pid).trans ?_
      simp only [rootAfter]
      split
      · rfl
      · exact before
  | create inside alone found fits fresh parentLive =>
      obtain ⟨task, live, _⟩ := Option.map_eq_some_iff.mp before
      have different := fresh task (ProcTree.find_mem live)
      rw [ProcTree.find_pid live] at different
      refine (congrArg (Option.map Task.root)
        (ProcTree.find_create_of_ne fresh parentLive different)).trans ?_
      exact before
  | @exit gone _ running above =>
      have different : pid ≠ gone := by
        intro same
        exact stays (by rw [same])
      refine (congrArg (Option.map Task.root)
        (ProcTree.find_exit_of_ne different)).trans ?_
      rw [Option.map_map]
      have sameRoot : Task.root ∘ ProcTree.reparent gone = Task.root := by
        funext task
        exact ProcTree.reparent_root gone task
      rw [sameRoot]
      exact before
  | _ => exact before

end Sys

/-- A write of `/` to `setchos` that gets the memory for its text. -/
def Event.WritesRoot (pid : Nat) : Event → Prop
  | .setchos caller buf count outcome =>
      caller = pid ∧ outcome.textAlloc ∧ trim buf count = rootText
  | _ => False

namespace Sys

/-- A write of a listed path from a root that is neither the real one nor
CHOSROOT, whose `sys_chroot` finds the real root under `/chos`. -/
def LandsOnRoot (state : Sys) (pid : Nat) : Event → Prop
  | .setchos caller buf count outcome =>
      caller = pid ∧ (∃ dir, state.rootOf pid = some (.other dir)) ∧
        outcome.textAlloc ∧
        isValidPath (copied buf count) state.valid_paths ∧
        outcome.chroot ∧ outcome.chosIn = .nochroot
  | _ => False

/-- The two ways to the real root. -/
def Escapes (state : Sys) (pid : Nat) (event : Event) : Prop :=
  event.WritesRoot pid ∨ state.LandsOnRoot pid event

end Sys

/-- Where a write leads from a root that is not the real one. -/
theorem setchosRoot_eq_nochroot_iff {paths : List ValidPath}
    {current : Task} {buf : List UInt8} {count : Nat}
    {outcome : SetchosOutcome} (away : current.root ≠ .nochroot) :
    setchosRoot paths current buf count outcome = .nochroot ↔
      outcome.textAlloc ∧ trim buf count = rootText ∨
        (∃ dir, current.root = .other dir) ∧ outcome.textAlloc ∧
          isValidPath (copied buf count) paths ∧
          outcome.chroot ∧ outcome.chosIn = .nochroot := by
  have slash : isRootPath (copied buf count) = true ↔
      trim buf count = rootText := by
    rw [copied_eq_trim]
    exact isRootPath_trim
  rw [setchosRoot, ← slash]
  cases rooted : isRootPath (copied buf count) with
  | true => cases outcome.textAlloc <;> simp [accepts, rooted, away]
  | false =>
      cases isRoot : current.root with
      | nochroot => exact absurd isRoot away
      | named => simp [isChrooted]
      | other dir =>
          cases changes : outcome.chroot with
          | false => simp [isChrooted, myChroot, changes]
          | true =>
              by_cases accepted : outcome.textAlloc = true ∧
                  isValidPath (copied buf count) paths = true
              · simp [accepts, rooted, isChrooted, myChroot, changes,
                  accepted]
              · simp only [accepts, rooted, Bool.false_or, accepted,
                  if_false, reduceCtorEq, false_iff]
                rintro (⟨_, impossible⟩ | ⟨_, allocated, listed, _⟩)
                · cases impossible
                · exact accepted ⟨allocated, listed⟩

namespace Sys

theorem rootAfter_eq_nochroot_iff {state next : Sys} {event : Event}
    (taken : Taken state event next) {pid : Nat} {root : Root}
    (before : state.rootOf pid = some root) (away : root ≠ .nochroot) :
    state.rootAfter pid root event = .nochroot ↔
      state.Escapes pid event := by
  cases taken with
  | @setchos caller current buf count outcome running =>
      simp only [rootAfter, running, Escapes, Event.WritesRoot, LandsOnRoot]
      by_cases own : pid = caller
      · subst own
        have isRoot := (rootOf_of_find (current_find running)).symm.trans
          before
        rw [Option.some.injEq] at isRoot
        subst isRoot
        simp only [if_true, true_and, before, Option.some.injEq,
          setchosRoot_eq_nochroot_iff away]
      · simp [own, away, Ne.symm own]
  | @chroot caller current dir running =>
      simp only [rootAfter, Escapes, Event.WritesRoot, LandsOnRoot, or_self,
        iff_false]
      split
      · simp
      · exact away
  | _ => exact iff_of_false away (by simp [Escapes, Event.WritesRoot,
      LandsOnRoot])

def Confined (pid : Nat) (state : Sys) : Prop :=
  ∃ root, state.rootOf pid = some root ∧ root ≠ .nochroot

theorem Confined.taken {state next : Sys} {event : Event} {pid : Nat}
    (confined : state.Confined pid) (taken : Taken state event next)
    (stays : event ≠ .exit pid) :
    (¬ state.Escapes pid event → next.Confined pid) ∧
      (state.Escapes pid event → next.rootOf pid = some .nochroot) := by
  obtain ⟨root, before, away⟩ := confined
  have after := rootOf_taken taken before stays
  have moves := rootAfter_eq_nochroot_iff taken before away
  constructor
  · intro inside
    exact ⟨_, after, fun free => inside (moves.mp free)⟩
  · intro escapes
    rw [after, moves.mpr escapes]

/-- A confined process reaches the real root exactly by writing `/`, or a
listed path where `/chos` is the real root. -/
theorem confined_iff_no_escape {pid_max : Nat} {tree : ProcTree}
    (below : ∀ task ∈ tree.tasks, task.pid < pid_max)
    {before events : List Event} {state final : Sys}
    (reached : run Sys.step (Sys.init pid_max tree) before = some state)
    {pid : Nat} {task : Task} (live : state.tree.find pid = some task)
    (confined : task.root ≠ .nochroot ∧ task.root ≠ .named)
    (finished : run Sys.step state events = some final)
    (stays : ∀ event ∈ events, event ≠ .exit pid) :
    Throughout Sys.step
        (fun current => current.rootOf pid ≠ some .nochroot)
        state events ↔
      Along Sys.step
        (fun current event => ¬ event.WritesRoot pid ∧
          ¬ current.LandsOnRoot pid event) state events := by
  have start : state.Sound ∧ state.Confined pid :=
    ⟨(init_sound below).run reached, task.root, rootOf_of_find live,
      confined.1⟩
  apply throughout_iff_along
    (fun current => current.Sound ∧ current.Confined pid)
    _ _ _ finished ((along_iff_forall_mem finished).mpr stays) start
  · rintro current ⟨_, root, isRoot, away⟩
    rw [isRoot]
    simpa using away
  · rintro current event next ⟨sound, inside⟩ stays allowed stepped
    have taken := (step_iff_taken sound.inRange).mp stepped
    exact ⟨sound.taken taken,
      (inside.taken taken stays).1 (not_or.mpr allowed)⟩
  · rintro current event next ⟨sound, inside⟩ stays escapes stepped
    have taken := (step_iff_taken sound.inRange).mp stepped
    rw [← not_or, not_not] at escapes
    rw [(inside.taken taken stays).2 escapes]
    simp

theorem confined_iff_no_escape_listed :
    ∃ state,
      run Sys.step (Sys.init 16 .boot)
        [.writeValid 0 [47, 97] 2 ⟨true, true⟩, .begin 1,
          .create 1 ⟨10, ⟨5, 0⟩, 0, []⟩, .finish 1, .chroot 10 7] =
        some state ∧
      Throughout Sys.step
        (fun current => current.rootOf 10 ≠ some .nochroot) state
        [.setchos 10 [47, 97] 2 ⟨true, true, true, .other 9⟩,
          .readlink 10] := by
  have confined : (run Sys.step (Sys.init 16 .boot)
      [.writeValid 0 [47, 97] 2 ⟨true, true⟩, .begin 1,
        .create 1 ⟨10, ⟨5, 0⟩, 0, []⟩, .finish 1, .chroot 10 7]).map
        (fun state => (state.rootOf 10,
          (run Sys.step state
            [.setchos 10 [47, 97] 2 ⟨true, true, true, .other 9⟩,
              .readlink 10]).isSome)) = some (some (.other 7), true) := by
    decide +kernel
  obtain ⟨state, reached, both⟩ := Option.map_eq_some_iff.mp confined
  obtain ⟨inside, ends⟩ := Prod.mk.inj both
  obtain ⟨task, live, root⟩ := Option.map_eq_some_iff.mp inside
  obtain ⟨final, finished⟩ := Option.isSome_iff_exists.mp ends
  refine ⟨state, reached, ?_⟩
  apply (confined_iff_no_escape (ProcTree.boot_below (by decide))
    reached live (by simp [root]) finished (by simp)).mpr
  have noSlash : trim [47, 97] 2 ≠ rootText := by decide
  simp [Along, Event.WritesRoot, LandsOnRoot, noSlash]

/-- Process 10 is confined to a directory, and writing `/` frees it. -/
theorem setchos_escapes_chroot :
    ∃ state final,
      run Sys.step (Sys.init 16 .boot)
        [.begin 1, .create 1 ⟨10, ⟨5, 0⟩, 0, []⟩, .finish 1,
          .chroot 10 7] = some state ∧
      state.rootOf 10 = some (.other 7) ∧
      run Sys.step state [.setchos 10 [47] 1 ⟨true, true, true, .other 0⟩] =
        some final ∧
      final.rootOf 10 = some .nochroot := by
  have confined : (run Sys.step (Sys.init 16 .boot)
      [.begin 1, .create 1 ⟨10, ⟨5, 0⟩, 0, []⟩, .finish 1,
        .chroot 10 7]).map (fun state => (state.rootOf 10,
          (run Sys.step state [.setchos 10 [47] 1
            ⟨true, true, true, .other 0⟩]).map (rootOf · 10))) =
      some (some (.other 7), some (some .nochroot)) := by
    decide +kernel
  obtain ⟨state, reached, both⟩ := Option.map_eq_some_iff.mp confined
  obtain ⟨inside, escaped⟩ := Prod.mk.inj both
  obtain ⟨final, finished, free⟩ := Option.map_eq_some_iff.mp escaped
  exact ⟨state, final, reached, inside, finished, free⟩

end Sys

end Chos.Kernel
