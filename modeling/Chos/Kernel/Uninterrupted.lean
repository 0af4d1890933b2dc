import Chos.Kernel.CompletedRuns
import Chos.Kernel.Threads

/-!
# Handlers that run alone

The concurrent machine takes the handlers apart.  Put together again, with no
other process in between, the instructions of a handler compute what the
sequential function of the same name computes.
-/

namespace Chos.Kernel

open Chos.Library

/-- Steps of the thread `me` of process `pid`, one after another. -/
inductive Alone (me pid : Nat) :
    Shared → List Instr → Shared → List Instr → Prop where
  | done (shared : Shared) (code : List Instr) :
      Alone me pid shared code shared code
  | next {shared middle final : Shared} {current : Task} {instr : Instr}
      {rest after left : List Instr}
      (found : shared.tree.find pid = some current)
      (performed : shared.perform me current rest instr =
        some (middle, after))
      (later : Alone me pid middle (settle after) final left) :
      Alone me pid shared (instr :: rest) final left

namespace Alone

variable {me pid : Nat} {shared middle final : Shared} {current : Task}
  {code between left rest : List Instr}

theorem trans (first : Alone me pid shared code middle between)
    (second : Alone me pid middle between final left) :
    Alone me pid shared code final left := by
  induction first with
  | done => exact second
  | next found performed _ induction =>
      exact .next found performed (induction second)

theorem single {instr : Instr} {after : List Instr}
    (found : shared.tree.find pid = some current)
    (performed : shared.perform me current rest instr =
      some (middle, after)) :
    Alone me pid shared (instr :: rest) middle (settle after) :=
  .next found performed (.done middle (settle after))

theorem destroy (found : shared.tree.find pid = some current)
    (link : LinkId) :
    Alone me pid shared (.destroyRead link :: rest)
      (shared.withTable (destroyLink link shared.table)) (settle rest) := by
  by_cases zero : (shared.table.links.block link).count = 0
  · have freed : destroyLink link shared.table =
        (((shared.table.atomicRead link).2.loadText link).2.kfreeText
          ((shared.table.atomicRead link).2.loadText link).1).kfreeLink
            link := by
      rw [destroyLink]
      exact if_pos zero
    rw [freed]
    refine .next found rfl ?_
    rw [if_pos zero]
    refine .next found rfl ?_
    refine .next found rfl ?_
    exact single found rfl
  · have kept : destroyLink link shared.table =
        (shared.table.atomicRead link).2 := by
      rw [destroyLink]
      exact if_neg zero
    rw [kept]
    refine .next found rfl ?_
    rw [if_neg zero]
    exact .done _ _

theorem release (found : shared.tree.find pid = some current)
    (link : LinkId) :
    Alone me pid shared (.dec link :: rest)
      (shared.withTable (releaseLink link shared.table)) (settle rest) := by
  refine .next found rfl ?_
  refine .next found rfl ?_
  by_cases zero : ((shared.withTable
      (shared.table.atomicDec link)).table.links.block link).count = 0
  · have destroyed : releaseLink link shared.table =
        destroyLink link ((shared.table.atomicDec link).atomicRead link).2 :=
      by
      rw [releaseLink]
      exact if_pos zero
    rw [destroyed, if_pos zero]
    exact @destroy me pid
      (shared.withTable ((shared.table.atomicDec link).touchLink link))
      current rest found link
  · have kept : releaseLink link shared.table =
        ((shared.table.atomicDec link).atomicRead link).2 := by
      rw [releaseLink]
      exact if_neg zero
    rw [kept, if_neg zero]
    exact .done _ _

theorem reset (found : shared.tree.find pid = some current) {index : Nat}
    (below : index < shared.table.pid_max) :
    Alone me pid shared (.resetSwap index :: rest)
      (shared.withTable (resetLink index shared.table)) (settle rest) := by
  have accessed : shared.table.proc index =
      .ok (shared.table.procs index) :=
    Table.proc_eq_ok_iff.mpr ⟨below, rfl⟩
  cases held : (shared.table.procs index).link with
  | none =>
      have cleared : resetLink index shared.table =
          shared.table.store index .cleared := by
        simp [resetLink, Table.linkAt, held]
      rw [cleared]
      apply single found
      simp [Shared.perform, Shared.performResetSwap, accessed, held]
  | some link =>
      have released : resetLink index shared.table =
          releaseLink link (shared.table.store index .cleared) := by
        simp [resetLink, Table.linkAt, held]
      rw [released]
      have swapped : shared.perform me current rest (.resetSwap index) =
          some (shared.withTable (shared.table.store index .cleared),
            .dec link :: rest) := by
        simp [Shared.perform, Shared.performResetSwap, accessed, held]
      exact .next found swapped
        (@release me pid
          (shared.withTable (shared.table.store index .cleared)) current
          rest found link)

private theorem storing (found : shared.tree.find pid = some current)
    (link : Option LinkId) (task : Task) :
    Alone me pid shared (setting link task :: rest)
      (shared.withTable
        ((match link with
          | none => shared.table
          | some link => shared.table.atomicInc link).store task.pid
            (.assigned link task))) (settle rest) := by
  cases link with
  | none => exact single found rfl
  | some link => exact trans (single found rfl) (single found rfl)

theorem set (found : shared.tree.find pid = some current)
    (link : Option LinkId) {task : Task}
    (below : task.pid < shared.table.pid_max) :
    Alone me pid shared (.setCheck link task :: rest)
      (shared.withTable (assignLink link task shared.table))
      (settle rest) := by
  have accessed : shared.table.proc task.pid =
      .ok (shared.table.procs task.pid) :=
    Table.proc_eq_ok_iff.mpr ⟨below, rfl⟩
  have noBug : ¬ task.pid > shared.table.pid_max := by omega
  have settled : settle (setting link task :: rest) =
      setting link task :: rest := by
    cases link with
    | none => rfl
    | some link => rfl
  by_cases empty : (shared.table.procs task.pid).link = none
  · have vacant : vacateLink task.pid shared.table = shared.table := by
      simp [vacateLink, Table.linkAt, empty]
    have checked : shared.perform me current rest (.setCheck link task) =
        some (shared, setting link task :: rest) := by
      simp [Shared.perform, Shared.performSetCheck, accessed, empty, noBug]
    apply trans (single found checked)
    rw [settled, assignLink.eq_def, vacant]
    exact storing found link task
  · have vacated : vacateLink task.pid shared.table =
        resetLink task.pid shared.table := by
      simp [vacateLink, Table.linkAt, empty]
    have checked : shared.perform me current rest (.setCheck link task) =
        some (shared,
          .resetSwap task.pid :: setting link task :: rest) := by
      simp [Shared.perform, Shared.performSetCheck, accessed, empty, noBug]
    apply trans (single found checked)
    apply trans (reset found below)
    rw [settled, assignLink.eq_def, vacated]
    exact @storing me pid
      (shared.withTable (resetLink task.pid shared.table)) current rest
      found link task

theorem sweep (found : shared.tree.find pid = some current)
    (remaining index : Nat)
    (counted : index + remaining = shared.table.pid_max) :
    Alone me pid shared (.sweep index :: rest)
      (shared.withTable ((List.range' index remaining).foldl
        (cleanupStep (seenBy shared.tree current)) shared.table))
      (settle rest) := by
  induction remaining generalizing shared index with
  | zero =>
      have past : ¬ index < shared.table.pid_max := by omega
      apply single found
      simp [Shared.perform, Shared.performSweep, past, Shared.withTable]
  | succ remaining induction =>
      have below : index < shared.table.pid_max := by omega
      rw [List.range'_succ, List.foldl_cons]
      by_cases isStale : stale (seenBy shared.tree current index)
          (shared.table.procs index) = true
      · have round : cleanupStep (seenBy shared.tree current) shared.table
            index = resetLink index shared.table := if_pos isStale
        have tested : shared.perform me current rest (.sweep index) =
            some (shared, .resetSwap index :: .sweep (index + 1) :: rest) :=
          by simp [Shared.perform, Shared.performSweep, below, isStale]
        rw [round]
        apply trans (single found tested)
        apply trans (reset found below)
        exact @induction
          (shared.withTable (resetLink index shared.table)) found (index + 1)
          (by
            simp only [Shared.withTable, resetLink_pid_max]
            omega)
      · have round : cleanupStep (seenBy shared.tree current) shared.table
            index = shared.table := if_neg isStale
        have tested : shared.perform me current rest (.sweep index) =
            some (shared, .sweep (index + 1) :: rest) := by
          simp [Shared.perform, Shared.performSweep, below, isStale]
        rw [round]
        exact .next found tested (induction found (index + 1) (by omega))

theorem cleanup (found : shared.tree.find pid = some current)
    (free : shared.tasklist = none) :
    Alone me pid shared (sweeping ++ rest)
      (shared.withTable
        (cleanupLinks (seenBy shared.tree current) shared.table))
      (settle rest) := by
  have locked : shared.perform me current
      (.sweep 0 :: .unlockTasks :: rest) .lockTasks =
      some ({ shared with tasklist := some me },
        .sweep 0 :: .unlockTasks :: rest) := by
    simp [Shared.perform, free]
  refine .next found locked ?_
  apply trans (@sweep me pid { shared with tasklist := some me } current
    (.unlockTasks :: rest) found shared.table.pid_max 0 (Nat.zero_add _))
  apply @single me pid _ _ current
  · exact found
  · simp only [Shared.perform, Shared.withTable, cleanupLinks,
      List.range_eq_range', free]

theorem setLink_ok {link : Option LinkId} {task : Task}
    {table next : Table} (stored : setLink link task table = .ok next) :
    task.pid < table.pid_max ∧ next = assignLink link task table := by
  by_cases below : task.pid < table.pid_max
  · rw [setLink_eq below] at stored
    cases stored
    exact ⟨below, rfl⟩
  · exfalso
    simp only [setLink] at stored
    split at stored
    · cases stored
    · simp [Table.proc, below, bind, Except.bind] at stored

theorem parentOf_live {tree : ProcTree} {task : Task}
    (live : task ∈ tree.tasks) :
    tree.parentOf task = tree.find task.parent := by
  simp [ProcTree.parentOf, ProcTree.find_of_mem live]

theorem lookup (found : shared.tree.find pid = some current)
    {fuel : Nat} {task : Option Task} {value : Option LinkId}
    {table : Table}
    (live : ∀ inner, task = some inner → inner ∈ shared.tree.tasks)
    (looked : lookupLink shared.tree fuel task shared.table =
      .ok (value, table)) :
    Alone me pid shared (.lookup task :: rest) (shared.withTable table)
        (settle (returning value rest)) ∧
      table.pid_max = shared.table.pid_max := by
  induction fuel generalizing task value table rest with
  | zero => cases looked
  | succ fuel induction =>
      cases task with
      | none =>
          cases looked
          exact ⟨single found rfl, rfl⟩
      | some task =>
          have taskLive := live task rfl
          rw [lookupLink] at looked
          by_cases init : task.pid = 0 ∨ task.pid = 1
          · rw [if_pos init] at looked
            cases looked
            refine ⟨single found ?_, rfl⟩
            simp [Shared.perform, Shared.performLookup, init,
              Shared.withTable]
          rw [if_neg init] at looked
          by_cases bug : task.pid > shared.table.pid_max
          · rw [if_pos bug] at looked
            cases looked
          rw [if_neg bug] at looked
          cases accessed : shared.table.proc task.pid with
          | error stop =>
              rw [accessed] at looked
              cases looked
          | ok entry =>
              rw [accessed] at looked
              simp only [bind, Except.bind] at looked
              have below := (Table.proc_eq_ok_iff.mp accessed).1
              by_cases miss : entry.link = none ∨
                  entry.start_time ≠ task.start_time.tv_sec
              · rw [if_pos miss] at looked
                have climbs : shared.perform me current rest
                    (.lookup (some task)) =
                    some (shared, .lookup (shared.tree.find task.parent) ::
                      .climbed task :: rest) := by
                  simp [Shared.perform, Shared.performLookup, init, bug,
                    accessed, miss, parentOf_live taskLive]
                cases above : lookupLink shared.tree fuel
                    (shared.tree.find task.parent) shared.table with
                | error stop =>
                    rw [above] at looked
                    cases looked
                | ok result =>
                    obtain ⟨inner, middle⟩ := result
                    rw [above] at looked
                    obtain ⟨climbed, samePidMax⟩ :=
                      @induction (.climbed task :: rest) _ _ _
                        (fun inner same => ProcTree.find_mem same) above
                    cases inner with
                    | none =>
                        cases looked
                        refine ⟨?_, by simpa using samePidMax⟩
                        refine .next found climbs (climbed.trans ?_)
                        exact @reset me pid (shared.withTable middle)
                          current (returning none rest) found task.pid
                          (by simpa [samePidMax, Shared.withTable]
                            using below)
                    | some link =>
                        cases stored : setLink (some link) task middle with
                        | error stop =>
                            simp only [stored] at looked
                            cases looked
                        | ok final =>
                            simp only [stored] at looked
                            cases looked
                            obtain ⟨fits, rfl⟩ := setLink_ok stored
                            refine ⟨?_, by simpa using samePidMax⟩
                            refine .next found climbs (climbed.trans ?_)
                            exact @set me pid (shared.withTable middle)
                              current (returning (some link) rest) found
                              (some link) task fits
              · rw [if_neg miss] at looked
                cases looked
                refine ⟨single found ?_, rfl⟩
                simp [Shared.perform, Shared.performLookup, init, bug,
                  accessed, miss, Shared.withTable]

theorem lookedUp (found : shared.tree.find pid = some current)
    (inRange : shared.sys.InRange) :
    Alone me pid shared (.lookup (some current) :: rest)
      (shared.withTable (shared.tree.lookedUp shared.table pid))
      (settle (returning (shared.tree.resolve shared.table pid) rest)) := by
  have looked : shared.tree.lookup pid shared.table = _ :=
    Sys.lookup_eq inRange found
  rw [ProcTree.lookup, found] at looked
  exact (lookup found (fun inner same => by
    cases same
    exact ProcTree.find_mem found) looked).1

theorem readlink (found : shared.tree.find pid = some current)
    (inRange : shared.sys.InRange) :
    Alone me pid shared [.lookup (some current), .readlink]
      (shared.withTable (shared.sys.readTable pid)) [] := by
  apply trans (lookedUp found inRange)
  rw [Sys.readTable]
  dsimp only [Shared.sys]
  cases shared.tree.resolve shared.table pid with
  | none => exact .done _ _
  | some link =>
      refine .next found rfl ?_
      exact .next found rfl (.done _ _)

theorem resetchos (found : shared.tree.find pid = some current)
    (inRange : shared.sys.InRange) (free : shared.tasklist = none) :
    Alone me pid shared (.resetSwap current.pid :: sweeping)
      (shared.withTable (cleanupLinks (seenBy shared.tree current)
        (resetLink current.pid shared.table))) [] := by
  have below : current.pid < shared.table.pid_max :=
    inRange current (ProcTree.find_mem found)
  apply trans (reset found below)
  exact @cleanup me pid
    (shared.withTable (resetLink current.pid shared.table)) current [] found
    free

theorem setchos (found : shared.tree.find pid = some current)
    (inRange : shared.sys.InRange) (free : shared.tasklist = none)
    (buf : List UInt8) (count : Nat) (outcome : SetchosOutcome) :
    Alone me pid shared [.setchos buf count outcome]
      (shared.withTable (setchosTable shared.tree shared.valid_paths current
        buf count outcome shared.table)) [] := by
  have below : current.pid < shared.table.pid_max :=
    inRange current (ProcTree.find_mem found)
  rw [setchosTable]
  by_cases allocated : outcome.textAlloc = true
  · rw [if_pos allocated]
    dsimp only
    let filled := (shared.table.allocText (copied buf count)).2
    by_cases accepted :
        accepts shared.valid_paths (copied buf count) = true
    · have either : isRootPath (copied buf count) = true ∨
          isValidPath (copied buf count) shared.valid_paths = true := by
        simpa [accepts] using accepted
      have started : shared.perform me current []
          (.setchos buf count outcome) =
          some (shared.withTable filled, sweeping ++
            [.createLink shared.table.texts.next outcome.linkAlloc,
              .assign current]) := by
        simp only [Shared.perform, Shared.performSetchos, allocated, either,
          if_true]
        rfl
      let cleaned := cleanupLinks (seenBy shared.tree current) filled
      rw [if_pos accepted]
      refine .next found started ?_
      apply trans (@cleanup me pid (shared.withTable filled) current
        [.createLink shared.table.texts.next outcome.linkAlloc,
          .assign current] found free)
      refine .next found rfl ?_
      exact @set me pid (shared.withTable (createLink
        shared.table.texts.next outcome.linkAlloc cleaned).2) current []
        found _ current (by
          simp only [Shared.withTable, createLink_pid_max, cleaned,
            cleanupLinks_pid_max]
          exact below)
    · have neither : ¬ (isRootPath (copied buf count) = true ∨
          isValidPath (copied buf count) shared.valid_paths = true) := by
        simpa [accepts] using accepted
      have rejected : shared.perform me current []
          (.setchos buf count outcome) =
          some (shared.withTable filled, []) := by
        simp only [Shared.perform, Shared.performSetchos, allocated,
          neither, if_true, if_false]
        rfl
      rw [if_neg accepted]
      exact .next found rejected (.done _ _)
  · have failed : shared.perform me current []
        (.setchos buf count outcome) = some (shared, []) := by
      simp only [Shared.perform, Shared.performSetchos, allocated]
      rfl
    rw [if_neg allocated]
    exact .next found failed (.done _ _)

/-- A fork whose `do_fork` fails looks the caller's link up a second time. -/
theorem failedFork (found : shared.tree.find pid = some current)
    (inRange : shared.sys.InRange) (free : shared.tasklist = none) :
    Alone me pid shared [.lookup (some current), .forked none]
      (shared.withTable (shared.tree.lookedUp
        (shared.tree.lookedUp shared.table pid) pid)) [] := by
  let looked := shared.withTable (shared.tree.lookedUp shared.table pid)
  have called : looked.perform me current []
      (.doFork (shared.tree.resolve shared.table pid) none) =
      some (looked, [.lookup (some current)]) := by
    simp only [Shared.perform, looked, Shared.withTable, free, if_true]
    rfl
  have stillInRange : looked.sys.InRange := by
    intro task live
    simp only [looked, Shared.sys, Shared.withTable,
      ProcTree.lookedUp_pid_max]
    exact inRange task live
  apply trans (lookedUp found inRange)
  apply trans (@single me pid looked _ current _ _ _ found called)
  exact @lookedUp me pid looked current [] found stillInRange

theorem performDoFork_eq {link : Option LinkId} {new : NewTask} {nr : Nat}
    (found : shared.tree.find current.pid = some current)
    (fits : shared.sys.Creatable current new)
    (numbered : (new.toTask current).nrIn current.pid_ns = some nr)
    (fresh : ∀ task ∈ shared.tree.tasks,
      task.pid ≠ (new.toTask current).pid)
    (parentLive : (shared.tree.find (new.toTask current).parent).isSome) :
    shared.performDoFork current rest link (some new) =
      some
        ({ shared with
          tree := shared.tree.create (new.toTask current) fresh parentLive },
          .findChild link nr :: rest) := by
  simp only [Shared.performDoFork]
  split
  · rename_i absent
    rw [found] at absent
    cases absent
  · rename_i creator same
    have equal : current = creator :=
      Option.some.inj (found.symm.trans same)
    subst equal
    split
    · rename_i absent
      rw [numbered] at absent
      cases absent
    · rename_i number sameNumber
      have equal : nr = number :=
        Option.some.inj (numbered.symm.trans sameNumber)
      subst equal
      rw [dif_pos fits]

/-- A fork: the child gets the link its parent resolved to before. -/
theorem fork {new : NewTask} {nr : Nat}
    (found : shared.tree.find pid = some current)
    (inRange : shared.sys.InRange) (free : shared.tasklist = none)
    (fits : shared.sys.Creatable current new)
    (numbered : (new.toTask current).nrIn current.pid_ns = some nr)
    (fresh : ∀ task ∈ shared.tree.tasks,
      task.pid ≠ (new.toTask current).pid)
    (parentLive : (shared.tree.find (new.toTask current).parent).isSome) :
    Alone me pid shared [.lookup (some current), .forked (some new)]
      { shared with
        tree := shared.tree.create (new.toTask current) fresh parentLive
        table := assignLink (shared.tree.resolve shared.table pid)
          (new.toTask current) (shared.tree.lookedUp shared.table pid) }
      [] := by
  let looked := shared.withTable (shared.tree.lookedUp shared.table pid)
  let grown : Shared :=
    { looked with
      tree := shared.tree.create (new.toTask current) fresh parentLive }
  have samePid : current.pid = pid := ProcTree.find_pid found
  have samePidMax : looked.table.pid_max = shared.table.pid_max :=
    ProcTree.lookedUp_pid_max shared.tree shared.table pid
  have stillFits : looked.sys.Creatable current new := by
    obtain ⟨unused, above, below, named⟩ := fits
    exact ⟨unused, above, by simpa [Shared.sys, samePidMax] using below,
      named⟩
  have called : looked.perform me current []
      (.doFork (shared.tree.resolve shared.table pid) (some new)) =
      some (grown,
        [.findChild (shared.tree.resolve shared.table pid) nr]) := by
    have performed := @performDoFork_eq looked current []
      (shared.tree.resolve shared.table pid) new nr (samePid ▸ found)
      stillFits numbered fresh parentLive
    simp only [Shared.perform]
    rw [if_pos (show looked.tasklist = none from free)]
    exact performed
  have older : pid ≠ (new.toTask current).pid := by
    rw [← samePid]
    exact fresh current (ProcTree.find_mem found)
  have foundStill : grown.tree.find pid = some current :=
    (ProcTree.find_create_of_ne fresh parentLive older).trans found
  have seen : seenBy grown.tree current nr = some (new.toTask current) := by
    simp [seenBy, findTaskByPidNs, ProcTree.create, grown, numbered]
  have child : grown.perform me current []
      (.findChild (shared.tree.resolve shared.table pid) nr) =
      some (grown, [.setCheck (shared.tree.resolve shared.table pid)
        (new.toTask current)]) := by
    simp only [Shared.perform, seen]
    rw [if_pos (show grown.tasklist = none from free)]
  apply trans (lookedUp found inRange)
  apply trans (@single me pid looked _ current _ _ _ found called)
  apply trans (@single me pid grown _ current _ _ _ foundStill child)
  exact @set me pid grown current [] foundStill
    (shared.tree.resolve shared.table pid) (new.toTask current) (by
      have below := stillFits.2.2.1
      exact below)

end Alone

/-- The completed handler that a call is when nothing interrupts it. -/
def Call.handler (pid : Nat) : Call → Handler
  | .readlink => .single (.readlink pid)
  | .setchos buf count outcome => .single (.setchos pid buf count outcome)
  | .resetchos => .single (.resetchos pid)
  | .fork (some new) => .fork pid new
  | .fork none => .failedFork pid

/-- The steps of one thread are events of the machine. -/
theorem Conc.run_of_alone
    {me pid : Nat} {shared final : Shared} {code left : List Instr}
    (alone : Alone me pid shared code final left) {threads : List Thread}
    (listed : threads[me]? = some ⟨pid, code⟩) :
    ∃ count, run Conc.step ⟨shared, threads⟩
      (List.replicate count (.advance me)) =
        some ⟨final, threads.set me ⟨pid, left⟩⟩ := by
  induction alone generalizing threads with
  | done shared code =>
      refine ⟨0, ?_⟩
      obtain ⟨inside, same⟩ := List.getElem?_eq_some_iff.mp listed
      rw [← same, List.set_getElem_self]
      rfl
  | @next shared middle final current instr rest after left found performed
      later induction =>
      have inside : me < threads.length :=
        (List.getElem?_eq_some_iff.mp listed).1
      obtain ⟨count, finished⟩ :=
        @induction (threads.set me ⟨pid, settle after⟩) (by simp [inside])
      refine ⟨count + 1, ?_⟩
      rw [List.replicate_succ, run_cons_eq_some_iff]
      refine ⟨⟨middle, threads.set me ⟨pid, settle after⟩⟩, ?_, ?_⟩
      · simp [Conc.step, Conc.advance, listed, found, performed]
      · rw [finished, List.set_set]

/-- A completed fork was one the kernel could make. -/
theorem Sys.creatable_of_fork {state next : Sys} (sound : state.Sound)
    {pid : Nat} {new : NewTask}
    (handled : state.handle (.fork pid new) = some next) :
    ∃ creator, state.tree.find pid = some creator ∧
      state.Creatable creator new := by
  obtain ⟨begun, began, rest⟩ := run_cons_eq_some_iff.mp handled
  obtain ⟨created, creating, _⟩ := run_cons_eq_some_iff.mp rest
  have begunSound := sound.step began
  have began := (step_iff_taken sound.inRange).mp began
  have creating := (step_iff_taken begunSound.inRange).mp creating
  cases began with
  | begin running =>
  cases creating with
  | @create _ fork creator _ inside alone found fits fresh parentLive =>
  obtain ⟨unused, above, below, named⟩ := fits
  refine ⟨creator, found, unused, above, ?_, named⟩
  rw [← ProcTree.lookedUp_pid_max state.tree state.table pid]
  exact below

/-- What one process does alone in the table is what the handler of the
sequential system does. -/
theorem Alone.handler
    {me pid : Nat} {shared : Shared} {call : Call} {next : Sys}
    (sound : shared.sys.Sound) (free : shared.tasklist = none)
    (handled : shared.sys.handle (call.handler pid) = some next) :
    ∃ current final, shared.tree.find pid = some current ∧
      Alone me pid shared (call.code current) final [] ∧
      final.table = next.table := by
  have inRange := sound.inRange
  cases call with
  | readlink =>
      have stepped : shared.sys.step (.readlink pid) =
          some next := handled
      have taken := (Sys.step_iff_taken inRange).mp stepped
      cases taken with
      | readlink running =>
          have found := Sys.current_find running
          exact ⟨_, _, found, Alone.readlink found inRange, rfl⟩
  | setchos buf count outcome =>
      have stepped : shared.sys.step (.setchos pid buf count outcome) =
          some next := handled
      have taken := (Sys.step_iff_taken inRange).mp stepped
      cases taken with
      | setchos _ _ _ running =>
          have found := Sys.current_find running
          exact ⟨_, _, found,
            Alone.setchos found inRange free buf count outcome, rfl⟩
  | resetchos =>
      have stepped : shared.sys.step (.resetchos pid) =
          some next := handled
      have taken := (Sys.step_iff_taken inRange).mp stepped
      cases taken with
      | @resetchos _ current running =>
          have found := Sys.current_find running
          have samePid : current.pid = pid := ProcTree.find_pid found
          refine ⟨_, _, found, Alone.resetchos found inRange free, ?_⟩
          rw [samePid]
          rfl
  | fork new =>
      cases new with
      | none =>
          obtain ⟨creator, found, rfl⟩ :=
            Sys.failedForked sound rfl handled
          exact ⟨_, _, found, Alone.failedFork found inRange free, rfl⟩
      | some new =>
          obtain ⟨current, again, fits⟩ :=
            Sys.creatable_of_fork sound handled
          obtain ⟨creator, fresh, parentLive, found, _, _, rfl⟩ :=
            Sys.forked sound rfl handled
          have same : creator = current :=
            Option.some.inj (found.symm.trans again)
          subst same
          obtain ⟨nr, numbered⟩ :=
            Option.isSome_iff_exists.mp fits.2.2.2
          exact ⟨_, _, found, Alone.fork found inRange free fits numbered
            fresh parentLive, rfl⟩

/-- A call that nothing interrupts comes to its end, with the table that the
sequential handler returns. -/
theorem Conc.run_call_alone
    {state : Conc} {pid : Nat} {call : Call} {next : Sys}
    (sound : state.shared.sys.Sound) (free : state.shared.tasklist = none)
    (idle : state.Idle pid)
    (handled : state.shared.sys.handle (call.handler pid) = some next) :
    ∃ count final,
      run Conc.step state (.call pid call ::
        List.replicate count (.advance state.threads.length)) =
        some final ∧
      final.shared.table = next.table := by
  obtain ⟨current, shared, found, alone, same⟩ :=
    @Alone.handler state.threads.length pid _ _ _ sound free handled
  obtain ⟨count, finished⟩ := Conc.run_of_alone alone
    (show (state.threads ++ [⟨pid, call.code current⟩])[
      state.threads.length]? = some ⟨pid, call.code current⟩ by simp)
  refine ⟨count, _, run_cons_eq_some_iff.mpr ⟨_, ?_, finished⟩, same⟩
  simp [Conc.step, Conc.call, found, idle]

end Chos.Kernel
