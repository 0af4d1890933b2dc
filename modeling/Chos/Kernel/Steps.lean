import Chos.Kernel.System

/-!
# The result of every event

Below the size of the table no handler stops, so each of them is a plain
function of the state.  For every event one lemma says when it can be taken
and what the state is afterwards; later proofs use these and unfold no
handler.
-/

namespace Chos.Kernel

open Chos.Library

/-- The texts `write_setchos` lets through. -/
def accepts (paths : List ValidPath) (content : Text) : Bool :=
  isRootPath content || isValidPath content paths

def installed (tree : ProcTree) (current : Task) (text : TextId)
    (allocated : Bool) (table : Table) : Table :=
  let cleaned := cleanupLinks (seenBy tree current) table
  assignLink (createLink text allocated cleaned).1 current
    (createLink text allocated cleaned).2

def setchosResult (paths : List ValidPath) (buf : List UInt8) (count : Nat)
    (outcome : SetchosOutcome) : Except Errno Nat :=
  if outcome.textAlloc then
    if accepts paths (copied buf count) then .ok count else .error .ENOENT
  else .error .ENOMEM

def setchosRoot (paths : List ValidPath) (current : Task) (buf : List UInt8)
    (count : Nat) (outcome : SetchosOutcome) : Root :=
  if outcome.textAlloc ∧ accepts paths (copied buf count) then
    if isRootPath (copied buf count) then .nochroot
    else if isChrooted current.root then current.root
    else myChroot outcome current.root
  else current.root

def setchosTable (tree : ProcTree) (paths : List ValidPath) (current : Task)
    (buf : List UInt8) (count : Nat) (outcome : SetchosOutcome)
    (table : Table) : Table :=
  if outcome.textAlloc then
    let content := copied buf count
    let filled := (table.allocText content).2
    if accepts paths content then
      installed tree current table.texts.next outcome.linkAlloc filled
    else filled
  else table

@[simp] theorem createLink_pid_max (text : TextId) (allocated : Bool)
    (table : Table) :
    (createLink text allocated table).2.pid_max = table.pid_max := by
  unfold createLink
  split <;> rfl

@[simp] theorem createLink_procs (text : TextId) (allocated : Bool)
    (table : Table) :
    (createLink text allocated table).2.procs = table.procs := by
  unfold createLink
  split <;> rfl

@[simp] theorem cleanupLinks_pid_max (seen : Nat → Option Task)
    (table : Table) :
    (cleanupLinks seen table).pid_max = table.pid_max := by
  apply cleanupLinks_induction
    (fun current => current.pid_max = table.pid_max)
  · rfl
  · intro current index same _ _
    rw [resetLink_pid_max]
    exact same

theorem installLink_eq {tree : ProcTree} {current : Task} {table : Table}
    (below : current.pid < table.pid_max) (text : TextId)
    (allocated : Bool) :
    installLink tree current text allocated table =
      .ok (installed tree current text allocated table) := by
  have stillBelow : current.pid < (createLink text allocated
      (cleanupLinks (seenBy tree current) table)).2.pid_max := by
    rw [createLink_pid_max, cleanupLinks_pid_max]
    exact below
  exact setLink_eq stillBelow

theorem writeSetchos_eq {tree : ProcTree} {paths : List ValidPath}
    {current : Task} {table : Table} (below : current.pid < table.pid_max)
    (buf : List UInt8) (count : Nat) (outcome : SetchosOutcome) :
    writeSetchos tree paths current buf count outcome table =
      .ok (setchosResult paths buf count outcome,
        setchosRoot paths current buf count outcome,
        setchosTable tree paths current buf count outcome table) := by
  unfold writeSetchos setchosResult setchosRoot setchosTable
  cases outcome.textAlloc with
  | false => rfl
  | true =>
      have install : ∀ text allocated,
          installLink tree current text allocated
              { table with texts := table.texts.alloc (copied buf count) } =
            .ok (installed tree current text allocated
              { table with texts := table.texts.alloc (copied buf count) }) :=
        installLink_eq below
      cases rooted : isRootPath (copied buf count) with
      | true =>
          simp [accepts, rooted, install, pure, Except.pure, bind,
            Except.bind, Table.allocText]
      | false =>
          cases valid : isValidPath (copied buf count) paths with
          | true =>
              simp [accepts, rooted, valid, install, pure, Except.pure, bind,
                Except.bind, Table.allocText]
          | false =>
              simp [accepts, rooted, valid, pure, Except.pure,
                Table.allocText]

theorem writeResetchos_eq {tree : ProcTree} {current : Task} {table : Table}
    (below : current.pid < table.pid_max) (count : Nat) :
    writeResetchos tree current count table =
      .ok (count, cleanupLinks (seenBy tree current)
        (resetLink current.pid table)) := by
  have noBug : ¬ current.pid > table.pid_max := by omega
  simp [writeResetchos, Table.proc, noBug, below, pure, Except.pure, bind,
    Except.bind]

namespace Sys

/-- Every live task has an entry of the table. -/
def InRange (state : Sys) : Prop := state.tree.InRange state.table

theorem current_eq_some_iff {state : Sys} {pid : Nat} {current : Task} :
    state.current pid = some current ↔
      state.forkOf pid = none ∧ state.tree.find pid = some current := by
  unfold Sys.current
  cases state.forkOf pid <;> simp

theorem current_find {state : Sys} {pid : Nat} {current : Task}
    (running : state.current pid = some current) :
    state.tree.find pid = some current :=
  (current_eq_some_iff.mp running).2

theorem current_below {state : Sys} (inRange : state.InRange) {pid : Nat}
    {current : Task} (running : state.current pid = some current) :
    current.pid < state.table.pid_max :=
  inRange current (ProcTree.find_mem (current_find running))

/-- The table after the link of a looked-up process was read. -/
def readTable (state : Sys) (pid : Nat) : Table :=
  let table := state.tree.lookedUp state.table pid
  match state.tree.resolve state.table pid with
  | none => table
  | some link => ((table.loadText link).2.readText
      (table.loadText link).1).2

/-- The text a process reads from `/proc/chos/link`. -/
def textSeen (state : Sys) (pid : Nat) : Text :=
  match state.tree.resolve state.table pid with
  | none => rootText
  | some link => (state.tree.lookedUp state.table pid).textOf link

/-- The table after `chos_do_fork` returns. -/
def finishedTable (state : Sys) (fork : PendingFork) (current : Task) :
    Table :=
  match fork.child with
  | some nr =>
      match seenBy state.tree current nr with
      | some child => assignLink fork.parent_link child state.table
      | none => state.table
  | none => state.tree.lookedUp state.table current.pid

/-- What each event needs and does, one case per event. -/
inductive Taken (state : Sys) : Event → Sys → Prop where
  | setchos {pid : Nat} {current : Task} (buf : List UInt8) (count : Nat)
      (outcome : SetchosOutcome)
      (running : state.current pid = some current) :
      Taken state (.setchos pid buf count outcome)
        { state with
          table := setchosTable state.tree state.valid_paths current buf
            count outcome state.table
          tree := state.tree.setRoot pid
            (setchosRoot state.valid_paths current buf count outcome) }
  | resetchos {pid : Nat} {current : Task}
      (running : state.current pid = some current) :
      Taken state (.resetchos pid)
        { state with
          table := cleanupLinks (seenBy state.tree current)
            (resetLink pid state.table) }
  | readlink {pid : Nat} {current : Task}
      (running : state.current pid = some current) :
      Taken state (.readlink pid) { state with table := state.readTable pid }
  | cleanup {pid : Nat} {current : Task}
      (running : state.current pid = some current) :
      Taken state (.cleanup pid)
        { state with
          table := cleanupLinks (seenBy state.tree current) state.table }
  | begin {pid : Nat} {current : Task}
      (running : state.current pid = some current) :
      Taken state (.begin pid)
        { state with
          table := state.tree.lookedUp state.table pid
          forks :=
            { parent := pid
              parent_link := state.tree.resolve state.table pid
              child := none } :: state.forks }
  | create {pid : Nat} {fork : PendingFork} {creator : Task} {new : NewTask}
      (inside : state.forkOf pid = some fork)
      (alone : fork.child = none)
      (found : state.tree.find pid = some creator)
      (fits : state.Creatable creator new)
      (fresh : ∀ task ∈ state.tree.tasks,
        task.pid ≠ (new.toTask creator).pid)
      (parentLive : (state.tree.find (new.toTask creator).parent).isSome) :
      Taken state (.create pid new)
        { state with
          tree := state.tree.create (new.toTask creator) fresh parentLive
          forks :=
            { fork with
              child := (new.toTask creator).nrIn creator.pid_ns } ::
              state.dropFork pid }
  | finish {pid : Nat} {fork : PendingFork} {current : Task}
      (inside : state.forkOf pid = some fork)
      (found : state.tree.find pid = some current) :
      Taken state (.finish pid)
        { state with
          table := state.finishedTable fork current
          forks := state.dropFork pid }
  | exit {pid : Nat} {current : Task}
      (running : state.current pid = some current) (above : 1 < pid) :
      Taken state (.exit pid) { state with tree := state.tree.exit pid }
  | chroot {pid : Nat} {current : Task} (dir : Nat)
      (running : state.current pid = some current) :
      Taken state (.chroot pid dir)
        { state with tree := state.tree.setRoot pid (.other dir) }
  | writeValid (euid : Nat) (buf : List UInt8) (count : Nat)
      (outcome : ValidOutcome) :
      Taken state (.writeValid euid buf count outcome)
        { state with
          valid_paths :=
            (Kernel.writeValid euid buf count outcome
              state.valid_paths).2 }

theorem setchos_eq {state : Sys} (inRange : state.InRange) {pid : Nat}
    {current : Task} (running : state.current pid = some current)
    (buf : List UInt8) (count : Nat) (outcome : SetchosOutcome) :
    state.setchos pid buf count outcome =
      some (setchosResult state.valid_paths buf count outcome,
        { state with
          table := setchosTable state.tree state.valid_paths current buf
            count outcome state.table
          tree := state.tree.setRoot pid
            (setchosRoot state.valid_paths current buf count outcome) }) := by
  simp [setchos, running,
    writeSetchos_eq (current_below inRange running)]

theorem resetchos_eq {state : Sys} (inRange : state.InRange) {pid : Nat}
    {current : Task} (running : state.current pid = some current) :
    state.resetchos pid =
      some { state with
        table := cleanupLinks (seenBy state.tree current)
          (resetLink pid state.table) } := by
  have samePid := ProcTree.find_pid (current_find running)
  simp [resetchos, running, samePid,
    writeResetchos_eq (current_below inRange running)]

theorem lookup_eq {state : Sys} (inRange : state.InRange) {pid : Nat}
    {task : Task} (found : state.tree.find pid = some task) :
    state.tree.lookup pid state.table =
      .ok (state.tree.resolve state.table pid,
        state.tree.lookedUp state.table pid) := by
  have samePid := ProcTree.find_pid found
  rw [← samePid]
  exact ProcTree.lookup_eq inRange (ProcTree.find_mem found)

theorem readlink_eq {state : Sys} (inRange : state.InRange) {pid : Nat}
    {current : Task} (running : state.current pid = some current) :
    state.readlink pid =
      some (state.textSeen pid,
        { state with table := state.readTable pid }) := by
  have found := current_find running
  have samePid := ProcTree.find_pid found
  have looked := lookup_eq inRange found
  unfold readlink
  simp only [running, linkText, samePid, looked, bind, Except.bind]
  unfold textSeen readTable
  cases state.tree.resolve state.table pid with
  | none => rfl
  | some link => rfl

theorem finishTable_eq {state : Sys} (inRange : state.InRange)
    (fork : PendingFork) {pid : Nat} {current : Task}
    (found : state.tree.find pid = some current) :
    state.finishTable fork current =
      .ok (state.finishedTable fork current) := by
  unfold finishTable finishedTable
  cases fork.child with
  | none =>
      have looked := ProcTree.lookup_eq inRange (ProcTree.find_mem found)
      simp [looked, pure, Except.pure, bind, Except.bind]
  | some nr =>
      cases seen : seenBy state.tree current nr with
      | none => simp [seen]
      | some child =>
          have below := inRange child (findTaskByPidNs_mem seen)
          simp [seen, setLink_eq below]

/-- What a step leads to. -/
theorem taken_of_step {state next : Sys} (inRange : state.InRange)
    {event : Event} (taken : state.step event = some next) :
    Taken state event next := by
  cases event with
  | setchos pid buf count outcome =>
      cases running : state.current pid with
      | none => simp [step, setchos, running] at taken
      | some current =>
          simp only [step, setchos_eq inRange running, Option.map_some,
            Option.some.injEq] at taken
          rw [← taken]
          exact .setchos buf count outcome running
  | resetchos pid =>
      cases running : state.current pid with
      | none => simp [step, resetchos, running] at taken
      | some current =>
          simp only [step, resetchos_eq inRange running,
            Option.some.injEq] at taken
          rw [← taken]
          exact .resetchos running
  | readlink pid =>
      cases running : state.current pid with
      | none => simp [step, readlink, running] at taken
      | some current =>
          simp only [step, readlink_eq inRange running, Option.map_some,
            Option.some.injEq] at taken
          rw [← taken]
          exact .readlink running
  | cleanup pid =>
      cases running : state.current pid with
      | none => simp [step, cleanup, running] at taken
      | some current =>
          simp only [step, cleanup, running, Option.some.injEq] at taken
          rw [← taken]
          exact .cleanup running
  | begin pid =>
      cases running : state.current pid with
      | none => simp [step, begin, running] at taken
      | some current =>
          simp only [step, begin, running,
            lookup_eq inRange (current_find running),
            Option.some.injEq] at taken
          rw [← taken]
          exact .begin running
  | create pid new =>
      simp only [step, create] at taken
      cases inside : state.forkOf pid with
      | none => simp [inside] at taken
      | some fork =>
          simp only [inside] at taken
          split at taken
          · cases taken
          · rename_i creator found
            split at taken
            · rename_i fits
              rw [Option.some.injEq] at taken
              rw [← taken]
              exact .create inside fits.1 found fits.2 _ _
            · cases taken
  | finish pid =>
      simp only [step, finish] at taken
      cases inside : state.forkOf pid with
      | none => simp [inside] at taken
      | some fork =>
          cases found : state.tree.find pid with
          | none => simp [inside, found] at taken
          | some current =>
              simp only [inside, found, finishTable_eq inRange fork found,
                Option.some.injEq] at taken
              rw [← taken]
              exact .finish inside found
  | exit pid =>
      cases running : state.current pid with
      | none => simp [step, exit, running] at taken
      | some current =>
          by_cases above : 1 < pid
          · simp only [step, exit, running, if_pos above,
              Option.some.injEq] at taken
            rw [← taken]
            exact .exit running above
          · simp [step, exit, running, above] at taken
  | chroot pid dir =>
      cases running : state.current pid with
      | none => simp [step, chroot, running] at taken
      | some current =>
          simp only [step, chroot, running, Option.some.injEq] at taken
          rw [← taken]
          exact .chroot dir running
  | writeValid euid buf count outcome =>
      simp only [step, Option.some.injEq] at taken
      rw [← taken]
      exact .writeValid euid buf count outcome

/-- Every handler comes to its end. -/
theorem step_of_taken {state next : Sys} (inRange : state.InRange)
    {event : Event} (taken : Taken state event next) :
    state.step event = some next := by
  cases taken with
  | setchos _ _ _ running => simp [step, setchos_eq inRange running]
  | resetchos running => simp [step, resetchos_eq inRange running]
  | readlink running => simp [step, readlink_eq inRange running]
  | cleanup running => simp [step, cleanup, running]
  | begin running =>
      simp [step, begin, running,
        lookup_eq inRange (current_find running)]
  | create inside alone found fits =>
      simp only [step, create, inside]
      split
      · rename_i absent
        rw [found] at absent
        cases absent
      · rename_i creator again
        rw [found] at again
        cases again
        rw [dif_pos ⟨alone, fits⟩]
  | @finish _ fork _ inside found =>
      simp [step, finish, inside, found,
        finishTable_eq inRange fork found]
  | exit running above => simp [step, exit, running, above]
  | chroot _ running => simp [step, chroot, running]
  | writeValid => rfl

/-- An event is taken exactly as `Taken` says; in particular no handler
stops on the way. -/
theorem step_iff_taken {state next : Sys} (inRange : state.InRange)
    {event : Event} :
    state.step event = some next ↔ Taken state event next :=
  ⟨taken_of_step inRange, step_of_taken inRange⟩

end Sys

end Chos.Kernel
