import Chos.Kernel.Resolution

/-!
# Runs of completed handlers

When every handler runs to completion, `chos_do_fork` included, the reference
counts hold between any two handlers and no freed block is ever accessed.
The link a fork carries from its lookup to its final `set_link` is safe
because the entry of the forking process holds it all the while.
-/

namespace Chos.Kernel

open Chos.Library

structure Healthy (spare : Option TextId) (table : Table) : Prop where
  counts : RefCounts table
  owned : Owned spare table

namespace Healthy

variable {spare : Option TextId} {table : Table}

theorem forget (healthy : Healthy spare table) : Healthy none table :=
  { counts := healthy.counts
    owned :=
      { noMisuse := healthy.owned.noMisuse
        textLive := healthy.owned.textLive
        textInjective := healthy.owned.textInjective
        spareLive := by
          intro text impossible
          cases impossible } }

theorem resetLink (healthy : Healthy spare table) {index : Nat}
    (below : index < table.pid_max) :
    Healthy spare (resetLink index table) :=
  { counts := healthy.counts.resetLink below
    owned := healthy.owned.resetLink healthy.counts below }

/-- Storing a link that another entry holds. -/
theorem assignLink (healthy : Healthy spare table) {link : LinkId}
    {task : Task} (below : task.pid < table.pid_max)
    {holder : Nat} (holderBelow : holder < table.pid_max)
    (different : holder ≠ task.pid)
    (holds : table.linkAt holder = some link) :
    Healthy spare (assignLink (some link) task table) := by
  have counts := healthy.counts.assignLink below holderBelow different holds
  exact ⟨counts, healthy.owned.assignLink below
    (healthy.counts.allocated task.pid below) counts⟩

theorem assignLink_none (healthy : Healthy spare table) {task : Task}
    (below : task.pid < table.pid_max) :
    Healthy spare (Kernel.assignLink none task table) := by
  have counts := healthy.counts.assignLink_none below
  exact ⟨counts, healthy.owned.assignLink below
    (healthy.counts.allocated task.pid below) counts⟩

theorem cleanupLinks (healthy : Healthy spare table)
    (seen : Nat → Option Task) : Healthy spare (cleanupLinks seen table) :=
  cleanupLinks_induction (Healthy spare) seen healthy
    fun _ _ kept below _ => kept.resetLink below

theorem lookedUp (healthy : Healthy spare table) {tree : ProcTree}
    (inRange : tree.InRange table) {task : Task}
    (live : task ∈ tree.tasks) :
    Healthy spare (tree.lookedUp table task.pid) :=
  lookedUp_induction (Healthy spare) inRange healthy
    (fun _ _ kept below _ => kept.resetLink below)
    (fun _ _ _ _ kept below holderBelow different holds _ =>
      kept.assignLink below holderBelow different holds)
    (ProcTree.chain_of_mem live)

theorem allocText (healthy : Healthy none table) (content : Text) :
    Healthy (some table.texts.next) (table.allocText content).2 := by
  have live : ∀ text, table.texts.Live text →
      (table.allocText content).2.texts.Live text := by
    intro text old
    refine ⟨Nat.lt_succ_of_lt old.1, ?_⟩
    exact (Heap.alloc_frees_of_ne (Nat.ne_of_lt old.1)).trans old.2
  refine ⟨healthy.counts.congr rfl rfl rfl, healthy.owned.noMisuse, ?_,
    healthy.owned.textInjective, ?_⟩
  · intro link linkLive
    exact live _ (healthy.owned.textLive link linkLive)
  · intro text same
    cases same
    refine ⟨⟨Nat.lt_succ_self _, Heap.alloc_frees_self _ _⟩, ?_⟩
    intro link linkLive
    exact Nat.ne_of_lt (healthy.owned.textLive link linkLive).1

theorem owned_createLink {text : TextId} (healthy : Healthy (some text) table) :
    Owned none (createLink text true table).2 := by
  obtain ⟨textLive, unused⟩ := healthy.owned.spareLive text rfl
  have newBlock : ((createLink text true table).2.links.block
      table.links.next).text = text :=
    congrArg ChosLink.text (Heap.alloc_block_self table.links _)
  have oldLive : ∀ link, link ≠ table.links.next →
      (createLink text true table).2.links.Live link →
        table.links.Live link ∧
          ((createLink text true table).2.links.block link).text =
            (table.links.block link).text := by
    rintro link old ⟨bounded, unfreed⟩
    have earlier : link < table.links.next + 1 := bounded
    refine ⟨⟨by omega, ?_⟩,
      congrArg ChosLink.text (Heap.alloc_block_of_ne old)⟩
    exact (Heap.alloc_frees_of_ne old).symm.trans unfreed
  refine ⟨healthy.owned.noMisuse, ?_, ?_, ?_⟩
  · intro link live
    by_cases fresh : link = table.links.next
    · rw [fresh, newBlock]
      exact textLive
    · obtain ⟨wasLive, sameText⟩ := oldLive link fresh live
      rw [sameText]
      exact healthy.owned.textLive link wasLive
  · intro first second firstLive secondLive same
    by_cases firstFresh : first = table.links.next
    · by_cases secondFresh : second = table.links.next
      · rw [firstFresh, secondFresh]
      · obtain ⟨wasLive, sameText⟩ := oldLive second secondFresh secondLive
        rw [firstFresh, newBlock, sameText] at same
        exact absurd same.symm (unused second wasLive)
    · obtain ⟨wasLive, sameText⟩ := oldLive first firstFresh firstLive
      by_cases secondFresh : second = table.links.next
      · rw [secondFresh, newBlock, sameText] at same
        exact absurd same (unused first wasLive)
      · obtain ⟨wasLive', sameText'⟩ := oldLive second secondFresh secondLive
        rw [sameText, sameText'] at same
        exact healthy.owned.textInjective first second wasLive wasLive' same
  · intro other impossible
    cases impossible

theorem installed {text : TextId} (healthy : Healthy (some text) table)
    {tree : ProcTree} {current : Task} (below : current.pid < table.pid_max)
    (allocated : Bool) :
    Healthy none (installed tree current text allocated table) := by
  have counts : RefCounts
      (Kernel.installed tree current text allocated table) :=
    healthy.counts.installed below text allocated
  have cleaned := healthy.cleanupLinks (seenBy tree current)
  have stillBelow : current.pid <
      (Kernel.cleanupLinks (seenBy tree current) table).pid_max := by
    rw [cleanupLinks_pid_max]
    exact below
  cases allocated with
  | false => exact cleaned.forget.assignLink_none stillBelow
  | true =>
      have pinned := cleaned.counts.createLink text
      have stored : RefCounts (Kernel.assignLink
          (some (Kernel.cleanupLinks (seenBy tree current) table).links.next)
          current (createLink text true
            (Kernel.cleanupLinks (seenBy tree current) table)).2) := counts
      exact ⟨counts, cleaned.owned_createLink.assignLink stillBelow
        (pinned.allocated current.pid stillBelow) stored⟩

theorem setchosTable (healthy : Healthy none table) {tree : ProcTree}
    {current : Task} (below : current.pid < table.pid_max)
    (paths : List ValidPath) (buf : List UInt8) (count : Nat)
    (outcome : SetchosOutcome) :
    Healthy none
      (setchosTable tree paths current buf count outcome table) := by
  have filled := healthy.allocText (copied buf count)
  unfold Kernel.setchosTable
  split
  · dsimp only
    split
    · exact filled.installed below outcome.linkAlloc
    · exact filled.forget
  · exact healthy

theorem readLink (healthy : Healthy none table) {link : LinkId}
    (live : table.links.Live link) :
    Healthy none ((table.loadText link).2.readText
      (table.loadText link).1).2 := by
  obtain ⟨linkUnfreed, textUnfreed⟩ := healthy.owned.unfreed live
  have sameMisuse : ((table.loadText link).2.readText
      (table.loadText link).1).2.misuse = table.misuse := by
    simp [Table.loadText, Table.readText, Table.touchLink, linkUnfreed,
      textUnfreed]
  exact ⟨healthy.counts.congr rfl rfl rfl,
    sameMisuse.trans healthy.owned.noMisuse, healthy.owned.textLive,
    healthy.owned.textInjective, healthy.owned.spareLive⟩

end Healthy

theorem ProcTree.lookedUp_pid_max (tree : ProcTree) (table : Table)
    (pid : Nat) : (tree.lookedUp table pid).pid_max = table.pid_max :=
  foldr_cacheLink_pid_max _ _ _ _

/-- A process that resolves to a link holds it after looking it up. -/
theorem ProcTree.lookedUp_linkAt_self {tree : ProcTree} {table : Table}
    {task : Task} (live : task ∈ tree.tasks) {link : LinkId}
    (resolved : tree.resolve table task.pid = some link) :
    (tree.lookedUp table task.pid).linkAt task.pid = some link := by
  have valid := ProcTree.validLink_lookedUp_self live resolved
  obtain ⟨_, _, valid⟩ := ProcTree.validLink_eq_some_iff.mp valid
  exact (validFor_link valid).1

namespace Sys

/-- The states between two completed handlers. -/
structure Settled (state : Sys) : Prop where
  sound : state.Sound
  healthy : Healthy none state.table
  idle : state.forks = []

theorem Settled.readTable {state : Sys} (settled : state.Settled)
    {pid : Nat} {task : Task} (found : state.tree.find pid = some task) :
    Healthy none (state.readTable pid) := by
  have samePid := ProcTree.find_pid found
  have live := ProcTree.find_mem found
  subst samePid
  have looked := settled.healthy.lookedUp settled.sound.inRange live
  unfold Sys.readTable
  cases resolved : state.tree.resolve state.table task.pid with
  | none => exact looked
  | some link =>
      have below := settled.sound.inRange task live
      rw [← ProcTree.lookedUp_pid_max state.tree state.table task.pid]
        at below
      have holds := ProcTree.lookedUp_linkAt_self live resolved
      exact looked.readLink
        (looked.counts.allocated task.pid below link holds)

/-- A completed fork: the child's entry gets the link its parent resolved
to. -/
theorem forked {state next : Sys} (sound : state.Sound)
    (idle : state.forks = []) {pid : Nat} {new : NewTask}
    (handled : state.handle (.fork pid new) = some next) :
    ∃ creator fresh parentLive,
      state.tree.find pid = some creator ∧
      1 < new.pid ∧ new.pid < state.table.pid_max ∧
      next =
        { table := assignLink (state.tree.resolve state.table pid)
            (new.toTask creator) (state.tree.lookedUp state.table pid)
          tree := state.tree.create (new.toTask creator) fresh parentLive
          forks := []
          valid_paths := state.valid_paths } := by
  obtain ⟨begun, began, rest⟩ := run_cons_eq_some_iff.mp handled
  obtain ⟨created, creating, rest⟩ := run_cons_eq_some_iff.mp rest
  have finishing := run_singleton.mp rest
  have begunSound := sound.step began
  have createdSound := begunSound.step creating
  have began := (step_iff_taken sound.inRange).mp began
  have creating := (step_iff_taken begunSound.inRange).mp creating
  have finishing := (step_iff_taken createdSound.inRange).mp finishing
  cases began with
  | begin running =>
  cases creating with
  | @create _ fork creator _ inside alone found fits fresh parentLive =>
  cases finishing with
  | @finish _ ended current inside' found' =>
  have samePid : creator.pid = pid := ProcTree.find_pid found
  have sameFork : fork =
      { parent := pid
        parent_link := state.tree.resolve state.table pid
        child := none } := by
    simpa [forkOf] using inside.symm
  subst sameFork
  have sameEnd : ended =
      { parent := pid
        parent_link := state.tree.resolve state.table pid
        child := (new.toTask creator).nrIn creator.pid_ns } := by
    simpa [forkOf] using inside'.symm
  subst sameEnd
  have older : pid ≠ (new.toTask creator).pid := by
    rw [← samePid]
    exact fresh creator (ProcTree.find_mem found)
  have sameCreator : current = creator := by
    have again := ProcTree.find_create_of_ne fresh parentLive older
    exact Option.some.inj (found'.symm.trans (again.trans found))
  subst sameCreator
  obtain ⟨_, above, below, named⟩ := fits
  have samePidMax := ProcTree.lookedUp_pid_max state.tree state.table pid
  refine ⟨current, fresh, parentLive, found, above, ?_, ?_⟩
  · exact samePidMax ▸ below
  · obtain ⟨nr, numbered⟩ := Option.isSome_iff_exists.mp named
    simp [finishedTable, numbered, seenBy, findTaskByPidNs, ProcTree.create,
      dropFork, idle]

/-- A `do_fork` that fails leaves two lookups behind. -/
theorem failedForked {state next : Sys} (sound : state.Sound)
    (idle : state.forks = []) {pid : Nat}
    (handled : state.handle (.failedFork pid) = some next) :
    ∃ creator, state.tree.find pid = some creator ∧
      next =
        { state with
          table := state.tree.lookedUp
            (state.tree.lookedUp state.table pid) pid } := by
  obtain ⟨begun, began, rest⟩ := run_cons_eq_some_iff.mp handled
  have finishing := run_singleton.mp rest
  have begunSound := sound.step began
  have began := (step_iff_taken sound.inRange).mp began
  have finishing := (step_iff_taken begunSound.inRange).mp finishing
  cases began with
  | begin running =>
  cases finishing with
  | @finish _ ended current inside found =>
  have sameEnd : ended =
      { parent := pid
        parent_link := state.tree.resolve state.table pid
        child := none } := by
    simpa [forkOf] using inside.symm
  subst sameEnd
  refine ⟨current, found, ?_⟩
  have samePid := ProcTree.find_pid found
  simp [finishedTable, dropFork, idle, samePid]

/-- The parent's entry holds the carried link while the child gets it. -/
theorem Settled.fork {state next : Sys} (settled : state.Settled)
    {pid : Nat} {new : NewTask}
    (handled : state.handle (.fork pid new) = some next) :
    Healthy none next.table ∧ next.forks = [] := by
  obtain ⟨creator, fresh, parentLive, found, _, below, rfl⟩ :=
    forked settled.sound settled.idle handled
  have samePid := ProcTree.find_pid found
  subst samePid
  have live := ProcTree.find_mem found
  have looked := settled.healthy.lookedUp settled.sound.inRange live
  have samePidMax :=
    ProcTree.lookedUp_pid_max state.tree state.table creator.pid
  have childBelow : (new.toTask creator).pid <
      (state.tree.lookedUp state.table creator.pid).pid_max := by
    rw [samePidMax]
    exact below
  refine ⟨?_, rfl⟩
  cases resolved : state.tree.resolve state.table creator.pid with
  | none => exact looked.assignLink_none childBelow
  | some link =>
      apply looked.assignLink childBelow
      · rw [samePidMax]
        exact settled.sound.inRange creator live
      · exact fresh creator live
      · exact ProcTree.lookedUp_linkAt_self live resolved

theorem Settled.failedFork {state next : Sys} (settled : state.Settled)
    {pid : Nat} (handled : state.handle (.failedFork pid) = some next) :
    Healthy none next.table ∧ next.forks = [] := by
  obtain ⟨creator, found, rfl⟩ :=
    failedForked settled.sound settled.idle handled
  have samePid := ProcTree.find_pid found
  subst samePid
  have live := ProcTree.find_mem found
  have inRange := settled.sound.inRange
  have looked := settled.healthy.lookedUp inRange live
  have stillInRange := inRange_congr inRange
    (ProcTree.lookedUp_pid_max state.tree state.table creator.pid)
  exact ⟨looked.lookedUp stillInRange live, settled.idle⟩

theorem Settled.single {state next : Sys} (settled : state.Settled)
    {event : Event} (handler : event.isPhase = false)
    (taken : Taken state event next) :
    Healthy none next.table ∧ next.forks = [] := by
  have healthy := settled.healthy
  have inRange := settled.sound.inRange
  cases taken with
  | setchos buf count outcome running =>
      exact ⟨healthy.setchosTable (current_below inRange running) _ buf
        count outcome, settled.idle⟩
  | resetchos running =>
      have below := current_below inRange running
      rw [ProcTree.find_pid (current_find running)] at below
      exact ⟨(healthy.resetLink below).cleanupLinks _, settled.idle⟩
  | readlink running =>
      exact ⟨settled.readTable (current_find running), settled.idle⟩
  | cleanup running => exact ⟨healthy.cleanupLinks _, settled.idle⟩
  | begin => cases handler
  | create => cases handler
  | finish => cases handler
  | _ => exact ⟨healthy, settled.idle⟩

theorem Sound.handle {state next : Sys} (sound : state.Sound)
    {handler : Handler} (handled : state.handle handler = some next) :
    next.Sound := by
  cases handler with
  | single event =>
      simp only [Sys.handle] at handled
      split at handled
      · cases handled
      · exact sound.step handled
  | fork pid new => exact sound.run handled
  | failedFork pid => exact sound.run handled

/-- What one completed handler keeps. -/
theorem Settled.handle {state next : Sys} (settled : state.Settled)
    {handler : Handler} (handled : state.handle handler = some next) :
    next.Settled := by
  have sound := settled.sound.handle handled
  have kept : Healthy none next.table ∧ next.forks = [] := by
    cases handler with
    | single event =>
        simp only [Sys.handle] at handled
        split at handled
        · cases handled
        · rename_i noPhase
          exact settled.single (by simpa using noPhase)
            ((step_iff_taken settled.sound.inRange).mp handled)
    | fork pid new => exact settled.fork handled
    | failedFork pid => exact settled.failedFork handled
  exact ⟨sound, kept.1, kept.2⟩

theorem init_settled {pid_max : Nat} {tree : ProcTree}
    (below : ∀ task ∈ tree.tasks, task.pid < pid_max) :
    (Sys.init pid_max tree).Settled := by
  have unallocated : ∀ link,
      ¬ (Sys.init pid_max tree).table.links.Live link :=
    fun link live => Nat.not_lt_zero link live.1
  refine ⟨init_sound below, ⟨.init pid_max, ⟨rfl, ?_, ?_, ?_⟩⟩, rfl⟩
  · intro link live
    exact absurd live (unallocated link)
  · intro first _ live
    exact absurd live (unallocated first)
  · intro text impossible
    cases impossible

theorem Settled.run {state final : Sys} (settled : state.Settled)
    {handlers : List Handler}
    (finished : run Sys.handle state handlers = some final) :
    final.Settled :=
  run_invariant (fun _ _ _ kept _ handled => kept.handle handled) finished
    (along_of_forall (fun _ _ => trivial) state handlers) settled

/-- When `lookup_link` stores the link found at a task's parent, dropping the
task's old reference does not free it: the parent's entry holds it. -/
theorem Settled.vacateLink {state : Sys} (settled : state.Settled)
    {task : Task} (live : task ∈ state.tree.tasks) (above : 1 < task.pid)
    {link : LinkId} {table : Table}
    (looked : state.tree.lookup task.parent state.table =
      .ok (some link, table)) :
    (vacateLink task.pid table).links.Live link := by
  have inRange := settled.sound.inRange
  have different := ProcTree.parent_ne live above
  obtain ⟨parent, found⟩ : ∃ parent,
      state.tree.find task.parent = some parent := by
    cases found : state.tree.find task.parent with
    | none => simp [ProcTree.lookup, lookupLink, found] at looked
    | some parent => exact ⟨parent, rfl⟩
  have samePid := ProcTree.find_pid found
  rw [← samePid] at looked different
  have parentLive := ProcTree.find_mem found
  have healthy := settled.healthy.lookedUp inRange parentLive
  have samePidMax :=
    ProcTree.lookedUp_pid_max state.tree state.table parent.pid
  rw [ProcTree.lookup_eq inRange parentLive, Except.ok.injEq,
    Prod.mk.injEq] at looked
  obtain ⟨resolved, rfl⟩ := looked
  have holds := ProcTree.lookedUp_linkAt_self parentLive resolved
  have taskBelow : task.pid <
      (state.tree.lookedUp state.table parent.pid).pid_max := by
    rw [samePidMax]
    exact inRange task live
  have parentBelow : parent.pid <
      (state.tree.lookedUp state.table parent.pid).pid_max := by
    rw [samePidMax]
    exact inRange parent parentLive
  have linkLive := healthy.counts.allocated parent.pid parentBelow link holds
  unfold Kernel.vacateLink
  split
  · have counts := refCounts_iff_pinnedCounts.mp healthy.counts
    exact (resetLink_replaces taskBelow).live_newer_of_other taskBelow
      linkLive (counts.balanced link linkLive) parentBelow different holds
  · exact linkLive

/-- The reference-count law in every state between completed handlers; the
last part is about each `set_link` that `lookup_link` would make there. -/
theorem refCounts_of_run {pid_max : Nat} {tree : ProcTree}
    (below : ∀ task ∈ tree.tasks, task.pid < pid_max)
    {handlers : List Handler} {final : Sys}
    (finished : run Sys.handle (Sys.init pid_max tree) handlers =
      some final) :
    RefCounts final.table ∧ final.table.misuse = 0 ∧
      ∀ task ∈ final.tree.tasks, 1 < task.pid → ∀ link table,
        final.tree.lookup task.parent final.table =
          .ok (some link, table) →
        (Kernel.vacateLink task.pid table).links.Live link := by
  have settled := (init_settled below).run finished
  refine ⟨settled.healthy.counts, settled.healthy.owned.noMisuse, ?_⟩
  intro task live above link table looked
  exact settled.vacateLink live above looked

theorem refCounts_of_run_inherited :
    ∃ final, run Sys.handle (Sys.init 16 .boot)
        [.single (.writeValid 0 [47, 97] 2 ⟨true, true⟩),
          .fork 1 ⟨10, ⟨5, 0⟩, 0, []⟩,
          .single (.setchos 10 [47, 97] 2 ⟨true, true, true, .other 0⟩),
          .fork 10 ⟨11, ⟨6, 0⟩, 0, []⟩,
          .single (.exit 10),
          .fork 1 ⟨10, ⟨7, 0⟩, 0, []⟩,
          .single (.readlink 11)] = some final ∧
      RefCounts final.table ∧ final.table.misuse = 0 := by
  have ends : (run Sys.handle (Sys.init 16 .boot)
      [.single (.writeValid 0 [47, 97] 2 ⟨true, true⟩),
        .fork 1 ⟨10, ⟨5, 0⟩, 0, []⟩,
        .single (.setchos 10 [47, 97] 2 ⟨true, true, true, .other 0⟩),
        .fork 10 ⟨11, ⟨6, 0⟩, 0, []⟩,
        .single (.exit 10),
        .fork 1 ⟨10, ⟨7, 0⟩, 0, []⟩,
        .single (.readlink 11)]).isSome := by
    decide +kernel
  obtain ⟨final, finished⟩ := Option.isSome_iff_exists.mp ends
  have counts := refCounts_of_run (ProcTree.boot_below (by decide)) finished
  exact ⟨final, finished, counts.1, counts.2.1⟩

end Sys

end Chos.Kernel
