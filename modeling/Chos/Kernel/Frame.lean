import Chos.Kernel.Persistence

/-!
# What every event keeps

A table is sound when its pointers lead to blocks that were allocated and
every counter equals the number of entries pointing at its link.  Every event
leads from a sound state to a sound one, allocates at most one link, and
changes neither the size of the table nor the text of an existing link.
-/

namespace Chos.Kernel

open Chos.Library

namespace Table

structure Sound (table : Table) : Prop where
  entries : ∀ index < table.pid_max, ∀ link,
    table.linkAt index = some link → link < table.links.next
  texts : ∀ link < table.links.next,
    (table.links.block link).text < table.texts.next
  balanced : ∀ link < table.links.next, table.slack link = 0

/-- The newer table is sound and knows every link of the older one under the
same text. -/
structure Evolves (older newer : Table) : Prop where
  sound : newer.Sound
  pid_max : newer.pid_max = older.pid_max
  next : older.links.next ≤ newer.links.next
  textOf : ∀ link < older.links.next, newer.textOf link = older.textOf link

theorem Sound.evolves {table : Table} (sound : table.Sound) :
    table.Evolves table :=
  { sound := sound
    pid_max := rfl
    next := Nat.le_refl _
    textOf := fun _ _ => rfl }

theorem Evolves.trans {first second third : Table}
    (before : first.Evolves second) (after : second.Evolves third) :
    first.Evolves third :=
  { sound := after.sound
    pid_max := after.pid_max.trans before.pid_max
    next := Nat.le_trans before.next after.next
    textOf := by
      intro link bounded
      have later : link < second.links.next :=
        Nat.lt_of_lt_of_le bounded before.next
      rw [after.textOf link later, before.textOf link bounded] }

/-- The accounting field is the only one that differs. -/
theorem Sound.evolves_misuse {table : Table} (sound : table.Sound)
    (misuse : Nat) : table.Evolves { table with misuse := misuse } :=
  { sound :=
      { entries := sound.entries
        texts := sound.texts
        balanced := sound.balanced }
    pid_max := rfl
    next := Nat.le_refl _
    textOf := fun _ _ => rfl }

theorem Sound.resetLink {table : Table} (sound : table.Sound) {index : Nat}
    (below : index < table.pid_max) :
    table.Evolves (resetLink index table) :=
  { sound :=
      { entries := by
          intro other otherBelow link holds
          rw [resetLink_pid_max] at otherBelow
          rw [resetLink_linkAt] at holds
          by_cases same : other = index
          · subst same
            simp at holds
          · rw [Function.update_of_ne same] at holds
            simpa using sound.entries other otherBelow link holds
        texts := by
          intro link bounded
          simpa using sound.texts link (by simpa using bounded)
        balanced := by
          intro link bounded
          rw [resetLink_slack below]
          exact sound.balanced link (by simpa using bounded) }
    pid_max := resetLink_pid_max index table
    next := by simp
    textOf := by
      intro link _
      simp [textOf] }

theorem Sound.assignLink {table : Table} (sound : table.Sound)
    {link : Option LinkId} {task : Task} (below : task.pid < table.pid_max)
    (known : ∀ given, link = some given → given < table.links.next) :
    table.Evolves (assignLink link task table) :=
  { sound :=
      { entries := by
          intro other otherBelow given holds
          rw [assignLink_pid_max] at otherBelow
          rw [assignLink_linkAt] at holds
          rw [assignLink_links_next]
          by_cases same : other = task.pid
          · subst same
            rw [Function.update_self] at holds
            exact known given holds
          · rw [Function.update_of_ne same] at holds
            exact sound.entries other otherBelow given holds
        texts := by
          intro other bounded
          simpa using sound.texts other (by simpa using bounded)
        balanced := by
          intro other bounded
          rw [assignLink_slack below]
          exact sound.balanced other (by simpa using bounded) }
    pid_max := assignLink_pid_max link task table
    next := by simp
    textOf := by
      intro other _
      simp [textOf] }

theorem Sound.allocText {table : Table} (sound : table.Sound)
    (content : Text) : table.Evolves (table.allocText content).2 :=
  { sound :=
      { entries := sound.entries
        texts := fun link bounded =>
          Nat.lt_succ_of_lt (sound.texts link bounded)
        balanced := sound.balanced }
    pid_max := rfl
    next := Nat.le_refl _
    textOf := by
      intro link bounded
      have old := sound.texts link bounded
      exact Heap.alloc_block_of_ne (Nat.ne_of_lt old) }

theorem Sound.createLink {table : Table} (sound : table.Sound)
    {text : TextId} (known : text < table.texts.next) (allocated : Bool) :
    table.Evolves (createLink text allocated table).2 := by
  cases allocated with
  | false => exact sound.evolves
  | true =>
      have sameRefs : ∀ link,
          (Kernel.createLink text true table).2.refs link =
            table.refs link :=
        refs_congr rfl rfl
      have oldBlock : ∀ link < table.links.next,
          (Kernel.createLink text true table).2.links.block link =
            table.links.block link := fun link bounded =>
        Heap.alloc_block_of_ne (Nat.ne_of_lt bounded)
      have newBlock :
          (Kernel.createLink text true table).2.links.block
            table.links.next = { text := text, count := 0 } :=
        Heap.alloc_block_self table.links _
      refine ⟨⟨?_, ?_, ?_⟩, rfl, Nat.le_succ _, ?_⟩
      · intro index below link holds
        exact Nat.lt_succ_of_lt (sound.entries index below link holds)
      · intro link bounded
        rcases Nat.lt_succ_iff_lt_or_eq.mp bounded with old | fresh
        · rw [oldBlock link old]
          exact sound.texts link old
        · rw [fresh, newBlock]
          exact known
      · intro link bounded
        rw [slack, sameRefs, count]
        rcases Nat.lt_succ_iff_lt_or_eq.mp bounded with old | fresh
        · rw [oldBlock link old]
          exact sound.balanced link old
        · have unheld : table.refs table.links.next = 0 := by
            apply holders_eq_zero_iff.mpr
            intro index below holds
            exact Nat.lt_irrefl _ (sound.entries index below _ holds)
          rw [fresh, newBlock, unheld]
          rfl
      · intro link bounded
        unfold textOf
        rw [oldBlock link bounded]
        rfl

theorem Sound.cleanupLinks {table : Table} (sound : table.Sound)
    (seen : Nat → Option Task) :
    table.Evolves (cleanupLinks seen table) :=
  cleanupLinks_induction table.Evolves seen sound.evolves
    fun _ _ kept below _ => kept.trans (kept.sound.resetLink below)

theorem Sound.lookedUp {table : Table} (sound : table.Sound)
    {tree : ProcTree} (inRange : tree.InRange table) {task : Task}
    (live : task ∈ tree.tasks) :
    table.Evolves (tree.lookedUp table task.pid) := by
  apply lookedUp_induction table.Evolves inRange sound.evolves
  · intro current index kept below _
    exact kept.trans (kept.sound.resetLink below)
  · intro current link task holder kept below holderBelow _ holds _
    apply kept.trans (kept.sound.assignLink below ?_)
    intro given same
    cases same
    exact kept.sound.entries holder holderBelow link holds
  · exact ProcTree.chain_of_mem live

end Table

theorem validFor_link {entry : ChosProc} {task : Task} {link : LinkId}
    (valid : entry.validFor task = some link) :
    entry.link = some link ∧
      entry.start_time = task.start_time.tv_sec := by
  unfold ChosProc.validFor at valid
  split at valid
  · rename_i same
    exact ⟨valid, same⟩
  · cases valid

theorem ProcTree.validLink_eq_some_iff {tree : ProcTree} {table : Table}
    {pid : Nat} {link : LinkId} :
    tree.validLink table pid = some link ↔
      ∃ task, tree.find pid = some task ∧
        (table.procs pid).validFor task = some link := by
  unfold ProcTree.validLink
  cases tree.find pid <;> simp

/-- A resolved link sits in the entry of some live task. -/
theorem ProcTree.resolve_held {tree : ProcTree} {table : Table}
    {pid : Nat} {link : LinkId}
    (resolved : tree.resolve table pid = some link) :
    ∃ holder ∈ tree.tasks, table.linkAt holder.pid = some link := by
  obtain ⟨member, _, valid⟩ := List.exists_of_findSome?_eq_some resolved
  obtain ⟨task, found, valid⟩ := ProcTree.validLink_eq_some_iff.mp valid
  refine ⟨task, ProcTree.find_mem found, ?_⟩
  rw [ProcTree.find_pid found]
  exact (validFor_link valid).1

theorem createLink_known {text : TextId} {allocated : Bool} {table : Table}
    {link : LinkId} (created : (createLink text allocated table).1 = some link) :
    link < (createLink text allocated table).2.links.next := by
  cases allocated with
  | false => simp [createLink] at created
  | true =>
      simp only [createLink, if_true, Option.some.injEq] at created ⊢
      rw [← created]
      exact Nat.lt_succ_self _

@[simp] theorem cleanupLinks_texts_next (seen : Nat → Option Task)
    (table : Table) :
    (cleanupLinks seen table).texts.next = table.texts.next := by
  apply cleanupLinks_induction
    (fun current => current.texts.next = table.texts.next)
  · rfl
  · intro current index same _ _
    rw [resetLink_texts_next]
    exact same

@[simp] theorem cleanupLinks_links_next (seen : Nat → Option Task)
    (table : Table) :
    (cleanupLinks seen table).links.next = table.links.next := by
  apply cleanupLinks_induction
    (fun current => current.links.next = table.links.next)
  · rfl
  · intro current index same _ _
    rw [resetLink_links_next]
    exact same

private theorem cacheLink_links_next (tree : ProcTree)
    (link : Option LinkId) (pid : Nat) (table : Table) :
    (cacheLink tree link pid table).links.next = table.links.next := by
  unfold cacheLink
  split <;> simp

@[simp] theorem ProcTree.lookedUp_links_next (tree : ProcTree)
    (table : Table) (pid : Nat) :
    (tree.lookedUp table pid).links.next = table.links.next := by
  have cached : ∀ link passed, (List.foldr (cacheLink tree link) table
      passed).links.next = table.links.next := by
    intro link passed
    induction passed with
    | nil => rfl
    | cons pid passed induction =>
        rw [List.foldr_cons, cacheLink_links_next, induction]
  exact cached _ _

@[simp] theorem cleanupLinks_texts_block (seen : Nat → Option Task)
    (table : Table) :
    (cleanupLinks seen table).texts.block = table.texts.block := by
  apply cleanupLinks_induction
    (fun current => current.texts.block = table.texts.block)
  · rfl
  · intro current index same _ _
    rw [resetLink_texts_block]
    exact same

@[simp] theorem installed_links_next (tree : ProcTree) (current : Task)
    (text : TextId) (table : Table) :
    (installed tree current text true table).links.next =
      table.links.next + 1 := by
  simp [installed, createLink]

@[simp] theorem installed_links_next_of_failed (tree : ProcTree)
    (current : Task) (text : TextId) (table : Table) :
    (installed tree current text false table).links.next =
      table.links.next := by
  simp [installed, createLink]

/-- The new link stands for the text it was given. -/
theorem installed_textOf (tree : ProcTree) (current : Task) (text : TextId)
    (table : Table) :
    (installed tree current text true table).textOf table.links.next =
      table.texts.block text := by
  have fresh : (cleanupLinks (seenBy tree current) table).links.next =
      table.links.next := cleanupLinks_links_next _ _
  simp only [Table.textOf, installed, createLink, if_true,
    assignLink_texts_block, assignLink_text, cleanupLinks_texts_block,
    fresh]
  rw [← fresh, Heap.alloc_block_self]

theorem Table.Sound.installed {table : Table} (sound : table.Sound)
    {tree : ProcTree} {current : Task} (below : current.pid < table.pid_max)
    {text : TextId} (known : text < table.texts.next) (allocated : Bool) :
    table.Evolves (installed tree current text allocated table) := by
  have cleaned := sound.cleanupLinks (seenBy tree current)
  have created := cleaned.sound.createLink
    (by simpa using known) allocated
  apply (cleaned.trans created).trans
  apply created.sound.assignLink
  · rw [createLink_pid_max, cleanupLinks_pid_max]
    exact below
  · intro link same
    exact createLink_known same

/-- No entry held the new link before, so storing it frees something else. -/
theorem Table.Sound.installed_live {table : Table} (sound : table.Sound)
    {tree : ProcTree} {current : Task} (below : current.pid < table.pid_max)
    (text : TextId) :
    (Kernel.installed tree current text true table).links.Live
      table.links.next := by
  have cleaned := (sound.cleanupLinks (seenBy tree current)).sound
  have fresh : (Kernel.cleanupLinks (seenBy tree current) table).links.next =
      table.links.next := cleanupLinks_links_next _ _
  have unheld : (Kernel.cleanupLinks (seenBy tree current) table).linkAt
      current.pid ≠ some table.links.next := by
    intro holds
    have old := cleaned.entries current.pid
      (by rw [cleanupLinks_pid_max]; exact below) _ holds
    rw [fresh] at old
    exact Nat.lt_irrefl _ old
  refine ⟨?_, ?_⟩
  · rw [installed_links_next]
    exact Nat.lt_succ_self _
  · unfold Kernel.installed
    dsimp only
    rw [assignLink_frees, if_neg (fun both => unheld both.1), ← fresh]
    exact Heap.alloc_frees_self
      (Kernel.cleanupLinks (seenBy tree current) table).links
      { text := text, count := 0 }

theorem Table.Sound.setchosTable {table : Table} (sound : table.Sound)
    {tree : ProcTree} {current : Task} (below : current.pid < table.pid_max)
    (paths : List ValidPath) (buf : List UInt8) (count : Nat)
    (outcome : SetchosOutcome) :
    table.Evolves
      (setchosTable tree paths current buf count outcome table) := by
  unfold Kernel.setchosTable
  have filled := sound.allocText (copied buf count)
  split
  · dsimp only
    split
    · exact filled.trans (filled.sound.installed below
        (Nat.lt_succ_self _) outcome.linkAlloc)
    · exact filled
  · exact sound.evolves

namespace Sys

structure Sound (state : Sys) : Prop where
  inRange : state.InRange
  table : state.table.Sound
  parentLinks : ∀ fork ∈ state.forks, ∀ link,
    fork.parent_link = some link → link < state.table.links.next
  parents : ∀ fork ∈ state.forks, ∃ task,
    state.tree.find fork.parent = some task

theorem Sound.lookedUp {state : Sys} (sound : state.Sound) {pid : Nat}
    {task : Task} (found : state.tree.find pid = some task) :
    state.table.Evolves (state.tree.lookedUp state.table pid) := by
  rw [← ProcTree.find_pid found]
  exact sound.table.lookedUp sound.inRange (ProcTree.find_mem found)

theorem Sound.resolve_known {state : Sys} (sound : state.Sound) {pid : Nat}
    {link : LinkId}
    (resolved : state.tree.resolve state.table pid = some link) :
    link < state.table.links.next := by
  obtain ⟨holder, live, holds⟩ := ProcTree.resolve_held resolved
  exact sound.table.entries holder.pid (sound.inRange holder live) link holds

theorem Sound.readTable {state : Sys} (sound : state.Sound) {pid : Nat}
    {task : Task} (found : state.tree.find pid = some task) :
    state.table.Evolves (state.readTable pid) := by
  have looked := sound.lookedUp found
  unfold Sys.readTable
  cases state.tree.resolve state.table pid with
  | none => exact looked
  | some link => exact looked.trans (looked.sound.evolves_misuse _)

theorem forkOf_mem {state : Sys} {pid : Nat} {fork : PendingFork}
    (inside : state.forkOf pid = some fork) : fork ∈ state.forks :=
  List.mem_of_find?_eq_some inside

theorem forkOf_parent {state : Sys} {pid : Nat} {fork : PendingFork}
    (inside : state.forkOf pid = some fork) : fork.parent = pid := by
  simpa using List.find?_some inside

theorem dropFork_subset {state : Sys} {pid : Nat} {fork : PendingFork}
    (kept : fork ∈ state.dropFork pid) : fork ∈ state.forks :=
  (List.mem_filter.mp kept).1

theorem Sound.finishedTable {state : Sys} (sound : state.Sound) {pid : Nat}
    {fork : PendingFork} (inside : state.forkOf pid = some fork)
    {current : Task} (found : state.tree.find pid = some current) :
    state.table.Evolves (state.finishedTable fork current) := by
  unfold Sys.finishedTable
  cases fork.child with
  | none =>
      rw [ProcTree.find_pid found]
      exact sound.lookedUp found
  | some nr =>
      dsimp only
      cases seen : seenBy state.tree current nr with
      | none => exact sound.table.evolves
      | some child =>
          apply sound.table.assignLink
            (sound.inRange child (findTaskByPidNs_mem seen))
          exact sound.parentLinks fork (forkOf_mem inside)

/-- Every event evolves the table. -/
theorem Sound.evolves {state next : Sys} (sound : state.Sound)
    {event : Event} (taken : Taken state event next) :
    state.table.Evolves next.table := by
  cases taken with
  | setchos buf count outcome running =>
      exact sound.table.setchosTable (current_below sound.inRange running)
        state.valid_paths buf count outcome
  | @resetchos pid current running =>
      have below := current_below sound.inRange running
      rw [ProcTree.find_pid (current_find running)] at below
      have reset := sound.table.resetLink below
      exact reset.trans (reset.sound.cleanupLinks _)
  | readlink running => exact sound.readTable (current_find running)
  | cleanup running => exact sound.table.cleanupLinks _
  | begin running => exact sound.lookedUp (current_find running)
  | create => exact sound.table.evolves
  | finish inside found => exact sound.finishedTable inside found
  | exit => exact sound.table.evolves
  | chroot => exact sound.table.evolves
  | writeValid => exact sound.table.evolves

theorem inRange_setRoot {tree : ProcTree} {table : Table}
    (inRange : tree.InRange table) (pid : Nat) (root : Root) :
    (tree.setRoot pid root).InRange table := by
  intro task live
  obtain ⟨old, oldLive, rfl⟩ := ProcTree.mem_setRoot.mp live
  have below := inRange old oldLive
  split <;> exact below

theorem inRange_exit {tree : ProcTree} {table : Table}
    (inRange : tree.InRange table) (gone : Nat) :
    (tree.exit gone).InRange table := by
  intro task live
  obtain ⟨old, oldLive, _, rfl⟩ := ProcTree.mem_exit.mp live
  rw [ProcTree.reparent_pid]
  exact inRange old oldLive

theorem inRange_create {tree : ProcTree} {table : Table}
    (inRange : tree.InRange table) {child : Task}
    (below : child.pid < table.pid_max)
    (fresh : ∀ task ∈ tree.tasks, task.pid ≠ child.pid)
    (parentLive : (tree.find child.parent).isSome) :
    (tree.create child fresh parentLive).InRange table := by
  intro task live
  rcases (ProcTree.mem_create fresh parentLive).mp live with same | old
  · rw [same]
    exact below
  · exact inRange task old

theorem inRange_congr {tree : ProcTree} {older newer : Table}
    (inRange : tree.InRange older)
    (samePidMax : newer.pid_max = older.pid_max) : tree.InRange newer := by
  intro task live
  rw [samePidMax]
  exact inRange task live

/-- A process inside its own fork does not exit. -/
theorem exit_ne_of_fork {state next : Sys} {event : Event}
    (taken : Taken state event next) {fork : PendingFork}
    (pending : fork ∈ state.forks) : event ≠ .exit fork.parent := by
  rintro rfl
  cases taken with
  | exit running above =>
      have outside := (current_eq_some_iff.mp running).1
      rw [forkOf, List.find?_eq_none] at outside
      exact outside fork pending (by simp)

theorem Sound.parents_taken {state next : Sys} (sound : state.Sound)
    {event : Event} (taken : Taken state event next) :
    ∀ fork ∈ next.forks, ∃ task, next.tree.find fork.parent = some task := by
  have older : ∀ fork ∈ state.forks, ∃ task,
      next.tree.find fork.parent = some task := by
    intro fork pending
    obtain ⟨task, found⟩ := sound.parents fork pending
    obtain ⟨later, foundLater, _⟩ :=
      taken.find found (exit_ne_of_fork taken pending)
    exact ⟨later, foundLater⟩
  cases taken with
  | @begin pid current running =>
      intro fork pending
      rcases List.mem_cons.mp pending with same | old
      · rw [same]
        have found := current_find running
        exact ⟨current, found⟩
      · exact older fork old
  | @create pid caller creator new inside alone found fits =>
      intro fork pending
      rcases List.mem_cons.mp pending with same | old
      · rw [same]
        exact older caller (forkOf_mem inside)
      · exact older fork (dropFork_subset old)
  | finish inside found =>
      intro fork pending
      exact older fork (dropFork_subset pending)
  | _ => exact older

/-- Soundness is an invariant of the system. -/
theorem Sound.taken {state next : Sys} (sound : state.Sound)
    {event : Event} (taken : Taken state event next) : next.Sound := by
  have evolves := sound.evolves taken
  have older : ∀ fork ∈ state.forks, ∀ link,
      fork.parent_link = some link → link < next.table.links.next := by
    intro fork pending link stored
    exact Nat.lt_of_lt_of_le (sound.parentLinks fork pending link stored)
      evolves.next
  refine ⟨inRange_congr ?_ evolves.pid_max, evolves.sound, ?_,
    sound.parents_taken taken⟩
  · cases taken with
    | setchos => exact inRange_setRoot sound.inRange _ _
    | chroot => exact inRange_setRoot sound.inRange _ _
    | exit => exact inRange_exit sound.inRange _
    | create inside alone found fits fresh parentLive =>
        exact inRange_create sound.inRange fits.2.2.1 fresh parentLive
    | _ => exact sound.inRange
  · cases taken with
    | begin running =>
        intro fork pending link stored
        rcases List.mem_cons.mp pending with same | old
        · rw [same] at stored
          exact Nat.lt_of_lt_of_le (sound.resolve_known stored) evolves.next
        · exact older fork old link stored
    | create inside alone found fits =>
        intro fork pending link stored
        rcases List.mem_cons.mp pending with same | old
        · rw [same] at stored
          exact older _ (forkOf_mem inside) link stored
        · exact older fork (dropFork_subset old) link stored
    | finish inside found =>
        intro fork pending link stored
        exact older fork (dropFork_subset pending) link stored
    | _ => exact older

theorem init_sound {pid_max : Nat} {tree : ProcTree}
    (below : ∀ task ∈ tree.tasks, task.pid < pid_max) :
    (Sys.init pid_max tree).Sound :=
  { inRange := below
    table :=
      { entries := by
          intro index _ link holds
          cases holds
        texts := fun link bounded => absurd bounded (Nat.not_lt_zero link)
        balanced := fun link bounded =>
          absurd bounded (Nat.not_lt_zero link) }
    parentLinks := by
      intro fork pending
      cases pending
    parents := by
      intro fork pending
      cases pending }

theorem Sound.step {state next : Sys} (sound : state.Sound) {event : Event}
    (stepped : state.step event = some next) : next.Sound :=
  sound.taken ((step_iff_taken sound.inRange).mp stepped)

theorem Sound.run {state final : Sys} (sound : state.Sound)
    {events : List Event}
    (finished : run Sys.step state events = some final) : final.Sound :=
  run_invariant (fun _ _ _ kept _ stepped => kept.step stepped) finished
    (along_of_forall (fun _ _ => trivial) state events) sound

theorem Sound.run_evolves {state final : Sys} (sound : state.Sound)
    {events : List Event}
    (finished : Library.run Sys.step state events = some final) :
    state.table.Evolves final.table := by
  induction events generalizing state with
  | nil =>
      cases finished
      exact sound.table.evolves
  | cons event events induction =>
      obtain ⟨next, stepped, rest⟩ := run_cons_eq_some_iff.mp finished
      have taken := (step_iff_taken sound.inRange).mp stepped
      exact (sound.evolves taken).trans (induction (sound.taken taken) rest)

end Sys

end Chos.Kernel
