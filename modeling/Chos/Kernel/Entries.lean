import Chos.Library.Holders
import Chos.Kernel.Table

/-!
# What the table operations do

For each operation: the entries it changes, what it keeps of the memory
behind them, and how the reference counters move.  The counters are compared
with the number of entries pointing at a link through their difference,
`slack`, which neither `reset_link` nor `set_link` changes.
-/

namespace Chos.Kernel

open Chos.Library

namespace Table

variable (table : Table) (index : Nat) (entry : ChosProc) (link : LinkId)

@[simp] theorem store_procs :
    (table.store index entry).procs =
      Function.update table.procs index entry := rfl

@[simp] theorem store_pid_max :
    (table.store index entry).pid_max = table.pid_max := rfl

@[simp] theorem store_links :
    (table.store index entry).links = table.links := rfl

@[simp] theorem store_texts :
    (table.store index entry).texts = table.texts := rfl

@[simp] theorem store_misuse :
    (table.store index entry).misuse = table.misuse := rfl

theorem proc_eq_ok_iff {table : Table} {index : Nat} {entry : ChosProc} :
    table.proc index = .ok entry ↔
      index < table.pid_max ∧ table.procs index = entry := by
  rw [proc]
  by_cases below : index < table.pid_max
  · simp [below]
  · simp [below]

/-- The number of entries pointing at a link. -/
def refs (table : Table) (link : LinkId) : Nat :=
  holders table.pid_max table.linkAt link

/-- How far the counter of a link is ahead of the entries pointing at it. -/
def slack (table : Table) (link : LinkId) : Int :=
  table.count link - table.refs link

theorem refs_pos_iff {table : Table} {link : LinkId} :
    0 < table.refs link ↔
      ∃ index < table.pid_max, table.linkAt index = some link :=
  holders_pos_iff

theorem linkAt_store :
    (table.store index entry).linkAt =
      Function.update table.linkAt index entry.link := by
  funext other
  by_cases same : other = index
  · subst same
    simp [linkAt, store]
  · simp [linkAt, store, same]

/-- `refs` when one entry is overwritten. -/
theorem refs_store {table : Table} {index : Nat}
    (below : index < table.pid_max) (entry : ChosProc) (link : LinkId) :
    (table.store index entry).refs link + holds (table.linkAt index) link =
      table.refs link + holds entry.link link := by
  simp only [refs, linkAt_store, store_pid_max]
  exact holders_update below table.linkAt entry.link link

theorem refs_congr {older newer : Table}
    (samePidMax : newer.pid_max = older.pid_max)
    (sameProcs : newer.procs = older.procs) (link : LinkId) :
    newer.refs link = older.refs link := by
  have sameLinks : newer.linkAt = older.linkAt := by
    funext index
    simp [linkAt, sameProcs]
  simp [refs, samePidMax, sameLinks]

end Table

section Release

variable (link other : LinkId) (table : Table)

/-- The last reference goes: the counter reaches zero and both blocks are
freed. -/
private theorem releaseLink_last (one : table.count link = 1) :
    releaseLink link table =
      { table with
        links := (table.links.modify link fun cell =>
          { cell with count := cell.count - 1 }).free link
        texts := table.texts.free (table.links.block link).text
        misuse := table.misuse + 5 * table.links.frees link +
          table.texts.frees (table.links.block link).text } := by
  have zero : (table.links.block link).count - 1 = 0 := by
    rw [Table.count] at one
    omega
  simp only [releaseLink, destroyLink, Table.atomicDec, Table.atomicRead,
    Table.loadText, Table.kfreeText, Table.kfreeLink, Table.touchLink,
    Heap.modify_block_self, Heap.modify_frees, zero, if_true]
  congr 1
  omega

/-- Another reference stays: only the counter moves. -/
private theorem releaseLink_shared (shared : table.count link ≠ 1) :
    releaseLink link table =
      { table with
        links := table.links.modify link fun cell =>
          { cell with count := cell.count - 1 }
        misuse := table.misuse + 2 * table.links.frees link } := by
  have nonzero : (table.links.block link).count - 1 ≠ 0 := by
    rw [Table.count] at shared
    omega
  simp only [releaseLink, Table.atomicDec, Table.atomicRead,
    Table.touchLink, Heap.modify_block_self, Heap.modify_frees, nonzero,
    if_false]
  congr 1
  omega

@[simp] theorem releaseLink_procs :
    (releaseLink link table).procs = table.procs := by
  by_cases one : table.count link = 1
  · rw [releaseLink_last link table one]
  · rw [releaseLink_shared link table one]

@[simp] theorem releaseLink_pid_max :
    (releaseLink link table).pid_max = table.pid_max := by
  by_cases one : table.count link = 1
  · rw [releaseLink_last link table one]
  · rw [releaseLink_shared link table one]

theorem releaseLink_links :
    (releaseLink link table).links =
      if table.count link = 1 then
        (table.links.modify link fun cell =>
          { cell with count := cell.count - 1 }).free link
      else
        table.links.modify link fun cell =>
          { cell with count := cell.count - 1 } := by
  by_cases one : table.count link = 1
  · rw [releaseLink_last link table one, if_pos one]
  · rw [releaseLink_shared link table one, if_neg one]

theorem releaseLink_texts :
    (releaseLink link table).texts =
      if table.count link = 1 then
        table.texts.free (table.links.block link).text
      else table.texts := by
  by_cases one : table.count link = 1
  · rw [releaseLink_last link table one, if_pos one]
  · rw [releaseLink_shared link table one, if_neg one]

theorem releaseLink_misuse {link : LinkId} {table : Table}
    (linkUnfreed : table.links.frees link = 0)
    (textUnfreed :
      table.texts.frees (table.links.block link).text = 0) :
    (releaseLink link table).misuse = table.misuse := by
  by_cases one : table.count link = 1
  · rw [releaseLink_last link table one]
    simp [linkUnfreed, textUnfreed]
  · rw [releaseLink_shared link table one]
    simp [linkUnfreed]

@[simp] theorem releaseLink_links_next :
    (releaseLink link table).links.next = table.links.next := by
  rw [releaseLink_links]
  split <;> rfl

@[simp] theorem releaseLink_texts_next :
    (releaseLink link table).texts.next = table.texts.next := by
  rw [releaseLink_texts]
  split <;> rfl

@[simp] theorem releaseLink_texts_block :
    (releaseLink link table).texts.block = table.texts.block := by
  rw [releaseLink_texts]
  split <;> rfl

@[simp] theorem releaseLink_text :
    ((releaseLink link table).links.block other).text =
      (table.links.block other).text := by
  rw [releaseLink_links]
  by_cases same : other = link
  · subst same
    split <;> simp
  · split <;> simp [Heap.modify_block_of_ne same]

theorem releaseLink_count :
    (releaseLink link table).count other =
      table.count other - holds (some link) other := by
  rw [Table.count, releaseLink_links]
  by_cases same : other = link
  · subst same
    split <;> simp [Table.count]
  · have different : link ≠ other := Ne.symm same
    split <;>
      simp [Heap.modify_block_of_ne same, holds_of_ne different, Table.count]

theorem releaseLink_frees :
    (releaseLink link table).links.frees other =
      table.links.frees other +
        if other = link ∧ table.count link = 1 then 1 else 0 := by
  rw [releaseLink_links]
  by_cases same : other = link
  · subst same
    split <;> simp_all
  · split <;> simp [same, Heap.free_frees_of_ne same]

theorem releaseLink_texts_frees (text : TextId) :
    (releaseLink link table).texts.frees text =
      table.texts.frees text +
        if text = (table.links.block link).text ∧ table.count link = 1
        then 1 else 0 := by
  rw [releaseLink_texts]
  by_cases same : text = (table.links.block link).text
  · subst same
    split <;> simp_all
  · split <;> simp [same, Heap.free_frees_of_ne same]

end Release

section Reset

variable (index : Nat) (table : Table)

@[simp] theorem resetLink_procs :
    (resetLink index table).procs =
      Function.update table.procs index .cleared := by
  unfold resetLink
  cases table.linkAt index <;> simp

@[simp] theorem resetLink_pid_max :
    (resetLink index table).pid_max = table.pid_max := by
  unfold resetLink
  cases table.linkAt index <;> simp

@[simp] theorem resetLink_links_next :
    (resetLink index table).links.next = table.links.next := by
  unfold resetLink
  cases table.linkAt index <;> simp

@[simp] theorem resetLink_texts_next :
    (resetLink index table).texts.next = table.texts.next := by
  unfold resetLink
  cases table.linkAt index <;> simp

@[simp] theorem resetLink_texts_block :
    (resetLink index table).texts.block = table.texts.block := by
  unfold resetLink
  cases table.linkAt index <;> simp

@[simp] theorem resetLink_text (link : LinkId) :
    ((resetLink index table).links.block link).text =
      (table.links.block link).text := by
  unfold resetLink
  cases table.linkAt index <;> simp

theorem resetLink_linkAt :
    (resetLink index table).linkAt =
      Function.update table.linkAt index none := by
  funext other
  by_cases same : other = index
  · subst same
    simp [Table.linkAt, ChosProc.cleared]
  · simp [Table.linkAt, same]

theorem resetLink_count (link : LinkId) :
    (resetLink index table).count link =
      table.count link - holds (table.linkAt index) link := by
  unfold resetLink
  cases held : table.linkAt index with
  | none => simp [Table.count]
  | some released =>
      simp only [releaseLink_count]
      rfl

theorem resetLink_frees (link : LinkId) :
    (resetLink index table).links.frees link =
      table.links.frees link +
        if table.linkAt index = some link ∧ table.count link = 1
        then 1 else 0 := by
  unfold resetLink
  cases held : table.linkAt index with
  | none => simp
  | some released =>
      simp only [releaseLink_frees, Table.store_links]
      by_cases same : link = released
      · subst same
        simp [Table.count]
      · have different : released ≠ link := Ne.symm same
        simp [same, different]

theorem resetLink_slack {index : Nat} {table : Table}
    (below : index < table.pid_max) (link : LinkId) :
    (resetLink index table).slack link = table.slack link := by
  have moved := table.refs_store below .cleared link
  have refsEq : (resetLink index table).refs link =
      (table.store index .cleared).refs link :=
    Table.refs_congr (by simp) (by simp) link
  simp only [ChosProc.cleared, holds_none] at moved
  simp only [ChosProc.cleared] at refsEq
  rw [Table.slack, Table.slack, resetLink_count, refsEq]
  omega

theorem resetLink_misuse {index : Nat} {table : Table}
    (linksUnfreed : ∀ link, table.linkAt index = some link →
      table.links.frees link = 0 ∧
        table.texts.frees (table.links.block link).text = 0) :
    (resetLink index table).misuse = table.misuse := by
  unfold resetLink
  cases held : table.linkAt index with
  | none => rfl
  | some released =>
      obtain ⟨linkUnfreed, textUnfreed⟩ := linksUnfreed released held
      exact releaseLink_misuse linkUnfreed textUnfreed

theorem resetLink_texts_frees (text : TextId) :
    (resetLink index table).texts.frees text =
      table.texts.frees text +
        if ∃ link, table.linkAt index = some link ∧ table.count link = 1 ∧
          text = (table.links.block link).text
        then 1 else 0 := by
  unfold resetLink
  cases held : table.linkAt index with
  | none => simp
  | some released =>
      simp only [releaseLink_texts_frees, Table.store_links,
        Table.store_texts, Table.count, Option.some.injEq,
        exists_eq_left', and_comm]

end Reset

section Assign

variable (link : Option LinkId) (task : Task) (table : Table)

/-- `assign_link` is a counter increment and a store after vacating the
entry, and vacating is `reset_link` up to the entry it leaves behind. -/
theorem assignLink_procs :
    (assignLink link task table).procs =
      Function.update table.procs task.pid (.assigned link task) := by
  unfold assignLink vacateLink
  cases link <;> by_cases empty : table.linkAt task.pid = none <;>
    simp [empty, Table.atomicInc, Table.touchLink]

@[simp] theorem assignLink_pid_max :
    (assignLink link task table).pid_max = table.pid_max := by
  unfold assignLink vacateLink
  cases link <;> by_cases empty : table.linkAt task.pid = none <;>
    simp [empty, Table.atomicInc, Table.touchLink]

@[simp] theorem assignLink_links_next :
    (assignLink link task table).links.next = table.links.next := by
  unfold assignLink vacateLink
  cases link <;> by_cases empty : table.linkAt task.pid = none <;>
    simp [empty, Table.atomicInc]

@[simp] theorem assignLink_texts_next :
    (assignLink link task table).texts.next = table.texts.next := by
  unfold assignLink vacateLink
  cases link <;> by_cases empty : table.linkAt task.pid = none <;>
    simp [empty, Table.atomicInc, Table.touchLink]

@[simp] theorem assignLink_texts_block :
    (assignLink link task table).texts.block = table.texts.block := by
  unfold assignLink vacateLink
  cases link <;> by_cases empty : table.linkAt task.pid = none <;>
    simp [empty, Table.atomicInc, Table.touchLink]

private theorem modify_count_text (heap : Heap ChosLink)
    (address other : Nat) (change : Int → Int) :
    ((heap.modify address fun cell =>
      { cell with count := change cell.count }).block other).text =
      (heap.block other).text := by
  by_cases same : other = address
  · subst same
    simp
  · rw [Heap.modify_block_of_ne same]

@[simp] theorem assignLink_text (other : LinkId) :
    ((assignLink link task table).links.block other).text =
      (table.links.block other).text := by
  unfold assignLink vacateLink
  cases link <;> by_cases empty : table.linkAt task.pid = none <;>
    simp [empty, Table.atomicInc, modify_count_text _ _ _ (· + 1)]

theorem assignLink_linkAt :
    (assignLink link task table).linkAt =
      Function.update table.linkAt task.pid link := by
  funext other
  by_cases same : other = task.pid
  · subst same
    simp [Table.linkAt, assignLink_procs, ChosProc.assigned]
  · simp [Table.linkAt, assignLink_procs, same]

private theorem vacateLink_count (other : LinkId) :
    (vacateLink task.pid table).count other =
      table.count other - holds (table.linkAt task.pid) other := by
  unfold vacateLink
  by_cases empty : table.linkAt task.pid = none
  · simp [empty]
  · simp [empty, resetLink_count]

private theorem vacateLink_frees (other : LinkId) :
    (vacateLink task.pid table).links.frees other =
      table.links.frees other +
        if table.linkAt task.pid = some other ∧ table.count other = 1
        then 1 else 0 := by
  unfold vacateLink
  by_cases empty : table.linkAt task.pid = none
  · simp [empty]
  · simp [empty, resetLink_frees]

theorem assignLink_count (other : LinkId) :
    (assignLink link task table).count other =
      table.count other - holds (table.linkAt task.pid) other +
        holds link other := by
  rw [← vacateLink_count task table other]
  cases link with
  | none => simp [assignLink, Table.count]
  | some given =>
      by_cases same : other = given
      · subst same
        simp [assignLink, Table.count, Table.atomicInc]
      · have different : given ≠ other := Ne.symm same
        simp [assignLink, Table.count, Table.atomicInc,
          Heap.modify_block_of_ne same, holds_of_ne different]

theorem assignLink_frees (other : LinkId) :
    (assignLink link task table).links.frees other =
      table.links.frees other +
        if table.linkAt task.pid = some other ∧ table.count other = 1
        then 1 else 0 := by
  rw [← vacateLink_frees task table other]
  cases link <;> simp [assignLink, Table.atomicInc]

theorem assignLink_texts_frees (text : TextId) :
    (assignLink link task table).texts.frees text =
      table.texts.frees text +
        if ∃ held, table.linkAt task.pid = some held ∧
          table.count held = 1 ∧ text = (table.links.block held).text
        then 1 else 0 := by
  have vacated : (vacateLink task.pid table).texts.frees text =
      table.texts.frees text +
        if ∃ held, table.linkAt task.pid = some held ∧
          table.count held = 1 ∧ text = (table.links.block held).text
        then 1 else 0 := by
    unfold vacateLink
    by_cases empty : table.linkAt task.pid = none
    · simp [empty]
    · simp [empty, resetLink_texts_frees]
  rw [← vacated]
  cases link <;> simp [assignLink, Table.atomicInc, Table.touchLink]

theorem assignLink_misuse {link : Option LinkId} {task : Task}
    {table : Table}
    (heldUnfreed : ∀ held, table.linkAt task.pid = some held →
      table.links.frees held = 0 ∧
        table.texts.frees (table.links.block held).text = 0)
    (givenUnfreed : ∀ given, link = some given →
      (assignLink link task table).links.frees given = 0) :
    (assignLink link task table).misuse = table.misuse := by
  have vacated : (vacateLink task.pid table).misuse = table.misuse := by
    unfold vacateLink
    by_cases empty : table.linkAt task.pid = none
    · simp [empty]
    · simp [empty, resetLink_misuse heldUnfreed]
  cases link with
  | none => simpa [assignLink] using vacated
  | some given =>
      have unfreed := givenUnfreed given rfl
      rw [assignLink_frees, ← vacateLink_frees] at unfreed
      simpa [assignLink, Table.atomicInc, Table.touchLink, unfreed]
        using vacated

theorem assignLink_slack {link : Option LinkId} {task : Task}
    {table : Table} (below : task.pid < table.pid_max) (other : LinkId) :
    (assignLink link task table).slack other = table.slack other := by
  have moved := table.refs_store below (.assigned link task) other
  have refsEq : (assignLink link task table).refs other =
      (table.store task.pid (.assigned link task)).refs other :=
    Table.refs_congr (by simp) (by simp [assignLink_procs]) other
  simp only [ChosProc.assigned] at moved refsEq
  rw [Table.slack, Table.slack, assignLink_count, refsEq]
  omega

end Assign

end Chos.Kernel
