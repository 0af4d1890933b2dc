import Chos.Kernel.Steps

/-!
# The reference counts of the link table

`RefCounts` is the law the counters are kept for: a link's counter equals the
number of entries pointing at it, a link nobody points at is gone, an entry
never points at a freed link, and no link is freed twice.  Between
`create_link` and `set_link` the new link is alive without an entry; it is
then said to be pinned.
-/

namespace Chos.Kernel

open Chos.Library

structure RefCounts (table : Table) : Prop where
  counted : ∀ link, table.links.Live link →
    table.count link = table.refs link ∧ 1 ≤ table.refs link
  allocated : ∀ index < table.pid_max, ∀ link,
    table.linkAt index = some link → table.links.Live link
  freedOnce : ∀ link, table.links.frees link ≤ 1

theorem RefCounts.init (pid_max : Nat) : RefCounts (Table.init pid_max) := by
  refine ⟨?_, ?_, ?_⟩
  · intro link live
    exact absurd live.1 (Nat.not_lt_zero link)
  · intro index _ link holds
    cases holds
  · intro link
    exact Nat.zero_le 1

/-- `RefCounts`, except that the pinned link may have no entry yet. -/
structure PinnedCounts (pinned : Option LinkId) (table : Table) : Prop where
  balanced : ∀ link, table.links.Live link → table.slack link = 0
  held : ∀ link, table.links.Live link →
    pinned = some link ∨ 0 < table.refs link
  allocated : ∀ index < table.pid_max, ∀ link,
    table.linkAt index = some link → table.links.Live link
  freedOnce : ∀ link, table.links.frees link ≤ 1

theorem refCounts_iff_pinnedCounts {table : Table} :
    RefCounts table ↔ PinnedCounts none table := by
  constructor
  · intro counts
    refine ⟨?_, ?_, counts.allocated, counts.freedOnce⟩
    · intro link live
      have equal := (counts.counted link live).1
      rw [Table.slack]
      omega
    · intro link live
      exact .inr (counts.counted link live).2
  · intro counts
    refine ⟨?_, counts.allocated, counts.freedOnce⟩
    intro link live
    have balanced := counts.balanced link live
    rw [Table.slack] at balanced
    rcases counts.held link live with pinned | positive
    · cases pinned
    · exact ⟨by omega, positive⟩

/-- What `reset_link` and `set_link` do to the link heap and the entries, as
far as counting is concerned. -/
structure Replaces (index : Nat) (link : Option LinkId)
    (older newer : Table) : Prop where
  pid_max : newer.pid_max = older.pid_max
  next : newer.links.next = older.links.next
  linkAt : newer.linkAt = Function.update older.linkAt index link
  slack : ∀ other, newer.slack other = older.slack other
  count : ∀ other, newer.count other =
    older.count other - holds (older.linkAt index) other + holds link other
  frees : ∀ other, newer.links.frees other = older.links.frees other +
    if older.linkAt index = some other ∧ older.count other = 1 then 1 else 0

theorem resetLink_replaces {index : Nat} {table : Table}
    (below : index < table.pid_max) :
    Replaces index none table (resetLink index table) :=
  { pid_max := resetLink_pid_max index table
    next := resetLink_links_next index table
    linkAt := resetLink_linkAt index table
    slack := resetLink_slack below
    count := by
      intro other
      rw [resetLink_count, holds_none]
      omega
    frees := resetLink_frees index table }

theorem assignLink_replaces {link : Option LinkId} {task : Task}
    {table : Table} (below : task.pid < table.pid_max) :
    Replaces task.pid link table (assignLink link task table) :=
  { pid_max := assignLink_pid_max link task table
    next := assignLink_links_next link task table
    linkAt := assignLink_linkAt link task table
    slack := assignLink_slack below
    count := assignLink_count link task table
    frees := assignLink_frees link task table }

namespace Replaces

variable {index : Nat} {link : Option LinkId} {older newer : Table}

theorem live_older (replaces : Replaces index link older newer)
    {other : LinkId} (live : newer.links.Live other) :
    older.links.Live other := by
  obtain ⟨bounded, unfreed⟩ := live
  rw [replaces.frees] at unfreed
  rw [replaces.next] at bounded
  exact ⟨bounded, by omega⟩

/-- A link that another entry holds is not the one freed here. -/
theorem frees_of_other (replaces : Replaces index link older newer)
    (below : index < older.pid_max) {other : LinkId}
    (balanced : older.slack other = 0)
    {holder : Nat} (holderBelow : holder < older.pid_max)
    (different : holder ≠ index)
    (holds : older.linkAt holder = some other) :
    newer.links.frees other = older.links.frees other := by
  rw [replaces.frees, if_neg, Nat.add_zero]
  rintro ⟨here, one⟩
  have two : 2 ≤ older.refs other :=
    two_le_holders holderBelow below different holds here
  rw [Table.slack] at balanced
  omega

theorem live_newer_of_other (replaces : Replaces index link older newer)
    (below : index < older.pid_max) {other : LinkId}
    (live : older.links.Live other) (balanced : older.slack other = 0)
    {holder : Nat} (holderBelow : holder < older.pid_max)
    (different : holder ≠ index)
    (holds : older.linkAt holder = some other) :
    newer.links.Live other := by
  refine ⟨by rw [replaces.next]; exact live.1, ?_⟩
  rw [replaces.frees_of_other below balanced holderBelow different holds]
  exact live.2

end Replaces

/-- Replacing an entry keeps the law, if the new link is alive and the entry
was not its only holder. -/
theorem PinnedCounts.replace {index : Nat} {link : Option LinkId}
    {older newer : Table} (counts : PinnedCounts link older)
    (replaces : Replaces index link older newer)
    (below : index < older.pid_max)
    (given : ∀ stored, link = some stored → older.links.Live stored ∧
      (older.linkAt index = some stored →
        ∃ holder < older.pid_max, holder ≠ index ∧
          older.linkAt holder = some stored)) :
    PinnedCounts none newer := by
  have storedLive : ∀ stored, link = some stored →
      newer.links.Live stored := by
    intro stored same
    obtain ⟨live, elsewhere⟩ := given stored same
    by_cases here : older.linkAt index = some stored
    · obtain ⟨holder, holderBelow, different, holds⟩ := elsewhere here
      exact replaces.live_newer_of_other below live
        (counts.balanced stored live) holderBelow different holds
    · refine ⟨by rw [replaces.next]; exact live.1, ?_⟩
      rw [replaces.frees, live.2, if_neg (fun both => here both.1)]
  refine ⟨?_, ?_, ?_, ?_⟩
  · intro other live
    rw [replaces.slack]
    exact counts.balanced other (replaces.live_older live)
  · intro other live
    right
    have liveOlder := replaces.live_older live
    have balanced := counts.balanced other liveOlder
    have newBalanced := replaces.slack other
    have moved := replaces.count other
    have unfreed := live.2
    rw [replaces.frees, liveOlder.2, Nat.zero_add] at unfreed
    have notLast : ¬ (older.linkAt index = some other ∧
        older.count other = 1) := by
      intro last
      rw [if_pos last] at unfreed
      omega
    simp only [Table.slack] at balanced newBalanced
    rcases counts.held other liveOlder with pinned | positive
    · -- the pinned link is the one stored, so its entry is the new one
      apply Table.refs_pos_iff.mpr
      refine ⟨index, by rw [replaces.pid_max]; exact below, ?_⟩
      rw [replaces.linkAt, Function.update_self]
      exact pinned
    · by_cases here : older.linkAt index = some other
      · rw [here, holds_self] at moved
        have : older.count other ≠ 1 := fun one => notLast ⟨here, one⟩
        omega
      · have absent : holds (older.linkAt index) other = 0 := by
          simp [holds, here]
        rw [absent] at moved
        omega
  · intro other otherBelow held holds
    rw [replaces.pid_max] at otherBelow
    rw [replaces.linkAt] at holds
    by_cases same : other = index
    · subst same
      rw [Function.update_self] at holds
      exact storedLive held holds
    · rw [Function.update_of_ne same] at holds
      have live := counts.allocated other otherBelow held holds
      exact replaces.live_newer_of_other below live
        (counts.balanced held live) otherBelow same holds
  · intro other
    rw [replaces.frees]
    split
    · rename_i last
      have live := counts.allocated index below other last.1
      rw [live.2]
    · exact counts.freedOnce other

theorem RefCounts.resetLink {table : Table} (counts : RefCounts table)
    {index : Nat} (below : index < table.pid_max) :
    RefCounts (resetLink index table) := by
  rw [refCounts_iff_pinnedCounts] at counts ⊢
  exact counts.replace (resetLink_replaces below) below (by simp)

theorem RefCounts.assignLink {table : Table} (counts : RefCounts table)
    {link : LinkId} {task : Task} (below : task.pid < table.pid_max)
    {holder : Nat} (holderBelow : holder < table.pid_max)
    (different : holder ≠ task.pid)
    (holds : table.linkAt holder = some link) :
    RefCounts (assignLink (some link) task table) := by
  rw [refCounts_iff_pinnedCounts] at counts ⊢
  have pinnedCounts : PinnedCounts (some link) table :=
    { balanced := counts.balanced
      held := by
        intro other live
        rcases counts.held other live with pinned | positive
        · cases pinned
        · exact .inr positive
      allocated := counts.allocated
      freedOnce := counts.freedOnce }
  apply pinnedCounts.replace (assignLink_replaces below) below
  intro stored same
  cases same
  exact ⟨counts.allocated holder holderBelow link holds,
    fun _ => ⟨holder, holderBelow, different, holds⟩⟩

theorem RefCounts.assignLink_none {table : Table} (counts : RefCounts table)
    {task : Task} (below : task.pid < table.pid_max) :
    RefCounts (Kernel.assignLink none task table) := by
  rw [refCounts_iff_pinnedCounts] at counts ⊢
  exact counts.replace (assignLink_replaces below) below (by simp)

theorem RefCounts.cleanupLinks {table : Table} (counts : RefCounts table)
    (seen : Nat → Option Task) : RefCounts (cleanupLinks seen table) :=
  cleanupLinks_induction RefCounts seen counts
    fun _ _ kept below _ => kept.resetLink below

theorem RefCounts.lookedUp {tree : ProcTree} {table : Table}
    (counts : RefCounts table) (inRange : tree.InRange table) {task : Task}
    (live : task ∈ tree.tasks) :
    RefCounts (tree.lookedUp table task.pid) :=
  lookedUp_induction RefCounts inRange counts
    (fun _ _ kept below _ => kept.resetLink below)
    (fun _ _ _ _ kept below holderBelow different holds _ =>
      kept.assignLink below holderBelow different holds)
    (ProcTree.chain_of_mem live)

/-- A new link has counter zero and no entry; it is pinned until `set_link`
stores it. -/
theorem RefCounts.createLink {table : Table} (counts : RefCounts table)
    (text : TextId) :
    PinnedCounts (some table.links.next)
      (createLink text true table).2 := by
  rw [refCounts_iff_pinnedCounts] at counts
  have liveOlder : ∀ link, link ≠ table.links.next →
      (Kernel.createLink text true table).2.links.Live link →
        table.links.Live link := by
    rintro link old ⟨bounded, unfreed⟩
    refine ⟨?_, ?_⟩
    · have : link < table.links.next + 1 := bounded
      omega
    · rw [← unfreed]
      exact (Heap.alloc_frees_of_ne old).symm
  have liveNewer : ∀ link, table.links.Live link →
      (Kernel.createLink text true table).2.links.Live link := by
    intro link live
    refine ⟨Nat.lt_succ_of_lt live.1, ?_⟩
    have old : link ≠ table.links.next := Nat.ne_of_lt live.1
    exact (Heap.alloc_frees_of_ne old).trans live.2
  refine ⟨?_, ?_, ?_, ?_⟩
  · intro link live
    by_cases fresh : link = table.links.next
    · have unheld : table.refs table.links.next = 0 := by
        apply holders_eq_zero_iff.mpr
        intro index below holds
        exact Nat.lt_irrefl _ (counts.allocated index below _ holds).1
      have noCount :
          (Kernel.createLink text true table).2.count table.links.next = 0 :=
        congrArg ChosLink.count (Heap.alloc_block_self table.links _)
      have noRefs :
          (Kernel.createLink text true table).2.refs table.links.next = 0 :=
        unheld
      rw [fresh, Table.slack, noCount, noRefs]
      rfl
    · have same : (Kernel.createLink text true table).2.count link =
          table.count link :=
        congrArg ChosLink.count (Heap.alloc_block_of_ne fresh)
      have balanced := counts.balanced link (liveOlder link fresh live)
      rw [Table.slack] at balanced ⊢
      rw [same]
      exact balanced
  · intro link live
    by_cases fresh : link = table.links.next
    · exact .inl (by rw [fresh])
    · rcases counts.held link (liveOlder link fresh live) with none | held
      · cases none
      · exact .inr held
  · intro index below link holds
    exact liveNewer link (counts.allocated index below link holds)
  · intro link
    by_cases fresh : link = table.links.next
    · have unfreed :
          (Kernel.createLink text true table).2.links.frees
            table.links.next = 0 :=
        Heap.alloc_frees_self table.links _
      rw [fresh, unfreed]
      exact Nat.zero_le 1
    · have same : (Kernel.createLink text true table).2.links.frees link =
          table.links.frees link := Heap.alloc_frees_of_ne fresh
      rw [same]
      exact counts.freedOnce link

theorem RefCounts.installed {table : Table} (counts : RefCounts table)
    {tree : ProcTree} {current : Task} (below : current.pid < table.pid_max)
    (text : TextId) (allocated : Bool) :
    RefCounts (installed tree current text allocated table) := by
  have cleaned := counts.cleanupLinks (seenBy tree current)
  have stillBelow : current.pid <
      (Kernel.cleanupLinks (seenBy tree current) table).pid_max := by
    rw [cleanupLinks_pid_max]
    exact below
  cases allocated with
  | false => exact cleaned.assignLink_none stillBelow
  | true =>
      have pinned := cleaned.createLink text
      rw [refCounts_iff_pinnedCounts]
      apply pinned.replace (assignLink_replaces stillBelow) stillBelow
      intro stored same
      cases same
      refine ⟨⟨Nat.lt_succ_self _, Heap.alloc_frees_self _ _⟩, ?_⟩
      intro holds
      have old := (cleaned.allocated current.pid stillBelow _ holds).1
      exact absurd old (Nat.lt_irrefl _)

theorem RefCounts.congr {older newer : Table} (counts : RefCounts older)
    (samePidMax : newer.pid_max = older.pid_max)
    (sameProcs : newer.procs = older.procs)
    (sameLinks : newer.links = older.links) : RefCounts newer := by
  have sameRefs := Table.refs_congr samePidMax sameProcs
  refine ⟨?_, ?_, ?_⟩
  · intro link live
    rw [sameLinks] at live
    rw [Table.count, sameLinks, sameRefs]
    exact counts.counted link live
  · intro index below link holds
    rw [samePidMax] at below
    rw [Table.linkAt, sameProcs] at holds
    rw [sameLinks]
    exact counts.allocated index below link holds
  · intro link
    rw [sameLinks]
    exact counts.freedOnce link

/-- No freed block was accessed so far, and every live link has a live text
of its own.  `spare` is a text `write_setchos` has allocated and not yet
given to a link. -/
structure Owned (spare : Option TextId) (table : Table) : Prop where
  noMisuse : table.misuse = 0
  textLive : ∀ link, table.links.Live link →
    table.texts.Live (table.links.block link).text
  textInjective : ∀ first second, table.links.Live first →
    table.links.Live second →
    (table.links.block first).text = (table.links.block second).text →
    first = second
  spareLive : ∀ text, spare = some text → table.texts.Live text ∧
    ∀ link, table.links.Live link → (table.links.block link).text ≠ text

/-- Replacing an entry frees a text only together with its link. -/
theorem Owned.replace {index : Nat} {link : Option LinkId}
    {spare : Option TextId} {older newer : Table}
    (owned : Owned spare older) (replaces : Replaces index link older newer)
    (allocated : ∀ held, older.linkAt index = some held →
      older.links.Live held)
    (sameText : ∀ other, (newer.links.block other).text =
      (older.links.block other).text)
    (sameNext : newer.texts.next = older.texts.next)
    (textFrees : ∀ text, newer.texts.frees text =
      older.texts.frees text +
        if ∃ held, older.linkAt index = some held ∧
          older.count held = 1 ∧ text = (older.links.block held).text
        then 1 else 0)
    (sameMisuse : newer.misuse = older.misuse) : Owned spare newer := by
  refine ⟨sameMisuse.trans owned.noMisuse, ?_, ?_, ?_⟩
  · intro other live
    have liveOlder := replaces.live_older live
    have textLive := owned.textLive other liveOlder
    rw [sameText]
    refine ⟨by rw [sameNext]; exact textLive.1, ?_⟩
    rw [textFrees, textLive.2, Nat.zero_add, if_neg]
    rintro ⟨held, here, last, same⟩
    have equal := owned.textInjective other held liveOlder
      (allocated held here) same
    subst equal
    have unfreed := live.2
    rw [replaces.frees, if_pos ⟨here, last⟩] at unfreed
    omega
  · intro first second firstLive secondLive same
    rw [sameText, sameText] at same
    exact owned.textInjective first second (replaces.live_older firstLive)
      (replaces.live_older secondLive) same
  · intro text isSpare
    obtain ⟨live, unused⟩ := owned.spareLive text isSpare
    refine ⟨⟨by rw [sameNext]; exact live.1, ?_⟩, ?_⟩
    · rw [textFrees, live.2, Nat.zero_add, if_neg]
      rintro ⟨held, here, _, same⟩
      exact unused held (allocated held here) same.symm
    · intro other otherLive
      rw [sameText]
      exact unused other (replaces.live_older otherLive)

theorem Owned.unfreed {spare : Option TextId} {table : Table}
    (owned : Owned spare table) {link : LinkId}
    (live : table.links.Live link) :
    table.links.frees link = 0 ∧
      table.texts.frees (table.links.block link).text = 0 :=
  ⟨live.2, (owned.textLive link live).2⟩

theorem Owned.resetLink {spare : Option TextId} {table : Table}
    (owned : Owned spare table) (counts : RefCounts table) {index : Nat}
    (below : index < table.pid_max) :
    Owned spare (resetLink index table) := by
  have allocated := counts.allocated index below
  apply owned.replace (resetLink_replaces below) allocated
  · exact resetLink_text index table
  · exact resetLink_texts_next index table
  · exact resetLink_texts_frees index table
  · exact resetLink_misuse fun held here =>
      owned.unfreed (allocated held here)

theorem Owned.assignLink {spare : Option TextId} {table : Table}
    (owned : Owned spare table) {task : Task}
    (below : task.pid < table.pid_max) {link : Option LinkId}
    (allocated : ∀ held, table.linkAt task.pid = some held →
      table.links.Live held)
    (kept : RefCounts (assignLink link task table)) :
    Owned spare (assignLink link task table) := by
  apply owned.replace (assignLink_replaces below) allocated
  · exact assignLink_text link task table
  · exact assignLink_texts_next link task table
  · exact assignLink_texts_frees link task table
  · apply assignLink_misuse
    · intro held here
      exact owned.unfreed (allocated held here)
    · intro given same
      have stored : (Kernel.assignLink link task table).linkAt task.pid =
          some given := by
        rw [assignLink_linkAt, Function.update_self]
        exact same
      have stillBelow : task.pid <
          (Kernel.assignLink link task table).pid_max := by
        rw [assignLink_pid_max]
        exact below
      exact (kept.allocated task.pid stillBelow given stored).2

end Chos.Kernel
