import Mathlib.Data.Finset.Card
import Chos.Kernel.CompletedRuns

/-!
# Who frees the text buffers

A text buffer is freed together with the link it was given to, so a buffer
that no link took over is never freed.  `write_setchos` keeps one when it
turns the path down and when it finds no memory for the link.
-/

namespace Chos.Kernel

open Chos.Library

/-- Every live text but the spare one belongs to a live link. -/
def Covered (spare : Option TextId) (table : Table) : Prop :=
  ∀ text, table.texts.Live text →
    spare = some text ∨
      ∃ link, table.links.Live link ∧ (table.links.block link).text = text

namespace Covered

variable {spare : Option TextId} {table : Table}

/-- Replacing an entry frees a link only together with its text. -/
theorem replace {index : Nat} {link : Option LinkId} {newer : Table}
    (covered : Covered spare table)
    (replaces : Replaces index link table newer)
    (sameText : ∀ other, (newer.links.block other).text =
      (table.links.block other).text)
    (sameNext : newer.texts.next = table.texts.next)
    (textFrees : ∀ text, newer.texts.frees text =
      table.texts.frees text +
        if ∃ held, table.linkAt index = some held ∧
          table.count held = 1 ∧ text = (table.links.block held).text
        then 1 else 0) :
    Covered spare newer := by
  rintro text ⟨bounded, unfreed⟩
  rw [sameNext] at bounded
  rw [textFrees] at unfreed
  have liveOlder : table.texts.Live text := ⟨bounded, by omega⟩
  rcases covered text liveOlder with isSpare | ⟨owner, ownerLive, same⟩
  · exact Or.inl isSpare
  · refine Or.inr ⟨owner, ⟨?_, ?_⟩, (sameText owner).trans same⟩
    · rw [replaces.next]
      exact ownerLive.1
    · rw [replaces.frees, ownerLive.2, Nat.zero_add, if_neg]
      rintro ⟨here, last⟩
      rw [if_pos ⟨owner, here, last, same.symm⟩] at unfreed
      omega

theorem resetLink (covered : Covered spare table) {index : Nat}
    (below : index < table.pid_max) :
    Covered spare (resetLink index table) :=
  covered.replace (resetLink_replaces below) (resetLink_text index table)
    (resetLink_texts_next index table) (resetLink_texts_frees index table)

theorem assignLink (covered : Covered spare table) {task : Task}
    (below : task.pid < table.pid_max) (link : Option LinkId) :
    Covered spare (assignLink link task table) :=
  covered.replace (assignLink_replaces below)
    (assignLink_text link task table)
    (assignLink_texts_next link task table)
    (assignLink_texts_frees link task table)

theorem cleanupLinks (covered : Covered spare table)
    (seen : Nat → Option Task) : Covered spare (cleanupLinks seen table) :=
  cleanupLinks_induction (Covered spare) seen covered
    fun _ _ kept below _ => kept.resetLink below

theorem lookedUp (covered : Covered spare table) {tree : ProcTree}
    (inRange : tree.InRange table) {task : Task}
    (live : task ∈ tree.tasks) :
    Covered spare (tree.lookedUp table task.pid) :=
  lookedUp_induction (Covered spare) inRange covered
    (fun _ _ kept below _ => kept.resetLink below)
    (fun _ link _ _ kept below _ _ _ _ => kept.assignLink below (some link))
    (ProcTree.chain_of_mem live)

theorem allocText (covered : Covered none table) (content : Text) :
    Covered (some table.texts.next) (table.allocText content).2 := by
  rintro text ⟨bounded, unfreed⟩
  by_cases fresh : text = table.texts.next
  · exact Or.inl (by rw [fresh])
  · have earlier : text < table.texts.next + 1 := bounded
    have liveOlder : table.texts.Live text :=
      ⟨by omega, (Heap.alloc_frees_of_ne fresh).symm.trans unfreed⟩
    rcases covered text liveOlder with impossible | owner
    · cases impossible
    · exact Or.inr owner

/-- The new link takes the spare text over. -/
theorem createLink {text : TextId} (covered : Covered (some text) table) :
    Covered none (createLink text true table).2 := by
  intro other live
  have liveOlder : table.texts.Live other := live
  right
  rcases covered other liveOlder with isSpare | ⟨owner, ownerLive, same⟩
  · refine ⟨table.links.next,
      ⟨Nat.lt_succ_self _, Heap.alloc_frees_self _ _⟩, ?_⟩
    cases isSpare
    exact congrArg ChosLink.text (Heap.alloc_block_self table.links _)
  · have old : owner ≠ table.links.next := Nat.ne_of_lt ownerLive.1
    refine ⟨owner, ⟨Nat.lt_succ_of_lt ownerLive.1,
      (Heap.alloc_frees_of_ne old).trans ownerLive.2⟩, ?_⟩
    exact (congrArg ChosLink.text (Heap.alloc_block_of_ne old)).trans same

theorem installed {text : TextId} (covered : Covered (some text) table)
    {tree : ProcTree} {current : Task}
    (below : current.pid < table.pid_max) :
    Covered none (installed tree current text true table) := by
  have cleaned := covered.cleanupLinks (seenBy tree current)
  have stillBelow : current.pid <
      (Kernel.cleanupLinks (seenBy tree current) table).pid_max := by
    rw [cleanupLinks_pid_max]
    exact below
  exact cleaned.createLink.assignLink stillBelow _

theorem readTable {state : Sys} (covered : Covered none state.table)
    (inRange : state.InRange) {pid : Nat} {task : Task}
    (found : state.tree.find pid = some task) :
    Covered none (state.readTable pid) := by
  have looked := covered.lookedUp inRange (ProcTree.find_mem found)
  rw [ProcTree.find_pid found] at looked
  unfold Sys.readTable
  cases state.tree.resolve state.table pid with
  | none => exact looked
  | some link => exact looked

end Covered

def liveBlocks {β : Type} (heap : Heap β) : Finset Nat :=
  (Finset.range heap.next).filter heap.Live

theorem mem_liveBlocks {β : Type} {heap : Heap β} {address : Nat} :
    address ∈ liveBlocks heap ↔ heap.Live address := by
  rw [liveBlocks, Finset.mem_filter, Finset.mem_range]
  exact and_iff_right_of_imp And.left

/-- Every text buffer that was allocated is freed or the text of exactly one
live link, and there are at most as many live texts as live links. -/
structure Sys.NoTextLeak (state : Sys) : Prop where
  owner : ∀ text < state.table.texts.next,
    0 < state.table.texts.frees text ∨
      ∃! link, state.table.links.Live link ∧
        (state.table.links.block link).text = text
  bounded : (liveBlocks state.table.texts).card ≤
    (liveBlocks state.table.links).card

/-- Whenever `write_setchos` gets a text buffer, it takes the path and gets
memory for the link. -/
def Sys.HandsTextOver (state : Sys) : Handler → Prop
  | .single (.setchos _ buf count outcome) =>
      outcome.textAlloc = true →
        accepts state.valid_paths (copied buf count) = true ∧
          outcome.linkAlloc = true
  | _ => True

instance (state : Sys) : DecidablePred state.HandsTextOver
  | .single (.setchos _ buf count outcome) =>
      inferInstanceAs (Decidable (outcome.textAlloc = true →
        accepts state.valid_paths (copied buf count) = true ∧
          outcome.linkAlloc = true))
  | .single (.resetchos _) => .isTrue trivial
  | .single (.readlink _) => .isTrue trivial
  | .single (.cleanup _) => .isTrue trivial
  | .single (.begin _) => .isTrue trivial
  | .single (.create _ _) => .isTrue trivial
  | .single (.finish _) => .isTrue trivial
  | .single (.exit _) => .isTrue trivial
  | .single (.chroot _ _) => .isTrue trivial
  | .single (.writeValid _ _ _ _) => .isTrue trivial
  | .fork _ _ => .isTrue trivial
  | .failedFork _ => .isTrue trivial

namespace Sys

theorem noTextLeak_of_covered {state : Sys} (settled : state.Settled)
    (covered : Covered none state.table) : state.NoTextLeak := by
  have owner : ∀ text, state.table.texts.Live text →
      ∃ link, state.table.links.Live link ∧
        (state.table.links.block link).text = text := by
    intro text live
    rcases covered text live with impossible | owner
    · cases impossible
    · exact owner
  constructor
  · intro text bounded
    by_cases unfreed : state.table.texts.frees text = 0
    · obtain ⟨link, live, same⟩ := owner text ⟨bounded, unfreed⟩
      refine Or.inr ⟨link, ⟨live, same⟩, ?_⟩
      rintro other ⟨otherLive, otherSame⟩
      exact settled.healthy.owned.textInjective other link otherLive live
        (otherSame.trans same.symm)
    · exact Or.inl (Nat.pos_of_ne_zero unfreed)
  · apply Finset.card_le_card_of_surjOn
      fun link => (state.table.links.block link).text
    intro text member
    obtain ⟨link, live, same⟩ := owner text
      (mem_liveBlocks.mp (Finset.mem_coe.mp member))
    exact ⟨link, Finset.mem_coe.mpr (mem_liveBlocks.mpr live), same⟩

theorem not_noTextLeak_of_spare {state : Sys} {text : TextId}
    (healthy : Healthy (some text) state.table) : ¬ state.NoTextLeak := by
  intro noLeak
  obtain ⟨live, unused⟩ := healthy.owned.spareLive text rfl
  rcases noLeak.owner text live.1 with freed | ⟨link, ⟨owner, same⟩, _⟩
  · rw [live.2] at freed
    exact Nat.lt_irrefl 0 freed
  · exact unused link owner same

theorem covered_setchosTable {state : Sys} {current : Task}
    (covered : Covered none state.table)
    (below : current.pid < state.table.pid_max)
    {buf : List UInt8} {count : Nat} {outcome : SetchosOutcome}
    (handsOver : outcome.textAlloc = true →
      accepts state.valid_paths (copied buf count) = true ∧
        outcome.linkAlloc = true) :
    Covered none (setchosTable state.tree state.valid_paths current buf
      count outcome state.table) := by
  unfold setchosTable
  cases allocated : outcome.textAlloc with
  | false => exact covered
  | true =>
      obtain ⟨accepted, linked⟩ := handsOver allocated
      simp only [accepted, linked, if_true]
      exact (covered.allocText (copied buf count)).installed below

theorem spare_setchosTable {state : Sys} {current : Task}
    (settled : state.Settled) (below : current.pid < state.table.pid_max)
    {buf : List UInt8} {count : Nat} {outcome : SetchosOutcome}
    (allocated : outcome.textAlloc = true)
    (kept : ¬ (accepts state.valid_paths (copied buf count) = true ∧
      outcome.linkAlloc = true)) :
    Healthy (some state.table.texts.next)
      (setchosTable state.tree state.valid_paths current buf count outcome
        state.table) := by
  have filled := settled.healthy.allocText (copied buf count)
  unfold setchosTable
  rw [if_pos allocated]
  by_cases accepted : accepts state.valid_paths (copied buf count) = true
  · have unlinked : outcome.linkAlloc = false := by
      simpa [accepted] using kept
    simp only [accepted, unlinked, if_true]
    have cleaned := filled.cleanupLinks (seenBy state.tree current)
    apply cleaned.assignLink_none
    rw [cleanupLinks_pid_max]
    exact below
  · simp only [accepted]
    exact filled

theorem covered_fork {state next : Sys} (settled : state.Settled)
    (covered : Covered none state.table) {pid : Nat} {new : NewTask}
    (handled : state.handle (.fork pid new) = some next) :
    Covered none next.table := by
  obtain ⟨creator, fresh, parentLive, found, _, below, rfl⟩ :=
    forked settled.sound settled.idle handled
  have looked := covered.lookedUp settled.sound.inRange
    (ProcTree.find_mem found)
  rw [ProcTree.find_pid found] at looked
  apply looked.assignLink
  rw [ProcTree.lookedUp_pid_max]
  exact below

theorem covered_failedFork {state next : Sys} (settled : state.Settled)
    (covered : Covered none state.table) {pid : Nat}
    (handled : state.handle (.failedFork pid) = some next) :
    Covered none next.table := by
  obtain ⟨creator, found, rfl⟩ :=
    failedForked settled.sound settled.idle handled
  have inRange := settled.sound.inRange
  have live := ProcTree.find_mem found
  have looked := covered.lookedUp inRange live
  rw [← ProcTree.find_pid found]
  exact looked.lookedUp (inRange_congr inRange
    (ProcTree.lookedUp_pid_max state.tree state.table creator.pid)) live

theorem covered_single {state next : Sys} (settled : state.Settled)
    (covered : Covered none state.table) {event : Event}
    (handsOver : state.HandsTextOver (.single event))
    (handler : event.isPhase = false) (taken : Taken state event next) :
    Covered none next.table := by
  have inRange := settled.sound.inRange
  cases taken with
  | setchos buf count outcome running =>
      exact covered_setchosTable covered (current_below inRange running)
        handsOver
  | resetchos running =>
      have below := current_below inRange running
      rw [ProcTree.find_pid (current_find running)] at below
      exact (covered.resetLink below).cleanupLinks _
  | readlink running =>
      exact covered.readTable inRange (current_find running)
  | cleanup running => exact covered.cleanupLinks _
  | begin => cases handler
  | create => cases handler
  | finish => cases handler
  | _ => exact covered

theorem covered_handle {state next : Sys} (settled : state.Settled)
    (covered : Covered none state.table) {handler : Handler}
    (handsOver : state.HandsTextOver handler)
    (handled : state.handle handler = some next) :
    Covered none next.table := by
  cases handler with
  | single event =>
      simp only [Sys.handle] at handled
      split at handled
      · cases handled
      · rename_i noPhase
        exact covered_single settled covered handsOver
          (by simpa using noPhase)
          ((step_iff_taken settled.sound.inRange).mp handled)
  | fork pid new => exact covered_fork settled covered handled
  | failedFork pid => exact covered_failedFork settled covered handled

theorem not_noTextLeak_handle {state next : Sys} (settled : state.Settled)
    {handler : Handler} (keeps : ¬ state.HandsTextOver handler)
    (handled : state.handle handler = some next) : ¬ next.NoTextLeak := by
  cases handler with
  | fork pid new => exact absurd trivial keeps
  | failedFork pid => exact absurd trivial keeps
  | single event =>
      cases event with
      | setchos pid buf count outcome =>
          obtain ⟨allocated, kept⟩ := Classical.not_imp.mp keeps
          have inRange := settled.sound.inRange
          have taken := (step_iff_taken inRange).mp
            (show state.step (.setchos pid buf count outcome) = some next
              from handled)
          cases taken with
          | setchos _ _ _ running =>
              exact not_noTextLeak_of_spare (spare_setchosTable settled
                (current_below inRange running) allocated kept)
      | _ => exact absurd trivial keeps

/-- In every run of completed handlers no text buffer is leaked exactly when
every `write_setchos` that gets a buffer hands it over to a link. -/
theorem noTextLeak_throughout_iff {pid_max : Nat} {tree : ProcTree}
    (below : ∀ task ∈ tree.tasks, task.pid < pid_max)
    {handlers : List Handler} {final : Sys}
    (finished : run Sys.handle (Sys.init pid_max tree) handlers =
      some final) :
    Throughout Sys.handle NoTextLeak (Sys.init pid_max tree) handlers ↔
      Along Sys.handle HandsTextOver (Sys.init pid_max tree) handlers := by
  apply @throughout_iff_along _ _ _ (fun _ _ => True) _ _
    (fun state => state.Settled ∧ Covered none state.table)
  · intro state good
    exact noTextLeak_of_covered good.1 good.2
  · intro state handler next good _ handsOver handled
    exact ⟨good.1.handle handled,
      covered_handle good.1 good.2 handsOver handled⟩
  · intro state handler next good _ keeps handled
    exact not_noTextLeak_handle good.1 keeps handled
  · exact finished
  · exact along_of_forall (fun _ _ => trivial) _ _
  · refine ⟨init_settled below, ?_⟩
    intro text live
    exact absurd live.1 (Nat.not_lt_zero text)

/-- A process takes a listed path, then "/", and drops both again. -/
theorem noTextLeak_throughout_iff_listed :
    Throughout Sys.handle NoTextLeak (Sys.init 16 .boot)
      [.single (.writeValid 0 [47, 97] 2 ⟨true, true⟩),
        .fork 1 ⟨10, ⟨5, 0⟩, 0, []⟩,
        .single (.setchos 10 [47, 97] 2 ⟨true, true, true, .other 0⟩),
        .single (.setchos 10 [47] 1 ⟨true, true, true, .other 0⟩),
        .single (.setchos 10 [47, 98] 2 ⟨false, true, true, .other 0⟩),
        .single (.resetchos 10)] := by
  have ends : (run Sys.handle (Sys.init 16 .boot)
      [.single (.writeValid 0 [47, 97] 2 ⟨true, true⟩),
        .fork 1 ⟨10, ⟨5, 0⟩, 0, []⟩,
        .single (.setchos 10 [47, 97] 2 ⟨true, true, true, .other 0⟩),
        .single (.setchos 10 [47] 1 ⟨true, true, true, .other 0⟩),
        .single (.setchos 10 [47, 98] 2 ⟨false, true, true, .other 0⟩),
        .single (.resetchos 10)]).isSome := by
    decide +kernel
  obtain ⟨final, finished⟩ := Option.isSome_iff_exists.mp ends
  apply (noTextLeak_throughout_iff (ProcTree.boot_below (by decide))
    finished).mpr
  decide +kernel

/-- The buffer of a path that is not listed stays behind. -/
theorem unlisted_path_leaks_text :
    ∃ final, run Sys.handle (Sys.init 16 .boot)
        [.fork 1 ⟨10, ⟨5, 0⟩, 0, []⟩,
          .single (.setchos 10 [47, 120] 2 ⟨true, true, true, .other 0⟩)] =
        some final ∧
      ¬ final.NoTextLeak := by
  have ends : (run Sys.handle (Sys.init 16 .boot)
      [.fork 1 ⟨10, ⟨5, 0⟩, 0, []⟩,
        .single (.setchos 10 [47, 120] 2 ⟨true, true, true, .other 0⟩)]).any
      (fun final => decide (final.table.texts.next = 1 ∧
        final.table.texts.frees 0 = 0 ∧ final.table.links.next = 0)) =
      true := by
    decide +kernel
  obtain ⟨final, finished, holds⟩ := (Option.any_eq_true _ _).mp ends
  obtain ⟨allocated, unfreed, noLinks⟩ := of_decide_eq_true holds
  refine ⟨final, finished, ?_⟩
  intro noLeak
  rcases noLeak.owner 0 (by omega) with freed | ⟨link, ⟨live, _⟩, _⟩
  · omega
  · have bounded := live.1
    omega

end Sys

end Chos.Kernel
