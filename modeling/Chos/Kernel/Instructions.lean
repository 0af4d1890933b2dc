import Chos.Kernel.InHand

/-!
# Instructions that read and write

The instructions of `lookup_link`, `set_link`, `reset_link` and of reading
the text keep the invariant; none of them allocates or frees.
-/

namespace Chos.Kernel

open Chos.Library

section Quiet

variable {table : Table} {pool : List (List Instr)} {index : Nat}
  {instr : Instr} {rest after : List Instr} {shared next : Shared}
  {current : Task}

theorem Safe.skip (safe : Safe table pool)
    (listed : pool[index]? = some (instr :: rest))
    (free : instr.duty = none) :
    Safe table (pool.set index (settle rest)) := by
  apply safe.silent listed free
  · intro duty
    rfl
  · intro link
    simp

theorem Safe.lookup {task : Option Task}
    (safe : Safe shared.table pool)
    (listed : pool[index]? = some (.lookup task :: rest))
    (performed : shared.performLookup rest task = some (next, after)) :
    Safe next.table (pool.set index (settle after)) := by
  have nothing : Safe shared.table
      (pool.set index (settle (returning none rest))) := by
    apply safe.silent listed rfl (fun duty => duty_returning duty none rest)
    intro link
    have bound := link_returning_le link none rest
    rw [holds_none] at bound
    exact Nat.le_trans bound (by simp)
  cases task with
  | none =>
      cases performed
      exact nothing
  | some task =>
      simp only [Shared.performLookup] at performed
      split at performed
      · cases performed
        exact nothing
      split at performed
      · cases performed
      cases accessed : shared.table.proc task.pid with
      | error stop =>
          rw [accessed] at performed
          cases performed
      | ok entry =>
          rw [accessed] at performed
          dsimp only at performed
          obtain ⟨below, rfl⟩ := Table.proc_eq_ok_iff.mp accessed
          split at performed
          · cases performed
            apply safe.silent listed rfl
            · intro duty
              simp [Instr.duty]
            · intro link
              simp [Instr.link]
          · cases performed
            apply safe.quiet listed rfl
            · intro duty
              exact duty_returning duty _ rest
            · intro link absent taken
              have held := eq_of_link_returning
                (by simpa [Instr.link] using absent) taken
              exact safe.obtainable_of_count
                (safe.count_pos_of_entry below held)

theorem Safe.setCheck {link : Option LinkId} {task : Task}
    (safe : Safe shared.table pool)
    (listed : pool[index]? = some (.setCheck link task :: rest))
    (performed : shared.performSetCheck rest link task =
      some (next, after)) :
    Safe next.table (pool.set index (settle after)) := by
  have dutyFree : (setting link task).duty = none := by
    cases link with
    | none => rfl
    | some link => rfl
  have sameHand : (setting link task).link = link := by
    cases link with
    | none => rfl
    | some link => rfl
  simp only [Shared.performSetCheck] at performed
  split at performed
  · cases performed
  split at performed
  · cases performed
  split at performed
  · cases performed
    apply safe.silent listed rfl
    · intro duty
      rw [occurrences_cons, occurrences_cons, dutyFree]
      simp [Instr.duty]
    · intro other
      rw [occurrences_cons, occurrences_cons, sameHand]
      simp [Instr.link]
  · cases performed
    apply safe.silent listed rfl
    · intro duty
      rw [occurrences_cons, dutyFree]
      simp
    · intro other
      rw [occurrences_cons, sameHand]
      simp [Instr.link]

theorem Safe.sweep {slot : Nat}
    (safe : Safe shared.table pool)
    (listed : pool[index]? = some (.sweep slot :: rest)) :
    Safe shared.table (pool.set index
      (settle (shared.performSweep current rest slot))) := by
  rw [Shared.performSweep]
  split
  · split
    · apply safe.silent listed rfl
      · intro duty
        simp [Instr.duty]
      · intro link
        simp [Instr.link]
    · apply safe.silent listed rfl
      · intro duty
        simp [Instr.duty]
      · intro link
        simp [Instr.link]
  · exact safe.skip listed rfl

theorem Safe.findChild {parent_link : Option LinkId} {child : Task}
    {nr : Nat} (safe : Safe table pool)
    (listed : pool[index]? = some (.findChild parent_link nr :: rest)) :
    Safe table (pool.set index
      (settle (.setCheck parent_link child :: rest))) := by
  apply safe.silent listed rfl
  · intro duty
    simp [Instr.duty]
  · intro link
    simp [Instr.link]

theorem Safe.doFork {parent_link : Option LinkId} {new : Option NewTask}
    (safe : Safe shared.table pool)
    (listed : pool[index]? = some (.doFork parent_link new :: rest))
    (performed : shared.performDoFork current rest parent_link new =
      some (next, after)) :
    Safe next.table (pool.set index (settle after)) := by
  cases new with
  | none =>
      cases performed
      apply safe.silent listed rfl
      · intro duty
        simp [Instr.duty]
      · intro link
        simp [Instr.link]
  | some new =>
      simp only [Shared.performDoFork] at performed
      split at performed
      · cases performed
      split at performed
      · cases performed
      split at performed
      · cases performed
        apply safe.silent listed rfl
        · intro duty
          simp [Instr.duty]
        · intro link
          simp [Instr.link]
      · cases performed

end Quiet

section Writing

variable {table : Table} {pool : List (List Instr)} {index : Nat}
  {instr follow : Instr} {rest after : List Instr} {link : LinkId}
  {shared next : Shared}

/-- The counter of a link in hand moves together with the references this
process has under way. -/
theorem Safe.recount {delta : Int} (safe : Safe table pool)
    (listed : pool[index]? = some (instr :: rest))
    (mentions : instr.link = some link)
    (stillMentions : follow.link = some link)
    (plain : ∀ duty, duty.destroys ≠ none →
      holds instr.duty duty = 0)
    (moved : ∀ duty, (holds follow.duty duty : Int) =
      holds instr.duty duty + if duty = .ref link then delta else 0) :
    Safe
      { table with
        links := table.links.modify link fun cell =>
          { cell with count := cell.count + delta } }
      (pool.set index (settle (follow :: rest))) := by
  let recounted : Table :=
    { table with
      links := table.links.modify link fun cell =>
        { cell with count := cell.count + delta } }
  have countSelf : recounted.count link = table.count link + delta := by
    simp [recounted, Table.count]
  have countOther : ∀ other, other ≠ link →
      recounted.count other = table.count other := by
    intro other different
    simp [recounted, Table.count, Heap.modify_block_of_ne different]
  have sameRefs : ∀ other, recounted.refs other = table.refs other :=
    fun other => Table.refs_congr rfl rfl other
  have sameDuty : ∀ duty, duty ≠ .ref link →
      holds follow.duty duty = holds instr.duty duty := by
    intro duty different
    have counted := moved duty
    rw [if_neg different] at counted
    omega
  change Safe recounted _
  apply safe.ordinary listed
  apply Ordinary.settled
  constructor
  · rfl
  · rfl
  · rfl
  · intro other
    by_cases same : other = link
    · rw [same]
      simp [recounted]
    · simp [recounted, Heap.modify_block_of_ne same]
  · rfl
  · rfl
  · intro other absent
    apply countOther
    rintro rfl
    rw [occurrences_cons, mentions, holds_self] at absent
    omega
  · intro other
    have counted := moved (.ref other)
    have kept := sameRefs other
    rw [occurrences_cons, occurrences_cons]
    by_cases same : other = link
    · subst same
      rw [if_pos rfl] at counted
      omega
    · have kept' := countOther other same
      rw [if_neg (fun equal => same (Duty.ref.inj equal))] at counted
      omega
  · intro other absent taken
    rw [occurrences_cons, mentions] at absent
    rw [occurrences_cons, stillMentions] at taken
    omega
  · intro text
    left
    rw [occurrences_cons, occurrences_cons, sameDuty _ (by simp)]
  · intro other text
    rw [occurrences_cons, occurrences_cons, sameDuty _ (by simp)]
    exact Or.inl
  · intro duty destroys
    have none := safe.calm_rest listed destroys
    have different : duty ≠ .ref link := by
      rintro rfl
      exact destroys rfl
    have head := plain duty destroys
    rw [occurrences_cons, occurrences_cons, sameDuty duty different]
    omega

theorem Safe.setInc {task : Task} (safe : Safe table pool)
    (listed : pool[index]? = some (.setInc link task :: rest)) :
    Safe (table.atomicInc link)
      (pool.set index (settle (.setStore (some link) task :: rest))) := by
  rw [Table.atomicInc, safe.touchLink_eq (Safe.inHand_pos listed rfl)]
  apply safe.recount listed rfl rfl
  · intro duty _
    rfl
  · intro duty
    by_cases same : duty = .ref link
    · simp [Instr.duty, same]
    · have different : Duty.ref link ≠ duty := Ne.symm same
      simp [Instr.duty, same, holds_of_ne different]

theorem Safe.dec (safe : Safe table pool)
    (listed : pool[index]? = some (.dec link :: rest)) :
    Safe (table.atomicDec link)
      (pool.set index (settle (.readCount link :: rest))) := by
  rw [Table.atomicDec, safe.touchLink_eq (Safe.inHand_pos listed rfl)]
  apply safe.recount listed rfl rfl
  · intro duty destroys
    apply holds_of_ne
    rintro rfl
    exact destroys rfl
  · intro duty
    by_cases same : duty = .ref link
    · simp [Instr.duty, same]
    · have different : Duty.ref link ≠ duty := Ne.symm same
      simp [Instr.duty, same, holds_of_ne different]

/-- Overwriting an entry: what it held is lost, what it gets was counted
before. -/
theorem Safe.store {slot : Nat} {entry : ChosProc} (safe : Safe table pool)
    (listed : pool[index]? = some (instr :: rest))
    (balance : ∀ link,
      (table.store slot entry).refs link +
          occurrences Instr.duty (.ref link) after ≤
        table.refs link + occurrences Instr.duty (.ref link)
          (instr :: rest))
    (duties : ∀ duty, (∀ link, duty ≠ .ref link) →
      holds instr.duty duty = 0 ∧
        occurrences Instr.duty duty after =
          occurrences Instr.duty duty rest)
    (hands : ∀ link, occurrences Instr.link link (instr :: rest) = 0 →
      0 < occurrences Instr.link link after → Obtainable table pool link) :
    Safe (table.store slot entry) (pool.set index (settle after)) := by
  have unchanged : ∀ duty, (∀ link, duty ≠ .ref link) →
      occurrences Instr.duty duty after =
        occurrences Instr.duty duty (instr :: rest) := by
    intro duty other
    have facts := duties duty other
    rw [occurrences_cons]
    omega
  apply safe.ordinary listed
  apply Ordinary.settled
  constructor
  · rfl
  · rfl
  · rfl
  · intro link
    rfl
  · rfl
  · rfl
  · intro link _
    rfl
  · intro link
    have moved := balance link
    have same : (table.store slot entry).count link = table.count link := rfl
    omega
  · exact hands
  · intro text
    left
    rw [unchanged _ (by simp)]
  · intro link text
    rw [unchanged _ (by simp)]
    exact Or.inl
  · intro duty destroys
    have other : ∀ link, duty ≠ .ref link := by
      rintro link rfl
      exact destroys rfl
    have none := safe.calm_rest listed destroys
    have facts := duties duty other
    rw [unchanged duty other, occurrences_cons]
    omega

theorem Table.refs_store_le (table : Table) (slot : Nat)
    (entry : ChosProc) (link : LinkId) :
    (table.store slot entry).refs link ≤
      table.refs link + holds entry.link link := by
  by_cases below : slot < table.pid_max
  · have moved := Table.refs_store below entry link
    omega
  · have same : (table.store slot entry).refs link = table.refs link := by
      apply holders_congr
      intro other otherBelow
      rw [Table.store_pid_max] at otherBelow
      rw [Table.linkAt_store]
      exact Function.update_of_ne (by omega) _ _
    omega

theorem Safe.setStore {held : Option LinkId} {task : Task}
    (safe : Safe table pool)
    (listed : pool[index]? = some (.setStore held task :: rest)) :
    Safe (table.store task.pid (.assigned held task))
      (pool.set index (settle rest)) := by
  apply safe.store listed
  · intro link
    have bound := table.refs_store_le task.pid (.assigned held task) link
    have counted : holds (Instr.setStore held task).duty (.ref link) =
        holds held link := by
      cases held with
      | none => rfl
      | some held => simp [Instr.duty, holds]
    rw [occurrences_cons, counted]
    simp only [ChosProc.assigned] at bound ⊢
    omega
  · intro duty other
    refine ⟨?_, rfl⟩
    cases held with
    | none => rfl
    | some held => exact holds_of_ne (Ne.symm (other held))
  · intro link absent taken
    rw [occurrences_cons] at absent
    omega

theorem Safe.resetSwap {slot : Nat} (safe : Safe shared.table pool)
    (listed : pool[index]? = some (.resetSwap slot :: rest))
    (performed : shared.performResetSwap rest slot = some (next, after)) :
    Safe next.table (pool.set index (settle after)) := by
  simp only [Shared.performResetSwap] at performed
  cases accessed : shared.table.proc slot with
  | error stop =>
      rw [accessed] at performed
      cases performed
  | ok entry =>
      obtain ⟨below, rfl⟩ := Table.proc_eq_ok_iff.mp accessed
      rw [accessed] at performed
      dsimp only at performed
      have moved := fun link =>
        Table.refs_store below ChosProc.cleared link
      cases holding : (shared.table.procs slot).link with
      | none =>
          rw [holding] at performed
          cases performed
          apply safe.store listed
          · intro link
            have counted := moved link
            simp only [ChosProc.cleared, holds_none] at counted
            simp only [occurrences_cons, Instr.duty, holds_none,
              ChosProc.cleared]
            omega
          · intro duty _
            exact ⟨rfl, rfl⟩
          · intro link absent taken
            rw [occurrences_cons] at absent
            omega
      | some held =>
          rw [holding] at performed
          cases performed
          have entryHolds : shared.table.linkAt slot = some held := holding
          apply safe.store listed
          · intro link
            have counted := moved link
            have duty : holds (Instr.dec held).duty (.ref link) =
                holds (some held) link := by
              simp [Instr.duty, holds]
            rw [entryHolds] at counted
            simp only [ChosProc.cleared, holds_none] at counted
            rw [occurrences_cons, occurrences_cons, duty]
            simp only [Instr.duty, holds_none, ChosProc.cleared]
            omega
          · intro duty other
            refine ⟨rfl, ?_⟩
            rw [occurrences_cons]
            have none : holds (Instr.dec held).duty duty = 0 :=
              holds_of_ne (Ne.symm (other held))
            omega
          · intro link absent taken
            rw [occurrences_cons] at absent taken
            have same : some held = some link :=
              eq_of_holds_pos (show 0 < holds (some held) link by
                simp only [Instr.link] at taken
                omega)
            rw [same] at entryHolds
            exact safe.obtainable_of_count
              (safe.count_pos_of_entry below entryHolds)

end Writing

section Reading

variable {table : Table} {pool : List (List Instr)} {index : Nat}
  {instr : Instr} {rest : List Instr} {link : LinkId} {text : TextId}

/-- Nobody destroys a link that another instruction has in hand. -/
theorem Safe.spared (safe : Safe table pool)
    (listed : pool[index]? = some (instr :: rest))
    (mentions : instr.link = some link)
    (plain : ∀ duty, duty.destroys ≠ none → holds instr.duty duty = 0)
    {duty : Duty} (destroys : duty.destroys = some link) :
    pending pool duty = 0 := by
  by_contra waiting
  have inside : duty.destroys ≠ none := by
    rw [destroys]
    exact Option.some_ne_none link
  have elsewhere : occurrences Instr.duty duty (instr :: rest) = 0 := by
    rw [occurrences_cons, plain duty inside, safe.calm_rest listed inside]
  have absent := safe.absent_of_dying listed destroys
    (Nat.pos_of_ne_zero waiting) elsewhere
  rw [occurrences_cons, mentions, holds_self] at absent
  omega

theorem Safe.readText (safe : Safe table pool)
    (listed : pool[index]? = some (.readText link :: rest)) :
    Safe (table.touchLink link) (pool.set index (settle
      (.copyText link (table.links.block link).text :: rest))) := by
  rw [safe.touchLink_eq (Safe.inHand_pos listed rfl)]
  apply safe.ordinary listed
  apply Ordinary.settled
  apply Ordinary.recode
  · intro other
    simp [Instr.duty, holds]
  · intro other absent taken
    simp only [occurrences_cons, Instr.link] at absent taken
    omega
  · intro other
    left
    simp [Instr.duty, holds]
  · intro other copied taken
    by_cases same : Duty.copyText link (table.links.block link).text =
        .copyText other copied
    · right
      cases same
      rfl
    · left
      simpa [Instr.duty, holds_of_ne same] using taken
  · intro duty destroys
    have none := safe.calm_rest listed destroys
    have different :
        Duty.copyText link (table.links.block link).text ≠ duty := by
      rintro rfl
      exact destroys rfl
    simp [Instr.duty, holds_of_ne different, none]

theorem Safe.copyText (safe : Safe table pool)
    (listed : pool[index]? = some (.copyText link text :: rest)) :
    Safe (table.readText text).2 (pool.set index (settle rest)) := by
  have plain : ∀ duty : Duty, duty.destroys ≠ none →
      holds (Instr.copyText link text).duty duty = 0 := by
    intro duty destroys
    apply holds_of_ne
    rintro rfl
    exact destroys rfl
  have copied : (table.links.block link).text = text := by
    apply safe.copied link text
    have within := @occurrences_le_pooled _ _ _ Instr.duty
      (.copyText link text) _ _ _ listed
    rw [occurrences_cons] at within
    simp only [Instr.duty, holds_self] at within
    rw [pending]
    omega
  have whole : pending pool (.kfreeLink link) = 0 :=
    safe.spared listed rfl plain rfl
  have live := safe.text_frees_eq_zero (Safe.inHand_pos listed rfl) whole
  rw [copied] at live
  have same : (table.readText text).2 = table := by
    simp only [Table.readText, live, Nat.add_zero]
  rw [same]
  apply safe.ordinary listed
  apply Ordinary.settled
  apply Ordinary.recode
  · intro other
    simp [Instr.duty, holds]
  · intro other absent taken
    rw [occurrences_cons] at absent
    omega
  · intro other
    left
    simp
  · intro other otherText taken
    left
    rw [occurrences_cons]
    omega
  · intro duty destroys
    have none := safe.calm_rest listed destroys
    rw [occurrences_cons, plain duty destroys]
    omega

/-- The second read of the counter is up to `destroy_link`. -/
theorem Safe.readCount (safe : Safe table pool)
    (listed : pool[index]? = some (.readCount link :: rest)) :
    Safe (table.touchLink link) (pool.set index (settle
      (if table.count link = 0 then .destroyRead link :: rest
      else rest))) := by
  rw [safe.touchLink_eq (Safe.inHand_pos listed rfl)]
  split
  · apply safe.silent listed rfl
    · intro duty
      simp [Instr.duty]
    · intro other
      simp [Instr.link]
  · exact safe.skip listed rfl

end Reading

end Chos.Kernel
