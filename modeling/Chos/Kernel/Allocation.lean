import Chos.Kernel.Instructions

/-!
# Instructions that allocate and free

`destroy_link` keeps the invariant if nobody else has the link in hand when
the test is made; `create_link` and the text buffer of `write_setchos` keep
it without a condition.
-/

namespace Chos.Kernel

open Chos.Library

section Destroying

variable {table : Table} {pool : List (List Instr)} {index : Nat}
  {instr follow : Instr} {rest : List Instr} {link : LinkId} {text : TextId}
  {duty : Duty}

/-- The next instruction of `destroy_link`, with the table as it was. -/
theorem Safe.proceed (safe : Safe table pool)
    (listed : pool[index]? = some (instr :: rest))
    (mentions : instr.link = some link)
    (stillMentions : follow.link = some link)
    (before : ∀ earlier, instr.duty = some earlier →
      earlier.destroys = some link ∧ earlier ≠ .kfreeLink link)
    (due : follow.duty = some duty) (destroys : duty.destroys = some link)
    (reads : ∀ text, duty = .kfreeText link text →
      (table.links.block link).text = text)
    (alone : inHand pool link = 1) (zero : table.count link = 0) :
    Safe table (pool.set index (follow :: rest)) := by
  have hands : ∀ other, inHand (pool.set index (follow :: rest)) other =
      inHand pool other := by
    intro other
    have moved := @pooled_set _ _ _ Instr.link other _ _ _ listed
      (follow :: rest)
    rw [occurrences_cons, occurrences_cons, mentions, stillMentions]
      at moved
    rw [inHand, inHand]
    omega
  have duties : ∀ other, pending (pool.set index (follow :: rest)) other +
      holds instr.duty other = pending pool other + holds (some duty) other :=
    by
    intro other
    have moved := @pooled_set _ _ _ Instr.duty other _ _ _ listed
      (follow :: rest)
    rw [occurrences_cons, occurrences_cons, due] at moved
    rw [pending, pending]
    omega
  have unmoved : ∀ other, other.destroys = none →
      pending (pool.set index (follow :: rest)) other =
        pending pool other := by
    intro other harmless
    have moved := duties other
    have notAfter : holds (some duty) other = 0 := by
      apply holds_of_ne
      rintro rfl
      rw [harmless] at destroys
      cases destroys
    have notBefore : holds instr.duty other = 0 := by
      by_contra held
      have same := eq_of_holds_pos (Nat.pos_of_ne_zero held)
      have facts := (before other same).1
      rw [harmless] at facts
      cases facts
    omega
  constructor
  · exact safe.misuse
  · intro other
    rw [unmoved _ rfl]
    exact safe.counted other
  · exact safe.blank
  · intro other used
    rw [hands] at used
    exact safe.known other used
  · intro other gone
    rw [hands]
    exact safe.freed other gone
  · exact safe.once
  · intro other dying threatens waiting
    rw [hands]
    have moved := duties other
    by_cases same : duty = other
    · subst same
      rw [destroys] at threatens
      cases threatens
      exact ⟨alone, zero⟩
    · rw [holds_of_ne same] at moved
      exact safe.dying other dying threatens (by omega)
  · apply safe.patient_set
    intro other threatens
    exact safe.calm_rest listed threatens
  · intro other copied waiting
    rw [unmoved _ rfl] at waiting
    exact safe.copied other copied waiting
  · intro other freed waiting
    have moved := duties (.kfreeText other freed)
    by_cases same : duty = .kfreeText other freed
    · subst same
      cases destroys
      exact reads freed rfl
    · rw [holds_of_ne same] at moved
      exact safe.freeing other freed (by omega)
  · exact safe.distinct
  · exact safe.linked
  · intro draft waiting
    rw [unmoved _ rfl] at waiting
    exact safe.unlinked draft waiting
  · intro draft
    rw [unmoved _ rfl]
    exact safe.single draft
  · intro freed gone
    obtain ⟨other, below, same, why⟩ := safe.freedText freed gone
    refine ⟨other, below, same, ?_⟩
    rcases why with freedBefore | waiting
    · exact Or.inl freedBefore
    · right
      have moved := duties (.kfreeLink other)
      have notBefore : holds instr.duty (.kfreeLink other) = 0 := by
        by_contra held
        have found := eq_of_holds_pos (Nat.pos_of_ne_zero held)
        obtain ⟨threatens, different⟩ := before _ found
        cases threatens
        exact different rfl
      omega

/-- The test of `destroy_link`, made while nobody else has the link in
hand. -/
theorem Safe.destroyRead (safe : Safe table pool)
    (listed : pool[index]? = some (.destroyRead link :: rest))
    (alone : table.count link = 0 → inHand pool link = 1) :
    Safe (table.touchLink link) (pool.set index (settle
      (if table.count link = 0 then .loadText link :: rest
      else rest))) := by
  rw [safe.touchLink_eq (Safe.inHand_pos listed rfl)]
  split
  · rename_i zero
    apply safe.proceed listed rfl rfl _ rfl rfl _ (alone zero) zero
    · intro earlier impossible
      cases impossible
    · intro text impossible
      cases impossible
  · exact safe.skip listed rfl

theorem pending_pos (listed : pool[index]? = some (instr :: rest))
    (due : instr.duty = some duty) : 0 < pending pool duty := by
  have within := @occurrences_le_pooled _ _ _ Instr.duty duty _ _ _ listed
  rw [occurrences_cons, due, holds_self] at within
  rw [pending]
  omega

theorem Safe.loadText (safe : Safe table pool)
    (listed : pool[index]? = some (.loadText link :: rest)) :
    Safe (table.touchLink link) (pool.set index (settle
      (.kfreeText link (table.links.block link).text :: rest))) := by
  rw [safe.touchLink_eq (Safe.inHand_pos listed rfl)]
  obtain ⟨alone, zero⟩ :=
    safe.dying (.loadText link) link rfl (pending_pos listed rfl)
  apply safe.proceed listed rfl rfl _ rfl rfl _ alone zero
  · intro earlier same
    cases same
    exact ⟨rfl, by simp⟩
  · intro text same
    cases same
    rfl

/-- Freeing the text of a link that is about to be freed itself. -/
theorem Safe.freeText (safe : Safe table pool)
    (waiting : 0 < pending pool (.kfreeLink link))
    (below : link < table.links.next)
    (owned : (table.links.block link).text = text)
    (live : table.texts.frees text = 0) :
    Safe (table.kfreeText text) pool where
  misuse := by
    rw [Table.kfreeText]
    have clean := safe.misuse
    dsimp only
    omega
  counted := safe.counted
  blank := safe.blank
  known := safe.known
  freed := safe.freed
  once := safe.once
  dying := safe.dying
  patient := safe.patient
  copied := safe.copied
  freeing := safe.freeing
  distinct := safe.distinct
  linked := safe.linked
  unlinked := safe.unlinked
  single := safe.single
  freedText := by
    intro other gone
    by_cases same : other = text
    · subst same
      exact ⟨link, below, owned, Or.inr waiting⟩
    · apply safe.freedText other
      simp only [Table.kfreeText] at gone
      rw [Heap.free_frees_of_ne same] at gone
      exact gone

theorem Safe.kfreeText (safe : Safe table pool)
    (listed : pool[index]? = some (.kfreeText link text :: rest)) :
    Safe (table.kfreeText text)
      (pool.set index (settle (.kfreeLink link :: rest))) := by
  have used : 0 < inHand pool link := Safe.inHand_pos listed rfl
  have owned := safe.freeing link text (pending_pos listed rfl)
  obtain ⟨alone, zero⟩ :=
    safe.dying (.kfreeText link text) link rfl (pending_pos listed rfl)
  -- Were the `kfree` of the link pending too, it would be in two hands.
  have whole : pending pool (.kfreeLink link) = 0 := by
    by_contra waiting
    have elsewhere : occurrences Instr.duty (.kfreeLink link)
        (.kfreeText link text :: rest) = 0 := by
      have none := safe.calm_rest listed
        (show (Duty.kfreeLink link).destroys ≠ none from
          Option.some_ne_none link)
      rw [occurrences_cons, none]
      simp [Instr.duty, holds]
    have absent := safe.absent_of_dying listed
      (show (Duty.kfreeLink link).destroys = some link from rfl)
      (Nat.pos_of_ne_zero waiting) elsewhere
    rw [occurrences_cons] at absent
    simp only [Instr.link, holds_self] at absent
    omega
  have live := safe.text_frees_eq_zero used whole
  rw [owned] at live
  have proceeded : Safe table (pool.set index (.kfreeLink link :: rest)) := by
    apply safe.proceed listed rfl rfl _ rfl rfl _ alone zero
    · intro earlier same
      cases same
      exact ⟨rfl, by simp⟩
    · intro other impossible
      cases impossible
  have inside : index < pool.length :=
    (List.getElem?_eq_some_iff.mp listed).1
  have relisted : (pool.set index (Instr.kfreeLink link :: rest))[index]? =
      some (.kfreeLink link :: rest) := by
    simp [inside]
  exact proceeded.freeText (pending_pos relisted rfl)
    (safe.known link used) owned live

theorem pending_kfreeLink
    (listed : pool[index]? = some (.kfreeLink link :: rest)) (duty : Duty) :
    pending (pool.set index (settle rest)) duty +
      holds (some (Duty.kfreeLink link)) duty = pending pool duty := by
  have moved := @pooled_set _ _ _ Instr.duty duty _ _ _ listed (settle rest)
  rw [duty_settle, occurrences_cons] at moved
  simp only [Instr.duty] at moved
  rw [pending, pending]
  omega

/-- What is left of the process has no link in hand that it did not have. -/
theorem inHand_kfreeLink
    (listed : pool[index]? = some (.kfreeLink link :: rest)) (other : LinkId)
    (none : occurrences Instr.link other rest = 0) :
    inHand (pool.set index (settle rest)) other + holds (some link) other =
      inHand pool other := by
  have moved := @pooled_set _ _ _ Instr.link other _ _ _ listed (settle rest)
  rw [occurrences_cons, none, link_settle_eq_zero other rest none] at moved
  simpa [inHand, Instr.link] using moved

/-- The end of a link: it was in this one hand, and now it is in none. -/
theorem Safe.kfreeLink (safe : Safe table pool)
    (listed : pool[index]? = some (.kfreeLink link :: rest)) :
    Safe (table.kfreeLink link) (pool.set index (settle rest)) := by
  have used : 0 < inHand pool link := Safe.inHand_pos listed rfl
  have live := safe.frees_eq_zero used
  obtain ⟨alone, zero⟩ :=
    safe.dying (.kfreeLink link) link rfl (pending_pos listed rfl)
  have within : ∀ other, occurrences Instr.link other
      (.kfreeLink link :: rest) ≤ inHand pool other :=
    fun other => occurrences_le_pooled listed
  have unmoved : ∀ duty, duty ≠ .kfreeLink link →
      pending (pool.set index (settle rest)) duty = pending pool duty := by
    intro duty different
    have moved := pending_kfreeLink listed duty
    rw [holds_of_ne (Ne.symm different)] at moved
    exact moved
  have released : occurrences Instr.link link rest = 0 := by
    have bound := within link
    rw [occurrences_cons] at bound
    simp only [Instr.link, holds_self] at bound
    omega
  have gone : ∀ other, (table.kfreeLink link).links.frees other =
      table.links.frees other + holds (some link) other := by
    intro other
    by_cases same : other = link
    · simp [Table.kfreeLink, same]
    · rw [holds_of_ne (Ne.symm same)]
      exact Heap.free_frees_of_ne same
  constructor
  · have clean := safe.misuse
    simp only [Table.kfreeLink, Table.touchLink]
    omega
  · intro other
    rw [unmoved _ (by simp)]
    exact safe.counted other
  · exact safe.blank
  · intro other usedAfter
    by_cases usedBefore : 0 < inHand pool other
    · exact safe.known other usedBefore
    · have bound := within other
      rw [occurrences_cons] at bound
      have moved := inHand_kfreeLink listed other (by omega)
      omega
  · intro other freed
    rw [gone] at freed
    by_cases same : other = link
    · subst same
      have moved := inHand_kfreeLink listed other released
      rw [holds_self] at moved
      exact ⟨by omega, zero⟩
    · rw [holds_of_ne (Ne.symm same)] at freed
      obtain ⟨unused, empty⟩ := safe.freed other freed
      have bound := within other
      rw [occurrences_cons] at bound
      have moved := inHand_kfreeLink listed other (by omega)
      exact ⟨by omega, empty⟩
  · intro other
    rw [gone]
    by_cases same : other = link
    · rw [same, holds_self]
      omega
    · rw [holds_of_ne (Ne.symm same)]
      exact safe.once other
  · intro duty other threatens waiting
    have moved := pending_kfreeLink listed duty
    have inside : duty.destroys ≠ none := by
      rw [threatens]
      exact Option.some_ne_none other
    obtain ⟨one, empty⟩ := safe.dying duty other threatens (by omega)
    by_cases same : duty = .kfreeLink link
    · -- A second `kfree` of the link would be a second hand.
      have covered : pending pool duty ≤ inHand pool link :=
        pooled_le_pooled
          (fun _ => Instr.link_of_destroys (same ▸ rfl)) pool
      rw [same, holds_self] at moved
      rw [same] at covered waiting
      omega
    · have elsewhere : occurrences Instr.duty duty
          (.kfreeLink link :: rest) = 0 := by
        rw [occurrences_cons, safe.calm_rest listed inside]
        exact holds_of_ne (Ne.symm same)
      have none := safe.absent_of_dying listed threatens (by omega) elsewhere
      rw [occurrences_cons] at none
      have moved' := inHand_kfreeLink listed other (by omega)
      simp only [Instr.link] at none
      exact ⟨by omega, empty⟩
  · apply safe.patient_set
    intro duty threatens
    have none := safe.calm_rest listed threatens
    have shorter := @occurrences_tail_le _ _ _ Instr.duty duty (settle rest)
    rw [duty_settle] at shorter
    omega
  · intro other copied waiting
    rw [unmoved _ (by simp)] at waiting
    exact safe.copied other copied waiting
  · intro other freed waiting
    rw [unmoved _ (by simp)] at waiting
    exact safe.freeing other freed waiting
  · exact safe.distinct
  · exact safe.linked
  · intro draft waiting
    rw [unmoved _ (by simp)] at waiting
    exact safe.unlinked draft waiting
  · intro draft
    rw [unmoved _ (by simp)]
    exact safe.single draft
  · intro freed lost
    obtain ⟨other, below, owned, why⟩ := safe.freedText freed lost
    refine ⟨other, below, owned, ?_⟩
    rw [gone]
    by_cases same : other = link
    · rw [same, holds_self]
      exact Or.inl (Nat.succ_pos _)
    · rw [unmoved _ (by simpa using same)]
      rcases why with freedBefore | waiting
      · exact Or.inl (by omega)
      · exact Or.inr waiting

end Destroying

section Allocating

variable {table : Table} {pool : List (List Instr)} {index : Nat}
  {rest : List Instr} {text : TextId} {shared : Shared} {current : Task}

theorem Safe.allocLink (safe : Safe table pool)
    (draftable : Draftable table pool text) :
    Safe
      { table with
        links := table.links.alloc { text := text, count := 0 } } pool := by
  let grown : Table :=
    { table with links := table.links.alloc { text := text, count := 0 } }
  have older : ∀ link, link ≠ table.links.next →
      grown.links.block link = table.links.block link :=
    fun link different => Heap.alloc_block_of_ne different
  have newest : grown.links.block table.links.next =
      { text := text, count := 0 } := Heap.alloc_block_self _ _
  have sameCount : ∀ link, grown.count link = table.count link := by
    intro link
    by_cases new : link = table.links.next
    · rw [new, Table.count, newest, safe.blank _ (Nat.le_refl _)]
    · rw [Table.count, older link new]
      rfl
  have sameRefs : ∀ link, grown.refs link = table.refs link :=
    fun link => Table.refs_congr rfl rfl link
  have freesOf : ∀ link, 0 < grown.links.frees link →
      0 < table.links.frees link ∧ link ≠ table.links.next := by
    intro link gone
    by_cases new : link = table.links.next
    · rw [new] at gone
      have none : grown.links.frees table.links.next = 0 :=
        Heap.alloc_frees_self _ _
      omega
    · have same : grown.links.frees link = table.links.frees link :=
        Heap.alloc_frees_of_ne new
      exact ⟨by omega, new⟩
  have olderText : ∀ link < table.links.next,
      (grown.links.block link).text = (table.links.block link).text := by
    intro link below
    rw [older link (Nat.ne_of_lt below)]
  have next : grown.links.next = table.links.next + 1 := rfl
  have split : ∀ link, link < grown.links.next →
      link < table.links.next ∨ link = table.links.next := by
    intro link below
    omega
  change Safe grown pool
  constructor
  · exact safe.misuse
  · intro link
    rw [sameCount, sameRefs]
    exact safe.counted link
  · intro link above
    rw [sameCount]
    exact safe.blank link (by omega)
  · intro link used
    exact Nat.lt_succ_of_lt (safe.known link used)
  · intro link gone
    rw [sameCount]
    exact safe.freed link (freesOf link gone).1
  · intro link
    by_cases gone : 0 < grown.links.frees link
    · have same : grown.links.frees link = table.links.frees link :=
        Heap.alloc_frees_of_ne (freesOf link gone).2
      rw [same]
      exact safe.once link
    · omega
  · intro duty link threatens waiting
    rw [sameCount]
    exact safe.dying duty link threatens waiting
  · exact safe.patient
  · intro link copied waiting
    have used : 0 < inHand pool link := by
      have covered : pending pool (.copyText link copied) ≤
          inHand pool link :=
        pooled_le_pooled (fun _ => Instr.link_of_copies) pool
      omega
    rw [olderText link (safe.known link used)]
    exact safe.copied link copied waiting
  · intro link freed waiting
    have used := (safe.dying (.kfreeText link freed) link rfl waiting).1
    rw [olderText link (safe.known link (by omega))]
    exact safe.freeing link freed waiting
  · intro first firstBelow second secondBelow same
    rcases split first firstBelow with firstOld | rfl
    · rw [olderText first firstOld] at same
      rcases split second secondBelow with secondOld | rfl
      · rw [olderText second secondOld] at same
        exact safe.distinct first firstOld second secondOld same
      · rw [newest] at same
        exact absurd same (draftable.apart first firstOld)
    · rw [newest] at same
      rcases split second secondBelow with secondOld | rfl
      · rw [olderText second secondOld] at same
        exact absurd same.symm (draftable.apart second secondOld)
      · rfl
  · intro link below
    rcases split link below with old | rfl
    · rw [olderText link old]
      exact safe.linked link old
    · rw [newest]
      exact draftable.known
  · intro draft waiting
    obtain ⟨known, apart⟩ := safe.unlinked draft waiting
    refine ⟨known, ?_⟩
    intro link below
    rcases split link below with old | rfl
    · rw [olderText link old]
      exact apart link old
    · rw [newest]
      intro same
      have equal : text = draft := same
      have none := draftable.single
      rw [equal] at none
      omega
  · exact safe.single
  · intro freed lost
    obtain ⟨link, below, owned, why⟩ := safe.freedText freed lost
    refine ⟨link, by omega, ?_, ?_⟩
    · rw [olderText link below]
      exact owned
    · have same : grown.links.frees link = table.links.frees link :=
        Heap.alloc_frees_of_ne (Nat.ne_of_lt below)
      rw [same]
      exact why

theorem Safe.allocText (safe : Safe table pool) (content : Text) :
    Safe (table.allocText content).2 pool ∧
      Draftable (table.allocText content).2 pool
        (table.allocText content).1 := by
  have unlinked : ∀ link < table.links.next,
      (table.links.block link).text ≠ table.texts.next := by
    intro link below
    exact Nat.ne_of_lt (safe.linked link below)
  refine ⟨?_, ?_, unlinked, ?_⟩
  · refine { safe with linked := ?_, unlinked := ?_, freedText := ?_ }
    · intro link below
      exact Nat.lt_succ_of_lt (safe.linked link below)
    · intro draft waiting
      obtain ⟨known, apart⟩ := safe.unlinked draft waiting
      exact ⟨Nat.lt_succ_of_lt known, apart⟩
    · intro freed lost
      apply safe.freedText freed
      by_cases new : freed = table.texts.next
      · rw [new] at lost
        have none : (table.texts.alloc content).frees table.texts.next = 0 :=
          Heap.alloc_frees_self _ _
        exact absurd lost (by
          simp only [Table.allocText]
          omega)
      · have same : (table.texts.alloc content).frees freed =
            table.texts.frees freed := Heap.alloc_frees_of_ne new
        simp only [Table.allocText] at lost
        omega
  · exact Nat.lt_succ_self _
  · by_contra waiting
    have known := (safe.unlinked _ (Nat.pos_of_ne_zero waiting)).1
    exact Nat.lt_irrefl _ known

theorem Safe.dropDraft {allocated : Bool} (safe : Safe table pool)
    (listed : pool[index]? = some (.createLink text allocated :: rest)) :
    Safe table (pool.set index rest) := by
  apply safe.ordinary listed
  apply Ordinary.recode
  · intro link
    simp [Instr.duty, holds]
  · intro link absent taken
    rw [occurrences_cons] at absent
    omega
  · intro draft
    left
    simp
  · intro link copied taken
    left
    simpa [Instr.duty, holds] using taken
  · intro duty destroys
    have none := safe.calm_rest listed destroys
    have different : Duty.text text ≠ duty := by
      rintro rfl
      exact destroys rfl
    simp [Instr.duty, holds_of_ne different, none]

theorem Safe.hand {value : Option LinkId} (safe : Safe table pool)
    (listed : pool[index]? = some rest)
    (obtainable : ∀ link, value = some link → Obtainable table pool link)
    (calm : ∀ duty, duty.destroys ≠ none →
      occurrences Instr.duty duty rest = 0) :
    Safe table (pool.set index (settle (returning value rest))) := by
  apply safe.ordinary listed
  apply Ordinary.settled
  apply Ordinary.recode
  · intro link
    rw [duty_returning]
  · intro link absent taken
    exact obtainable link (eq_of_link_returning absent taken)
  · intro draft
    left
    rw [duty_returning]
  · intro link copied taken
    left
    rw [duty_returning] at taken
    exact taken
  · intro duty destroys
    rw [duty_returning]
    exact ⟨calm duty destroys, calm duty destroys⟩

theorem Safe.createLink {allocated : Bool} (safe : Safe table pool)
    (listed : pool[index]? = some (.createLink text allocated :: rest)) :
    Safe (Kernel.createLink text allocated table).2
      (pool.set index (settle
        (returning (Kernel.createLink text allocated table).1 rest))) := by
  have inside : index < pool.length :=
    (List.getElem?_eq_some_iff.mp listed).1
  have relisted : (pool.set index rest)[index]? = some rest := by
    simp [inside]
  have dropped := safe.dropDraft listed
  have calm : ∀ duty : Duty, duty.destroys ≠ none →
      occurrences Instr.duty duty rest = 0 :=
    fun duty destroys => safe.calm_rest listed destroys
  have again : ∀ after, pool.set index after =
      (pool.set index rest).set index after :=
    fun after => (List.set_set rest).symm
  rw [again]
  cases allocated with
  | false =>
      apply dropped.hand relisted _ calm
      intro link impossible
      cases impossible
  | true =>
      obtain ⟨known, apart⟩ := safe.unlinked text
        (pending_pos listed rfl)
      have draftable : Draftable table (pool.set index rest) text := by
        refine ⟨known, apart, ?_⟩
        have moved := @pooled_set _ _ _ Instr.duty (.text text) _ _ _ listed
          rest
        have once : pooled Instr.duty (.text text) pool ≤ 1 :=
          safe.single text
        rw [occurrences_cons] at moved
        simp only [Instr.duty, holds_self] at moved
        rw [pending]
        omega
      apply (dropped.allocLink draftable).hand relisted _ calm
      intro link new
      cases new
      refine ⟨Nat.lt_succ_self _, Heap.alloc_frees_self _ _, ?_⟩
      intro duty destroys
      by_contra threatened
      have one := (dropped.dying duty _ destroys
        (Nat.pos_of_ne_zero threatened)).1
      have below := dropped.known table.links.next (by omega)
      exact Nat.lt_irrefl _ below

theorem Safe.setchos {buf : List UInt8} {count : Nat}
    {outcome : SetchosOutcome} (safe : Safe shared.table pool)
    (listed : pool[index]? = some (.setchos buf count outcome :: rest)) :
    Safe (shared.performSetchos current rest buf count outcome).1.table
      (pool.set index (settle
        (shared.performSetchos current rest buf count outcome).2)) := by
  have dropped : ∀ table, Safe table pool →
      Safe table (pool.set index (settle rest)) := by
    intro table tableSafe
    exact tableSafe.skip listed rfl
  obtain ⟨grown, draftable⟩ := safe.allocText (Kernel.copied buf count)
  simp only [Shared.performSetchos]
  generalize shared.table.allocText (Kernel.copied buf count) = allocation
    at grown draftable
  obtain ⟨text, table⟩ := allocation
  have drafted : ∀ duty, occurrences Instr.duty duty
      (sweeping ++ .createLink text outcome.linkAlloc :: .assign current ::
        rest) =
      holds (some (Duty.text text)) duty +
        occurrences Instr.duty duty rest := by
    intro duty
    simp [sweeping, Instr.duty]
  have undrafted : ∀ duty, occurrences Instr.duty duty
      (.setchos buf count outcome :: rest) =
      occurrences Instr.duty duty rest := by
    intro duty
    simp [Instr.duty]
  split
  · split
    · apply grown.ordinary listed
      apply Ordinary.settled
      apply Ordinary.recode
      · intro link
        rw [drafted, undrafted, holds_of_ne (by simp)]
        omega
      · intro link absent taken
        simp only [occurrences_cons] at absent
        simp only [sweeping, List.cons_append, List.nil_append,
          occurrences_cons, Instr.link, holds_none] at taken
        omega
      · intro draft
        rw [drafted, undrafted]
        by_cases same : text = draft
        · right
          subst same
          have none := @occurrences_le_pooled _ _ _ Instr.duty (.text text)
            _ _ _ listed
          have single : pooled Instr.duty (.text text) pool = 0 :=
            draftable.single
          rw [undrafted] at none
          rw [holds_self]
          exact ⟨by omega, draftable⟩
        · left
          rw [holds_of_ne (fun equal => same (Duty.text.inj equal))]
          omega
      · intro link copied taken
        left
        rw [drafted, holds_of_ne (by simp)] at taken
        rw [undrafted]
        omega
      · intro duty destroys
        have none := safe.calm_rest listed destroys
        have different : Duty.text text ≠ duty := by
          rintro rfl
          exact destroys rfl
        rw [drafted, undrafted, holds_of_ne different]
        omega
    · exact dropped _ grown
  · exact dropped _ safe

end Allocating

end Chos.Kernel
