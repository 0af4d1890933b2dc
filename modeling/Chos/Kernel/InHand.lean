import Chos.Kernel.Entries
import Chos.Kernel.Threads

/-!
# Links in hand

A link found by `lookup_link` is used without a reference, and a counter is
decremented and read in two steps, so a link can be in the hands of a process
that its counter does not know of.  This file counts these hands, states the
invariant of the concurrent machine, and shows that it survives any step that
neither allocates nor frees.
-/

namespace Chos.Kernel

open Chos.Library

/-- The link an instruction has in hand. -/
def Instr.link : Instr → Option LinkId
  | .returns link => link
  | .setCheck link _ => link
  | .setInc link _ => some link
  | .setStore link _ => link
  | .dec link => some link
  | .readCount link => some link
  | .destroyRead link => some link
  | .loadText link => some link
  | .kfreeText link _ => some link
  | .kfreeLink link => some link
  | .readText link => some link
  | .copyText link _ => some link
  | .doFork link _ => link
  | .findChild link _ => link
  | _ => none

/-- What the rest of the run relies on an instruction for: the counted
reference it is about to move, the text it turns into a link, the part of
`destroy_link` it is, or the text it copies. -/
inductive Duty where
  | ref (link : LinkId)
  | text (text : TextId)
  | loadText (link : LinkId)
  | kfreeText (link : LinkId) (text : TextId)
  | kfreeLink (link : LinkId)
  | copyText (link : LinkId) (text : TextId)
  deriving DecidableEq

def Instr.duty : Instr → Option Duty
  | .dec link => some (.ref link)
  | .setStore link _ => link.map .ref
  | .createLink text _ => some (.text text)
  | .loadText link => some (.loadText link)
  | .kfreeText link text => some (.kfreeText link text)
  | .kfreeLink link => some (.kfreeLink link)
  | .copyText link text => some (.copyText link text)
  | _ => none

/-- The link that is beyond rescue once the instruction is reached. -/
def Duty.destroys : Duty → Option LinkId
  | .loadText link => some link
  | .kfreeText link _ => some link
  | .kfreeLink link => some link
  | _ => none

theorem Instr.link_of_destroys {instr : Instr} {duty : Duty}
    {link : LinkId} (destroys : duty.destroys = some link)
    (due : instr.duty = some duty) : instr.link = some link := by
  cases instr with
  | loadText other =>
      cases due
      exact destroys
  | kfreeText other text =>
      cases due
      exact destroys
  | kfreeLink other =>
      cases due
      exact destroys
  | dec other =>
      cases due
      cases destroys
  | setStore other task =>
      obtain ⟨held, _, rfl⟩ := Option.map_eq_some_iff.mp due
      cases destroys
  | createLink text allocated =>
      cases due
      cases destroys
  | copyText other text =>
      cases due
      cases destroys
  | _ => cases due

theorem Instr.link_of_copies {instr : Instr} {link : LinkId}
    {text : TextId} (due : instr.duty = some (.copyText link text)) :
    instr.link = some link := by
  cases instr with
  | copyText other copied =>
      cases due
      rfl
  | setStore other task =>
      obtain ⟨held, _, impossible⟩ := Option.map_eq_some_iff.mp due
      cases impossible
  | _ => cases due

/-- The pending instructions of all processes that have the link in hand. -/
def inHand (pool : List (List Instr)) (link : LinkId) : Nat :=
  pooled Instr.link link pool

def pending (pool : List (List Instr)) (duty : Duty) : Nat :=
  pooled Instr.duty duty pool

section Returns

variable (link : LinkId) (duty : Duty) (value : Option LinkId)
  (rest code : List Instr)

@[simp] theorem duty_returning :
    occurrences Instr.duty duty (returning value rest) =
      occurrences Instr.duty duty rest := by
  cases rest with
  | nil => rfl
  | cons frame rest => simp [returning, Instr.duty]

theorem link_returning_le :
    occurrences Instr.link link (returning value rest) ≤
      holds value link + occurrences Instr.link link rest := by
  cases rest with
  | nil => exact Nat.zero_le _
  | cons frame rest => exact Nat.le_refl _

variable {link value rest} in
theorem eq_of_link_returning
    (absent : occurrences Instr.link link rest = 0)
    (taken : 0 < occurrences Instr.link link (returning value rest)) :
    value = some link := by
  have bound := link_returning_le link value rest
  apply eq_of_holds_pos
  omega

theorem duty_resume (frame : Instr) :
    occurrences Instr.duty duty (resume value frame rest) =
      occurrences Instr.duty duty (frame :: rest) := by
  cases frame with
  | climbed task =>
      cases value with
      | none => simp [resume, Instr.duty]
      | some found => simp [resume, Instr.duty]
  | readlink =>
      cases value with
      | none => simp [resume, Instr.duty]
      | some found => simp [resume, Instr.duty]
  | assign task => simp [resume, Instr.duty]
  | forked new => simp [resume, Instr.duty]
  | _ => rfl

theorem duty_settle :
    occurrences Instr.duty duty (settle code) =
      occurrences Instr.duty duty code := by
  rw [settle.eq_def]
  split
  · rw [duty_resume, occurrences_cons]
    simp [Instr.duty]
  · rfl

theorem link_resume_eq_zero {frame : Instr}
    (absent : holds value link = 0)
    (absentBelow : occurrences Instr.link link (frame :: rest) = 0) :
    occurrences Instr.link link (resume value frame rest) = 0 := by
  rw [occurrences_cons] at absentBelow
  have brought := link_returning_le link value rest
  cases frame with
  | climbed task =>
      cases value with
      | none =>
          simp only [resume, occurrences_cons, Instr.link, holds_none]
          omega
      | some found =>
          simp only [resume, occurrences_cons, Instr.link]
          omega
  | readlink =>
      cases value with
      | none =>
          simp only [resume]
          omega
      | some found =>
          simp only [resume, occurrences_cons, Instr.link]
          omega
  | assign task =>
      simp only [resume, occurrences_cons, Instr.link]
      omega
  | forked new =>
      simp only [resume, occurrences_cons, Instr.link]
      omega
  | _ =>
      simp only [resume, occurrences_cons]
      omega

theorem link_settle_eq_zero
    (absent : occurrences Instr.link link code = 0) :
    occurrences Instr.link link (settle code) = 0 := by
  rw [settle.eq_def]
  split
  · rename_i value frame rest
    rw [occurrences_cons] at absent
    apply link_resume_eq_zero
    · simp only [Instr.link] at absent
      omega
    · omega
  · exact absent

end Returns

/-- What holds in every state between two steps.  A link in hand is not
freed; a counter is at least the references that are stored or under way;
once `destroy_link` goes ahead the link is in one hand only. -/
structure Safe (table : Table) (pool : List (List Instr)) : Prop where
  misuse : table.misuse = 0
  counted : ∀ link,
    (table.refs link : Int) + pending pool (.ref link) ≤ table.count link
  blank : ∀ link, table.links.next ≤ link → table.count link = 0
  known : ∀ link, 0 < inHand pool link → link < table.links.next
  freed : ∀ link, 0 < table.links.frees link →
    inHand pool link = 0 ∧ table.count link = 0
  once : ∀ link, table.links.frees link ≤ 1
  dying : ∀ duty link, duty.destroys = some link → 0 < pending pool duty →
    inHand pool link = 1 ∧ table.count link = 0
  patient : ∀ code ∈ pool, ∀ duty, duty.destroys ≠ none →
    occurrences Instr.duty duty code.tail = 0
  copied : ∀ link text, 0 < pending pool (.copyText link text) →
    (table.links.block link).text = text
  freeing : ∀ link text, 0 < pending pool (.kfreeText link text) →
    (table.links.block link).text = text
  distinct : ∀ first < table.links.next, ∀ second < table.links.next,
    (table.links.block first).text = (table.links.block second).text →
    first = second
  linked : ∀ link < table.links.next,
    (table.links.block link).text < table.texts.next
  unlinked : ∀ text, 0 < pending pool (.text text) →
    text < table.texts.next ∧
      ∀ link < table.links.next, (table.links.block link).text ≠ text
  single : ∀ text, pending pool (.text text) ≤ 1
  freedText : ∀ text, 0 < table.texts.frees text →
    ∃ link < table.links.next, (table.links.block link).text = text ∧
      (0 < table.links.frees link ∨ 0 < pending pool (.kfreeLink link))

theorem Safe.init (pid_max : Nat) : Safe (Table.init pid_max) [] where
  misuse := rfl
  counted := by
    intro link
    have unheld : (Table.init pid_max).refs link = 0 := by
      apply holders_eq_zero_iff.mpr
      intro index _ impossible
      cases impossible
    rw [unheld]
    exact Int.le_refl 0
  blank := by
    intro link _
    rfl
  known := by
    intro link impossible
    cases impossible
  freed := by
    intro link impossible
    cases impossible
  once := by
    intro link
    exact Nat.zero_le 1
  dying := by
    intro duty link _ impossible
    cases impossible
  patient := by
    intro code impossible
    cases impossible
  copied := by
    intro link text impossible
    cases impossible
  freeing := by
    intro link text impossible
    cases impossible
  distinct := by
    intro first impossible
    cases impossible
  linked := by
    intro link impossible
    cases impossible
  unlinked := by
    intro text impossible
    cases impossible
  single := by
    intro text
    exact Nat.zero_le 1
  freedText := by
    intro text impossible
    cases impossible

namespace Safe

variable {table : Table} {pool : List (List Instr)} {index : Nat}
  {instr : Instr} {rest : List Instr}

theorem frees_eq_zero (safe : Safe table pool) {link : LinkId}
    (used : 0 < inHand pool link) : table.links.frees link = 0 := by
  by_contra nonzero
  have absent := (safe.freed link (Nat.pos_of_ne_zero nonzero)).1
  omega

theorem inHand_pos (listed : pool[index]? = some (instr :: rest))
    {link : LinkId} (mentions : instr.link = some link) :
    0 < inHand pool link := by
  have within := @occurrences_le_pooled _ _ _ Instr.link link _ _ _ listed
  rw [occurrences_cons, mentions, holds_self] at within
  rw [inHand]
  omega

/-- An access to a link in hand is no misuse. -/
theorem touchLink_eq (safe : Safe table pool) {link : LinkId}
    (used : 0 < inHand pool link) : table.touchLink link = table := by
  rw [Table.touchLink, safe.frees_eq_zero used, Nat.add_zero]

/-- The text of a link that is neither freed nor past its `kfree` of the text
has not been freed. -/
theorem text_frees_eq_zero (safe : Safe table pool) {link : LinkId}
    (used : 0 < inHand pool link)
    (whole : pending pool (.kfreeLink link) = 0) :
    table.texts.frees (table.links.block link).text = 0 := by
  by_contra nonzero
  obtain ⟨other, below, same, gone⟩ :=
    safe.freedText _ (Nat.pos_of_ne_zero nonzero)
  have equal := safe.distinct other below link (safe.known link used) same
  subst equal
  have live := safe.frees_eq_zero used
  omega

theorem absent_of_dying (safe : Safe table pool) {code : List Instr}
    (listed : pool[index]? = some code) {duty : Duty} {link : LinkId}
    (destroys : duty.destroys = some link) (waiting : 0 < pending pool duty)
    (elsewhere : occurrences Instr.duty duty code = 0) :
    occurrences Instr.link link code = 0 := by
  have one := (safe.dying duty link destroys waiting).1
  have duties : pending (pool.set index []) duty +
      occurrences Instr.duty duty code = pending pool duty :=
    pooled_set listed []
  have hands : inHand (pool.set index []) link +
      occurrences Instr.link link code = inHand pool link :=
    pooled_set listed []
  have covered : pending (pool.set index []) duty ≤
      inHand (pool.set index []) link :=
    pooled_le_pooled (fun instr => Instr.link_of_destroys destroys) _
  omega

theorem patient_set (safe : Safe table pool) {code : List Instr}
    (calm : ∀ duty : Duty, duty.destroys ≠ none →
      occurrences Instr.duty duty code.tail = 0) :
    ∀ member ∈ pool.set index code, ∀ duty, duty.destroys ≠ none →
      occurrences Instr.duty duty member.tail = 0 := by
  intro member inside duty destroys
  rcases List.mem_or_eq_of_mem_set inside with older | rfl
  · exact safe.patient member older duty destroys
  · exact calm duty destroys

theorem count_pos_of_entry (safe : Safe table pool) {slot : Nat}
    {link : LinkId} (below : slot < table.pid_max)
    (held : table.linkAt slot = some link) : 0 < table.count link := by
  have holder := Table.refs_pos_iff.mpr ⟨slot, below, held⟩
  have bound := safe.counted link
  omega

end Safe

/-- A link a process may take into its hands. -/
structure Obtainable (table : Table) (pool : List (List Instr))
    (link : LinkId) : Prop where
  known : link < table.links.next
  live : table.links.frees link = 0
  spared : ∀ duty, duty.destroys = some link → pending pool duty = 0

/-- A text that can still become the text of a link. -/
structure Draftable (table : Table) (pool : List (List Instr))
    (text : TextId) : Prop where
  known : text < table.texts.next
  apart : ∀ link < table.links.next, (table.links.block link).text ≠ text
  single : pending pool (.text text) = 0

/-- How a step may change the table and the code of one process when it frees
and allocates nothing. -/
structure Ordinary (pool : List (List Instr)) (table next : Table)
    (code after : List Instr) : Prop where
  pid_max : next.pid_max = table.pid_max
  links : next.links.next = table.links.next
  frees : next.links.frees = table.links.frees
  text : ∀ link,
    (next.links.block link).text = (table.links.block link).text
  texts : next.texts = table.texts
  misuse : next.misuse = table.misuse
  counts : ∀ link, occurrences Instr.link link code = 0 →
    next.count link = table.count link
  balance : ∀ link,
    (next.refs link : Int) + occurrences Instr.duty (.ref link) after +
        table.count link ≤
      table.refs link + occurrences Instr.duty (.ref link) code +
        next.count link
  hands : ∀ link, occurrences Instr.link link code = 0 →
    0 < occurrences Instr.link link after → Obtainable table pool link
  drafts : ∀ text, occurrences Instr.duty (.text text) after ≤
    occurrences Instr.duty (.text text) code ∨
      occurrences Instr.duty (.text text) after ≤ 1 ∧
        Draftable table pool text
  copies : ∀ link text,
    0 < occurrences Instr.duty (.copyText link text) after →
    0 < occurrences Instr.duty (.copyText link text) code ∨
      (table.links.block link).text = text
  calm : ∀ duty, duty.destroys ≠ none →
    occurrences Instr.duty duty code = 0 ∧
      occurrences Instr.duty duty after = 0

theorem Ordinary.stays_absent
    {table next : Table} {pool : List (List Instr)}
    {code after : List Instr} (step : Ordinary pool table next code after)
    {link : LinkId} (absent : occurrences Instr.link link code = 0)
    (unobtainable : ¬ Obtainable table pool link) :
    occurrences Instr.link link after = 0 := by
  by_contra taken
  exact unobtainable (step.hands link absent (Nat.pos_of_ne_zero taken))

/-- An ordinary step keeps the invariant. -/
theorem Safe.ordinary
    {table next : Table} {pool : List (List Instr)} {index : Nat}
    {code after : List Instr} (safe : Safe table pool)
    (listed : pool[index]? = some code)
    (step : Ordinary pool table next code after) :
    Safe next (pool.set index after) := by
  have hands : ∀ link, inHand (pool.set index after) link +
      occurrences Instr.link link code =
      inHand pool link + occurrences Instr.link link after :=
    fun link => pooled_set listed after
  have duties : ∀ duty, pending (pool.set index after) duty +
      occurrences Instr.duty duty code =
      pending pool duty + occurrences Instr.duty duty after :=
    fun duty => pooled_set listed after
  have within : ∀ link, occurrences Instr.link link code ≤
      inHand pool link := fun link => occurrences_le_pooled listed
  have dutiesWithin : ∀ duty, occurrences Instr.duty duty code ≤
      pending pool duty := fun duty => occurrences_le_pooled listed
  -- A duty inside `destroy_link` is with another process.
  have same : ∀ duty, duty.destroys ≠ none →
      pending (pool.set index after) duty = pending pool duty := by
    intro duty destroys
    have calm := step.calm duty destroys
    have moved := duties duty
    omega
  constructor
  · rw [step.misuse]
    exact safe.misuse
  · intro link
    have bound := safe.counted link
    have balance := step.balance link
    have moved := duties (.ref link)
    have inside := dutiesWithin (.ref link)
    omega
  · intro link above
    rw [step.links] at above
    have unused : occurrences Instr.link link code = 0 := by
      by_contra used
      have inside := within link
      have known : link < table.links.next := safe.known link (by omega)
      omega
    rw [step.counts link unused]
    exact safe.blank link above
  · intro link used
    rw [step.links]
    have moved := hands link
    have inside := within link
    by_cases usedBefore : 0 < inHand pool link
    · exact safe.known link usedBefore
    · exact (step.hands link (by omega) (by omega)).known
  · intro link gone
    rw [step.frees] at gone
    obtain ⟨unused, zero⟩ := safe.freed link gone
    have inside := within link
    have absent : occurrences Instr.link link code = 0 := by omega
    have stillAbsent : occurrences Instr.link link after = 0 := by
      apply step.stays_absent absent
      intro obtainable
      have live := obtainable.live
      omega
    have moved := hands link
    refine ⟨by omega, ?_⟩
    rw [step.counts link absent]
    exact zero
  · intro link
    rw [step.frees]
    exact safe.once link
  · intro duty link destroys waiting
    have inside : duty.destroys ≠ none := by
      rw [destroys]
      exact Option.some_ne_none link
    rw [same duty inside] at waiting
    obtain ⟨one, zero⟩ := safe.dying duty link destroys waiting
    have absent := safe.absent_of_dying listed destroys waiting
      (step.calm duty inside).1
    have stillAbsent : occurrences Instr.link link after = 0 := by
      apply step.stays_absent absent
      intro obtainable
      have spared := obtainable.spared duty destroys
      omega
    have moved := hands link
    refine ⟨by omega, ?_⟩
    rw [step.counts link absent]
    exact zero
  · apply safe.patient_set
    intro duty destroys
    have none := (step.calm duty destroys).2
    have shorter := @occurrences_tail_le _ _ _ Instr.duty duty after
    omega
  · intro link text waiting
    rw [step.text]
    have moved := duties (.copyText link text)
    by_cases earlier : 0 < pending pool (.copyText link text)
    · exact safe.copied link text earlier
    · have fresh := step.copies link text (by omega)
      have inside := dutiesWithin (.copyText link text)
      rcases fresh with older | equal
      · omega
      · exact equal
  · intro link text waiting
    rw [same _ (by simp [Duty.destroys])] at waiting
    rw [step.text]
    exact safe.freeing link text waiting
  · intro first firstBelow second secondBelow equal
    rw [step.links] at firstBelow secondBelow
    rw [step.text, step.text] at equal
    exact safe.distinct first firstBelow second secondBelow equal
  · intro link below
    rw [step.links] at below
    rw [step.text, step.texts]
    exact safe.linked link below
  · intro text waiting
    have moved := duties (.text text)
    have unlinked : text < table.texts.next ∧
        ∀ link < table.links.next,
          (table.links.block link).text ≠ text := by
      rcases step.drafts text with fewer | ⟨_, fresh⟩
      · exact safe.unlinked text (by omega)
      · exact ⟨fresh.known, fresh.apart⟩
    rw [step.texts, step.links]
    refine ⟨unlinked.1, ?_⟩
    intro link below
    rw [step.text]
    exact unlinked.2 link below
  · intro text
    have moved := duties (.text text)
    have one := safe.single text
    rcases step.drafts text with fewer | ⟨few, fresh⟩
    · omega
    · have none := fresh.single
      omega
  · intro text gone
    rw [step.texts] at gone
    obtain ⟨link, below, equal, why⟩ := safe.freedText text gone
    refine ⟨link, by rw [step.links]; exact below, ?_, ?_⟩
    · rw [step.text]
      exact equal
    · rw [step.frees, same _ (by simp [Duty.destroys])]
      exact why

theorem Safe.obtainable_of_count
    {table : Table} {pool : List (List Instr)} (safe : Safe table pool)
    {link : LinkId} (positive : 0 < table.count link) :
    Obtainable table pool link := by
  constructor
  · by_contra unknown
    have zero := safe.blank link (Nat.le_of_not_lt unknown)
    omega
  · by_contra gone
    have zero := (safe.freed link (Nat.pos_of_ne_zero gone)).2
    omega
  · intro duty destroys
    by_contra waiting
    have zero :=
      (safe.dying duty link destroys (Nat.pos_of_ne_zero waiting)).2
    omega

section Quiet

variable {table : Table} {pool : List (List Instr)} {index : Nat}
  {instr : Instr} {rest after : List Instr}

theorem Safe.calm_rest (safe : Safe table pool)
    (listed : pool[index]? = some (instr :: rest)) {duty : Duty}
    (destroys : duty.destroys ≠ none) :
    occurrences Instr.duty duty rest = 0 :=
  safe.patient _ (List.mem_of_getElem? listed) duty destroys

/-- What a return leaves is as good as what it began with. -/
theorem Ordinary.settled {next : Table} {code : List Instr}
    (step : Ordinary pool table next code after) :
    Ordinary pool table next code (settle after) where
  pid_max := step.pid_max
  links := step.links
  frees := step.frees
  text := step.text
  texts := step.texts
  misuse := step.misuse
  counts := step.counts
  balance := by
    intro link
    rw [duty_settle]
    exact step.balance link
  hands := by
    intro link absent taken
    apply step.hands link absent
    by_contra none
    have zero := link_settle_eq_zero link after (by omega)
    omega
  drafts := by
    intro text
    rw [duty_settle]
    exact step.drafts text
  copies := by
    intro link text
    rw [duty_settle]
    exact step.copies link text
  calm := by
    intro duty
    rw [duty_settle]
    exact step.calm duty

theorem Ordinary.recode {code : List Instr}
    (refs : ∀ link, occurrences Instr.duty (.ref link) after ≤
      occurrences Instr.duty (.ref link) code)
    (hands : ∀ link, occurrences Instr.link link code = 0 →
      0 < occurrences Instr.link link after → Obtainable table pool link)
    (drafts : ∀ text, occurrences Instr.duty (.text text) after ≤
      occurrences Instr.duty (.text text) code ∨
        occurrences Instr.duty (.text text) after ≤ 1 ∧
          Draftable table pool text)
    (copies : ∀ link text,
      0 < occurrences Instr.duty (.copyText link text) after →
      0 < occurrences Instr.duty (.copyText link text) code ∨
        (table.links.block link).text = text)
    (calm : ∀ duty, duty.destroys ≠ none →
      occurrences Instr.duty duty code = 0 ∧
        occurrences Instr.duty duty after = 0) :
    Ordinary pool table table code after where
  pid_max := rfl
  links := rfl
  frees := rfl
  text := fun _ => rfl
  texts := rfl
  misuse := rfl
  counts := fun _ _ => rfl
  balance := by
    intro link
    have fewer := refs link
    omega
  hands := hands
  drafts := drafts
  copies := copies
  calm := calm

theorem Safe.quiet (safe : Safe table pool)
    (listed : pool[index]? = some (instr :: rest))
    (free : instr.duty = none)
    (duties : ∀ duty, occurrences Instr.duty duty after =
      occurrences Instr.duty duty rest)
    (hands : ∀ link, occurrences Instr.link link (instr :: rest) = 0 →
      0 < occurrences Instr.link link after → Obtainable table pool link) :
    Safe table (pool.set index (settle after)) := by
  have before : ∀ duty, occurrences Instr.duty duty (instr :: rest) =
      occurrences Instr.duty duty rest := by
    intro duty
    rw [occurrences_cons, free, holds_none, Nat.zero_add]
  apply safe.ordinary listed
  apply Ordinary.settled
  apply Ordinary.recode
  · intro link
    rw [duties, before]
  · exact hands
  · intro text
    left
    rw [duties, before]
  · intro link text
    rw [duties, before]
    exact Or.inl
  · intro duty destroys
    rw [duties, before]
    have none := safe.calm_rest listed destroys
    exact ⟨none, none⟩

theorem Safe.silent (safe : Safe table pool)
    (listed : pool[index]? = some (instr :: rest))
    (free : instr.duty = none)
    (duties : ∀ duty, occurrences Instr.duty duty after =
      occurrences Instr.duty duty rest)
    (hands : ∀ link, occurrences Instr.link link after ≤
      occurrences Instr.link link (instr :: rest)) :
    Safe table (pool.set index (settle after)) := by
  apply safe.quiet listed free duties
  intro link absent taken
  have bound := hands link
  omega

end Quiet

end Chos.Kernel
