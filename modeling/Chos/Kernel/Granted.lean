import Chos.Kernel.MemorySafety

/-!
# What concurrent readers see

The text of a link is written once, before the link exists, and only after
`write_setchos` has found it to be the root path or on the list.  Whatever the
processes do at the same time, a reader therefore copies a text that some
process was allowed to set, as long as nothing is freed under its hands.
-/

namespace Chos.Kernel

open Chos.Library

/-- The text that an instruction accepts for a link to come. -/
def Shared.grants (shared : Shared) : Instr → Option Text
  | .setchos buf count outcome =>
      if outcome.textAlloc = true ∧
          (isRootPath (copied buf count) ∨
            isValidPath (copied buf count) shared.valid_paths) then
        some (copied buf count)
      else none
  | _ => none

/-- Every text of a link, and every text that waits for one, was granted. -/
structure Vouched (granted : Text → Prop) (table : Table)
    (pool : List (List Instr)) : Prop where
  linked : ∀ link < table.links.next, granted (table.textOf link)
  drafted : ∀ text, 0 < pending pool (.text text) →
    granted (table.texts.block text)

/-- No link and no text has come or changed. -/
structure SameTexts (table next : Table) : Prop where
  links : next.links.next = table.links.next
  text : ∀ link,
    (next.links.block link).text = (table.links.block link).text
  content : next.texts.block = table.texts.block

namespace SameTexts

variable {table : Table} {link : LinkId}

theorem refl (table : Table) : SameTexts table table :=
  ⟨rfl, fun _ => rfl, rfl⟩

theorem of_blocks {next : Table}
    (links : next.links.next = table.links.next)
    (block : next.links.block = table.links.block)
    (content : next.texts.block = table.texts.block) :
    SameTexts table next := by
  refine ⟨links, ?_, content⟩
  intro link
  rw [block]

theorem recount (change : Int → Int) :
    SameTexts table
      { table.touchLink link with
        links := table.links.modify link fun cell =>
          { cell with count := change cell.count } } := by
  refine ⟨rfl, ?_, rfl⟩
  intro other
  by_cases same : other = link
  · rw [same]
    simp
  · simp [Heap.modify_block_of_ne same]

theorem textOf {next : Table} (same : SameTexts table next)
    (link : LinkId) : next.textOf link = table.textOf link := by
  rw [Table.textOf, Table.textOf, same.text, same.content]

end SameTexts

section Steps

variable {granted : Text → Prop} {shared next : Shared}
  {pool : List (List Instr)} {index me : Nat} {current : Task}
  {instr : Instr} {rest after : List Instr}

theorem pending_text_set (listed : pool[index]? = some (instr :: rest))
    (text : TextId) :
    pending (pool.set index (settle after)) (.text text) +
        holds instr.duty (.text text) +
        occurrences Instr.duty (.text text) rest =
      pending pool (.text text) +
        occurrences Instr.duty (.text text) after := by
  have moved := @pooled_set _ _ _ Instr.duty (.text text) _ _ _ listed
    (settle after)
  rw [duty_settle, occurrences_cons] at moved
  rw [pending, pending]
  omega

theorem Vouched.keep {table changed : Table}
    (vouched : Vouched granted table pool)
    (listed : pool[index]? = some (instr :: rest))
    (same : SameTexts table changed)
    (fewer : ∀ text, occurrences Instr.duty (.text text) after ≤
      occurrences Instr.duty (.text text) rest) :
    Vouched granted changed (pool.set index (settle after)) := by
  constructor
  · intro link below
    rw [same.textOf]
    rw [same.links] at below
    exact vouched.linked link below
  · intro text waiting
    rw [same.content]
    apply vouched.drafted
    have moved := @pending_text_set _ _ _ _ after listed text
    have bound := fewer text
    omega

/-- The text is stored before the link that points to it exists. -/
theorem Vouched.createLink {table : Table} {text : TextId}
    {allocated : Bool} (vouched : Vouched granted table pool)
    (listed : pool[index]? = some (.createLink text allocated :: rest)) :
    Vouched granted (Kernel.createLink text allocated table).2
      (pool.set index (settle
        (returning (Kernel.createLink text allocated table).1 rest))) := by
  have drafted : ∀ other,
      0 < pending (pool.set index (settle (returning
        (Kernel.createLink text allocated table).1 rest))) (.text other) →
      granted (table.texts.block other) := by
    intro other waiting
    apply vouched.drafted
    have moved := @pending_text_set _ _ _ _
      (returning (Kernel.createLink text allocated table).1 rest) listed
      other
    rw [duty_returning] at moved
    omega
  cases allocated with
  | false => exact ⟨vouched.linked, drafted⟩
  | true =>
      refine ⟨?_, drafted⟩
      intro link below
      by_cases new : link = table.links.next
      · have fresh : (Kernel.createLink text true table).2.textOf link =
            table.texts.block text := by
          rw [new]
          simp [Kernel.createLink, Table.textOf]
        rw [fresh]
        exact vouched.drafted text (pending_pos listed rfl)
      · have older : (Kernel.createLink text true table).2.textOf link =
            table.textOf link := by
          simp [Kernel.createLink, Table.textOf,
            Heap.alloc_block_of_ne new]
        rw [older]
        apply vouched.linked
        have bound : link < table.links.next + 1 := below
        omega

theorem Vouched.setchos {buf : List UInt8} {count : Nat}
    {outcome : SetchosOutcome} (safe : Safe shared.table pool)
    (vouched : Vouched granted shared.table pool)
    (listed : pool[index]? = some (.setchos buf count outcome :: rest))
    (grants : ∀ text,
      shared.grants (.setchos buf count outcome) = some text →
        granted text) :
    Vouched granted
      (shared.performSetchos current rest buf count outcome).1.table
      (pool.set index (settle
        (shared.performSetchos current rest buf count outcome).2)) := by
  -- what was there is not what the new buffer overwrites
  have older : ∀ text < shared.table.texts.next,
      (shared.table.allocText (copied buf count)).2.texts.block text =
        shared.table.texts.block text := by
    intro text below
    exact Heap.alloc_block_of_ne (Nat.ne_of_lt below)
  have linked : ∀ link < shared.table.links.next,
      granted ((shared.table.allocText (copied buf count)).2.textOf
        link) := by
    intro link below
    have same := older _ (safe.linked link below)
    rw [Table.textOf]
    exact same ▸ vouched.linked link below
  have drafted : ∀ text, 0 < pending pool (.text text) →
      granted ((shared.table.allocText (copied buf count)).2.texts.block
        text) := by
    intro text waiting
    rw [older text (safe.unlinked text waiting).1]
    exact vouched.drafted text waiting
  cases allocated : outcome.textAlloc with
  | false =>
      simp only [Shared.performSetchos, allocated, Bool.false_eq_true,
        if_false]
      exact vouched.keep listed (.refl _) fun _ => Nat.le_refl _
  | true =>
      by_cases accepted : isRootPath (copied buf count) = true ∨
          isValidPath (copied buf count) shared.valid_paths = true
      · simp only [Shared.performSetchos, allocated, if_true, accepted]
        refine ⟨linked, ?_⟩
        intro text waiting
        by_cases new : text = shared.table.texts.next
        · have content : (shared.table.allocText
              (copied buf count)).2.texts.block text =
              copied buf count := by
            rw [new]
            exact Heap.alloc_block_self _ _
          have given : granted (copied buf count) := by
            apply grants
            simp [Shared.grants, allocated, accepted]
          change granted ((shared.table.allocText
            (copied buf count)).2.texts.block text)
          rw [content]
          exact given
        · apply drafted
          have moved := @pending_text_set _ _ _ _
            (sweeping ++ .createLink shared.table.texts.next
              outcome.linkAlloc :: .assign current :: rest) listed text
          have other : holds (some (Duty.text shared.table.texts.next))
              (.text text) = 0 :=
            holds_of_ne fun equal => new (Duty.text.inj equal).symm
          simp only [sweeping, List.cons_append, List.nil_append,
            occurrences_cons, Instr.duty, holds_none, other] at moved
          change 0 < pending (pool.set index (settle (sweeping ++
            .createLink shared.table.texts.next outcome.linkAlloc ::
              .assign current :: rest))) (.text text) at waiting
          simp only [sweeping, List.cons_append, List.nil_append]
            at waiting
          omega
      · simp only [Shared.performSetchos, allocated, if_true, accepted,
          if_false]
        refine ⟨linked, ?_⟩
        intro text waiting
        apply drafted
        have moved := @pending_text_set _ _ _ _ rest listed text
        omega

/-- An instruction that neither allocates a text nor a link. -/
theorem sameTexts_of_perform
    (performed : shared.perform me current rest instr =
      some (next, after))
    (noText : ∀ buf count outcome, instr ≠ .setchos buf count outcome)
    (noLink : ∀ text allocated, instr ≠ .createLink text allocated) :
    SameTexts shared.table next.table ∧
      ∀ text, occurrences Instr.duty (.text text) after ≤
        occurrences Instr.duty (.text text) rest := by
  cases instr with
  | setchos buf count outcome => exact absurd rfl (noText buf count outcome)
  | createLink text allocated => exact absurd rfl (noLink text allocated)
  | lookup task =>
      cases task with
      | none =>
          cases performed
          refine ⟨.refl _, ?_⟩
          intro text
          rw [duty_returning]
      | some task =>
          simp only [Shared.perform, Shared.performLookup] at performed
          split at performed
          · cases performed
            refine ⟨.refl _, ?_⟩
            intro text
            rw [duty_returning]
          split at performed
          · cases performed
          split at performed
          · cases performed
          split at performed
          · cases performed
            refine ⟨.refl _, ?_⟩
            intro text
            simp [Instr.duty]
          · cases performed
            refine ⟨.refl _, ?_⟩
            intro text
            rw [duty_returning]
  | setCheck link task =>
      have free : ∀ text, holds (setting link task).duty (.text text) = 0 := by
        intro text
        cases link with
        | none => rfl
        | some link => rfl
      simp only [Shared.perform, Shared.performSetCheck] at performed
      split at performed
      · cases performed
      split at performed
      · cases performed
      split at performed
      · cases performed
        refine ⟨.refl _, ?_⟩
        intro text
        rw [occurrences_cons, occurrences_cons, free]
        simp [Instr.duty]
      · cases performed
        refine ⟨.refl _, ?_⟩
        intro text
        rw [occurrences_cons, free, Nat.zero_add]
  | setInc link task =>
      cases performed
      refine ⟨.recount (· + 1), ?_⟩
      intro text
      simp [Instr.duty, holds]
  | setStore link task =>
      cases performed
      exact ⟨.of_blocks rfl rfl rfl, fun _ => Nat.le_refl _⟩
  | resetSwap slot =>
      simp only [Shared.perform, Shared.performResetSwap] at performed
      split at performed
      · cases performed
      split at performed
      · cases performed
        refine ⟨.of_blocks rfl rfl rfl, ?_⟩
        intro text
        simp [Instr.duty, holds]
      · cases performed
        exact ⟨.of_blocks rfl rfl rfl, fun _ => Nat.le_refl _⟩
  | dec link =>
      cases performed
      refine ⟨.recount (· - 1), ?_⟩
      intro text
      simp [Instr.duty]
  | readCount link =>
      cases performed
      refine ⟨.of_blocks rfl rfl rfl, ?_⟩
      intro text
      split
      · simp [Instr.duty]
      · exact Nat.le_refl _
  | destroyRead link =>
      cases performed
      refine ⟨.of_blocks rfl rfl rfl, ?_⟩
      intro text
      split
      · simp [Instr.duty, holds]
      · exact Nat.le_refl _
  | loadText link =>
      cases performed
      refine ⟨.of_blocks rfl rfl rfl, ?_⟩
      intro text
      simp [Instr.duty, holds]
  | kfreeText link text =>
      cases performed
      refine ⟨.of_blocks rfl rfl rfl, ?_⟩
      intro other
      simp [Instr.duty, holds]
  | kfreeLink link =>
      cases performed
      exact ⟨.of_blocks rfl rfl rfl, fun _ => Nat.le_refl _⟩
  | lockTasks =>
      simp only [Shared.perform] at performed
      split at performed
      · cases performed
        exact ⟨.refl _, fun _ => Nat.le_refl _⟩
      · cases performed
  | sweep slot =>
      cases performed
      refine ⟨.refl _, ?_⟩
      intro text
      rw [Shared.performSweep]
      split
      · split
        · simp [Instr.duty]
        · simp [Instr.duty]
      · exact Nat.le_refl _
  | unlockTasks =>
      cases performed
      exact ⟨.refl _, fun _ => Nat.le_refl _⟩
  | readText link =>
      cases performed
      refine ⟨.of_blocks rfl rfl rfl, ?_⟩
      intro text
      simp [Instr.duty, holds]
  | copyText link text =>
      cases performed
      exact ⟨.of_blocks rfl rfl rfl, fun _ => Nat.le_refl _⟩
  | doFork parent_link new =>
      simp only [Shared.perform] at performed
      split at performed
      · cases new with
        | none =>
            cases performed
            refine ⟨.refl _, ?_⟩
            intro text
            simp [Instr.duty]
        | some new =>
            simp only [Shared.performDoFork] at performed
            split at performed
            · cases performed
            split at performed
            · cases performed
            split at performed
            · cases performed
              refine ⟨.refl _, ?_⟩
              intro text
              simp [Instr.duty]
            · cases performed
      · cases performed
  | findChild parent_link nr =>
      simp only [Shared.perform] at performed
      split at performed
      · split at performed
        · cases performed
          refine ⟨.refl _, ?_⟩
          intro text
          simp [Instr.duty]
        · cases performed
          exact ⟨.refl _, fun _ => Nat.le_refl _⟩
      · cases performed
  | climbed task => cases performed
  | returns link => cases performed
  | assign task => cases performed
  | readlink => cases performed
  | forked new => cases performed

theorem Vouched.perform (safe : Safe shared.table pool)
    (vouched : Vouched granted shared.table pool)
    (listed : pool[index]? = some (instr :: rest))
    (grants : ∀ text, shared.grants instr = some text → granted text)
    (performed : shared.perform me current rest instr =
      some (next, after)) :
    Vouched granted next.table (pool.set index (settle after)) := by
  by_cases writes : ∃ buf count outcome, instr = .setchos buf count outcome
  · obtain ⟨buf, count, outcome, rfl⟩ := writes
    have result := Option.some.inj performed
    have kept := @Vouched.setchos _ _ _ _ current _ _ _ _ safe vouched
      listed grants
    rw [result] at kept
    exact kept
  · by_cases creates : ∃ text allocated, instr = .createLink text allocated
    · obtain ⟨text, allocated, rfl⟩ := creates
      cases performed
      exact vouched.createLink listed
    · simp only [not_exists] at writes creates
      obtain ⟨same, fewer⟩ := sameTexts_of_perform performed writes creates
      exact vouched.keep listed same fewer

end Steps

namespace Conc

variable {state next start : Conc}

def ahead (state : Conc) (index : Nat) : Option Instr :=
  state.pool[index]?.bind List.head?

/-- The event is the step of `write_setchos` that accepts the text. -/
def Grants (state : Conc) (text : Text) : ConcEvent → Prop
  | .advance index =>
      ∃ instr ∈ state.ahead index, state.shared.grants instr = some text
  | _ => False

/-- Some step of the run has accepted the text. -/
def Granted (start : Conc) (events : List ConcEvent) (text : Text) : Prop :=
  ∃ earlier event later state,
    events = earlier ++ event :: later ∧
      run Conc.step start earlier = some state ∧ state.Grants text event

theorem Granted.snoc {events : List ConcEvent} {text : Text}
    (granted : Granted start events text) (event : ConcEvent) :
    Granted start (events ++ [event]) text := by
  obtain ⟨earlier, grant, later, state, rfl, reached, grants⟩ := granted
  refine ⟨earlier, grant, later ++ [event], state, ?_, reached, grants⟩
  simp

theorem ahead_of_listed {index : Nat} {instr : Instr} {rest : List Instr}
    (listed : state.pool[index]? = some (instr :: rest)) :
    state.ahead index = some instr := by
  rw [ahead, listed]
  rfl

theorem listed_of_ahead {index : Nat} {instr : Instr}
    (next : state.ahead index = some instr) :
    ∃ rest, state.pool[index]? = some (instr :: rest) := by
  obtain ⟨code, listed, first⟩ := Option.bind_eq_some_iff.mp next
  obtain ⟨rest, rfl⟩ := List.head?_eq_some_iff.mp first
  exact ⟨rest, listed⟩

theorem vouched_step {granted : Text → Prop} {event : ConcEvent}
    (safe : Safe state.shared.table state.pool)
    (vouched : Vouched granted state.shared.table state.pool)
    (grants : ∀ text, state.Grants text event → granted text)
    (taken : state.step event = some next) :
    Vouched granted next.shared.table next.pool := by
  cases event with
  | advance index =>
      simp only [step, advance] at taken
      split at taken
      · cases taken
      rename_i thread listed
      split at taken
      · rename_i current instr rest _ code
        obtain ⟨⟨shared, after⟩, performed, rfl⟩ :=
          Option.map_eq_some_iff.mp taken
        have pooled := pool_getElem? listed
        rw [code] at pooled
        rw [pool, List.map_set]
        apply vouched.perform safe pooled _ performed
        intro text given
        exact grants text ⟨instr, ahead_of_listed pooled, given⟩
      · cases taken
  | call pid call =>
      simp only [step, Conc.call] at taken
      split at taken
      · cases taken
      rename_i current _
      split at taken
      · cases taken
        refine ⟨vouched.linked, ?_⟩
        intro text waiting
        apply vouched.drafted
        rw [pool, List.map_append] at waiting
        have counted : pending
            (state.threads.map Thread.code ++ [call.code current])
              (.text text) = pending state.pool (.text text) := by
          rw [pending, pooled_concat, (code_idle call current).2]
          rfl
        exact counted ▸ waiting
      · cases taken
  | exit pid =>
      simp only [step] at taken
      split at taken
      · cases taken
        exact vouched
      · cases taken
  | writeValid euid buf count outcome =>
      cases taken
      exact vouched

theorem vouched_of_run {pid_max : Nat} {tree : ProcTree}
    {events : List ConcEvent}
    (unshared : Along Conc.step Conc.Unshared (.init pid_max tree) events)
    (reached : run Conc.step (.init pid_max tree) events = some state) :
    Safe state.shared.table state.pool ∧
      Vouched (Granted (.init pid_max tree) events) state.shared.table
        state.pool := by
  refine @run_history _ _ _ _ _ _
    (fun past (state : Conc) => Safe state.shared.table state.pool ∧
      Vouched (Granted (.init pid_max tree) past) state.shared.table
        state.pool) ?_ _ reached unshared ?_
  · intro past middle event after before ⟨safe, vouched⟩ permitted taken
    refine ⟨safe_step safe permitted taken, ?_⟩
    apply vouched_step safe _ _ taken
    · constructor
      · intro link below
        exact (vouched.linked link below).snoc event
      · intro text waiting
        exact (vouched.drafted text waiting).snoc event
    · intro text grants
      exact ⟨past, event, [], middle, rfl, before, grants⟩
  · refine ⟨Safe.init pid_max, ?_, ?_⟩
    · intro link impossible
      cases impossible
    · intro text impossible
      cases impossible

/-- Whatever the processes do at the same time, a reader that is about to
copy a text copies it from memory that has not been freed, and a process was
allowed to set this text earlier in the run: at that step it was the root
path, or on the list. -/
theorem copied_text_granted (pid_max : Nat) (tree : ProcTree)
    {events : List ConcEvent}
    (unshared : Along Conc.step Conc.Unshared (.init pid_max tree) events)
    (reached : run Conc.step (.init pid_max tree) events = some state)
    {index : Nat} {link : LinkId} {text : TextId}
    (copies : state.ahead index = some (.copyText link text)) :
    state.shared.table.links.Live link ∧
      state.shared.table.texts.Live text ∧
      Granted (.init pid_max tree) events
        (state.shared.table.readText text).1 := by
  obtain ⟨safe, vouched⟩ := vouched_of_run unshared reached
  obtain ⟨rest, listed⟩ := listed_of_ahead copies
  have used : 0 < inHand state.pool link := Safe.inHand_pos listed rfl
  have known := safe.known link used
  have copied := safe.copied link text (pending_pos listed rfl)
  have whole : pending state.pool (.kfreeLink link) = 0 := by
    apply safe.spared listed rfl _ rfl
    intro duty destroys
    apply holds_of_ne
    rintro rfl
    exact destroys rfl
  have live := safe.text_frees_eq_zero used whole
  refine ⟨⟨known, safe.frees_eq_zero used⟩, ?_, ?_⟩
  · rw [← copied]
    exact ⟨safe.linked link known, live⟩
  · have granted := vouched.linked link known
    rw [Table.textOf, copied] at granted
    exact granted

theorem copied_text_granted_inherited :
    ∃ state, run Conc.step (.init 4 .boot)
        (twoHolders ++ [.call 3 .readlink, .advance 3, .advance 3,
          .call 2 .resetchos, .advance 4, .advance 4]) = some state ∧
      state.ahead 3 = some (.copyText 0 0) ∧
      (state.shared.table.readText 0).1 = [47, 97] ∧
      state.shared.table.links.Live 0 ∧ state.shared.table.texts.Live 0 ∧
      Granted (.init 4 .boot)
        (twoHolders ++ [.call 3 .readlink, .advance 3, .advance 3,
          .call 2 .resetchos, .advance 4, .advance 4])
        (state.shared.table.readText 0).1 := by
  have ends : (run Conc.step (.init 4 .boot)
      (twoHolders ++ [.call 3 .readlink, .advance 3, .advance 3,
        .call 2 .resetchos, .advance 4, .advance 4])).any
      (fun state => state.ahead 3 = some (.copyText 0 0) ∧
        (state.shared.table.readText 0).1 = [47, 97]) = true := by
    decide +kernel
  obtain ⟨state, reached, facts⟩ := (Option.any_eq_true _ _).mp ends
  obtain ⟨copies, content⟩ := of_decide_eq_true facts
  exact ⟨state, reached, copies, content,
    copied_text_granted 4 .boot (by decide +kernel) reached copies⟩

end Conc

end Chos.Kernel
