import Chos.Kernel.Lifecycle

/-!
# The patch over the life of the module

The flag `fork_wrapped` lives in the struct that a save hands on, the bytes
it speaks about live in `jumper`, which is gone with the instance.  This file
determines the loads after which flag and kernel text disagree.
-/

namespace Chos.Kernel

open Chos.Library

theorem removeProcEntry_eq (entry : ProcEntry) (host : Host) :
    ∃ entries, removeProcEntry entry host =
      { host with entries := entries } := ⟨_, rfl⟩

theorem makeProcEntry_eq (outcome : LoadOutcome) (host : Host)
    (entry : ProcEntry) :
    ∃ entries, makeProcEntry outcome host entry =
      { host with entries := entries } := by
  rw [makeProcEntry]
  split
  · exact ⟨_, rfl⟩
  · exact ⟨_, rfl⟩

theorem foldl_entries
    {change : Host → ProcEntry → Host}
    (changes : ∀ host entry, ∃ entries,
      change host entry = { host with entries := entries })
    (host : Host) (names : List ProcEntry) :
    ∃ entries, names.foldl change host =
      { host with entries := entries } := by
  induction names generalizing host with
  | nil => exact ⟨host.entries, rfl⟩
  | cons name names induction =>
      obtain ⟨first, changed⟩ := changes host name
      obtain ⟨entries, rest⟩ := induction (change host name)
      refine ⟨entries, ?_⟩
      rw [List.foldl_cons, rest, changed]

/-- The proc entries do not touch the text or a struct, and the call fails
exactly when `proc_mkdir` does. -/
theorem makeProcEntries_eq
    {outcome : LoadOutcome} {host next : Host} {code : Int}
    (returned : makeProcEntries outcome host = some (code, next)) :
    (∃ entries, next = { host with entries := entries }) ∧
      code = if outcome.mkdir then 0 else -1 := by
  rw [makeProcEntries] at returned
  by_cases made : outcome.mkdir = true
  · simp only [made, not_true_eq_false, if_false] at returned
    obtain ⟨files, folded⟩ := foldl_entries (makeProcEntry_eq outcome)
      { host with entries := ProcEntry.chos :: host.entries }
      [.setchos, .resetchos, .savestate, .version, .valid]
    rw [folded] at returned
    obtain ⟨entries, linked⟩ := makeProcEntry_eq outcome
      { host with entries := files } .link
    rw [linked] at returned
    split at returned
    · cases returned
      exact ⟨⟨entries, rfl⟩, by simp [made]⟩
    · cases returned
  · simp only [made] at returned
    cases returned
    exact ⟨⟨host.entries, rfl⟩, by simp [made]⟩

/-- The structs that exist keep their content, and the log is not touched. -/
structure Host.Keeps (older newer : Host) : Prop where
  saved : newer.saved = older.saved
  next : older.structs.next ≤ newer.structs.next
  block : ∀ address < older.structs.next,
    newer.structs.block address = older.structs.block address

theorem Host.Keeps.refl (host : Host) : host.Keeps host where
  saved := rfl
  next := Nat.le_refl _
  block := by
    intro address _
    rfl

/-- Both allocations of `init_chos` succeed. -/
def LoadOutcome.Allocates (outcome : LoadOutcome) : Prop :=
  outcome.chosAlloc = true ∧ outcome.procsAlloc = true

instance (outcome : LoadOutcome) : Decidable outcome.Allocates :=
  inferInstanceAs (Decidable (_ ∧ _))

/-- What an `init_chos` without memory leaves behind. -/
structure GivenUp (host next : Host) : Prop where
  machine : next.machine = host.machine
  entries : next.entries = host.entries
  arrays : next.arrays = host.arrays
  keeps : host.Keeps next
  freed : ∀ address, host.structs.next ≤ address →
    ¬ next.structs.Live address

theorem buildChos_of_not_allocates
    {outcome : LoadOutcome} (failed : ¬ outcome.Allocates) (max : Int)
    (host : Host) :
    ∃ ch next, buildChos max outcome host = (-1, ch, next) ∧
      GivenUp host next := by
  by_cases allocated : outcome.chosAlloc = true
  · have short : ¬ outcome.procsAlloc = true :=
      fun succeeded => failed ⟨allocated, succeeded⟩
    simp only [buildChos, allocated, short, not_true_eq_false, if_false,
      Bool.false_eq_true, not_false_eq_true, if_true]
    refine ⟨_, _, rfl, rfl, rfl, rfl, ?_, ?_⟩
    · constructor
      · rfl
      · exact Nat.le_succ _
      · intro address below
        exact Heap.alloc_block_of_ne (Nat.ne_of_lt below)
    · intro address above live
      have same : address = host.structs.next :=
        Nat.le_antisymm (Nat.le_of_lt_succ live.1) above
      have freed := live.2
      subst same
      simp at freed
  · simp only [buildChos, allocated, Bool.false_eq_true, not_false_eq_true,
      if_true]
    exact ⟨_, _, rfl, rfl, rfl, rfl, .refl host,
      fun _ => Heap.not_live_of_next_le⟩

theorem initChos_of_not_allocates
    {outcome : LoadOutcome} (failed : ¬ outcome.Allocates)
    (config : Config) (image : Image) (max : Int) (jumper : Memory)
    (host : Host) :
    ∃ ch next,
      initChos config image max outcome jumper host =
        some (-1, ch, jumper, next) ∧ GivenUp host next := by
  obtain ⟨ch, next, built, givenUp⟩ :=
    buildChos_of_not_allocates failed max host
  refine ⟨ch, next, ?_, givenUp⟩
  simp [initChos, built]

/-- What `init_chos` has built when it comes to `init_do_fork`. -/
structure Built (max : Int) (host next : Host) : Prop where
  machine : next.machine = host.machine
  keeps : host.Keeps next
  live : next.structs.Live host.structs.next
  chos : next.structs.block host.structs.next =
    { magic := 0x1234
      version := 1
      pid_max := if max > 0 then max.toNat else pidMaxDefault
      procs := host.arrays.next
      fork_wrapped := 0 }
  procs : next.arrays.block host.arrays.next = fun _ => .initial

theorem buildChos_of_allocates
    {outcome : LoadOutcome} (allocates : outcome.Allocates) (max : Int)
    (host : Host) :
    ∃ next, buildChos max outcome host = (0, host.structs.next, next) ∧
      Built max host next := by
  obtain ⟨structAllocated, arrayAllocated⟩ := allocates
  simp only [buildChos, structAllocated, arrayAllocated, not_true_eq_false,
    if_false]
  refine ⟨_, rfl, ?_⟩
  constructor
  · rfl
  · constructor
    · rfl
    · exact Nat.le_succ _
    · intro address below
      have older := Nat.ne_of_lt below
      rw [Heap.modify_block_of_ne older, Heap.alloc_block_of_ne older]
  · simp [Heap.Live]
  · rw [Heap.modify_block_self]
  · exact Heap.alloc_block_self host.arrays _

theorem initChos_of_built {outcome : LoadOutcome} {max : Int} {ch : Nat}
    {host built : Host} (builds : buildChos max outcome host = (0, ch, built))
    (config : Config) (image : Image) (jumper : Memory) :
    initChos config image max outcome jumper host =
      (initDoFork config image jumper built.machine).map
        fun (code, jumper, machine) =>
          (0, ch, jumper, built.recordFork ch code machine) := by
  simp [initChos, builds]

namespace Host

variable (host : Host) (ch : Nat) (code : Int) (machine : Machine)

@[simp] theorem recordFork_next :
    (host.recordFork ch code machine).structs.next = host.structs.next := by
  by_cases zero : code = 0 <;> simp [recordFork, zero]

@[simp] theorem recordFork_frees :
    (host.recordFork ch code machine).structs.frees =
      host.structs.frees := by
  by_cases zero : code = 0 <;> simp [recordFork, zero]

theorem recordFork_block_self :
    (host.recordFork ch code machine).structs.block ch =
      { host.structs.block ch with
        fork_wrapped :=
          if code = 0 then 1 else (host.structs.block ch).fork_wrapped } := by
  by_cases zero : code = 0 <;> simp [recordFork, zero]

theorem recordFork_block_of_ne {ch other : Nat} (different : other ≠ ch) :
    (host.recordFork ch code machine).structs.block other =
      host.structs.block other := by
  by_cases zero : code = 0
  · simp [recordFork, zero, Heap.modify_block_of_ne different]
  · simp [recordFork, zero]

end Host

/-- A struct that `recover_chos` accepts and whose flag is one of the two
values the module stores. -/
structure ChosGlobal.Formed (chos : ChosGlobal) : Prop where
  magic : chos.magic = 0x1234
  version : chos.version = cdsv
  flag : chos.fork_wrapped = 0 ∨ chos.fork_wrapped = 1

structure Initialized (config : Config) (image : Image) (host : Host)
    (code : Int) (ch : Nat) (jumper : Memory) (next : Host) : Prop where
  returned : code = 0
  keeps : host.Keeps next
  allocated : ch < next.structs.next
  formed : (next.structs.block ch).Formed
  flag : (next.structs.block ch).fork_wrapped = 1 ↔
    Patches config image host.machine
  copied : Patches config image host.machine →
    loadBytes jumper 0 config.length = patchedBytes config host.machine.text
  hooked : Patches config image host.machine →
    next.machine.text = hookedText config image host.machine.text
  plain : ¬ Patches config image host.machine →
    next.machine.text = host.machine.text

theorem initChos_of_allocates
    {outcome : LoadOutcome} (allocates : outcome.Allocates)
    {config : Config} {image : Image} {max : Int} {jumper saved : Memory}
    {host next : Host} {code : Int} {ch : Nat}
    (returned : initChos config image max outcome jumper host =
      some (code, ch, saved, next)) :
    Initialized config image host code ch saved next := by
  obtain ⟨built, builds, facts⟩ := buildChos_of_allocates allocates max host
  rw [initChos_of_built builds, facts.machine, Option.map_eq_some_iff]
    at returned
  obtain ⟨⟨forked, filled, patched⟩, patching, same⟩ := returned
  cases same
  have flag := initDoFork_eq_zero_iff patching
  have outcomes := initDoFork_cases patching
  have block := built.recordFork_block_self host.structs.next forked patched
  rw [facts.chos] at block
  constructor
  · rfl
  · constructor
    · exact facts.keeps.saved
    · rw [Host.recordFork_next]
      exact facts.keeps.next
    · intro address below
      rw [Host.recordFork_block_of_ne _ _ _ (Nat.ne_of_lt below)]
      exact facts.keeps.block address below
  · rw [Host.recordFork_next]
    exact facts.live.1
  · rw [block]
    refine ⟨rfl, rfl, ?_⟩
    by_cases zero : forked = 0 <;> simp [zero]
  · rw [block, ← flag]
    simp
  · intro patches
    obtain ⟨_, _, rfl, _⟩ := outcomes.resolve_right fun failed =>
      failed.1 patches
    exact loadBytes_filledJumper _ _ _ _
  · intro patches
    obtain ⟨_, _, _, rfl⟩ := outcomes.resolve_right fun failed =>
      failed.1 patches
    rfl
  · intro failed
    exact (outcomes.resolve_left fun installed =>
      failed installed.1).2.2

theorem recoverChos_of_formed
    {host : Host} {table : Nat}
    (formed : (host.structs.block table).Formed) :
    recoverChos table host = 0 := by
  simp [recoverChos, formed.magic, formed.version]

/-- What an unload leaves behind; freeing the struct keeps its content. -/
structure Unloaded (config : Config) (loaded : Module) (host next : Host) :
    Prop where
  unpatched : (host.structs.block loaded.ch).fork_wrapped ≠ 0 →
    patchedBytes config next.machine.text =
      loadBytes loaded.jumper 0 config.length
  untouched : (host.structs.block loaded.ch).fork_wrapped = 0 →
    next.machine = host.machine
  block : next.structs.block = host.structs.block
  bound : next.structs.next = host.structs.next
  saved : ∀ address ∈ next.saved,
    address = loaded.ch ∨ address ∈ host.saved

theorem cleanupModule_unloaded
    {config : Config} {loaded : Module} {host next : Host}
    (returned : cleanupModule config loaded host = some next) :
    Unloaded config loaded host next := by
  obtain ⟨machine, unpatched, rest⟩ := Option.map_eq_some_iff.mp returned
  obtain ⟨entries, folded⟩ := foldl_entries
    (fun host entry => removeProcEntry_eq entry host)
    { host with machine := machine }
    [.setchos, .resetchos, .version, .savestate, .link, .valid, .chos]
  simp only [folded] at rest
  have sameMachine : next.machine = machine := by
    rw [← rest]
    split
    · rfl
    · rfl
  constructor
  · intro flag
    rw [if_pos flag] at unpatched
    obtain ⟨_, rfl⟩ := cleanupDoFork_eq_some_iff.mp unpatched
    rw [sameMachine]
    exact patchedBytes_storeBytes _ _ _
  · intro flag
    rw [if_neg (not_not_intro flag)] at unpatched
    rw [sameMachine]
    exact (Option.some.inj unpatched).symm
  · rw [← rest]
    split
    · rfl
    · rfl
  · rw [← rest]
    split
    · rfl
    · rfl
  · rw [← rest]
    split
    · exact fun _ member => Or.inr member
    · exact fun _ member => List.mem_cons.mp member

/-- The flag of a loaded instance says whether `do_fork` leads into it, and
without an instance `do_fork` is the original one. -/
def Host.Consistent (config : Config) (original : Memory) (host : Host) :
    Option Module → Prop
  | some loaded =>
      (host.structs.block loaded.ch).fork_wrapped = 1 ↔
        forkTarget config host.machine.text =
          some loaded.image.chos_do_fork
  | none =>
      patchedBytes config host.machine.text = patchedBytes config original

def Life.Consistent (config : Config) (original : Memory) (life : Life) :
    Prop := life.host.Consistent config original life.loaded

instance (config : Config) (original : Memory) (host : Host) :
    ∀ loaded, Decidable (host.Consistent config original loaded)
  | some _ => inferInstanceAs (Decidable (_ ↔ _))
  | none => inferInstanceAs (Decidable (_ = _))

instance (config : Config) (original : Memory) (life : Life) :
    Decidable (life.Consistent config original) :=
  inferInstanceAs (Decidable (life.host.Consistent _ _ _))

/-- A fresh load that patched `do_fork` goes on to succeed, and a struct with
the flag set is not taken over by a load that succeeds. -/
def Life.Keeps (config : Config) (life : Life) : LifeEvent → Prop
  | .load image none _ outcome =>
      outcome.Allocates ∧ Patches config image life.host.machine →
        outcome.mkdir = true
  | .load _ (some table) _ outcome =>
      (life.host.structs.block table).fork_wrapped = 1 →
        outcome.mkdir = false
  | .savestate _ => True
  | .unload => True

instance (config : Config) (life : Life) :
    ∀ event, Decidable (life.Keeps config event)
  | .load _ none _ _ => inferInstanceAs (Decidable (_ → _))
  | .load _ (some _) _ _ => inferInstanceAs (Decidable (_ → _))
  | .savestate _ => .isTrue trivial
  | .unload => .isTrue trivial

def LifeEvent.Placed (config : Config) (original : Memory) :
    LifeEvent → Prop
  | .load image _ _ _ => Kernel.Placed config original image
  | .savestate _ => True
  | .unload => True

instance (config : Config) (original : Memory) :
    ∀ event, Decidable (LifeEvent.Placed config original event)
  | .load _ _ _ _ => inferInstanceAs (Decidable (Kernel.Placed _ _ _))
  | .savestate _ => .isTrue trivial
  | .unload => .isTrue trivial

/-- A loaded instance whose flag, text and `jumper` belong together. -/
structure Module.Sound (config : Config) (original : Memory) (host : Host)
    (loaded : Module) : Prop where
  allocated : loaded.ch < host.structs.next
  formed : (host.structs.block loaded.ch).Formed
  placed : Placed config original loaded.image
  wrapped : (host.structs.block loaded.ch).fork_wrapped = 1 →
    forkTarget config host.machine.text = some loaded.image.chos_do_fork ∧
      loadBytes loaded.jumper 0 config.length = patchedBytes config original
  plain : (host.structs.block loaded.ch).fork_wrapped = 0 →
    patchedBytes config host.machine.text = patchedBytes config original

/-- The invariant of the runs in which flag and text agree. -/
structure Life.Sound (config : Config) (original : Memory) (life : Life) :
    Prop where
  saved : ∀ address ∈ life.host.saved,
    address < life.host.structs.next ∧
      (life.host.structs.block address).Formed
  loaded : ∀ loaded, life.loaded = some loaded →
    loaded.Sound config original life.host
  unloaded : life.loaded = none →
    patchedBytes config life.host.machine.text = patchedBytes config original

theorem Host.Keeps.saved_formed
    {older newer : Host} (keeps : older.Keeps newer)
    (formed : ∀ address ∈ older.saved, address < older.structs.next ∧
      (older.structs.block address).Formed) :
    ∀ address ∈ newer.saved, address < newer.structs.next ∧
      (newer.structs.block address).Formed := by
  intro address member
  rw [keeps.saved] at member
  obtain ⟨below, content⟩ := formed address member
  refine ⟨Nat.lt_of_lt_of_le below keeps.next, ?_⟩
  rw [keeps.block address below]
  exact content

/-- Code that is still the original one leads to no instance. -/
theorem Placed.not_target
    {config : Config} {original memory : Memory} {image : Image}
    (placed : Placed config original image)
    (same : patchedBytes config memory = patchedBytes config original) :
    forkTarget config memory ≠ some image.chos_do_fork := by
  rw [forkTarget_congr same]
  exact placed.foreign

theorem Life.Sound.consistent
    {config : Config} {original : Memory} {life : Life}
    (sound : life.Sound config original) :
    life.Consistent config original := by
  rw [Life.Consistent]
  cases isLoaded : life.loaded with
  | none => exact sound.unloaded isLoaded
  | some loaded =>
      have belongs := sound.loaded loaded isLoaded
      constructor
      · intro flag
        exact (belongs.wrapped flag).1
      · intro target
        rcases belongs.formed.flag with plain | flag
        · exact absurd target
            (belongs.placed.not_target (belongs.plain plain))
        · exact flag

/-- The outcomes of a load in a state without an instance. -/
theorem Life.load_cases
    {config : Config} {life next : Life} {image : Image}
    {table : Option Nat} {max : Int} {outcome : LoadOutcome}
    (taken : life.step config (.load image table max outcome) = some next) :
    life.loaded = none ∧ life.host.Offers table ∧
      ∃ code ch jumper host,
        obtainChos config image table max outcome (fun _ => 0) life.host =
          some (code, ch, jumper, host) ∧
        ((code ≠ 0 ∧ next = { host := host, loaded := none }) ∨
          (code = 0 ∧ ∃ entries, next =
            { host := { host with entries := entries }
              loaded :=
                if outcome.mkdir then some ⟨image, ch, jumper, 0⟩
                else none })) := by
  simp only [Life.step] at taken
  split at taken
  · cases taken
  · rename_i isUnloaded
    split at taken
    · rename_i offers
      refine ⟨isUnloaded, offers, ?_⟩
      obtain ⟨⟨made, loaded, after⟩, initialized, rfl⟩ :=
        Option.map_eq_some_iff.mp taken
      simp only [initModule, bind, Option.bind_eq_some_iff] at initialized
      obtain ⟨⟨code, ch, jumper, host⟩, obtained, initialized⟩ := initialized
      refine ⟨code, ch, jumper, host, obtained, ?_⟩
      by_cases failed : code = 0
      · right
        simp only [failed, ne_eq, not_true_eq_false, if_false,
          Option.map_eq_some_iff] at initialized
        obtain ⟨⟨made, after⟩, returned, same⟩ := initialized
        cases same
        obtain ⟨⟨entries, rfl⟩, rfl⟩ := makeProcEntries_eq returned
        refine ⟨failed, entries, ?_⟩
        cases outcome.mkdir with
        | true => rfl
        | false => rfl
      · left
        simp only [failed, ne_eq, not_false_eq_true, if_true, pure,
          Option.some.injEq, Prod.mk.injEq] at initialized
        obtain ⟨rfl, rfl, rfl⟩ := initialized
        exact ⟨failed, rfl⟩
    · cases taken

variable {config : Config} {original : Memory} {life next : Life}

theorem writeSavestate_eq (buf : List UInt8) (loaded : Module) :
    ∃ value, writeSavestate buf loaded =
      { loaded with save_state := value } := by
  rw [writeSavestate]
  split
  · split
    · exact ⟨1, rfl⟩
    · exact ⟨0, rfl⟩
  · exact ⟨loaded.save_state, rfl⟩

theorem Life.Sound.savestate
    {buf : List UInt8} (sound : life.Sound config original)
    (taken : life.step config (.savestate buf) = some next) :
    next.Sound config original := by
  obtain ⟨loaded, isLoaded, rfl⟩ := Option.map_eq_some_iff.mp taken
  obtain ⟨value, written⟩ := writeSavestate_eq buf loaded
  have belongs := sound.loaded loaded isLoaded
  constructor
  · exact sound.saved
  · intro other isOther
    cases isOther
    rw [written]
    exact ⟨belongs.allocated, belongs.formed, belongs.placed,
      belongs.wrapped, belongs.plain⟩
  · intro impossible
    cases impossible

/-- Unloading a sound instance puts the original code back. -/
theorem Life.Sound.unload
    (sound : life.Sound config original)
    (taken : life.step config .unload = some next) :
    next.Sound config original := by
  simp only [Life.step, bind, Option.bind_eq_some_iff, pure,
    Option.some.injEq] at taken
  obtain ⟨loaded, isLoaded, host, returned, rfl⟩ := taken
  have belongs := sound.loaded loaded isLoaded
  have left := cleanupModule_unloaded returned
  constructor
  · intro address member
    rw [left.bound, left.block]
    rcases left.saved address member with rfl | earlier
    · exact ⟨belongs.allocated, belongs.formed⟩
    · exact sound.saved address earlier
  · intro other impossible
    cases impossible
  · intro _
    rcases belongs.formed.flag with plain | flag
    · rw [left.untouched plain]
      exact belongs.plain plain
    · rw [left.unpatched (by simp [flag])]
      exact (belongs.wrapped flag).2

theorem Life.Sound.fresh
    {image : Image} {max : Int} {outcome : LoadOutcome}
    (sound : life.Sound config original)
    (placed : Placed config original image)
    (taken : life.step config (.load image none max outcome) = some next) :
    (life.Keeps config (.load image none max outcome) →
      next.Sound config original) ∧
      (¬ life.Keeps config (.load image none max outcome) →
        ¬ next.Consistent config original) := by
  obtain ⟨isUnloaded, _, code, ch, jumper, host, obtained, result⟩ :=
    Life.load_cases taken
  have untouched := sound.unloaded isUnloaded
  simp only [obtainChos] at obtained
  by_cases allocates : outcome.Allocates
  · have initialized := initChos_of_allocates allocates obtained
    obtain ⟨nonzero, _⟩ | ⟨_, entries, rfl⟩ := result
    · exact absurd initialized.returned nonzero
    have saved := initialized.keeps.saved_formed sound.saved
    -- Without the patch the load leaves the bytes of `do_fork` alone.
    have unpatched : ¬ Patches config image life.host.machine →
        patchedBytes config host.machine.text =
          patchedBytes config original := by
      intro failed
      rw [initialized.plain failed]
      exact untouched
    have target : Patches config image life.host.machine →
        forkTarget config host.machine.text = some image.chos_do_fork := by
      intro patches
      rw [initialized.hooked patches]
      exact forkTarget_hookedText _ placed.inRange placed.reach
    constructor
    · intro keeps
      constructor
      · exact saved
      · intro loaded isLoaded
        dsimp only at isLoaded
        split at isLoaded
        · cases isLoaded
          constructor
          · exact initialized.allocated
          · exact initialized.formed
          · exact placed
          · intro flag
            have patches := initialized.flag.mp flag
            exact ⟨target patches,
              (initialized.copied patches).trans untouched⟩
          · intro plain
            apply unpatched
            intro patches
            have flag := initialized.flag.mpr patches
            rw [flag] at plain
            cases plain
        · cases isLoaded
      · intro failed
        apply unpatched
        intro patches
        have made := keeps ⟨allocates, patches⟩
        simp [made] at failed
    · intro broken consistent
      simp only [Life.Keeps, not_forall] at broken
      obtain ⟨⟨_, patches⟩, unmade⟩ := broken
      have absent : outcome.mkdir = false := by simpa using unmade
      simp only [Life.Consistent, Host.Consistent, absent,
        Bool.false_eq_true, if_false] at consistent
      exact placed.not_target consistent (target patches)
  · obtain ⟨_, _, failed, givenUp⟩ := initChos_of_not_allocates
      allocates config image max (fun _ => 0) life.host
    rw [obtained] at failed
    cases failed
    obtain ⟨_, rfl⟩ | ⟨zero, _⟩ := result
    · constructor
      · intro _
        refine ⟨givenUp.keeps.saved_formed sound.saved, ?_, ?_⟩
        · intro loaded impossible
          cases impossible
        · intro _
          dsimp only
          rw [givenUp.machine]
          exact untouched
      · intro broken
        exact absurd (fun both => absurd both.1 allocates) broken
    · cases zero

theorem Life.Sound.recover
    {image : Image} {table : Nat} {max : Int} {outcome : LoadOutcome}
    (sound : life.Sound config original)
    (placed : Placed config original image)
    (taken : life.step config (.load image (some table) max outcome) =
      some next) :
    (life.Keeps config (.load image (some table) max outcome) →
      next.Sound config original) ∧
      (¬ life.Keeps config (.load image (some table) max outcome) →
        ¬ next.Consistent config original) := by
  obtain ⟨isUnloaded, offers, code, ch, jumper, host, obtained, result⟩ :=
    Life.load_cases taken
  have untouched := sound.unloaded isUnloaded
  obtain ⟨below, formed⟩ := sound.saved table offers.1
  simp only [obtainChos, recoverChos_of_formed formed] at obtained
  cases obtained
  obtain ⟨nonzero, _⟩ | ⟨_, entries, rfl⟩ := result
  · exact absurd rfl nonzero
  constructor
  · intro keeps
    refine ⟨sound.saved, ?_, fun _ => untouched⟩
    intro loaded isLoaded
    dsimp only at isLoaded
    split at isLoaded
    · rename_i made
      cases isLoaded
      refine ⟨below, formed, placed, ?_, fun _ => untouched⟩
      intro flag
      have absent := keeps flag
      rw [made] at absent
      cases absent
    · cases isLoaded
  · intro broken consistent
    simp only [Life.Keeps, not_forall, Bool.not_eq_false] at broken
    obtain ⟨flag, made⟩ := broken
    simp only [Life.Consistent, Host.Consistent, made, if_true]
      at consistent
    exact placed.not_target untouched (consistent.mp flag)

/-- An event keeps flag and text together exactly under the condition. -/
theorem Life.Sound.event
    {event : LifeEvent} (sound : life.Sound config original)
    (placed : event.Placed config original)
    (taken : life.step config event = some next) :
    (life.Keeps config event → next.Sound config original) ∧
      (¬ life.Keeps config event → ¬ next.Consistent config original) := by
  cases event with
  | load image table max outcome =>
      cases table with
      | none => exact sound.fresh placed taken
      | some table => exact sound.recover placed taken
  | savestate buf =>
      exact ⟨fun _ => sound.savestate taken,
        fun broken => absurd trivial broken⟩
  | unload =>
      exact ⟨fun _ => sound.unload taken,
        fun broken => absurd trivial broken⟩

def Life.init (machine : Machine) : Life :=
  { host :=
      { machine := machine
        structs := .empty
        arrays := .empty
        entries := []
        saved := [] }
    loaded := none }

/-- Flag and kernel text agree in every state of a run exactly when every
fresh load that patches succeeds, and no load that succeeds takes over a
struct whose flag is set. -/
theorem Life.consistent_throughout_iff
    (config : Config) (machine : Machine) {events : List LifeEvent}
    {finish : Life}
    (finished : run (Life.step config) (.init machine) events = some finish)
    (placed : ∀ event ∈ events, event.Placed config machine.text) :
    Throughout (Life.step config) (Life.Consistent config machine.text)
        (.init machine) events ↔
      Along (Life.step config) (Life.Keeps config) (.init machine)
        events := by
  apply throughout_iff_along (Life.Sound config machine.text)
  · intro life sound
    exact sound.consistent
  · intro life event next sound placed keeps taken
    exact (sound.event placed taken).1 keeps
  · intro life event next sound placed broken taken
    exact (sound.event placed taken).2 broken
  · exact finished
  · exact (along_iff_forall_mem finished).mpr placed
  · constructor
    · intro address impossible
      cases impossible
    · intro loaded impossible
      cases impossible
    · intro _
      rfl

def releaseFive : Config where
  start_add := 0xffffffff8106a760
  length := 0xc
  opcode := fun i =>
    [0x41, 0x57, 0x49, 0x89, 0xd7, 0x41, 0x56, 0x49, 0x89, 0xce, 0x41,
      0x55].getD i 0
  sizeofLong := 8
  pageSize := 4096
  wide := by decide
  room := by decide

def releaseFiveMachine : Machine where
  text := fun address =>
    if address < releaseFive.start_add then 0x90
    else releaseFive.opcode (address - releaseFive.start_add)
  ptes := fun _ => 0x161

/-- An instance in the module area, every call of its load succeeding. -/
def loadedAt (address : Nat) (table : Option Nat) : LifeEvent :=
  .load ⟨address, address + 0x2000, fun _ => 0xcc⟩ table 0
    ⟨true, true, true, fun _ => true⟩

theorem Life.consistent_throughout_iff_saved :
    Throughout (Life.step releaseFive)
      (Life.Consistent releaseFive releaseFiveMachine.text)
      (.init releaseFiveMachine)
      [loadedAt 0xffffffffa0001000 none, .savestate [0x31, 0x0a],
        .unload] := by
  have ends : (run (Life.step releaseFive) (.init releaseFiveMachine)
      [loadedAt 0xffffffffa0001000 none, .savestate [0x31, 0x0a],
        .unload]).isSome = true := by
    decide +kernel
  obtain ⟨finish, finished⟩ := Option.isSome_iff_exists.mp ends
  exact (Life.consistent_throughout_iff releaseFive releaseFiveMachine
    finished (by decide +kernel)).mpr (by decide +kernel)

/-- Saving the state and loading it again: the flag is still set, `do_fork`
leads nowhere, and the next unload fills it with the zeros of the new
`jumper`. -/
theorem Life.recover_keeps_flag :
    (∀ event ∈ [loadedAt 0xffffffffa0001000 none, .savestate [0x31, 0x0a],
        .unload, loadedAt 0xffffffffa0011000 (some 0)],
      event.Placed releaseFive releaseFiveMachine.text) ∧
      ∃ reloaded unloaded,
        run (Life.step releaseFive) (.init releaseFiveMachine)
          [loadedAt 0xffffffffa0001000 none, .savestate [0x31, 0x0a],
            .unload, loadedAt 0xffffffffa0011000 (some 0)] =
          some reloaded ∧
        ¬ reloaded.Consistent releaseFive releaseFiveMachine.text ∧
        reloaded.step releaseFive .unload = some unloaded ∧
        patchedBytes releaseFive unloaded.host.machine.text =
          List.replicate 12 0 := by
  have ends : (run (Life.step releaseFive) (.init releaseFiveMachine)
      [loadedAt 0xffffffffa0001000 none, .savestate [0x31, 0x0a],
        .unload, loadedAt 0xffffffffa0011000 (some 0)]).any
      (fun reloaded =>
        ¬ reloaded.Consistent releaseFive releaseFiveMachine.text ∧
          (reloaded.step releaseFive .unload).any (fun unloaded =>
            patchedBytes releaseFive unloaded.host.machine.text =
              List.replicate 12 0)) = true := by
    decide +kernel
  obtain ⟨reloaded, finished, facts⟩ := (Option.any_eq_true _ _).mp ends
  obtain ⟨inconsistent, later⟩ := of_decide_eq_true facts
  obtain ⟨unloaded, taken, zeros⟩ := (Option.any_eq_true _ _).mp later
  exact ⟨by decide +kernel, reloaded, unloaded, finished, inconsistent,
    taken, of_decide_eq_true zeros⟩

end Chos.Kernel
