import Chos.Kernel.RegionLocks

/-!
# Memory safety of single accesses

Every process is read as one of the concurrent machine: inside a region it
stands before the whole region until the access that settles it, and behind
it from then on.  So the invariant of whole regions becomes one of single
accesses, and the reads of `cleanup_links` without a lock are no exception.
-/

namespace Chos.Kernel

open Chos.Library

/-- The instructions that a process in a region has still before it.  The read
of the link settles `lookup_link`, the store of the link `set_link` and
`reset_link`. -/
def Region.atomic (rest : List Instr) : Region → List Instr
  | .looking task | .timing task | .hitting task | .missed task |
      .climbing task => .lookup (some task) :: rest
  | .leaving _ link => settle (returning link rest)
  | .checking link task | .checked link task _ =>
      .setCheck link task :: rest
  | .storing link task => .setStore link task :: rest
  | .stamping _ _ | .stored _ _ => settle rest
  | .swapping index | .clearing index _ => .resetSwap index :: rest
  | .zeroing _ old | .swapped _ old => dropping old rest
  | .sweepFirst index _ | .sweepSecond index _ | .sweepTime index _ =>
      .sweep index :: rest

def atomicCode (code : List Instr) : Option Region → List Instr
  | none => code
  | some region => region.atomic code

@[simp] theorem atomicCode_none (code : List Instr) :
    atomicCode code none = code := rfl

@[simp] theorem atomicCode_some (code : List Instr) (region : Region) :
    atomicCode code (some region) = region.atomic code := rfl

def Walker.atomic (walker : Walker) : List Instr :=
  atomicCode walker.code walker.region

/-- The link whose counter the process is about to test in
`destroy_link`. -/
def Walker.testing (walker : Walker) : Option LinkId :=
  match walker.region with
  | none => walker.code.head?.bind Instr.tested
  | some _ => none

namespace Fine

def pool (state : Fine) : List (List Instr) :=
  state.walkers.map Walker.atomic

/-- When the counter reads zero in `destroy_link`, the link is in no other
hand; a process that has read it from an entry has it in hand before it
releases the lock. -/
def Unshared (state : Fine) : ConcEvent → Prop
  | .advance index =>
      ∀ link ∈ state.walkers[index]?.bind Walker.testing,
        state.shared.table.count link = 0 → inHand state.pool link = 1
  | _ => True

instance (state : Fine) : ∀ event, Decidable (state.Unshared event)
  | .advance index =>
      inferInstanceAs (Decidable
        (∀ link ∈ state.walkers[index]?.bind Walker.testing, _ → _))
  | .call _ _ => .isTrue trivial
  | .exit _ => .isTrue trivial
  | .writeValid _ _ _ _ => .isTrue trivial

end Fine

theorem Table.refs_of_linkAt {older newer : Table}
    (samePidMax : newer.pid_max = older.pid_max)
    (sameLinks : newer.linkAt = older.linkAt) (link : LinkId) :
    newer.refs link = older.refs link := by
  simp [refs, samePidMax, sameLinks]

theorem Safe.restamp {older : Table} {procs : Nat → ChosProc}
    {pool : List (List Instr)} (safe : Safe older pool)
    (sameLinks : ∀ index, (procs index).link = older.linkAt index) :
    Safe { older with procs := procs } pool := by
  have sameRefs : ∀ link,
      ({ older with procs := procs } : Table).refs link = older.refs link :=
    Table.refs_of_linkAt rfl (funext sameLinks)
  constructor
  · exact safe.misuse
  · intro link
    rw [sameRefs]
    exact safe.counted link
  · exact safe.blank
  · exact safe.known
  · exact safe.freed
  · exact safe.once
  · exact safe.dying
  · exact safe.patient
  · exact safe.copied
  · exact safe.freeing
  · exact safe.distinct
  · exact safe.linked
  · exact safe.unlinked
  · exact safe.single
  · exact safe.freedText

/-- A store of the link is as good as a store of the whole entry. -/
theorem Safe.storeLink {table : Table} {pool : List (List Instr)}
    {index : Nat} {entry : ChosProc}
    (safe : Safe (table.store index entry) pool) :
    Safe (table.storeLink index entry.link) pool := by
  apply safe.restamp
  intro other
  rw [Table.linkAt_store]
  by_cases same : other = index
  · subst same
    simp
  · simp [Function.update_of_ne same, Table.linkAt]

theorem Safe.storeTime {table : Table} {pool : List (List Instr)}
    {index time : Nat} (safe : Safe table pool) :
    Safe (table.storeTime index time) pool := by
  apply safe.restamp
  intro other
  by_cases same : other = index
  · subst same
    simp [Table.linkAt]
  · simp [Function.update_of_ne same, Table.linkAt]

theorem Safe.stay {table : Table} {pool : List (List Instr)} {index : Nat}
    {code : List Instr} (safe : Safe table pool)
    (listed : pool[index]? = some code) :
    Safe table (pool.set index code) := by
  obtain ⟨length, same⟩ := List.getElem?_eq_some_iff.mp listed
  rw [← same, List.set_getElem_self]
  exact safe

section Steps

variable {shared : Shared} {locks : Nat → RwLock}
  {pool : List (List Instr)} {index : Nat} {rest : List Instr}
  {region : Region} {moved : Moved}

theorem Safe.swept {table : Table} {slot : Nat} {after : List Instr}
    (safe : Safe table pool)
    (listed : pool[index]? = some (.sweep slot :: rest))
    (ends : after = .resetSwap slot :: .sweep (slot + 1) :: rest ∨
      after = .sweep (slot + 1) :: rest) :
    Safe table (pool.set index after) := by
  rcases ends with rfl | rfl
  · apply @Safe.silent _ _ _ _ _
      (.resetSwap slot :: .sweep (slot + 1) :: rest) safe listed rfl
    · intro duty
      simp [Instr.duty]
    · intro link
      simp [Instr.link]
  · apply @Safe.silent _ _ _ _ _ (.sweep (slot + 1) :: rest) safe listed rfl
    · intro duty
      simp [Instr.duty]
    · intro link
      simp [Instr.link]

theorem Safe.progress (safe : Safe shared.table pool)
    (listed : pool[index]? = some (region.atomic rest))
    (knows : region.Knows (shared.table.procs region.index))
    (within : region.Within shared.table.pid_max)
    (progressed : region.progress shared locks rest = some moved) :
    Safe moved.shared.table
      (pool.set index (atomicCode moved.code moved.region)) := by
  cases region with
  | looking task =>
      cases progressed
      by_cases empty : shared.table.linkAt task.pid = none
      · simp only [if_pos empty]
        exact safe.stay listed
      · simp only [if_neg empty]
        exact safe.stay listed
  | timing task =>
      cases progressed
      by_cases other : (shared.table.procs task.pid).start_time ≠
          task.start_time.tv_sec
      · simp only [if_pos other]
        exact safe.stay listed
      · simp only [if_neg other]
        exact safe.stay listed
  | hitting task =>
      cases progressed
      have hit : (Region.leaving task
          (shared.table.linkAt task.pid)).Agrees shared rest :=
        Region.agrees ⟨knows.1, rfl, knows.2⟩ within
      exact safe.lookup listed hit
  | leaving task link =>
      cases progressed
      exact safe.stay listed
  | missed task =>
      cases progressed
      exact safe.stay listed
  | climbing task =>
      cases progressed
      apply @Safe.silent _ _ _ _ _ (.lookup _ :: .climbed task :: rest) safe
        listed rfl
      · intro duty
        simp [Instr.duty]
      · intro link
        simp [Instr.link]
  | checking link task =>
      cases progressed
      exact safe.stay listed
  | checked link task found =>
      cases progressed
      have agrees := @Region.agrees (.checked link task found) _ rest knows
        within
      have done := safe.setCheck listed agrees
      cases found with
      | none => cases link <;> exact done
      | some old => exact done
  | storing link task =>
      cases progressed
      exact (safe.setStore listed).storeLink
  | stamping link task =>
      cases progressed
      exact (safe.stay listed).storeTime
  | stored link task =>
      cases progressed
      exact safe.stay listed
  | swapping slot =>
      cases progressed
      exact safe.stay listed
  | clearing slot old =>
      cases progressed
      have agrees := @Region.agrees (.clearing slot old) _ rest knows within
      obtain ⟨⟨next, code⟩, performed, same⟩ :=
        Option.map_eq_some_iff.mp agrees
      obtain ⟨rfl, settled⟩ := Prod.mk.inj same
      have done := safe.resetSwap listed performed
      rw [settled] at done
      exact done.storeLink
  | zeroing slot old =>
      cases progressed
      exact (safe.stay listed).storeTime
  | swapped slot old =>
      cases progressed
      exact safe.stay listed
  | sweepFirst slot seen =>
      simp only [Region.progress] at progressed
      split at progressed
      · cases progressed
        exact safe.swept listed (.inl rfl)
      · cases progressed
        exact safe.stay listed
  | sweepSecond slot seen =>
      simp only [Region.progress] at progressed
      split at progressed
      · cases progressed
        exact safe.stay listed
      · cases progressed
        exact safe.swept listed (.inr rfl)
  | sweepTime slot seen =>
      simp only [Region.progress] at progressed
      split at progressed
      · cases progressed
      split at progressed
      · cases progressed
        exact safe.swept listed (.inl rfl)
      · cases progressed
        exact safe.swept listed (.inr rfl)

theorem Safe.entered {me : Nat} {current : Task} {instr : Instr}
    (safe : Safe shared.table pool)
    (listed : pool[index]? = some (instr :: rest))
    (unshared : ∀ link, instr = .destroyRead link →
      shared.table.count link = 0 → inHand pool link = 1)
    (entered : Entered shared locks rest me current instr moved) :
    Safe moved.shared.table
      (pool.set index (atomicCode moved.code moved.region)) := by
  cases entered with
  | plain performed _ _ _ => exact safe.perform listed unshared performed
  | swept done => exact safe.skip listed rfl
  | _ => exact safe.stay listed

end Steps

namespace Fine

variable {state next : Fine}

theorem pool_getElem? {index : Nat} {walker : Walker}
    (listed : state.walkers[index]? = some walker) :
    state.pool[index]? = some walker.atomic := by
  rw [pool, List.getElem?_map, listed]
  rfl

theorem safe_advance {index : Nat} (guarded : Guarded state)
    (safe : Safe state.shared.table state.pool)
    (unshared : state.Unshared (.advance index))
    (taken : state.advance index = some next) :
    Safe next.shared.table next.pool := by
  simp only [advance] at taken
  split at taken
  · cases taken
  rename_i walker listed
  obtain ⟨moved, moves, rfl⟩ := Option.map_eq_some_iff.mp taken
  have pooled := pool_getElem? listed
  have member := List.mem_of_getElem? listed
  simp only [pool, List.map_set]
  change Safe moved.shared.table
    (state.pool.set index (atomicCode moved.code moved.region))
  simp only [move] at moves
  split at moves
  · cases moves
  split at moves
  · rename_i region inside
    rw [Walker.atomic, inside] at pooled
    exact safe.progress pooled (guarded.knows walker member region inside)
      (guarded.within walker member region inside) moves
  · cases moves
  · rename_i instr rest outside code
    rw [Walker.atomic, outside, code] at pooled
    apply safe.entered pooled _ (entered_of_enter moves)
    rintro link rfl
    apply unshared link
    rw [listed]
    simp [Walker.testing, outside, code, Instr.tested]

theorem safe_step {event : ConcEvent} (guarded : Guarded state)
    (safe : Safe state.shared.table state.pool)
    (unshared : state.Unshared event)
    (taken : state.step event = some next) :
    Safe next.shared.table next.pool := by
  cases event with
  | advance index => exact safe_advance guarded safe unshared taken
  | call pid call =>
      simp only [step, Fine.call] at taken
      split at taken
      · cases taken
      rename_i current _
      split at taken
      · cases taken
        rw [pool, List.map_append]
        exact Conc.safe_enter safe (Conc.code_idle call current).1
          (Conc.code_idle call current).2
      · cases taken
  | exit pid =>
      simp only [step] at taken
      split at taken
      · cases taken
        exact safe
      · cases taken
  | writeValid euid buf count outcome =>
      cases taken
      exact safe

/-- No link has been freed twice, and no access went to freed memory. -/
def MemorySafe (state : Fine) : Prop :=
  state.shared.table.misuse = 0 ∧
    ∀ link, state.shared.table.links.frees link ≤ 1

end Fine

/-- The unlocked reads and the accesses inside a region add no way to misuse
memory: in every run of single accesses in which `destroy_link` never finds
the counter at zero while the link is in another hand, nothing is freed twice
and nothing freed is accessed, and every counter is at least the number of
entries with its link. -/
theorem accesses_memorySafe (pid_max : Nat) (tree : ProcTree)
    {events : List ConcEvent}
    (unshared : Along Fine.step Fine.Unshared (.init pid_max tree) events) :
    Throughout Fine.step
      (fun state => state.MemorySafe ∧
        ∀ link, (state.shared.table.refs link : Int) ≤
          state.shared.table.count link)
      (.init pid_max tree) events := by
  apply throughout_of_along
    (fun state : Fine =>
      state.Guarded ∧ Safe state.shared.table state.pool)
  · rintro state ⟨_, safe⟩
    refine ⟨⟨safe.misuse, safe.once⟩, ?_⟩
    intro link
    have counted := safe.counted link
    omega
  · rintro state event next ⟨guarded, safe⟩ unshared taken
    exact ⟨guarded.step taken, Fine.safe_step guarded safe unshared taken⟩
  · exact unshared
  · exact ⟨Fine.Guarded.init pid_max tree, Safe.init pid_max⟩

/-- Process 3 sweeps and has seen that entry 2 is set; before it reads the
start time, process 2 resets its entry and frees the link. -/
def Fine.tornSweep : List ConcEvent :=
  [.writeValid 0 [47, 97] 2 ⟨true, true⟩,
    .call 1 (.fork (some ⟨2, ⟨5, 0⟩, 0, []⟩))] ++
    List.replicate 10 (.advance 0) ++
    [.call 1 (.fork (some ⟨3, ⟨6, 0⟩, 0, []⟩))] ++
    List.replicate 10 (.advance 1) ++
    [.call 2 (.setchos [47, 97] 2 ⟨true, true, true, .other 0⟩)] ++
    List.replicate 25 (.advance 2) ++
    [.call 3 .resetchos] ++ List.replicate 15 (.advance 3) ++
    [.call 2 .resetchos] ++ List.replicate 11 (.advance 4) ++
    List.replicate 11 (.advance 3)

/-- The sweep takes the zeroed start time for another process and resets the
entry again, which frees nothing. -/
theorem accesses_memorySafe_torn :
    Throughout Fine.step
        (fun state => state.MemorySafe ∧
          ∀ link, (state.shared.table.refs link : Int) ≤
            state.shared.table.count link)
        (.init 4 .boot) Fine.tornSweep ∧
      (run Fine.step (.init 4 .boot) Fine.tornSweep).any
        (fun final => final.shared.table.links.frees 0 = 1) = true :=
  ⟨accesses_memorySafe 4 .boot (by decide +kernel), by decide +kernel⟩

end Chos.Kernel
