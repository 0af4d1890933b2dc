import Chos.Kernel.Allocation

/-!
# Links that are freed while they are in use

`destroy_link` is right to free a link that nobody else has in hand.  Nothing
more is needed for all runs of all processes to be free of accesses to freed
memory; and nothing in the module provides it.
-/

namespace Chos.Kernel

open Chos.Library

def Conc.pool (state : Conc) : List (List Instr) :=
  state.threads.map Thread.code

/-- The link whose counter the instruction tests in `destroy_link`. -/
def Instr.tested : Instr → Option LinkId
  | .destroyRead link => some link
  | _ => none

def Conc.testing (state : Conc) (index : Nat) : Option LinkId :=
  state.pool[index]?.bind fun code => code.head?.bind Instr.tested

/-- When the counter reads zero in `destroy_link`, the link is in no other
hand: no process, this one included, has found it and not used it up, or has
decremented its counter and not yet read it. -/
def Conc.Unshared (state : Conc) : ConcEvent → Prop
  | .advance index =>
      ∀ link ∈ state.testing index,
        state.shared.table.count link = 0 → inHand state.pool link = 1
  | _ => True

instance (state : Conc) : ∀ event, Decidable (state.Unshared event)
  | .advance index =>
      inferInstanceAs (Decidable (∀ link ∈ state.testing index, _ → _))
  | .call _ _ => .isTrue trivial
  | .exit _ => .isTrue trivial
  | .writeValid _ _ _ _ => .isTrue trivial

theorem Safe.perform
    {shared next : Shared} {pool : List (List Instr)} {index me : Nat}
    {current : Task} {instr : Instr} {rest after : List Instr}
    (safe : Safe shared.table pool)
    (listed : pool[index]? = some (instr :: rest))
    (unshared : ∀ link, instr = .destroyRead link →
      shared.table.count link = 0 → inHand pool link = 1)
    (performed : shared.perform me current rest instr =
      some (next, after)) :
    Safe next.table (pool.set index (settle after)) := by
  cases instr with
  | lookup task => exact safe.lookup listed performed
  | setCheck link task => exact safe.setCheck listed performed
  | setInc link task =>
      cases performed
      exact safe.setInc listed
  | setStore link task =>
      cases performed
      exact safe.setStore listed
  | resetSwap slot => exact safe.resetSwap listed performed
  | dec link =>
      cases performed
      exact safe.dec listed
  | readCount link =>
      cases performed
      exact safe.readCount listed
  | destroyRead link =>
      cases performed
      exact safe.destroyRead listed (unshared link rfl)
  | loadText link =>
      cases performed
      exact safe.loadText listed
  | kfreeText link text =>
      cases performed
      exact safe.kfreeText listed
  | kfreeLink link =>
      cases performed
      exact safe.kfreeLink listed
  | lockTasks =>
      simp only [Shared.perform] at performed
      split at performed
      · cases performed
        exact safe.skip listed rfl
      · cases performed
  | sweep slot =>
      cases performed
      exact safe.sweep listed
  | unlockTasks =>
      cases performed
      exact safe.skip listed rfl
  | setchos buf count outcome =>
      have result := Option.some.inj performed
      have changed := @Safe.setchos _ _ _ _ current _ _ _ safe listed
      rw [result] at changed
      exact changed
  | createLink text allocated =>
      cases performed
      exact safe.createLink listed
  | readText link =>
      cases performed
      exact safe.readText listed
  | copyText link text =>
      cases performed
      exact safe.copyText listed
  | doFork parent_link new =>
      simp only [Shared.perform] at performed
      split at performed
      · exact safe.doFork listed performed
      · cases performed
  | findChild parent_link nr =>
      simp only [Shared.perform] at performed
      split at performed
      · split at performed
        · cases performed
          exact safe.findChild listed
        · cases performed
          exact safe.skip listed rfl
      · cases performed
  | climbed task => cases performed
  | returns link => cases performed
  | assign task => cases performed
  | readlink => cases performed
  | forked new => cases performed

namespace Conc

variable {state next : Conc}

theorem pool_getElem? {index : Nat} {thread : Thread}
    (listed : state.threads[index]? = some thread) :
    state.pool[index]? = some thread.code := by
  rw [pool, List.getElem?_map, listed]
  rfl

theorem safe_advance {index : Nat}
    (safe : Safe state.shared.table state.pool)
    (unshared : state.Unshared (.advance index))
    (taken : state.advance index = some next) :
    Safe next.shared.table next.pool := by
  simp only [advance] at taken
  split at taken
  · cases taken
  rename_i thread listed
  split at taken
  · rename_i current instr rest _ code
    obtain ⟨⟨shared, after⟩, performed, rfl⟩ :=
      Option.map_eq_some_iff.mp taken
    have pooled := pool_getElem? listed
    rw [code] at pooled
    have result := safe.perform pooled (by
      rintro link rfl
      apply unshared link
      simp [testing, pooled, Instr.tested]) performed
    rw [pool, List.map_set]
    exact result
  · cases taken

theorem code_idle (call : Call) (current : Task) :
    (∀ link, occurrences Instr.link link (call.code current) = 0) ∧
      ∀ duty, occurrences Instr.duty duty (call.code current) = 0 := by
  cases call with
  | readlink => simp [Call.code, Instr.link, Instr.duty]
  | setchos buf count outcome => simp [Call.code, Instr.link, Instr.duty]
  | resetchos => simp [Call.code, sweeping, Instr.link, Instr.duty]
  | fork new => simp [Call.code, Instr.link, Instr.duty]

theorem safe_enter {table : Table} {pool : List (List Instr)}
    {code : List Instr} (safe : Safe table pool)
    (empty : ∀ link, occurrences Instr.link link code = 0)
    (idle : ∀ duty, occurrences Instr.duty duty code = 0) :
    Safe table (pool ++ [code]) := by
  have hands : ∀ link, inHand (pool ++ [code]) link = inHand pool link := by
    intro link
    rw [inHand, pooled_concat, empty]
    rfl
  have duties : ∀ duty, pending (pool ++ [code]) duty =
      pending pool duty := by
    intro duty
    rw [pending, pooled_concat, idle]
    rfl
  constructor
  · exact safe.misuse
  · simpa only [duties] using safe.counted
  · exact safe.blank
  · simpa only [hands] using safe.known
  · simpa only [hands] using safe.freed
  · exact safe.once
  · simpa only [hands, duties] using safe.dying
  · intro other inside duty destroys
    rcases List.mem_append.mp inside with older | new
    · exact safe.patient other older duty destroys
    · rw [List.mem_singleton.mp new]
      have shorter := @occurrences_tail_le _ _ _ Instr.duty duty code
      rw [idle] at shorter
      omega
  · simpa only [duties] using safe.copied
  · simpa only [duties] using safe.freeing
  · exact safe.distinct
  · exact safe.linked
  · simpa only [duties] using safe.unlinked
  · simpa only [duties] using safe.single
  · simpa only [duties] using safe.freedText

theorem safe_step {event : ConcEvent}
    (safe : Safe state.shared.table state.pool)
    (unshared : state.Unshared event)
    (taken : state.step event = some next) :
    Safe next.shared.table next.pool := by
  cases event with
  | advance index => exact safe_advance safe unshared taken
  | call pid call =>
      simp only [step, Conc.call] at taken
      split at taken
      · cases taken
      rename_i current _
      split at taken
      · cases taken
        rw [pool, List.map_append]
        exact safe_enter safe (code_idle call current).1
          (code_idle call current).2
      · cases taken
  | exit pid =>
      simp only [step] at taken
      split at taken
      · cases taken
        exact safe
      · cases taken
  | writeValid euid buf count outcome =>
      cases taken
      exact safe

/-- No link has been freed twice, and no access went to freed memory. -/
def MemorySafe (state : Conc) : Prop :=
  state.shared.table.misuse = 0 ∧
    ∀ link, state.shared.table.links.frees link ≤ 1

/-- In every run in which `destroy_link` never finds the counter at zero
while the link is in another hand, no state shows a second `kfree` of a link
or an access to freed memory. -/
theorem memorySafe_throughout
    (pid_max : Nat) (tree : ProcTree) {events : List ConcEvent}
    (unshared : Along Conc.step Conc.Unshared (.init pid_max tree) events) :
    Throughout Conc.step MemorySafe (.init pid_max tree) events := by
  apply throughout_of_along
    (fun state => Safe state.shared.table state.pool)
  · intro state safe
    exact ⟨safe.misuse, safe.once⟩
  · intro state event next safe unshared taken
    exact safe_step safe unshared taken
  · exact unshared
  · exact Safe.init pid_max

/-- Processes 2 and 3 with a link of their own each way: 2 has set it, 3 has
inherited it. -/
def twoHolders : List ConcEvent :=
  [.writeValid 0 [47, 97] 2 ⟨true, true⟩,
    .call 1 (.fork (some ⟨2, ⟨5, 0⟩, 0, []⟩))] ++
    List.replicate 5 (.advance 0) ++
    [.call 2 (.setchos [47, 97] 2 ⟨true, true, true, .other 0⟩)] ++
    List.replicate 12 (.advance 1) ++
    [.call 2 (.fork (some ⟨3, ⟨6, 0⟩, 0, []⟩))] ++
    List.replicate 6 (.advance 2)

/-- One process reads its link while the other drops its own, and then drops
the last reference. -/
theorem memorySafe_throughout_turns :
    Throughout Conc.step MemorySafe (.init 4 .boot)
        (twoHolders ++ [.call 2 .resetchos, .call 3 .readlink,
          .advance 3, .advance 4, .advance 3, .advance 4, .advance 3,
          .advance 4, .call 3 .resetchos] ++
          List.replicate 7 (.advance 5)) ∧
      (run Conc.step (.init 4 .boot)
        (twoHolders ++ [.call 2 .resetchos, .call 3 .readlink,
          .advance 3, .advance 4, .advance 3, .advance 4, .advance 3,
          .advance 4, .call 3 .resetchos] ++
          List.replicate 7 (.advance 5))).any
        (fun final => final.shared.table.links.frees 0 = 1) = true :=
  ⟨memorySafe_throughout 4 .boot (by decide +kernel), by decide +kernel⟩

/-- Both processes reset their links at once: both decrement, then both read
zero, and the link is freed twice. -/
theorem double_free :
    ∃ final,
      run Conc.step (.init 4 .boot)
        (twoHolders ++ [.call 2 .resetchos, .call 3 .resetchos] ++
          List.replicate 2 (.advance 3) ++ List.replicate 2 (.advance 4) ++
          List.replicate 5 (.advance 3) ++ List.replicate 5 (.advance 4)) =
        some final ∧
      final.shared.table.links.frees 0 = 2 ∧
      0 < final.shared.table.misuse := by
  have ends : (run Conc.step (.init 4 .boot)
      (twoHolders ++ [.call 2 .resetchos, .call 3 .resetchos] ++
        List.replicate 2 (.advance 3) ++ List.replicate 2 (.advance 4) ++
        List.replicate 5 (.advance 3) ++ List.replicate 5 (.advance 4))).any
      (fun final => final.shared.table.links.frees 0 = 2 ∧
        0 < final.shared.table.misuse) = true := by
    decide +kernel
  obtain ⟨final, finished, facts⟩ := (Option.any_eq_true _ _).mp ends
  exact ⟨final, finished, of_decide_eq_true facts⟩

end Conc

end Chos.Kernel
