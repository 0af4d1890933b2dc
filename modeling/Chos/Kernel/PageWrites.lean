import Chos.Kernel.RoundTrip
import Chos.Library.Runs

/-!
# The stores of the patch and the page they go to

Only the entry of the page at `START_ADD` is made writable.  Here the two
functions are traces of single stores, so that each store can be judged in the
state in which it is made.
-/

namespace Chos.Kernel

open Chos.Library

/-- What `init_do_fork` and `cleanup_do_fork` do to the kernel: a call of
`set_pteval`, or the store of one byte of text. -/
inductive Store where
  | pteval (value : Nat)
  | byte (address : Nat) (value : UInt8)

def Store.step (config : Config) (machine : Machine) :
    Store → Option Machine
  | .pteval value => some (setPteval config value machine).2
  | .byte address value => machine.storeByte config address value

def byteStores : Nat → List UInt8 → List Store
  | _, [] => []
  | address, byte :: bytes =>
      .byte address byte :: byteStores (address + 1) bytes

/-- The stores of `init_do_fork`, in their order. -/
def initStores (config : Config) (image : Image) (machine : Machine) :
    List Store :=
  if ¬ matchesOpcode config machine then []
  else if jumperDiff config image < 0xffffff then
    .pteval pageRW ::
      (byteStores config.start_add
        (0xe9 :: wordBytes config.sizeofLong (wrapperDiff config image)) ++
      [.pteval (machine.pteval config)])
  else [.pteval pageRW]

def cleanupStores (config : Config) (jumper : Memory) (machine : Machine) :
    List Store :=
  .pteval pageRW ::
    (byteStores config.start_add (loadBytes jumper 0 config.length) ++
    [.pteval (machine.pteval config)])

theorem run_byteStores (config : Config) (machine : Machine) (address : Nat)
    (bytes : List UInt8) (later : List Store) :
    run (Store.step config) machine (byteStores address bytes ++ later) =
      (machine.storeBytes config address bytes).bind fun stored =>
        run (Store.step config) stored later := by
  induction bytes generalizing machine address with
  | nil => rfl
  | cons byte bytes induction =>
      cases stored : machine.storeByte config address byte with
      | none => simp [byteStores, run, Store.step, Machine.storeBytes, stored]
      | some next =>
          have rest := induction next (address + 1)
          simpa [byteStores, run, Store.step, Machine.storeBytes, stored]
            using rest

theorem run_around (config : Config) (machine : Machine) (address : Nat)
    (bytes : List UInt8) (pteval : Nat) :
    run (Store.step config) machine
      (.pteval pageRW :: (byteStores address bytes ++ [.pteval pteval])) =
      ((setPteval config pageRW machine).2.storeBytes config address
        bytes).map fun stored => (setPteval config pteval stored).2 := by
  rw [Option.map_eq_bind]
  exact run_byteStores config _ address bytes [.pteval pteval]

theorem run_initStores (config : Config) (image : Image) (jumper : Memory)
    (machine : Machine) :
    run (Store.step config) machine (initStores config image machine) =
      (initDoFork config image jumper machine).map
        fun (_, _, later) => later := by
  by_cases same : matchesOpcode config machine = true
  · by_cases near : jumperDiff config image < 0xffffff
    · have patches : Patches config image machine := ⟨same, near⟩
      rw [initDoFork_stores patches jumper]
      simp only [initStores, same, near, not_true_eq_false, if_false,
        if_true, Option.map_map]
      exact run_around config machine config.start_add _ _
    · simp only [initStores, initDoFork, same, near, not_true_eq_false,
        if_false]
      rfl
  · simp only [initStores, initDoFork, same]
    rfl

theorem run_cleanupStores (config : Config) (jumper : Memory)
    (machine : Machine) :
    run (Store.step config) machine (cleanupStores config jumper machine) =
      cleanupDoFork config jumper machine := by
  rw [cleanupDoFork_stores]
  exact run_around config machine config.start_add _ _

/-- The store goes to the page whose entry `set_pteval` looks up, and that
page is writable. -/
def Store.InOpenedPage (config : Config) (machine : Machine) : Store → Prop
  | .pteval _ => True
  | .byte address _ =>
      address / config.pageSize = config.start_add / config.pageSize ∧
        machine.writable config address = true

/-- Every store of the trace is one into the opened page. -/
def Guarded (config : Config) (machine : Machine) (stores : List Store) :
    Prop :=
  Along (Store.step config) (Store.InOpenedPage config) machine stores

theorem writable_of_pteval
    {config : Config} {machine : Machine} {address : Nat}
    (page : address / config.pageSize = config.start_add / config.pageSize)
    (opened : machine.pteval config &&& pageRW ≠ 0) :
    machine.writable config address = true := by
  rw [Machine.writable, page]
  exact decide_eq_true opened

theorem pteval_setPteval_pageRW (config : Config) (machine : Machine) :
    (setPteval config pageRW machine).2.pteval config &&& pageRW ≠ 0 := by
  by_cases readOnly : machine.pteval config &&& pageRW = 0
  · rw [setPteval_pageRW_of_readOnly readOnly, Machine.pteval,
      Machine.storePte_ptes, Function.update_self, or_pageRW_and_pageRW]
    decide
  · rw [setPteval_pageRW_of_writable readOnly]
    exact readOnly

theorem along_byteStores_iff
    {config : Config} {machine : Machine} (address : Nat)
    (bytes : List UInt8) (pteval : Nat)
    (opened : machine.pteval config &&& pageRW ≠ 0) :
    Guarded config machine (byteStores address bytes ++ [.pteval pteval]) ↔
      ∀ other, address ≤ other → other < address + bytes.length →
        other / config.pageSize = config.start_add / config.pageSize := by
  induction bytes generalizing machine address with
  | nil =>
      constructor
      · intro _ other lower upper
        rw [List.length_nil] at upper
        omega
      · intro _
        exact ⟨trivial, fun _ _ => trivial⟩
  | cons byte bytes induction =>
      have later := @induction { machine with
        text := Function.update machine.text address byte } (address + 1)
        opened
      rw [List.length_cons]
      constructor
      · intro guarded other lower upper
        rcases Nat.eq_or_lt_of_le lower with equal | further
        · rw [← equal]
          exact guarded.1.1
        · apply later.mp (guarded.2 _ ?_) other further (by omega)
          exact Machine.storeByte_eq_some_iff.mpr ⟨guarded.1.2, rfl⟩
      · intro inside
        have first := inside address (Nat.le_refl address) (by omega)
        refine ⟨⟨first, writable_of_pteval first opened⟩, ?_⟩
        intro next taken
        obtain ⟨_, rfl⟩ := Machine.storeByte_eq_some_iff.mp taken
        apply later.mpr
        intro other lower upper
        exact inside other (by omega) (by omega)

theorem guarded_around_iff
    {config : Config} (positive : 0 < config.pageSize) (machine : Machine)
    {bytes : List UInt8} (nonempty : 0 < bytes.length) (pteval : Nat) :
    Guarded config machine (.pteval pageRW ::
        (byteStores config.start_add bytes ++ [.pteval pteval])) ↔
      config.start_add % config.pageSize + bytes.length ≤
        config.pageSize := by
  rw [← samePage_iff positive nonempty, ← along_byteStores_iff
    config.start_add bytes pteval (pteval_setPteval_pageRW config machine)]
  constructor
  · intro guarded
    exact guarded.2 _ rfl
  · intro guarded
    refine ⟨trivial, ?_⟩
    intro next taken
    cases taken
    exact guarded

theorem guarded_initStores_iff
    {config : Config} (positive : 0 < config.pageSize) (image : Image)
    (machine : Machine) :
    Guarded config machine (initStores config image machine) ↔
      (Patches config image machine →
        config.start_add % config.pageSize + (1 + config.sizeofLong) ≤
          config.pageSize) := by
  by_cases same : matchesOpcode config machine = true
  · by_cases near : jumperDiff config image < 0xffffff
    · simp only [initStores, same, near, not_true_eq_false, if_false,
        if_true, Patches, and_self, forall_const]
      rw [guarded_around_iff positive machine (by simp), List.length_cons,
        length_wordBytes, Nat.add_comm config.sizeofLong 1]
    · simp only [initStores, same, near, not_true_eq_false, if_false,
        Patches, and_false, false_implies, iff_true]
      exact ⟨trivial, fun _ _ => trivial⟩
  · simp only [initStores, same, not_false_eq_true, if_true, Patches,
      Bool.false_eq_true, false_and, false_implies, iff_true]
    trivial

theorem guarded_cleanupStores_iff
    {config : Config} (positive : 0 < config.pageSize) (jumper : Memory)
    (machine : Machine) :
    Guarded config machine (cleanupStores config jumper machine) ↔
      config.start_add % config.pageSize + config.length ≤
        config.pageSize := by
  have room := config.room
  rw [cleanupStores, guarded_around_iff positive machine
    (by rw [length_loadBytes]; omega), length_loadBytes]

/-- Installing at an aligned address never leaves the page. -/
theorem guarded_initStores_of_aligned
    {config : Config} (positive : 0 < config.pageSize)
    (long : config.sizeofLong = 8) (aligned : 16 ∣ config.start_add)
    (pages : 16 ∣ config.pageSize) (image : Image) (machine : Machine) :
    Guarded config machine (initStores config image machine) := by
  apply (guarded_initStores_iff positive image machine).mpr
  intro _
  have remainder := Nat.mod_lt config.start_add positive
  have offset : 16 ∣ config.start_add % config.pageSize :=
    (Nat.dvd_mod_iff pages).mpr aligned
  omega

/-- Every byte that installing or removing the jump stores goes to the page
that was opened for it exactly when all the patched bytes lie in the page of
`START_ADD`. -/
theorem stores_guarded_iff
    {config : Config} (positive : 0 < config.pageSize) (image : Image)
    (jumper : Memory) (machine later : Machine) :
    Guarded config machine (initStores config image machine) ∧
        Guarded config later (cleanupStores config jumper later) ↔
      config.start_add % config.pageSize + config.length ≤
        config.pageSize := by
  rw [guarded_initStores_iff positive, guarded_cleanupStores_iff positive]
  have room := config.room
  constructor
  · rintro ⟨_, cleanup⟩
    exact cleanup
  · intro fits
    refine ⟨?_, fits⟩
    intro _
    omega

theorem stores_guarded_iff_rhel5 :
    Guarded rhel5 (pristine rhel5)
        (initStores rhel5 above (pristine rhel5)) ∧
      Guarded rhel5 (pristine rhel5)
        (cleanupStores rhel5 (fun _ => 0) (pristine rhel5)) :=
  (stores_guarded_iff (by decide) above (fun _ => 0) (pristine rhel5)
    (pristine rhel5)).mpr (by decide +kernel)

/-- Installing stays in the page, removing does not. -/
theorem cleanup_not_guarded_rhel6 :
    16 ∣ rhel6.start_add ∧
      Guarded rhel6 (pristine rhel6)
        (initStores rhel6 above (pristine rhel6)) ∧
      ∃ saved patched,
        initDoFork rhel6 above (fun _ => 0) (pristine rhel6) =
          some (0, saved, patched) ∧
        ¬ Guarded rhel6 patched (cleanupStores rhel6 saved patched) := by
  have patches : Patches rhel6 above (pristine rhel6) := by decide +kernel
  have returned := (initDoFork_of_patches patches (fun _ => 0)).mpr
    ⟨pagesOpen_of_fits (by decide) (by decide +kernel), rfl⟩
  refine ⟨by decide +kernel, ?_, _, _, returned, ?_⟩
  · exact guarded_initStores_of_aligned (by decide) rfl (by decide +kernel)
      (by decide) above (pristine rhel6)
  · intro guarded
    have fits := (guarded_cleanupStores_iff (by decide) _ _).mp guarded
    exact absurd fits (by decide +kernel)

end Chos.Kernel
