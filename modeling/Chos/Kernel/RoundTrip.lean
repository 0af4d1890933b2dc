import Chos.Kernel.Patch

/-!
# Installing and removing the jump

`init_do_fork` opens the page at `START_ADD`, stores the jump and puts the
page table entry back; `cleanup_do_fork` does the same around the stores that
undo the jump.  Both make a store one `long` wide where the instruction has
room for four bytes, so what they leave untouched is part of the statement.
-/

namespace Chos.Kernel

open Chos.Library

/-- The jump at the end of `jumper` leads back behind the patched bytes. -/
theorem nearJump_filledJumper
    {config : Config} {image : Image} (jumper text : Memory)
    (inRange : config.end_add < 256 ^ config.sizeofLong)
    (reach : Rel32 (jumperDiff config image)) :
    nearJump config.sizeofLong
      (placeAt image.jumper (filledJumper config image jumper text))
      (image.jumper + config.length) = some config.end_add := by
  have landing := nearJump_storeBytes config.wide
    (placeAt image.jumper jumper) inRange reach
  rw [← landing]
  apply nearJump_congr
  rw [loadBytes_placeAt]
  -- either way these are the first five bytes of the same nine
  have covered : 5 ≤ (0xe9 ::
      wordBytes config.sizeofLong (jumperDiff config image)).length := by
    rw [List.length_cons, length_wordBytes]
    exact Nat.succ_le_succ config.wide
  exact (loadBytes_storeBytes_take covered _ _).trans
    (loadBytes_storeBytes_take covered _ _).symm

theorem hookedText_of_outside
    {config : Config} {image : Image} {text : Memory} {address : Nat}
    (outside : address < config.start_add ∨
      config.start_add + config.sizeofLong < address) :
    hookedText config image text address = text address := by
  have elsewhere : address ≠ config.start_add := by omega
  rw [hookedText, storeBytes_of_outside (by rw [length_wordBytes]; omega),
    Function.update_of_ne elsewhere]

theorem storeBytes_hookedText (config : Config) (image : Image)
    (jumper text : Memory) :
    storeBytes (hookedText config image text) config.start_add
        (loadBytes (filledJumper config image jumper text) 0
          config.length) = text := by
  funext address
  by_cases inside : config.start_add ≤ address ∧
      address < config.start_add + config.length
  · have saved := patchedBytes_storeBytes config
      (filledJumper config image jumper text) (hookedText config image text)
    rw [loadBytes_filledJumper] at saved ⊢
    exact loadBytes_eq_iff.mp saved address inside.1 inside.2
  · have room := config.room
    rw [storeBytes_of_outside (by rw [length_loadBytes]; omega),
      hookedText_of_outside (by omega)]

/-- What a successful `init_do_fork` leaves, on an architecture with a `long`
of eight bytes: `jumper` and the machine after it, seen from the machine
before it.  A `cleanup_do_fork` that follows returns, and leaves that
machine. -/
structure RoundTrip (config : Config) (image : Image) (machine : Machine)
    (jumper : Memory) (patched : Machine) : Prop where
  wrapper : nearJump 8 patched.text config.start_add =
    some image.chos_do_fork
  saved : loadBytes jumper 0 config.length =
    loadBytes machine.text config.start_add config.length
  back : nearJump 8 (placeAt image.jumper jumper)
    (image.jumper + config.length) = some config.end_add
  changed : ∀ address, patched.text address ≠ machine.text address →
    config.start_add ≤ address ∧ address ≤ config.start_add + 8
  pte : patched.ptes = machine.ptes
  restored : cleanupDoFork config jumper patched = some machine

/-- Patching and unpatching round-trips, for every placement from which both
jumps reach their targets, exactly when all the patched bytes lie in the page
of `START_ADD` or in pages that are writable anyway. -/
theorem initDoFork_roundTrip_iff
    {config : Config} {image : Image} {jumper saved : Memory}
    {machine patched : Machine} (long : config.sizeofLong = 8)
    (endInRange : config.end_add < 2 ^ 64)
    (wrapperInRange : image.chos_do_fork < 2 ^ 64)
    (jumperReach : Rel32 (jumperDiff config image))
    (wrapperReach : Rel32 (wrapperDiff config image))
    (returned : initDoFork config image jumper machine =
      some (0, saved, patched)) :
    RoundTrip config image machine saved patched ↔
      PagesOpen config machine config.length := by
  have patches := (initDoFork_eq_zero_iff returned).mp rfl
  obtain ⟨_, same⟩ := (initDoFork_of_patches patches jumper).mp returned
  cases same
  have space : 256 ^ config.sizeofLong = 2 ^ 64 := by
    rw [long]
    norm_num
  constructor
  · intro trip
    exact (cleanupDoFork_eq_some_iff.mp trip.restored).1
  · intro opened
    constructor
    · have landing := forkTarget_hookedText machine.text
        (space ▸ wrapperInRange) wrapperReach
      rw [forkTarget, long] at landing
      exact landing
    · exact loadBytes_filledJumper config image jumper machine.text
    · have landing := nearJump_filledJumper jumper machine.text
        (space ▸ endInRange) jumperReach
      rw [long] at landing
      exact landing
    · intro address differs
      by_contra outside
      apply differs
      exact hookedText_of_outside (by omega)
    · rfl
    · apply cleanupDoFork_eq_some_iff.mpr
      exact ⟨opened, Machine.ext
        (storeBytes_hookedText config image jumper machine.text).symm rfl⟩

theorem samePage_iff {pageSize start count : Nat} (positive : 0 < pageSize)
    (nonempty : 0 < count) :
    (∀ other, start ≤ other → other < start + count →
        other / pageSize = start / pageSize) ↔
      start % pageSize + count ≤ pageSize := by
  have split := Nat.div_add_mod start pageSize
  constructor
  · intro same
    have last := same (start + count - 1) (by omega) (by omega)
    have remainder := Nat.mod_lt (start + count - 1) positive
    have splitLast := Nat.div_add_mod (start + count - 1) pageSize
    rw [last] at splitLast
    omega
  · intro fits other lower upper
    apply Nat.div_eq_of_lt_le
    · rw [Nat.mul_comm]
      omega
    · rw [Nat.succ_mul, Nat.mul_comm]
      omega

theorem pagesOpen_of_fits {config : Config} {machine : Machine}
    {count : Nat} (positive : 0 < config.pageSize)
    (fits : config.start_add % config.pageSize + count ≤ config.pageSize) :
    PagesOpen config machine count := by
  intro address lower upper
  exact Or.inl ((samePage_iff positive (by omega)).mpr fits address lower
    upper)

/-- The kernel 2.6.18 of RHEL 5, as `find_fork.sh` knows it. -/
def rhel5 : Config where
  start_add := 0xffffffff8008c000
  length := 0xC
  opcode i := [0x41, 0x57, 0x49, 0x89, 0xd7, 0x41, 0x56, 0x49, 0x89, 0xce,
    0x41, 0x55].getD i 0
  sizeofLong := 8
  pageSize := 4096
  wide := Nat.le_of_ble_eq_true rfl
  room := Nat.le_of_ble_eq_true rfl

def pristine (config : Config) : Machine where
  text address := config.opcode (address - config.start_add)
  ptes _ := 0x161

def above : Image where
  chos_do_fork := 0xffffffff88002000
  jumper := 0xffffffff88004000
  jumper_func _ := 0

theorem initDoFork_roundTrip_iff_rhel5 :
    ∃ saved patched,
      initDoFork rhel5 above (fun _ => 0) (pristine rhel5) =
        some (0, saved, patched) ∧
      RoundTrip rhel5 above (pristine rhel5) saved patched := by
  have patches : Patches rhel5 above (pristine rhel5) := by decide +kernel
  have returned := (initDoFork_of_patches patches (fun _ => 0)).mpr
    ⟨pagesOpen_of_fits (by decide) (by decide +kernel), rfl⟩
  exact ⟨_, _, returned,
    (initDoFork_roundTrip_iff rfl (by decide +kernel) (by decide +kernel)
      (by decide +kernel) (by decide +kernel) returned).mpr
      (pagesOpen_of_fits (by decide) (by decide +kernel))⟩

/-- The kernel 2.6.32 of RHEL 6, as `find_fork.sh` knows it, with `do_fork`
in the last sixteen bytes of a page. -/
def rhel6 : Config :=
  { rhel5 with
    start_add := 0xffffffff8106aff0
    length := 0x1f
    opcode := fun i => [0x55, 0x48, 0x89, 0xe5, 0x48, 0x81, 0xec, 0xb0, 0x00,
      0x00, 0x00, 0x48, 0x89, 0x5d, 0xd8, 0x4c, 0x89, 0x65, 0xe0, 0x4c, 0x89,
      0x6d, 0xe8, 0x4c, 0x89, 0x75, 0xf0, 0x4c, 0x89, 0x7d, 0xf8].getD i 0
    room := Nat.le_of_ble_eq_true rfl }

/-- The jump is installed, and removing it faults at the first byte of the
next page. -/
theorem cleanup_faults_rhel6 :
    Rel32 (jumperDiff rhel6 above) ∧ Rel32 (wrapperDiff rhel6 above) ∧
      ∃ saved patched,
        initDoFork rhel6 above (fun _ => 0) (pristine rhel6) =
          some (0, saved, patched) ∧
        cleanupDoFork rhel6 saved patched = none ∧
        ¬ RoundTrip rhel6 above (pristine rhel6) saved patched := by
  have patches : Patches rhel6 above (pristine rhel6) := by decide +kernel
  have returned := (initDoFork_of_patches patches (fun _ => 0)).mpr
    ⟨pagesOpen_of_fits (by decide) (by decide +kernel), rfl⟩
  have closed : ∀ text, ¬ PagesOpen rhel6
      { pristine rhel6 with text := text } rhel6.length := by
    intro text opened
    have elsewhere : (rhel6.start_add + 16) / rhel6.pageSize ≠
        rhel6.start_add / rhel6.pageSize := by decide +kernel
    have readOnly : ¬ (0x161 &&& pageRW ≠ 0) := by decide
    rcases opened (rhel6.start_add + 16) (by decide +kernel)
      (by decide +kernel) with same | writable
    · exact elsewhere same
    · exact readOnly writable
  refine ⟨by decide +kernel, by decide +kernel, _, _, returned, ?_, ?_⟩
  · apply Option.eq_none_iff_forall_ne_some.mpr
    intro restored removed
    exact closed _ (cleanupDoFork_eq_some_iff.mp removed).1
  · intro trip
    exact closed _ (cleanupDoFork_eq_some_iff.mp trip.restored).1

/-- If `init_do_fork` reports a failure, it has changed nothing. -/
def AtomicOnFailure (config : Config) (image : Image) (jumper : Memory)
    (machine : Machine) : Prop :=
  ∀ saved later,
    initDoFork config image jumper machine = some (-1, saved, later) →
      later.text = machine.text ∧ later.ptes = machine.ptes

theorem matchesOpcode_iff (config : Config) (machine : Machine) :
    matchesOpcode config machine = true ↔
      ∀ i, i < config.length →
        machine.text (config.start_add + i) = config.opcode i := by
  simp [matchesOpcode]

theorem setPteval_pageRW_ptes_iff (config : Config) (machine : Machine) :
    (setPteval config pageRW machine).2.ptes = machine.ptes ↔
      machine.pteval config &&& pageRW ≠ 0 := by
  constructor
  · intro unchanged readOnly
    have opened := congrFun unchanged (config.start_add / config.pageSize)
    rw [setPteval_pageRW_of_readOnly readOnly, Machine.storePte_ptes,
      Function.update_self] at opened
    have bit := or_pageRW_and_pageRW (machine.pteval config)
    rw [opened] at bit
    rw [Machine.pteval] at readOnly
    exact absurd (bit.symm.trans readOnly) (by decide)
  · intro writable
    rw [setPteval_pageRW_of_writable writable]

/-- A failed `init_do_fork` has changed nothing exactly when the code did not
match, so that it failed early, or `jumper` lies near enough, so that it does
not fail late, or the page was writable from the start. -/
theorem initDoFork_atomicOnFailure_iff (config : Config) (image : Image)
    (jumper : Memory) (machine : Machine) :
    AtomicOnFailure config image jumper machine ↔
      ((∀ i, i < config.length →
          machine.text (config.start_add + i) = config.opcode i) →
        addressDiff config.sizeofLong config.end_add
            (image.jumper + config.length + 5) < 0xffffff ∨
          machine.ptes (config.start_add / config.pageSize) &&& pageRW ≠
            0) := by
  rw [← matchesOpcode_iff]
  by_cases patches : Patches config image machine
  · constructor
    · intro _ _
      exact Or.inl patches.2
    · intro _ saved later returned
      have installed := (initDoFork_eq_zero_iff returned).mpr patches
      cases installed
  · obtain ⟨saved, failed⟩ := initDoFork_of_not_patches patches jumper
    by_cases same : matchesOpcode config machine = true
    · have far : ¬ jumperDiff config image < 0xffffff :=
        fun near => patches ⟨same, near⟩
      rw [if_pos same] at failed
      constructor
      · intro atomic _
        exact Or.inr ((setPteval_pageRW_ptes_iff config machine).mp
          (atomic saved _ failed).2)
      · intro condition other later returned
        rw [failed] at returned
        cases returned
        exact ⟨setPteval_text _ _ _,
          (setPteval_pageRW_ptes_iff config machine).mpr
            ((condition same).resolve_left far)⟩
    · rw [if_neg same] at failed
      constructor
      · intro _ matching
        exact absurd matching same
      · intro _ other later returned
        rw [failed] at returned
        cases returned
        exact ⟨rfl, rfl⟩

def below : Image where
  chos_do_fork := 0xffffffff70002000
  jumper := 0xffffffff70004000
  jumper_func _ := 0

/-- The code matches, `jumper` is too far off, and the page stays open. -/
theorem not_atomicOnFailure_below :
    ¬ AtomicOnFailure rhel5 below (fun _ => 0) (pristine rhel5) := by
  intro atomic
  have ends : (initDoFork rhel5 below (fun _ => 0) (pristine rhel5)).any
      (fun (code, _, later) => code = -1 ∧
        later.ptes (rhel5.start_add / rhel5.pageSize) = 0x163) = true := by
    decide +kernel
  obtain ⟨⟨_, saved, later⟩, returned, facts⟩ :=
    (Option.any_eq_true _ _).mp ends
  obtain ⟨rfl, opened⟩ := of_decide_eq_true facts
  rw [(atomic saved later returned).2] at opened
  exact absurd opened (by decide)

end Chos.Kernel
