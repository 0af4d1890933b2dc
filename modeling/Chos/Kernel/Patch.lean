import Chos.Library.Bytes

/-!
# The jump into `chos_do_fork`

`init_do_fork` and `cleanup_do_fork` rewrite the first bytes of the kernel's
`do_fork`.  The kernel text is a memory of its own, and so is the `jumper`
array of the loaded module, which the loader places elsewhere.
-/

namespace Chos.Kernel

open Chos.Library

/-- The constants of `address.h` and of the architecture.  A `long` has at
least the four bytes of a jump's displacement, and the patched bytes leave
room for the jump as it is stored, with a `long` after its opcode. -/
structure Config where
  start_add : Nat
  length : Nat
  opcode : Nat → UInt8
  sizeofLong : Nat
  pageSize : Nat
  wide : 4 ≤ sizeofLong
  room : 1 + sizeofLong ≤ length

def Config.end_add (config : Config) : Nat := config.start_add + config.length

theorem Config.jump_fits (config : Config) : 5 ≤ config.length := by
  have wide := config.wide
  have room := config.room
  omega

/-- Where the loader put the parts of a module instance that the patch refers
to, and the code of `jumper_func`. -/
structure Image where
  chos_do_fork : Nat
  jumper : Nat
  jumper_func : Memory

/-- The kernel text with the page table entries of its pages. -/
@[ext] structure Machine where
  text : Memory
  ptes : Nat → Nat

def pageRW : Nat := 2

namespace Machine

def writable (machine : Machine) (config : Config) (address : Nat) : Bool :=
  machine.ptes (address / config.pageSize) &&& pageRW ≠ 0

/-- A store to a page that is not writable faults, and the function that makes
it does not go on. -/
def storeByte (machine : Machine) (config : Config) (address : Nat)
    (byte : UInt8) : Option Machine :=
  if machine.writable config address then
    some { machine with text := Function.update machine.text address byte }
  else none

def storeBytes (machine : Machine) (config : Config) :
    Nat → List UInt8 → Option Machine
  | _, [] => some machine
  | address, byte :: bytes => do
      let machine ← machine.storeByte config address byte
      machine.storeBytes config (address + 1) bytes

/-- The bytes from an address on lie in writable pages. -/
def WritableFrom (machine : Machine) (config : Config)
    (address count : Nat) : Prop :=
  ∀ other, address ≤ other → other < address + count →
    machine.writable config other = true

theorem storeByte_eq_some_iff {machine later : Machine} {config : Config}
    {address : Nat} {byte : UInt8} :
    machine.storeByte config address byte = some later ↔
      machine.writable config address = true ∧
        later = { machine with
          text := Function.update machine.text address byte } := by
  rw [storeByte]
  by_cases opened : machine.writable config address = true
  · simp [opened, eq_comm]
  · simp [opened]

theorem storeBytes_eq_some_iff {machine later : Machine} {config : Config}
    {address : Nat} {bytes : List UInt8} :
    machine.storeBytes config address bytes = some later ↔
      machine.WritableFrom config address bytes.length ∧
        later = { machine with
          text := Library.storeBytes machine.text address bytes } := by
  induction bytes generalizing machine address with
  | nil =>
      have nowhere : machine.WritableFrom config address 0 := by
        intro other lower upper
        omega
      simp [storeBytes, nowhere, Library.storeBytes, eq_comm]
  | cons byte bytes induction =>
      simp only [storeBytes, bind, Option.bind_eq_some_iff,
        storeByte_eq_some_iff, List.length_cons]
      constructor
      · rintro ⟨_, ⟨first, rfl⟩, rest⟩
        obtain ⟨opened, rfl⟩ := induction.mp rest
        refine ⟨?_, rfl⟩
        intro other lower upper
        rcases Nat.eq_or_lt_of_le lower with equal | further
        · rw [← equal]
          exact first
        · exact opened other further (by omega)
      · rintro ⟨opened, rfl⟩
        refine ⟨_, ⟨opened address (Nat.le_refl _) (by omega), rfl⟩,
          induction.mpr ⟨?_, rfl⟩⟩
        intro other lower upper
        exact opened other (by omega) (by omega)

def storePte (machine : Machine) (config : Config) (pteval : Nat) : Machine :=
  { machine with
    ptes := Function.update machine.ptes
      (config.start_add / config.pageSize) pteval }

end Machine

/-- `set_pteval`; it returns the value it found. -/
def setPteval (config : Config) (pteval : Nat) (machine : Machine) :
    Nat × Machine :=
  let old_pte := machine.ptes (config.start_add / config.pageSize)
  if pteval = pageRW then
    if old_pte &&& pageRW = 0 then
      (old_pte, machine.storePte config (old_pte ||| pageRW))
    else (old_pte, machine)
  else if old_pte ≠ pteval then (old_pte, machine.storePte config pteval)
  else (old_pte, machine)

theorem setPteval_snd (config : Config) (pteval : Nat)
    (machine : Machine) :
    (setPteval config pteval machine).2 = machine ∨
      ∃ stored, (setPteval config pteval machine).2 =
        machine.storePte config stored := by
  simp only [setPteval]
  split
  · split
    · exact Or.inr ⟨_, rfl⟩
    · exact Or.inl rfl
  · split
    · exact Or.inr ⟨_, rfl⟩
    · exact Or.inl rfl

@[simp] theorem setPteval_text (config : Config) (pteval : Nat)
    (machine : Machine) :
    (setPteval config pteval machine).2.text = machine.text := by
  rcases setPteval_snd config pteval machine with same | ⟨stored, same⟩
  · rw [same]
  · rw [same]
    rfl

@[simp] theorem Machine.storePte_ptes (machine : Machine) (config : Config)
    (pteval : Nat) :
    (machine.storePte config pteval).ptes =
      Function.update machine.ptes (config.start_add / config.pageSize)
        pteval := rfl

def Machine.pteval (machine : Machine) (config : Config) : Nat :=
  machine.ptes (config.start_add / config.pageSize)

@[simp] theorem setPteval_fst (config : Config) (pteval : Nat)
    (machine : Machine) :
    (setPteval config pteval machine).1 = machine.pteval config := by
  simp only [setPteval]
  split
  · split
    · rfl
    · rfl
  · split
    · rfl
    · rfl

theorem or_pageRW_and_pageRW (pteval : Nat) :
    (pteval ||| pageRW) &&& pageRW = pageRW := by
  apply Nat.eq_of_testBit_eq
  intro bit
  rw [Nat.testBit_and, Nat.testBit_or]
  cases Nat.testBit pageRW bit with
  | false => rw [Bool.and_false]
  | true => rw [Bool.or_true, Bool.and_true]

theorem setPteval_pageRW_of_readOnly
    {config : Config} {machine : Machine}
    (readOnly : machine.pteval config &&& pageRW = 0) :
    (setPteval config pageRW machine).2 =
      machine.storePte config (machine.pteval config ||| pageRW) := by
  rw [Machine.pteval] at readOnly
  simp only [setPteval, if_true, readOnly]
  rfl

theorem setPteval_pageRW_of_writable
    {config : Config} {machine : Machine}
    (writable : machine.pteval config &&& pageRW ≠ 0) :
    (setPteval config pageRW machine).2 = machine := by
  rw [Machine.pteval] at writable
  simp only [setPteval, if_true, writable, if_false]

/-- `set_pteval` with a value other than `_PAGE_RW` leaves that value. -/
theorem setPteval_ptes_of_ne
    {config : Config} {pteval : Nat} (other : pteval ≠ pageRW)
    (machine : Machine) :
    (setPteval config pteval machine).2.ptes =
      Function.update machine.ptes (config.start_add / config.pageSize)
        pteval := by
  simp only [setPteval, if_neg other]
  by_cases same :
      machine.ptes (config.start_add / config.pageSize) = pteval
  · rw [if_neg (not_not_intro same), ← same, Function.update_eq_self]
  · rw [if_pos same]
    rfl

/-- The value that opening the page returned closes it again, whatever was
stored in between. -/
theorem setPteval_restores
    {config : Config} {machine later : Machine}
    (between : later.ptes = (setPteval config pageRW machine).2.ptes) :
    (setPteval config (machine.pteval config) later).2.ptes =
      machine.ptes := by
  by_cases readOnly : machine.pteval config &&& pageRW = 0
  · have other : machine.pteval config ≠ pageRW := by
      intro same
      rw [same] at readOnly
      exact absurd readOnly (by decide)
    rw [setPteval_ptes_of_ne other, between,
      setPteval_pageRW_of_readOnly readOnly, Machine.storePte_ptes,
      Function.update_idem, Machine.pteval, Function.update_eq_self]
  · rw [setPteval_pageRW_of_writable readOnly] at between
    by_cases same : machine.pteval config = pageRW
    · -- the entry is `_PAGE_RW` itself, so this call opens the page again
      have opened : later.pteval config &&& pageRW ≠ 0 := by
        rw [Machine.pteval, between]
        exact readOnly
      rw [same, setPteval_pageRW_of_writable opened, between]
    · rw [setPteval_ptes_of_ne same, between, Machine.pteval,
        Function.update_eq_self]

/-- The bytes that a function stores at `START_ADD` lie in the page it opens or
in pages that were writable before. -/
def PagesOpen (config : Config) (machine : Machine) (count : Nat) : Prop :=
  ∀ address, config.start_add ≤ address →
    address < config.start_add + count →
      address / config.pageSize = config.start_add / config.pageSize ∨
        machine.ptes (address / config.pageSize) &&& pageRW ≠ 0

theorem writable_setPteval_iff {config : Config} {machine : Machine}
    {address : Nat} :
    (setPteval config pageRW machine).2.writable config address = true ↔
      address / config.pageSize = config.start_add / config.pageSize ∨
        machine.ptes (address / config.pageSize) &&& pageRW ≠ 0 := by
  rw [Machine.writable, decide_eq_true_iff]
  by_cases readOnly : machine.pteval config &&& pageRW = 0
  · rw [setPteval_pageRW_of_readOnly readOnly, Machine.storePte_ptes]
    by_cases same :
        address / config.pageSize = config.start_add / config.pageSize
    · rw [same, Function.update_self, or_pageRW_and_pageRW]
      exact iff_of_true (by decide) (Or.inl rfl)
    · simp [same]
  · rw [setPteval_pageRW_of_writable readOnly]
    constructor
    · exact Or.inr
    · rintro (same | opened)
      · rw [same]
        exact readOnly
      · exact opened

theorem writableFrom_setPteval_iff {config : Config} {machine : Machine}
    {count : Nat} :
    (setPteval config pageRW machine).2.WritableFrom config config.start_add
        count ↔ PagesOpen config machine count := by
  constructor
  · intro opened address lower upper
    exact writable_setPteval_iff.mp (opened address lower upper)
  · intro opened address lower upper
    exact writable_setPteval_iff.mpr (opened address lower upper)

/-- The running code is the code the module was compiled against. -/
def matchesOpcode (config : Config) (machine : Machine) : Bool :=
  (List.range config.length).all fun i =>
    machine.text (config.start_add + i) = config.opcode i

/-- The displacement of the jump at the end of `jumper`. -/
def jumperDiff (config : Config) (image : Image) : Int :=
  addressDiff config.sizeofLong config.end_add
    (image.jumper + config.length + 5)

/-- The displacement of the jump at `START_ADD`. -/
def wrapperDiff (config : Config) (image : Image) : Int :=
  addressDiff config.sizeofLong image.chos_do_fork (config.start_add + 5)

/-- `init_do_fork`: the code it returns, `jumper` and the kernel text.  The
second failure leaves the page writable. -/
def initDoFork (config : Config) (image : Image) (jumper : Memory)
    (machine : Machine) : Option (Int × Memory × Machine) :=
  if ¬ matchesOpcode config machine then some (-1, jumper, machine)
  else
    let jumper :=
      storeBytes jumper 0 (loadBytes image.jumper_func 0 config.length)
    let jumper := storeBytes jumper 0
      (loadBytes machine.text config.start_add config.length)
    let (old_pteval, machine) := setPteval config pageRW machine
    let jumper := Function.update jumper config.length 0xe9
    let diff := jumperDiff config image
    if diff < 0xffffff then do
      let jumper := storeBytes jumper (config.length + 1)
        (wordBytes config.sizeofLong diff)
      let machine ← machine.storeByte config config.start_add 0xe9
      let diff := wrapperDiff config image
      let machine ← machine.storeBytes config (config.start_add + 1)
        (wordBytes config.sizeofLong diff)
      let (_, machine) := setPteval config old_pteval machine
      return (0, jumper, machine)
    else some (-1, jumper, machine)

def cleanupDoFork (config : Config) (jumper : Memory) (machine : Machine) :
    Option Machine := do
  let (old_pteval, machine) := setPteval config pageRW machine
  let machine ← machine.storeBytes config config.start_add
    (loadBytes jumper 0 config.length)
  return (setPteval config old_pteval machine).2

/-- The bytes of `do_fork` that the patch overwrites. -/
def patchedBytes (config : Config) (memory : Memory) : List UInt8 :=
  loadBytes memory config.start_add config.length

/-- `init_do_fork` gets to its end. -/
def Patches (config : Config) (image : Image) (machine : Machine) : Prop :=
  matchesOpcode config machine ∧ jumperDiff config image < 0xffffff

instance (config : Config) (image : Image) (machine : Machine) :
    Decidable (Patches config image machine) :=
  inferInstanceAs (Decidable (_ ∧ _))

def filledJumper (config : Config) (image : Image) (jumper text : Memory) :
    Memory :=
  storeBytes
    (Function.update
      (storeBytes
        (storeBytes jumper 0 (loadBytes image.jumper_func 0 config.length))
        0 (patchedBytes config text))
      config.length 0xe9)
    (config.length + 1)
    (wordBytes config.sizeofLong (jumperDiff config image))

def hookedText (config : Config) (image : Image) (text : Memory) : Memory :=
  storeBytes (Function.update text config.start_add 0xe9)
    (config.start_add + 1)
    (wordBytes config.sizeofLong (wrapperDiff config image))

theorem setPteval_close (config : Config) (machine : Machine)
    (text : Memory) :
    (setPteval config (machine.pteval config)
        { (setPteval config pageRW machine).2 with text := text }).2 =
      { machine with text := text } := by
  apply Machine.ext
  · exact setPteval_text _ _ _
  · exact setPteval_restores rfl

/-- Beyond the test of the displacement there is the store of the jump. -/
theorem initDoFork_stores
    {config : Config} {image : Image} {machine : Machine}
    (patches : Patches config image machine) (jumper : Memory) :
    initDoFork config image jumper machine =
      ((setPteval config pageRW machine).2.storeBytes config
        config.start_add (0xe9 ::
          wordBytes config.sizeofLong (wrapperDiff config image))).map
        fun later => (0, filledJumper config image jumper machine.text,
          (setPteval config (machine.pteval config) later).2) := by
  obtain ⟨same, near⟩ := patches
  simp only [initDoFork, same, near, not_true_eq_false, if_false, if_true,
    setPteval_fst, Machine.storeBytes, Option.map_eq_bind]
  exact (Option.bind_assoc _ _ _).symm

theorem cleanupDoFork_stores (config : Config) (jumper : Memory)
    (machine : Machine) :
    cleanupDoFork config jumper machine =
      ((setPteval config pageRW machine).2.storeBytes config
        config.start_add (loadBytes jumper 0 config.length)).map
        fun later => (setPteval config (machine.pteval config) later).2 := by
  simp only [cleanupDoFork, setPteval_fst, Option.map_eq_bind]
  rfl

theorem initDoFork_of_patches
    {config : Config} {image : Image} {machine : Machine}
    (patches : Patches config image machine) (jumper : Memory)
    {result : Int × Memory × Machine} :
    initDoFork config image jumper machine = some result ↔
      PagesOpen config machine (1 + config.sizeofLong) ∧
        result = (0, filledJumper config image jumper machine.text,
          { machine with
            text := hookedText config image machine.text }) := by
  rw [initDoFork_stores patches jumper, ← writableFrom_setPteval_iff]
  simp only [Option.map_eq_some_iff, Machine.storeBytes_eq_some_iff,
    List.length_cons, length_wordBytes, setPteval_text,
    Nat.add_comm config.sizeofLong 1]
  constructor
  · rintro ⟨_, ⟨opened, rfl⟩, rfl⟩
    rw [setPteval_close]
    exact ⟨opened, rfl⟩
  · rintro ⟨opened, rfl⟩
    refine ⟨_, ⟨opened, rfl⟩, ?_⟩
    rw [setPteval_close]
    rfl

theorem initDoFork_of_not_patches
    {config : Config} {image : Image} {machine : Machine}
    (failed : ¬ Patches config image machine) (jumper : Memory) :
    ∃ saved, initDoFork config image jumper machine =
      some (-1, saved,
        if matchesOpcode config machine then
          (setPteval config pageRW machine).2
        else machine) := by
  by_cases same : matchesOpcode config machine = true
  · have far : ¬ jumperDiff config image < 0xffffff :=
      fun near => failed ⟨same, near⟩
    simp [initDoFork, same, far]
  · exact ⟨jumper, by simp [initDoFork, same]⟩

/-- What `init_do_fork` has done when it returns. -/
theorem initDoFork_cases
    {config : Config} {image : Image} {jumper saved : Memory}
    {machine patched : Machine} {code : Int}
    (returned : initDoFork config image jumper machine =
      some (code, saved, patched)) :
    (Patches config image machine ∧ code = 0 ∧
        saved = filledJumper config image jumper machine.text ∧
        patched = { machine with
          text := hookedText config image machine.text }) ∨
      (¬ Patches config image machine ∧ code = -1 ∧
        patched.text = machine.text) := by
  by_cases patches : Patches config image machine
  · obtain ⟨_, same⟩ := (initDoFork_of_patches patches jumper).mp returned
    cases same
    exact Or.inl ⟨patches, rfl, rfl, rfl⟩
  · obtain ⟨_, failed⟩ := initDoFork_of_not_patches patches jumper
    rw [returned, Option.some.injEq] at failed
    cases failed
    refine Or.inr ⟨patches, rfl, ?_⟩
    split
    · exact setPteval_text _ _ _
    · rfl

theorem initDoFork_eq_zero_iff
    {config : Config} {image : Image} {jumper saved : Memory}
    {machine patched : Machine} {code : Int}
    (returned : initDoFork config image jumper machine =
      some (code, saved, patched)) :
    code = 0 ↔ Patches config image machine := by
  obtain ⟨patches, rfl, _⟩ | ⟨failed, rfl, _⟩ := initDoFork_cases returned
  · exact iff_of_true rfl patches
  · exact iff_of_false (by decide) failed

theorem cleanupDoFork_eq_some_iff
    {config : Config} {jumper : Memory} {machine restored : Machine} :
    cleanupDoFork config jumper machine = some restored ↔
      PagesOpen config machine config.length ∧
        restored = { machine with
          text := storeBytes machine.text config.start_add
            (loadBytes jumper 0 config.length) } := by
  rw [cleanupDoFork_stores, ← writableFrom_setPteval_iff]
  simp only [Option.map_eq_some_iff, Machine.storeBytes_eq_some_iff,
    length_loadBytes, setPteval_text]
  constructor
  · rintro ⟨_, ⟨opened, rfl⟩, rfl⟩
    exact ⟨opened, setPteval_close _ _ _⟩
  · rintro ⟨opened, rfl⟩
    exact ⟨_, ⟨opened, rfl⟩, setPteval_close _ _ _⟩

theorem loadBytes_filledJumper (config : Config) (image : Image)
    (jumper text : Memory) :
    loadBytes (filledJumper config image jumper text) 0 config.length =
      patchedBytes config text := by
  rw [filledJumper, loadBytes_storeBytes_of_outside (Or.inl (by omega))]
  have frame : ∀ memory : Memory,
      loadBytes (Function.update memory config.length 0xe9) 0 config.length =
        loadBytes memory 0 config.length := by
    intro memory
    apply loadBytes_congr
    intro other _ upper
    exact Function.update_of_ne (by omega) _ memory
  rw [frame]
  have stored := loadBytes_storeBytes
    (storeBytes jumper 0 (loadBytes image.jumper_func 0 config.length)) 0
    (patchedBytes config text)
  rw [patchedBytes, length_loadBytes] at stored
  exact stored

theorem patchedBytes_storeBytes (config : Config) (jumper text : Memory) :
    patchedBytes config (storeBytes text config.start_add
        (loadBytes jumper 0 config.length)) =
      loadBytes jumper 0 config.length := by
  have stored := loadBytes_storeBytes text config.start_add
    (loadBytes jumper 0 config.length)
  rw [length_loadBytes] at stored
  exact stored

/-- Where a jump at `START_ADD` leads, if one stands there. -/
def forkTarget (config : Config) (memory : Memory) : Option Nat :=
  nearJump config.sizeofLong memory config.start_add

theorem forkTarget_congr
    {config : Config} {left right : Memory}
    (same : patchedBytes config left = patchedBytes config right) :
    forkTarget config left = forkTarget config right :=
  nearJump_congr config.sizeofLong
    (loadBytes_shorter config.jump_fits same)

theorem forkTarget_hookedText
    {config : Config} {image : Image} (text : Memory)
    (inRange : image.chos_do_fork < 256 ^ config.sizeofLong)
    (reach : Rel32 (wrapperDiff config image)) :
    forkTarget config (hookedText config image text) =
      some image.chos_do_fork :=
  nearJump_storeBytes config.wide text inRange reach

/-- What the loader promises of an instance: its code lies in the address
space and within reach of a jump from `START_ADD`, and the code of `do_fork`
does not lead there. -/
structure Placed (config : Config) (original : Memory) (image : Image) :
    Prop where
  inRange : image.chos_do_fork < 256 ^ config.sizeofLong
  reach : Rel32 (wrapperDiff config image)
  foreign : forkTarget config original ≠ some image.chos_do_fork

instance (config : Config) (original : Memory) (image : Image) :
    Decidable (Placed config original image) :=
  decidable_of_iff
    (image.chos_do_fork < 256 ^ config.sizeofLong ∧
      Rel32 (wrapperDiff config image) ∧
      forkTarget config original ≠ some image.chos_do_fork)
    ⟨fun ⟨inRange, reach, foreign⟩ => ⟨inRange, reach, foreign⟩,
      fun placed => ⟨placed.inRange, placed.reach, placed.foreign⟩⟩

end Chos.Kernel
