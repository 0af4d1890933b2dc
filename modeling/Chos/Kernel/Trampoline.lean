import Chos.Kernel.RoundTrip
import Chos.Library.Straightline

/-!
# The code that was moved

`chos_do_fork` runs the original by jumping into `jumper`: the first
instructions of `do_fork` stand there, and behind them a jump to `END_ADD`.
That is sound for the tables of `find_fork.sh` because each of them ends
where an instruction ends and none of their instructions depends on the
address it stands at.
-/

namespace Chos.Kernel

open Chos.Library

inductive Architecture where
  | x86_64
  | i386
  deriving DecidableEq, Repr

/-- A register, or memory at a register with a displacement of one byte. -/
inductive Operand where
  | register (number : Nat)
  | memory (base : Nat) (displacement : UInt8)
  deriving DecidableEq, Repr

/-- The instructions that occur; immediate values and addresses are kept as
they are encoded. -/
inductive X86 where
  | nop
  | push (register : Nat)
  | mov (wide : Bool) (destination : Operand) (source : Nat)
  | sub (destination : Nat) (value : List UInt8)
  | movGs (destination : Nat) (address : List UInt8)
  | xor (destination source : Nat)
  | test (register : Nat) (value : List UInt8)
  deriving DecidableEq, Repr

namespace X86

open Reader

def mode (modrm : UInt8) : Nat := (modrm >>> 6).toNat

def reg (modrm : UInt8) : Nat := (modrm >>> 3 &&& 7).toNat

def rm (modrm : UInt8) : Nat := (modrm &&& 7).toNat

def extension (rex bit : UInt8) : Nat := if rex &&& bit = 0 then 0 else 8

/-- The operand of a ModRM byte: a register, or a register with a
displacement, where the number of `%rsp` announces another byte. -/
def operand (rex modrm : UInt8) : Reader UInt8 Operand :=
  if mode modrm = 3 then
    pure (.register (rm modrm + extension rex 1))
  else if mode modrm = 1 then
    if rm modrm = 4 then do
      let sib ← item
      if sib = 0x24 then do
        let displacement ← item
        pure (.memory (4 + extension rex 1) displacement)
      else failure
    else do
      let displacement ← item
      pure (.memory (rm modrm + extension rex 1) displacement)
  else failure

/-- After a REX prefix that widens to eight bytes. -/
def wideInstruction (rex : UInt8) : Reader UInt8 X86 := do
  let opcode ← item
  let modrm ← item
  if opcode = 0x89 then do
    let destination ← operand rex modrm
    pure (.mov true destination (reg modrm + extension rex 4))
  else if mode modrm = 3 ∧ reg modrm = 5 then
    if opcode = 0x81 then do
      let value ← items 4
      pure (.sub (rm modrm + extension rex 1) value)
    else if opcode = 0x83 then do
      let value ← items 1
      pure (.sub (rm modrm + extension rex 1) value)
    else failure
  else failure

/-- After the prefix of `%gs`: a load from an absolute address. -/
def gsInstruction : Reader UInt8 X86 := do
  let code ← items 4
  if code = [0x48, 0x8b, 0x04, 0x25] then do
    let address ← items 4
    pure (.movGs 0 address)
  else failure

/-- Any number of operand size prefixes, up to the longest instruction. -/
def prefixedNop : Nat → Reader UInt8 X86
  | 0 => failure
  | count + 1 => do
      let opcode ← item
      if opcode = 0x90 then pure .nop
      else if opcode = 0x66 then prefixedNop count
      else failure

/-- After `41`, the prefix that reaches the upper eight registers. -/
def upperPush : Reader UInt8 X86 := do
  let opcode ← item
  if opcode &&& 0xf8 = 0x50 then
    pure (.push ((opcode &&& 7).toNat + 8))
  else failure

/-- Two registers, of four bytes each. -/
def registers (make : Nat → Nat → X86) : Reader UInt8 X86 := do
  let modrm ← item
  if mode modrm = 3 then pure (make (rm modrm) (reg modrm))
  else failure

def testRegister : Reader UInt8 X86 := do
  let modrm ← item
  if mode modrm = 3 ∧ reg modrm = 0 then do
    let value ← items 4
    pure (.test (rm modrm) value)
  else failure

/-- The instructions that only `x86_64` has, or has in another place. -/
def longInstruction (opcode : UInt8) : Reader UInt8 X86 :=
  if opcode &&& 0xfa = 0x48 then wideInstruction opcode
  else if opcode = 0x41 then upperPush
  else if opcode = 0x65 then gsInstruction
  else if opcode = 0x66 then prefixedNop 14
  else failure

def decode (architecture : Architecture) : Reader UInt8 X86 := do
  let opcode ← item
  if opcode &&& 0xf8 = 0x50 then pure (.push (opcode &&& 7).toNat)
  else if opcode = 0x89 then
    registers fun destination source =>
      .mov false (.register destination) source
  else if opcode = 0x31 then registers .xor
  else if opcode = 0xf7 then testRegister
  else if architecture = .x86_64 then longInstruction opcode
  else failure

theorem local_operand (rex modrm : UInt8) :
    (operand rex modrm).Local 2 := by
  apply Local.ite
  · exact local_pure 2 _
  · apply Local.ite
    · apply Local.ite
      · apply local_item_bind
        intro sib
        apply Local.ite
        · apply local_item_bind
          intro displacement
          exact local_pure 0 _
        · exact local_failure 1
      · apply local_item_bind
        intro displacement
        exact local_pure 1 _
    · exact local_failure 2

theorem local_wideInstruction (rex : UInt8) :
    (wideInstruction rex).Local 6 := by
  apply local_item_bind
  intro opcode
  apply local_item_bind
  intro modrm
  apply Local.ite
  · exact (local_operand rex modrm).bind fun _ => local_pure 2 _
  · apply Local.ite
    · apply Local.ite
      · apply local_items_bind 4
        intro value
        exact local_pure 0 _
      · apply Local.ite
        · apply local_items_bind 1
          intro value
          exact local_pure 3 _
        · exact local_failure 4
    · exact local_failure 4

theorem local_gsInstruction : gsInstruction.Local 8 := by
  apply local_items_bind 4
  intro code
  apply Local.ite
  · apply local_items_bind 4
    intro address
    exact local_pure 0 _
  · exact local_failure 4

theorem local_prefixedNop (count : Nat) :
    (prefixedNop count).Local count := by
  induction count with
  | zero => exact local_failure 0
  | succ count induction =>
      apply local_item_bind
      intro opcode
      apply Local.ite
      · exact local_pure count _
      · apply Local.ite
        · exact induction
        · exact local_failure count

theorem local_upperPush : upperPush.Local 1 := by
  apply local_item_bind
  intro opcode
  apply Local.ite
  · exact local_pure 0 _
  · exact local_failure 0

theorem local_registers (make : Nat → Nat → X86) :
    (registers make).Local 1 := by
  apply local_item_bind
  intro modrm
  apply Local.ite
  · exact local_pure 0 _
  · exact local_failure 0

theorem local_testRegister : testRegister.Local 5 := by
  apply local_item_bind
  intro modrm
  apply Local.ite
  · apply local_items_bind 4
    intro value
    exact local_pure 0 _
  · exact local_failure 4

theorem local_longInstruction (opcode : UInt8) :
    (longInstruction opcode).Local 14 := by
  apply Local.ite
  · exact (local_wideInstruction opcode).mono (by decide)
  · apply Local.ite
    · exact local_upperPush.mono (by decide)
    · apply Local.ite
      · exact local_gsInstruction.mono (by decide)
      · apply Local.ite
        · exact local_prefixedNop 14
        · exact local_failure 14

theorem local_decode (architecture : Architecture) :
    (decode architecture).Local 15 := by
  apply local_item_bind
  intro opcode
  apply Local.ite
  · exact local_pure 14 _
  · apply Local.ite
    · exact (local_registers _).mono (by decide)
    · apply Local.ite
      · exact (local_registers _).mono (by decide)
      · apply Local.ite
        · exact local_testRegister.mono (by decide)
        · apply Local.ite
          · exact local_longInstruction opcode
          · exact local_failure 14

theorem decode_nearJump (architecture : Architecture)
    (rest : List UInt8) : decode architecture (0xe9 :: rest) = none := by
  cases architecture with
  | x86_64 => rfl
  | i386 => rfl

end X86

def Architecture.decoder (architecture : Architecture) : Decoder X86 where
  limit := 15
  decode := X86.decode architecture
  isLocal := X86.local_decode architecture
  noJump := X86.decode_nearJump architecture

def Architecture.sizeofLong : Architecture → Nat
  | .x86_64 => 8
  | .i386 => 4

/-- The first `LENGTH` bytes of the arrays that `find_fork.sh` writes: for
the kernels of RHEL 5, 6 and 7, and for 2.6.32 elsewhere. -/
def Architecture.opcodes : Architecture → List (List UInt8)
  | .x86_64 =>
      [[0x41, 0x57, 0x49, 0x89, 0xd7, 0x41, 0x56, 0x49, 0x89, 0xce, 0x41,
        0x55],
      [0x55, 0x48, 0x89, 0xe5, 0x48, 0x81, 0xec, 0xb0, 0x00, 0x00, 0x00,
        0x48, 0x89, 0x5d, 0xd8, 0x4c, 0x89, 0x65, 0xe0, 0x4c, 0x89, 0x6d,
        0xe8, 0x4c, 0x89, 0x75, 0xf0, 0x4c, 0x89, 0x7d, 0xf8],
      [0x66, 0x66, 0x66, 0x66, 0x90, 0x55, 0x48, 0x89, 0xe5, 0x41, 0x57,
        0x41, 0x56, 0x41, 0x55, 0x49, 0x89, 0xfd, 0x41, 0x54, 0x53, 0x48,
        0x83, 0xec, 0x30],
      [0x41, 0x57, 0x41, 0x56, 0x49, 0x89, 0xce, 0x41, 0x55, 0x49, 0x89,
        0xfd, 0x41, 0x54, 0x55, 0x4c, 0x89, 0xcd, 0x53, 0x48, 0x89, 0xd3,
        0x48, 0x83, 0xec, 0x78, 0x65, 0x48, 0x8b, 0x04, 0x25, 0x28, 0x00,
        0x00, 0x00, 0x48, 0x89, 0x44, 0x24, 0x68, 0x31, 0xc0, 0xf7, 0xc7,
        0x00, 0x00, 0x00, 0x10, 0x48, 0x89, 0x74, 0x24, 0x20, 0x4c, 0x89,
        0x44, 0x24, 0x18]]
  | .i386 => [[0x55, 0x89, 0xcd, 0x57, 0x89, 0xc7]]

theorem Architecture.opcodes_block (architecture : Architecture) :
    ∀ opcode ∈ architecture.opcodes,
      (architecture.decoder.block opcode.length opcode).isSome := by
  cases architecture with
  | x86_64 => decide +kernel
  | i386 => decide +kernel

/-- The module was built with a table of `find_fork.sh`. -/
structure Tabled (architecture : Architecture) (config : Config) : Prop where
  long : config.sizeofLong = architecture.sizeofLong
  opcode : loadBytes config.opcode 0 config.length ∈ architecture.opcodes

/-- The bytes of `jumper` that `init_do_fork` stores. -/
def Config.jumperLength (config : Config) : Nat :=
  config.length + 1 + config.sizeofLong

/-- The kernel text, with `jumper` where the loader put it. -/
def hookedCode (config : Config) (image : Image) (jumper text : Memory) :
    Memory := fun address =>
  if image.jumper ≤ address ∧
      address < image.jumper + config.jumperLength then
    jumper (address - image.jumper)
  else text address

/-- The loader puts `jumper` elsewhere than the code of `do_fork`. -/
def JumperApart (config : Config) (image : Image) : Prop :=
  image.jumper + config.jumperLength ≤ config.start_add ∨
    config.end_add ≤ image.jumper

instance (config : Config) (image : Image) :
    Decidable (JumperApart config image) :=
  inferInstanceAs (Decidable (_ ∨ _))

theorem loadBytes_hookedCode_jumper
    {config : Config} {image : Image} {jumper text : Memory}
    {offset count : Nat} (fits : offset + count ≤ config.jumperLength) :
    loadBytes (hookedCode config image jumper text) (image.jumper + offset)
        count = loadBytes jumper offset count := by
  rw [← loadBytes_placeAt image.jumper jumper]
  apply loadBytes_congr
  intro address lower upper
  have inside : image.jumper ≤ address ∧
      address < image.jumper + config.jumperLength := by omega
  exact if_pos inside

theorem loadBytes_hookedCode_text
    {config : Config} {image : Image} {jumper text : Memory}
    (apart : JumperApart config image) :
    loadBytes (hookedCode config image jumper text) config.start_add
        config.length = loadBytes text config.start_add config.length := by
  apply loadBytes_congr
  intro address lower upper
  apply if_neg
  rw [JumperApart, Config.end_add] at apart
  omega

theorem loadBytes_text_of_patches
    {config : Config} {image : Image} {machine : Machine}
    (patches : Patches config image machine) :
    loadBytes machine.text config.start_add config.length =
      loadBytes config.opcode 0 config.length := by
  have matching := (matchesOpcode_iff config machine).mp patches.1
  have placed := loadBytes_placeAt config.start_add config.opcode 0
    config.length
  rw [Nat.add_zero] at placed
  rw [← placed]
  apply loadBytes_congr
  intro address lower upper
  have same := matching (address - config.start_add) (by omega)
  rw [Nat.add_sub_cancel' lower] at same
  exact same

theorem loadBytes_filledJumper_jump (config : Config) (image : Image)
    (jumper text : Memory) :
    loadBytes (filledJumper config image jumper text) config.length 5 =
      0xe9 ::
        (wordBytes config.sizeofLong (jumperDiff config image)).take 4 := by
  have covered : 5 ≤ (0xe9 ::
      wordBytes config.sizeofLong (jumperDiff config image)).length := by
    rw [List.length_cons, length_wordBytes]
    exact Nat.succ_le_succ config.wide
  exact loadBytes_storeBytes_take covered _ _

theorem loadBytes_hookedText_jump (config : Config) (image : Image)
    (text : Memory) :
    loadBytes (hookedText config image text) config.start_add 5 =
      0xe9 ::
        (wordBytes config.sizeofLong (wrapperDiff config image)).take 4 := by
  have covered : 5 ≤ (0xe9 ::
      wordBytes config.sizeofLong (wrapperDiff config image)).length := by
    rw [List.length_cons, length_wordBytes]
    exact Nat.succ_le_succ config.wide
  exact loadBytes_storeBytes_take covered _ _

theorem Config.room_for_jump (config : Config) :
    config.length + 5 ≤ config.jumperLength := by
  have wide := config.wide
  rw [jumperLength]
  omega

/-- The jump at the end of `jumper` leads to `END_ADD` exactly when it can
reach it. -/
theorem nearJump_hookedCode_jumper
    {config : Config} {image : Image} (jumper original text : Memory)
    (inRange : config.end_add < 256 ^ config.sizeofLong) :
    nearJump config.sizeofLong
        (hookedCode config image
          (filledJumper config image jumper original) text)
        (image.jumper + config.length) = some config.end_add ↔
      Rel32 (jumperDiff config image) := by
  apply nearJump_eq_some_iff config.wide inRange
  rw [loadBytes_hookedCode_jumper config.room_for_jump]
  exact loadBytes_filledJumper_jump config image jumper original

theorem nearJump_hookedCode_text
    {config : Config} {image : Image} (other original : Memory)
    (apart : JumperApart config image)
    (inRange : image.chos_do_fork < 256 ^ config.sizeofLong) :
    nearJump config.sizeofLong
        (hookedCode config image other (hookedText config image original))
        config.start_add = some image.chos_do_fork ↔
      Rel32 (wrapperDiff config image) := by
  apply nearJump_eq_some_iff config.wide inRange
  rw [loadBytes_shorter config.jump_fits (loadBytes_hookedCode_text apart)]
  exact loadBytes_hookedText_jump config image original

variable {δ : Type}

/-- What `count` instructions of `original` do at `START_ADD`, they do in
`jumper` too, and then the jump leads to `END_ADD`, if its displacement fits;
at `START_ADD` stands a jump to the wrapper, if that displacement fits. -/
structure Transparent (architecture : Architecture) (config : Config)
    (image : Image) (effect : X86 → δ → δ) (original hooked : Memory)
    (count : Nat) (data after : δ) : Prop where
  runs : architecture.decoder.steps effect config.sizeofLong original count
      { pc := config.start_add, data := data } =
    some { pc := config.end_add, data := after }
  moved : architecture.decoder.steps effect config.sizeofLong hooked
        (count + 1) { pc := image.jumper, data := data } =
      some { pc := config.end_add, data := after } ↔
    Rel32 (jumperDiff config image)
  wrapped : architecture.decoder.step effect config.sizeofLong hooked
        { pc := config.start_add, data := data } =
      some { pc := image.chos_do_fork, data := data } ↔
    Rel32 (wrapperDiff config image)

theorem steps_filledJumper
    {architecture : Architecture} {config : Config} (image : Image)
    (jumper text : Memory) {original : Memory} {instrs : List X86}
    (effect : X86 → δ → δ)
    (parsed : architecture.decoder.block config.length
      (patchedBytes config original) = some instrs) (data : δ) :
    architecture.decoder.steps effect config.sizeofLong
        (hookedCode config image
          (filledJumper config image jumper original) text)
        instrs.length { pc := image.jumper, data := data } =
      some
        { pc := image.jumper + config.length
          data := Decoder.run effect instrs data } := by
  have fits : 0 + config.length ≤ config.jumperLength := by
    have room := config.room_for_jump
    omega
  have placed : loadBytes (hookedCode config image
      (filledJumper config image jumper original) text) image.jumper
      config.length = patchedBytes config original :=
    (loadBytes_hookedCode_jumper fits).trans
      (loadBytes_filledJumper config image jumper original)
  have length : (patchedBytes config original).length =
      config.length := length_loadBytes _ _ _
  rw [← length] at placed ⊢
  exact Decoder.steps_block effect config.sizeofLong parsed placed data

/-- An installed patch is transparent, whatever the instructions do. -/
theorem initDoFork_transparent
    {architecture : Architecture} {config : Config} {image : Image}
    {jumper saved : Memory} {machine patched : Machine}
    (effect : X86 → δ → δ)
    (tabled : Tabled architecture config)
    (apart : JumperApart config image)
    (endInRange : config.end_add < 256 ^ config.sizeofLong)
    (wrapperInRange : image.chos_do_fork < 256 ^ config.sizeofLong)
    (returned : initDoFork config image jumper machine =
      some (0, saved, patched)) :
    ∃ count, ∃ after : δ → δ, ∀ data,
      Transparent architecture config image effect machine.text
        (hookedCode config image saved patched.text) count data
        (after data) := by
  have patches := (initDoFork_eq_zero_iff returned).mp rfl
  obtain ⟨_, same⟩ := (initDoFork_of_patches patches jumper).mp returned
  cases same
  obtain ⟨instrs, parsed⟩ := Option.isSome_iff_exists.mp
    (architecture.opcodes_block _ tabled.opcode)
  rw [← loadBytes_text_of_patches patches, length_loadBytes] at parsed
  refine ⟨instrs.length, Decoder.run effect instrs, ?_⟩
  intro data
  constructor
  · have executed := Decoder.steps_block effect config.sizeofLong parsed
      (by rw [length_loadBytes]) data
    rw [length_loadBytes] at executed
    exact executed
  · have behind := @loadBytes_hookedCode_jumper config image
      (filledJumper config image jumper machine.text)
      (hookedText config image machine.text) _ _ config.room_for_jump
    rw [loadBytes_filledJumper_jump] at behind
    rw [Decoder.steps_add (steps_filledJumper image jumper _ effect parsed
        data),
      Decoder.steps_one,
      Decoder.step_eq_some_iff (List.cons.inj behind).1,
      nearJump_hookedCode_jumper jumper machine.text _ endInRange]
  · have start := loadBytes_shorter config.jump_fits
      (@loadBytes_hookedCode_text config image
        (filledJumper config image jumper machine.text)
        (hookedText config image machine.text) apart)
    rw [loadBytes_hookedText_jump] at start
    rw [Decoder.step_eq_some_iff (List.cons.inj start).1,
      nearJump_hookedCode_text _ machine.text apart wrapperInRange]

/-- A push of a register, on a stack of the pushed registers. -/
def pushOnly (instr : X86) (stack : List Nat) : List Nat :=
  match instr with
  | .push register => register :: stack
  | _ => stack

theorem initDoFork_transparent_rhel5 :
    ∃ saved patched,
      initDoFork rhel5 above (fun _ => 0) (pristine rhel5) =
        some (0, saved, patched) ∧
      ∃ count, ∃ after : List Nat → List Nat, ∀ data,
        Transparent .x86_64 rhel5 above pushOnly (pristine rhel5).text
          (hookedCode rhel5 above saved patched.text) count data
          (after data) := by
  have patches : Patches rhel5 above (pristine rhel5) := by decide +kernel
  have returned := (initDoFork_of_patches patches (fun _ => 0)).mpr
    ⟨pagesOpen_of_fits (by decide) (by decide +kernel), rfl⟩
  refine ⟨_, _, returned, ?_⟩
  apply initDoFork_transparent pushOnly _ _ _ _ returned
  · exact ⟨rfl, by decide +kernel⟩
  · decide +kernel
  · decide +kernel
  · decide +kernel

end Chos.Kernel
