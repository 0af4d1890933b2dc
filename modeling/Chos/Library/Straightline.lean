import Chos.Library.Bytes

/-!
# Straight-line code

A reader takes a value from the front of a stream; it is local when the
symbols it took decide the value.  A local reader of instructions makes a
machine whose code can be moved: a block of instructions that all fall
through does the same wherever it stands, and leads to the address behind it.
What the instructions do is a parameter.
-/

namespace Chos.Library

abbrev Reader (σ : Type) := StateT (List σ) Option

namespace Reader

variable {σ α β : Type}

def item : Reader σ σ := fun stream =>
  match stream with
  | [] => none
  | symbol :: rest => some (symbol, rest)

def items : Nat → Reader σ (List σ)
  | 0 => pure []
  | count + 1 => do
      let symbol ← item
      let rest ← items count
      return symbol :: rest

/-- The value depends on the symbols that were taken, at most `bound` of
them, and on nothing behind them. -/
def Local (bound : Nat) (reader : Reader σ α) : Prop :=
  ∀ stream value rest, reader stream = some (value, rest) →
    ∃ used, stream = used ++ rest ∧ used.length ≤ bound ∧
      ∀ other, reader (used ++ other) = some (value, other)

theorem Local.mono {less more : Nat} (le : less ≤ more)
    {reader : Reader σ α} (isLocal : reader.Local less) :
    reader.Local more := by
  intro stream value rest read
  obtain ⟨used, split, bounded, stable⟩ := isLocal stream value rest read
  exact ⟨used, split, Nat.le_trans bounded le, stable⟩

theorem local_pure (bound : Nat) (value : α) :
    (pure value : Reader σ α).Local bound := by
  intro stream _ rest read
  cases read
  exact ⟨[], rfl, Nat.zero_le bound, fun _ => rfl⟩

theorem local_failure (bound : Nat) :
    (failure : Reader σ α).Local bound := by
  intro stream value rest read
  cases read

theorem local_item : (item : Reader σ σ).Local 1 := by
  intro stream value rest read
  cases stream with
  | nil => cases read
  | cons symbol stream =>
      cases read
      exact ⟨[value], rfl, Nat.le_refl 1, fun _ => rfl⟩

theorem Local.bind {first second : Nat} {reader : Reader σ α}
    {next : α → Reader σ β} (isLocal : reader.Local first)
    (nextLocal : ∀ value, (next value).Local second) :
    (reader >>= next).Local (first + second) := by
  intro stream result rest read
  obtain ⟨⟨value, middle⟩, taken, later⟩ := Option.bind_eq_some_iff.mp read
  obtain ⟨used, rfl, bounded, stable⟩ := isLocal stream value middle taken
  obtain ⟨more, rfl, moreBounded, moreStable⟩ :=
    nextLocal value middle result rest later
  refine ⟨used ++ more, by simp, by simp; omega, ?_⟩
  intro other
  rw [List.append_assoc]
  apply Option.bind_eq_some_iff.mpr
  exact ⟨(value, more ++ other), stable _, moreStable other⟩

theorem Local.ite {bound : Nat} {condition : Prop} [Decidable condition]
    {yes no : Reader σ α} (yesLocal : yes.Local bound)
    (noLocal : no.Local bound) :
    (if condition then yes else no).Local bound := by
  split
  · exact yesLocal
  · exact noLocal

theorem local_items (count : Nat) :
    (items count : Reader σ (List σ)).Local count := by
  induction count with
  | zero => exact local_pure 0 []
  | succ count induction =>
      have both := local_item.bind fun symbol : σ =>
        induction.bind fun rest => local_pure 0 (symbol :: rest)
      exact both.mono (by omega)

theorem local_item_bind {bound : Nat} {next : σ → Reader σ β}
    (nextLocal : ∀ symbol, (next symbol).Local bound) :
    (item >>= next).Local (bound + 1) := by
  rw [Nat.add_comm]
  exact local_item.bind nextLocal

theorem local_items_bind {bound : Nat} (count : Nat)
    {next : List σ → Reader σ β}
    (nextLocal : ∀ symbols, (next symbols).Local bound) :
    (items count >>= next).Local (bound + count) := by
  rw [Nat.add_comm]
  exact (local_items count).bind nextLocal

end Reader

/-- Where a machine stands, and everything else about it but the code. -/
structure Point (δ : Type) where
  pc : Nat
  data : δ
  deriving DecidableEq, Repr

/-- A local reader of instructions of at most `limit` bytes.  The near jump
is not one of them. -/
structure Decoder (ι : Type) where
  limit : Nat
  decode : Reader UInt8 ι
  isLocal : decode.Local limit
  noJump : ∀ rest, decode (0xe9 :: rest) = none

namespace Decoder

variable {ι δ : Type} (decoder : Decoder ι) (effect : ι → δ → δ)

/-- One instruction: a near jump, or one that falls through. -/
def step (width : Nat) (code : Memory) (point : Point δ) :
    Option (Point δ) :=
  match nearJump width code point.pc with
  | some target => some { point with pc := target }
  | none =>
      match decoder.decode (loadBytes code point.pc decoder.limit) with
      | none => none
      | some (instr, rest) =>
          some
            { pc := point.pc + (decoder.limit - rest.length)
              data := effect instr point.data }

def steps (width : Nat) (code : Memory) :
    Nat → Point δ → Option (Point δ)
  | 0, point => some point
  | count + 1, point =>
      match decoder.step effect width code point with
      | none => none
      | some next => steps width code count next

/-- The instructions of a byte string that ends where an instruction ends. -/
def block : Nat → List UInt8 → Option (List ι)
  | _, [] => some []
  | 0, _ :: _ => none
  | fuel + 1, byte :: bytes =>
      match decoder.decode (byte :: bytes) with
      | none => none
      | some (instr, rest) => (block fuel rest).map (instr :: ·)

def run (instrs : List ι) (data : δ) : δ :=
  instrs.foldl (fun data instr => effect instr data) data

end Decoder

theorem loadBytes_append (memory : Memory) (address first second : Nat) :
    loadBytes memory address (first + second) =
      loadBytes memory address first ++
        loadBytes memory (address + first) second := by
  induction first generalizing address with
  | zero => simp [loadBytes]
  | succ first induction =>
      rw [Nat.succ_add, loadBytes, induction, loadBytes, List.cons_append,
        Nat.add_right_comm, Nat.add_assoc]

namespace Decoder

variable {ι δ : Type} {decoder : Decoder ι} {effect : ι → δ → δ}
  {width : Nat} {code : Memory}

theorem steps_add {first second : Nat} {start middle : Point δ}
    (reached : decoder.steps effect width code first start = some middle) :
    decoder.steps effect width code (first + second) start =
      decoder.steps effect width code second middle := by
  induction first generalizing start with
  | zero =>
      cases reached
      rw [Nat.zero_add]
  | succ first induction =>
      rw [Nat.succ_add, steps]
      rw [steps] at reached
      cases stepped : decoder.step effect width code start with
      | none =>
          rw [stepped] at reached
          cases reached
      | some next =>
          rw [stepped] at reached
          exact induction reached

theorem steps_one (point : Point δ) :
    decoder.steps effect width code 1 point =
      decoder.step effect width code point := by
  rw [steps]
  cases decoder.step effect width code point with
  | none => rfl
  | some next => rfl

theorem step_of_nearJump {point : Point δ} {target : Nat}
    (jumps : nearJump width code point.pc = some target) :
    decoder.step effect width code point =
      some { point with pc := target } := by
  rw [step, jumps]

/-- Where a jump stands, a step leads where the jump leads. -/
theorem step_eq_some_iff {pc target : Nat} {data : δ}
    (opcode : code pc = 0xe9) :
    decoder.step effect width code { pc := pc, data := data } =
        some { pc := target, data := data } ↔
      nearJump width code pc = some target := by
  constructor
  · intro stepped
    obtain ⟨actual, jumps⟩ : ∃ actual,
        nearJump width code pc = some actual :=
      ⟨_, if_pos opcode⟩
    rw [step_of_nearJump jumps] at stepped
    have same : actual = target :=
      congrArg Point.pc (Option.some.inj stepped)
    rw [jumps, same]
  · intro jumps
    exact step_of_nearJump jumps

/-- The step over an instruction that stands at the program counter. -/
theorem step_of_decode {bytes rest : List UInt8} {instr : ι}
    (decoded : decoder.decode bytes = some (instr, rest)) {pc : Nat}
    (placed : loadBytes code pc bytes.length = bytes) (data : δ) :
    ∃ used, bytes = used ++ rest ∧ used ≠ [] ∧
      decoder.step effect width code { pc := pc, data := data } =
        some
          { pc := pc + used.length
            data := effect instr data } := by
  obtain ⟨used, rfl, bounded, stable⟩ :=
    decoder.isLocal bytes instr rest decoded
  have nonempty : used ≠ [] := by
    rintro rfl
    have impossible := stable [0xe9]
    rw [List.nil_append, decoder.noJump] at impossible
    cases impossible
  have front : loadBytes code pc used.length = used := by
    rw [List.length_append, loadBytes_append] at placed
    exact (List.append_inj placed (length_loadBytes _ _ _)).1
  have window : loadBytes code pc decoder.limit =
      used ++ loadBytes code (pc + used.length)
        (decoder.limit - used.length) := by
    have split := loadBytes_append code pc used.length
      (decoder.limit - used.length)
    rw [Nat.add_sub_cancel' bounded, front] at split
    exact split
  have noJump : nearJump width code pc = none := by
    apply if_neg
    intro jump
    obtain ⟨first, later, rfl⟩ := List.exists_cons_of_ne_nil nonempty
    have same : code pc = first := (List.cons.inj front).1
    have impossible := stable []
    rw [← same, jump, List.append_nil, decoder.noJump] at impossible
    cases impossible
  refine ⟨used, rfl, nonempty, ?_⟩
  rw [step, noJump, window, stable]
  simp only [length_loadBytes, Option.some.injEq, Point.mk.injEq, and_true]
  omega

/-- A block does the same wherever it stands, and ends behind itself. -/
theorem steps_block (effect : ι → δ → δ) (width : Nat) {fuel : Nat}
    {bytes : List UInt8} {instrs : List ι}
    (parsed : decoder.block fuel bytes = some instrs) {pc : Nat}
    (placed : loadBytes code pc bytes.length = bytes) (data : δ) :
    decoder.steps effect width code instrs.length
        { pc := pc, data := data } =
      some
        { pc := pc + bytes.length
          data := run effect instrs data } := by
  induction fuel generalizing bytes instrs pc data with
  | zero =>
      cases bytes with
      | nil =>
          cases parsed
          rfl
      | cons byte bytes => cases parsed
  | succ fuel induction =>
      cases bytes with
      | nil =>
          cases parsed
          rfl
      | cons byte bytes =>
          rw [block] at parsed
          cases decoded : decoder.decode (byte :: bytes) with
          | none =>
              rw [decoded] at parsed
              cases parsed
          | some result =>
              obtain ⟨instr, rest⟩ := result
              rw [decoded] at parsed
              obtain ⟨later, parsedLater, rfl⟩ :=
                Option.map_eq_some_iff.mp parsed
              obtain ⟨used, split, _, stepped⟩ :=
                step_of_decode decoded placed data
              rw [split, List.length_append, loadBytes_append] at placed
              have behind := (List.append_inj placed
                (length_loadBytes _ _ _)).2
              rw [List.length_cons, steps, stepped]
              dsimp only
              rw [induction parsedLater behind, split, List.length_append,
                Nat.add_assoc]
              rfl

end Decoder

/-- A jump whose displacement was stored as a full word leads to its target
exactly when the part of it that is decoded has room for it. -/
theorem nearJump_storeBytes_iff
    {width target address : Nat} (wide : 4 ≤ width) (memory : Memory)
    (inRange : target < 256 ^ width) :
    nearJump width
        (storeBytes (Function.update memory address 0xe9) (address + 1)
          (wordBytes width (addressDiff width target (address + 5))))
        address = some target ↔
      Rel32 (addressDiff width target (address + 5)) := by
  constructor
  · intro lands
    let diff := addressDiff width target (address + 5)
    let short := Int.bmod diff (256 ^ 4)
    have first : storeBytes (Function.update memory address 0xe9)
        (address + 1) (wordBytes width diff) address = 0xe9 := by
      rw [storeBytes_of_outside (Or.inl (Nat.lt_succ_self address)),
        Function.update_self]
    have space : 256 ^ 4 ≤ 256 ^ width :=
      Nat.pow_le_pow_right (by norm_num) wide
    have lower : -(256 ^ 4 / 2 : Int) ≤ short :=
      @Int.le_bmod diff (256 ^ 4) (by norm_num)
    have upper : short < (256 ^ 4 + 1 : Int) / 2 :=
      @Int.bmod_lt diff (256 ^ 4) (by norm_num)
    have landing : (((address + 5 : Nat) : Int) + short) %
        (256 ^ width : Nat) = target := by
      rw [nearJump, if_pos first,
        loadWord_storeBytes_wordBytes wide _ (address + 1) diff] at lands
      have value := congrArg (Nat.cast : Nat → Int) (Option.some.inj lands)
      rw [Int.toNat_of_nonneg (Int.emod_nonneg _ (by positivity))] at value
      push_cast at value ⊢
      exact value
    have divides : ((256 ^ width : Nat) : Int) ∣
        short - (target - (address + 5 : Nat)) := by
      have far : ((256 ^ width : Nat) : Int) ∣
          ((address + 5 : Nat) : Int) + short - target :=
        Int.dvd_self_sub_of_emod_eq landing
      rw [show short - ((target : Int) - (address + 5 : Nat)) =
        ((address + 5 : Nat) : Int) + short - target by ring]
      exact far
    -- both displacements are balanced, the one in four bytes and the other
    -- in the whole address space, so they are one number
    have same : diff = short := by
      apply (Int.bmod_eq_iff (by positivity)).mpr
      refine ⟨?_, ?_, divides⟩
      · omega
      · omega
    change Rel32 diff
    rw [same]
    constructor
    · omega
    · omega
  · exact nearJump_storeBytes wide memory inRange

/-- The same of a jump that is known by its bytes. -/
theorem nearJump_eq_some_iff
    {width target address : Nat} {code : Memory} (wide : 4 ≤ width)
    (inRange : target < 256 ^ width)
    (stands : loadBytes code address 5 = 0xe9 ::
      (wordBytes width (addressDiff width target (address + 5))).take 4) :
    nearJump width code address = some target ↔
      Rel32 (addressDiff width target (address + 5)) := by
  rw [← nearJump_storeBytes_iff wide code inRange]
  have covered : 5 ≤ (0xe9 :: wordBytes width
      (addressDiff width target (address + 5))).length := by
    rw [List.length_cons, length_wordBytes]
    exact Nat.succ_le_succ wide
  have stored : loadBytes (storeBytes (Function.update code address 0xe9)
      (address + 1) (wordBytes width
        (addressDiff width target (address + 5)))) address 5 =
      loadBytes code address 5 := by
    rw [stands]
    exact loadBytes_storeBytes_take covered code address
  rw [nearJump_congr width stored]

end Chos.Library
