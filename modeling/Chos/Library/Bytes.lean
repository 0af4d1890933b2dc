import Mathlib.Data.Int.ModEq
import Mathlib.Logic.Function.Basic
import Mathlib.Tactic.NormNum
import Mathlib.Tactic.Ring

/-!
# Bytes, words and near jumps

Byte-addressed memory, little-endian words of any width, and the five-byte
jump `e9 rel32` of the x86 instruction set.  Values are integers and are
stored in two's complement, so a store of a wide word writes the bytes of the
sign as well.
-/

namespace Chos.Library

abbrev Memory := Nat → UInt8

def loadBytes (memory : Memory) : Nat → Nat → List UInt8
  | _, 0 => []
  | address, count + 1 =>
      memory address :: loadBytes memory (address + 1) count

def storeBytes (memory : Memory) : Nat → List UInt8 → Memory
  | _, [] => memory
  | address, byte :: bytes =>
      storeBytes (Function.update memory address byte) (address + 1) bytes

@[simp] theorem length_loadBytes (memory : Memory) (address count : Nat) :
    (loadBytes memory address count).length = count := by
  induction count generalizing address with
  | zero => rfl
  | succ count induction => simp [loadBytes, induction]

theorem storeBytes_of_outside
    {bytes : List UInt8} {memory : Memory} {address other : Nat}
    (outside : other < address ∨ address + bytes.length ≤ other) :
    storeBytes memory address bytes other = memory other := by
  induction bytes generalizing memory address with
  | nil => rfl
  | cons byte bytes induction =>
      rw [List.length_cons] at outside
      have further : other < address + 1 ∨
          address + 1 + bytes.length ≤ other := by omega
      have elsewhere : other ≠ address := by omega
      rw [storeBytes, induction further,
        Function.update_of_ne elsewhere byte memory]

theorem loadBytes_congr
    {left right : Memory} {address count : Nat}
    (same : ∀ other, address ≤ other → other < address + count →
      left other = right other) :
    loadBytes left address count = loadBytes right address count := by
  induction count generalizing address with
  | zero => rfl
  | succ count induction =>
      have first : left address = right address := same address
        (Nat.le_refl address) (by omega)
      have rest : loadBytes left (address + 1) count =
          loadBytes right (address + 1) count := by
        apply induction
        intro other lower upper
        exact same other (by omega) (by omega)
      rw [loadBytes, loadBytes, first, rest]

theorem loadBytes_storeBytes
    (memory : Memory) (address : Nat) (bytes : List UInt8) :
    loadBytes (storeBytes memory address bytes) address bytes.length =
      bytes := by
  induction bytes generalizing memory address with
  | nil => rfl
  | cons byte bytes induction =>
      rw [storeBytes, List.length_cons, loadBytes, induction,
        storeBytes_of_outside (Or.inl (by omega)), Function.update_self]

theorem loadBytes_storeBytes_of_outside
    {memory : Memory} {address start count : Nat} {bytes : List UInt8}
    (outside : start + count ≤ address ∨
      address + bytes.length ≤ start) :
    loadBytes (storeBytes memory address bytes) start count =
      loadBytes memory start count := by
  apply loadBytes_congr
  intro other lower upper
  exact storeBytes_of_outside (by omega)

theorem loadBytes_eq_iff
    {left right : Memory} {address count : Nat} :
    loadBytes left address count = loadBytes right address count ↔
      ∀ other, address ≤ other → other < address + count →
        left other = right other := by
  constructor
  · induction count generalizing address with
    | zero => intro _ other lower upper; omega
    | succ count induction =>
        intro same other lower upper
        obtain ⟨first, rest⟩ := List.cons.inj same
        rcases Nat.eq_or_lt_of_le lower with equal | later
        · rw [← equal]
          exact first
        · exact induction rest other later (by omega)
  · exact loadBytes_congr

/-- A shorter read of two memories that agree on a longer one. -/
theorem loadBytes_shorter
    {left right : Memory} {address short long : Nat} (fits : short ≤ long)
    (same : loadBytes left address long = loadBytes right address long) :
    loadBytes left address short = loadBytes right address short := by
  apply loadBytes_congr
  intro other lower upper
  exact loadBytes_eq_iff.mp same other lower (by omega)

/-- The low `width` bytes of a number, the least significant first. -/
def leBytes : Nat → Nat → List UInt8
  | 0, _ => []
  | width + 1, value =>
      UInt8.ofNat (value % 256) :: leBytes width (value / 256)

def ofLeBytes : List UInt8 → Nat
  | [] => 0
  | byte :: bytes => byte.toNat + 256 * ofLeBytes bytes

@[simp] theorem length_leBytes (width value : Nat) :
    (leBytes width value).length = width := by
  induction width generalizing value with
  | zero => rfl
  | succ width induction => simp [leBytes, induction]

theorem ofLeBytes_leBytes (width value : Nat) :
    ofLeBytes (leBytes width value) = value % 256 ^ width := by
  induction width generalizing value with
  | zero => simp [leBytes, ofLeBytes, Nat.mod_one]
  | succ width induction =>
      have low : (UInt8.ofNat (value % 256)).toNat = value % 256 := by
        rw [UInt8.toNat_ofNat']
        exact Nat.mod_eq_of_lt (Nat.mod_lt value (by norm_num))
      rw [leBytes, ofLeBytes, induction, low, pow_succ', Nat.mod_mul]

/-- The bytes of a wide word begin with those of a narrower one. -/
theorem take_leBytes {short long : Nat} (fits : short ≤ long) (value : Nat) :
    (leBytes long value).take short = leBytes short value := by
  induction short generalizing long value with
  | zero => rfl
  | succ short induction =>
      obtain ⟨wide, rfl⟩ : ∃ wide, long = wide + 1 :=
        ⟨long - 1, by omega⟩
      rw [leBytes, leBytes, List.take_succ_cons, induction (by omega)]

/-- An integer as a word of `width` bytes, in two's complement. -/
def wordBytes (width : Nat) (value : Int) : List UInt8 :=
  leBytes width (value % 256 ^ width).toNat

@[simp] theorem length_wordBytes (width : Nat) (value : Int) :
    (wordBytes width value).length = width := length_leBytes _ _

/-- The word of `width` bytes at an address, read as a signed integer. -/
def loadWord (width : Nat) (memory : Memory) (address : Nat) : Int :=
  Int.bmod (ofLeBytes (loadBytes memory address width)) (256 ^ width)

theorem loadBytes_take
    {memory : Memory} {address short long : Nat} (fits : short ≤ long) :
    (loadBytes memory address long).take short =
      loadBytes memory address short := by
  induction short generalizing address long with
  | zero => rfl
  | succ short induction =>
      obtain ⟨wide, rfl⟩ : ∃ wide, long = wide + 1 :=
        ⟨long - 1, by omega⟩
      rw [loadBytes, loadBytes, List.take_succ_cons, induction (by omega)]

theorem loadBytes_storeBytes_take
    {bytes : List UInt8} {count : Nat} (fits : count ≤ bytes.length)
    (memory : Memory) (address : Nat) :
    loadBytes (storeBytes memory address bytes) address count =
      bytes.take count := by
  rw [← loadBytes_take fits, loadBytes_storeBytes]

def placeAt (base : Nat) (memory : Memory) : Memory :=
  fun address => memory (address - base)

@[simp] theorem loadBytes_placeAt (base : Nat) (memory : Memory)
    (address count : Nat) :
    loadBytes (placeAt base memory) (base + address) count =
      loadBytes memory address count := by
  induction count generalizing address with
  | zero => rfl
  | succ count induction =>
      have first : placeAt base memory (base + address) = memory address := by
        rw [placeAt, Nat.add_sub_cancel_left]
      rw [loadBytes, loadBytes, first, Nat.add_assoc, induction]

/-- Reading a narrow word where a wide one was stored gives the value modulo
the narrow width, as a signed number. -/
theorem loadWord_storeBytes_wordBytes
    {short long : Nat} (fits : short ≤ long) (memory : Memory)
    (address : Nat) (value : Int) :
    loadWord short (storeBytes memory address (wordBytes long value))
      address = Int.bmod value (256 ^ short) := by
  have stored :
      loadBytes (storeBytes memory address (wordBytes long value)) address
        short = leBytes short (value % 256 ^ long).toNat := by
    have covered : short ≤ (wordBytes long value).length := by
      rw [length_wordBytes]
      exact fits
    rw [loadBytes_storeBytes_take covered, wordBytes, take_leBytes fits]
  have nonneg : 0 ≤ value % 256 ^ long :=
    Int.emod_nonneg value (by positivity)
  have divides : (256 : Int) ^ short ∣ 256 ^ long := pow_dvd_pow 256 fits
  have low : ((ofLeBytes (leBytes short (value % 256 ^ long).toNat) : Nat) :
      Int) = value % 256 ^ short := by
    rw [ofLeBytes_leBytes]
    push_cast
    rw [Int.toNat_of_nonneg nonneg, Int.emod_emod_of_dvd value divides]
  rw [loadWord, stored, low]
  have cast : ((256 ^ short : Nat) : Int) = (256 : Int) ^ short := by
    push_cast
    rfl
  rw [← cast, Int.emod_bmod]

/-- The target of the jump `e9 rel32` at an address, for addresses of `width`
bytes; `none` when another instruction stands there. -/
def nearJump (width : Nat) (memory : Memory) (address : Nat) : Option Nat :=
  if memory address = 0xe9 then
    some (((address + 5 : Nat) + loadWord 4 memory (address + 1)) %
      256 ^ width).toNat
  else none

theorem nearJump_congr
    {left right : Memory} {address : Nat} (width : Nat)
    (same : loadBytes left address 5 = loadBytes right address 5) :
    nearJump width left address = nearJump width right address := by
  obtain ⟨opcode, displacement⟩ := List.cons.inj same
  have word : loadWord 4 left (address + 1) =
      loadWord 4 right (address + 1) := by
    rw [loadWord, loadWord, displacement]
  rw [nearJump, nearJump, opcode, word]

/-- The difference of two addresses of `width` bytes. -/
def addressDiff (width target source : Nat) : Int :=
  Int.bmod ((target : Int) - source) (256 ^ width)

/-- The displacement fits into the four bytes a near jump has for it. -/
def Rel32 (displacement : Int) : Prop :=
  -2 ^ 31 ≤ displacement ∧ displacement < 2 ^ 31

instance (displacement : Int) : Decidable (Rel32 displacement) :=
  inferInstanceAs (Decidable (_ ∧ _))

/-- A jump whose displacement was stored as a full word leads to its target,
provided the displacement fits into the part of it that is decoded. -/
theorem nearJump_storeBytes
    {width target address : Nat} (wide : 4 ≤ width)
    (memory : Memory)
    (inRange : target < 256 ^ width)
    (reach : Rel32 (addressDiff width target (address + 5))) :
    nearJump width
      (storeBytes (Function.update memory address 0xe9) (address + 1)
        (wordBytes width (addressDiff width target (address + 5)))) address =
      some target := by
  let diff := addressDiff width target (address + 5)
  have first : storeBytes (Function.update memory address 0xe9) (address + 1)
      (wordBytes width diff) address = 0xe9 := by
    rw [storeBytes_of_outside (Or.inl (Nat.lt_succ_self address)),
      Function.update_self]
  have displacement : Int.bmod diff (256 ^ 4) = diff := by
    apply Int.bmod_eq_of_le
    · have lower := reach.1
      norm_num at lower ⊢
      exact lower
    · have upper := reach.2
      norm_num at upper ⊢
      exact upper
  have landing : (((address + 5 : Nat) : Int) + diff) % 256 ^ width =
      target := by
    have cast : ((256 ^ width : Nat) : Int) = (256 : Int) ^ width := by
      push_cast
      rfl
    have congruent : ((address + 5 : Nat) : Int) + diff ≡
        target [ZMOD (256 ^ width : Nat)] := by
      have step : diff ≡ target - (address + 5 : Nat)
          [ZMOD (256 ^ width : Nat)] := Int.bmod_emod
      calc ((address + 5 : Nat) : Int) + diff
          ≡ (address + 5 : Nat) + (target - (address + 5 : Nat))
              [ZMOD (256 ^ width : Nat)] := step.add_left _
        _ = target := by ring
    rw [← cast, congruent.eq]
    exact Int.emod_eq_of_lt (Int.natCast_nonneg target)
      (by exact_mod_cast inRange)
  rw [nearJump, if_pos first,
    loadWord_storeBytes_wordBytes wide _ (address + 1) diff, displacement,
    landing, Int.toNat_natCast]

end Chos.Library
