import Mathlib.Data.Nat.Count
import Mathlib.Logic.Function.Basic

/-!
# Counting the slots that hold a value

`holders size slot value` is the number of indices below `size` whose slot
holds `value`.  It is the quantity a reference counter is meant to track;
the lemmas say how it moves when one slot is overwritten.
-/

namespace Chos.Library

variable {β : Type*} [DecidableEq β]

def holders (size : Nat) (slot : Nat → Option β) (value : β) : Nat :=
  Nat.count (fun index => slot index = some value) size

/-- One if the slot holds the value, zero otherwise. -/
def holds (content : Option β) (value : β) : Nat :=
  if content = some value then 1 else 0

@[simp] theorem holds_none (value : β) : holds none value = 0 := by
  simp [holds]

@[simp] theorem holds_self (value : β) : holds (some value) value = 1 := by
  simp [holds]

theorem holds_of_ne {held value : β} (different : held ≠ value) :
    holds (some held) value = 0 := by
  simp [holds, different]

theorem eq_of_holds_pos {content : Option β} {value : β}
    (positive : 0 < holds content value) : content = some value := by
  by_contra different
  rw [holds, if_neg different] at positive
  exact Nat.lt_irrefl 0 positive

theorem holders_congr {size : Nat} {slot slot' : Nat → Option β}
    (agree : ∀ index < size, slot' index = slot index) (value : β) :
    holders size slot' value = holders size slot value := by
  induction size with
  | zero => rfl
  | succ size induction =>
      simp only [holders, Nat.count_succ]
      have rest := induction fun index below =>
        agree index (Nat.lt_succ_of_lt below)
      simp only [holders] at rest
      rw [rest, agree size (Nat.lt_succ_self size)]

/-- Overwriting one slot loses what it held and gains the new content. -/
theorem holders_update {size index : Nat} (below : index < size)
    (slot : Nat → Option β) (content : Option β) (value : β) :
    holders size (Function.update slot index content) value +
        holds (slot index) value =
      holders size slot value + holds content value := by
  induction size with
  | zero => exact absurd below (Nat.not_lt_zero index)
  | succ size induction =>
      by_cases last : index = size
      · subst last
        have front : holders index (Function.update slot index content) value =
            holders index slot value := by
          apply holders_congr
          intro other otherBelow
          rw [Function.update_of_ne (Nat.ne_of_lt otherBelow)]
        simp only [holders] at front
        simp only [holders, Nat.count_succ, front, holds,
          Function.update_self]
        omega
      · have inner : index < size := by omega
        have rest := induction inner
        have keep : Function.update slot index content size = slot size :=
          Function.update_of_ne (Ne.symm last) content slot
        simp only [holders] at rest
        simp only [holders, Nat.count_succ, keep]
        omega

theorem holders_pos_iff {size : Nat} {slot : Nat → Option β} {value : β} :
    0 < holders size slot value ↔
      ∃ index < size, slot index = some value := by
  induction size with
  | zero => simp [holders]
  | succ size induction =>
      simp only [holders] at induction
      simp only [holders, Nat.count_succ]
      constructor
      · intro positive
        by_cases here : slot size = some value
        · exact ⟨size, Nat.lt_succ_self size, here⟩
        · rw [if_neg here, Nat.add_zero] at positive
          obtain ⟨index, below, held⟩ := induction.mp positive
          exact ⟨index, Nat.lt_succ_of_lt below, held⟩
      · rintro ⟨index, below, held⟩
        by_cases last : index = size
        · subst last
          simp [held]
        · have positive := induction.mpr ⟨index, by omega, held⟩
          omega

theorem holders_eq_zero_iff {size : Nat} {slot : Nat → Option β}
    {value : β} :
    holders size slot value = 0 ↔
      ∀ index < size, slot index ≠ some value := by
  have positive : 0 < holders size slot value ↔
      ∃ index < size, slot index = some value := holders_pos_iff
  constructor
  · intro zero index below held
    have := positive.mpr ⟨index, below, held⟩
    omega
  · intro absent
    by_contra nonzero
    obtain ⟨index, below, held⟩ := positive.mp (by omega)
    exact absent index below held

/-- Two different slots holding the same value count twice. -/
theorem two_le_holders {size first second : Nat}
    {slot : Nat → Option β} {value : β}
    (firstBelow : first < size) (secondBelow : second < size)
    (different : first ≠ second)
    (firstHolds : slot first = some value)
    (secondHolds : slot second = some value) :
    2 ≤ holders size slot value := by
  have moved := holders_update firstBelow slot none value
  have remaining : 0 < holders size (Function.update slot first none) value :=
    holders_pos_iff.mpr ⟨second, secondBelow, by
      rw [Function.update_of_ne (Ne.symm different), secondHolds]⟩
  rw [firstHolds, holds_self, holds_none] at moved
  omega

end Chos.Library
