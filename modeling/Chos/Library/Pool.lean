import Chos.Library.Holders

/-!
# Counting in a pool of instruction lists

A concurrent program is a pool of lists of pending instructions.  What an
instruction refers to is given by a partial function `read`; the number of
pending instructions that refer to a value changes in the one list that
steps, and nowhere else.
-/

namespace Chos.Library

variable {α β : Type*} [DecidableEq β] {read : α → Option β} {value : β}

/-- The number of items that refer to the value. -/
def occurrences (read : α → Option β) (value : β) : List α → Nat
  | [] => 0
  | item :: items => holds (read item) value + occurrences read value items

/-- The same number over all lists of the pool. -/
def pooled (read : α → Option β) (value : β) : List (List α) → Nat
  | [] => 0
  | code :: pool => occurrences read value code + pooled read value pool

@[simp] theorem occurrences_nil :
    occurrences read value ([] : List α) = 0 := rfl

@[simp] theorem occurrences_cons (item : α) (items : List α) :
    occurrences read value (item :: items) =
      holds (read item) value + occurrences read value items := rfl

theorem occurrences_tail_le (code : List α) :
    occurrences read value code.tail ≤ occurrences read value code := by
  cases code with
  | nil => exact Nat.le_refl 0
  | cons item items =>
      rw [List.tail_cons, occurrences_cons]
      exact Nat.le_add_left _ _

theorem occurrences_le_pooled
    {pool : List (List α)} {index : Nat} {code : List α}
    (listed : pool[index]? = some code) :
    occurrences read value code ≤ pooled read value pool := by
  induction pool generalizing index with
  | nil => simp at listed
  | cons first pool induction =>
      rw [pooled]
      cases index with
      | zero =>
          rw [List.getElem?_cons_zero, Option.some.injEq] at listed
          rw [listed]
          exact Nat.le_add_right _ _
      | succ index =>
          rw [List.getElem?_cons_succ] at listed
          have later := induction listed
          omega

theorem pooled_set
    {pool : List (List α)} {index : Nat} {code : List α}
    (listed : pool[index]? = some code) (next : List α) :
    pooled read value (pool.set index next) + occurrences read value code =
      pooled read value pool + occurrences read value next := by
  induction pool generalizing index with
  | nil => simp at listed
  | cons first pool induction =>
      cases index with
      | zero =>
          rw [List.getElem?_cons_zero, Option.some.injEq] at listed
          rw [List.set_cons_zero, pooled, pooled, listed]
          omega
      | succ index =>
          rw [List.getElem?_cons_succ] at listed
          have later := induction listed
          rw [List.set_cons_succ, pooled, pooled]
          omega

theorem pooled_concat (pool : List (List α)) (code : List α) :
    pooled read value (pool ++ [code]) =
      pooled read value pool + occurrences read value code := by
  induction pool with
  | nil => simp [pooled]
  | cons first pool induction =>
      rw [List.cons_append, pooled, pooled, induction]
      omega

/-- References of one kind are among those of another. -/
theorem pooled_le_pooled
    {γ : Type*} [DecidableEq γ] {other : α → Option γ} {image : γ}
    (implies : ∀ item, read item = some value → other item = some image)
    (pool : List (List α)) :
    pooled read value pool ≤ pooled other image pool := by
  have single : ∀ item, holds (read item) value ≤
      holds (other item) image := by
    intro item
    by_cases refers : read item = some value
    · rw [refers, implies item refers, holds_self, holds_self]
    · simp [holds, refers]
  have listwise : ∀ code : List α, occurrences read value code ≤
      occurrences other image code := by
    intro code
    induction code with
    | nil => exact Nat.le_refl 0
    | cons item code induction =>
        exact Nat.add_le_add (single item) induction
  induction pool with
  | nil => exact Nat.le_refl 0
  | cons code pool induction =>
      exact Nat.add_le_add (listwise code) induction

end Chos.Library
