import Mathlib.Data.List.Basic

/-!
# Buffers with checked accesses

A buffer is the list of its elements.  An access to an index that the buffer
does not have is an error, which names the index: a computation that ends in
`ok` has kept to the buffer.
-/

namespace Chos.Library.Buffer

universe u

variable {α : Type u} {buffer result : List α} {index : Nat} {x : α}

def load (buffer : List α) (index : Nat) : Except Nat α :=
  match buffer[index]? with
  | some x => .ok x
  | none => .error index

def store (buffer : List α) (index : Nat) (x : α) :
    Except Nat (List α) :=
  if index < buffer.length then .ok (buffer.set index x) else .error index

/-- Consecutive stores from the index on. -/
def storeAll : List α → Nat → List α → Except Nat (List α)
  | buffer, _, [] => .ok buffer
  | buffer, index, x :: xs => do
      let buffer ← store buffer index x
      storeAll buffer (index + 1) xs

theorem load_of_lt (inside : index < buffer.length) :
    load buffer index = .ok buffer[index] := by
  simp [load, inside]

theorem store_of_lt (inside : index < buffer.length) (x : α) :
    store buffer index x = .ok (buffer.set index x) :=
  if_pos inside

theorem store_of_le (outside : buffer.length ≤ index) (x : α) :
    store buffer index x = .error index :=
  if_neg (Nat.not_lt_of_le outside)

/-- The part of a buffer that a loop over it is done with. -/
theorem take_set_succ (inside : index < buffer.length) (x : α) :
    (buffer.set index x).take (index + 1) = buffer.take index ++ [x] := by
  rw [List.take_set, List.take_add_one, List.getElem?_eq_getElem inside,
    Option.toList_some, List.set_append_right _ _ (List.length_take_le _ _),
    List.length_take_of_le (Nat.le_of_lt inside), Nat.sub_self,
    List.set_cons_zero]

/-- Consecutive stores that fit replace a segment of the buffer. -/
theorem storeAll_of_fits {xs : List α}
    (fits : index + xs.length ≤ buffer.length) :
    storeAll buffer index xs = .ok (buffer.take index ++
      (xs ++ buffer.drop (index + xs.length))) := by
  induction xs generalizing buffer index with
  | nil => simp [storeAll]
  | cons x xs induction =>
      rw [List.length_cons] at fits
      have inside : index < buffer.length := by omega
      have rest : index + 1 + xs.length ≤ (buffer.set index x).length := by
        rw [List.length_set]
        omega
      have finish : (buffer.set index x).drop (index + 1 + xs.length) =
          buffer.drop (index + (xs.length + 1)) := by
        rw [List.drop_set_of_lt (by omega)]
        congr 1
        omega
      calc storeAll buffer index (x :: xs)
          = storeAll (buffer.set index x) (index + 1) xs := by
            rw [storeAll, store_of_lt inside]
            rfl
        _ = _ := by
            rw [induction rest, take_set_succ inside, finish,
              List.append_assoc]
            rfl

theorem storeAll_zero {xs : List α} (fits : xs.length ≤ buffer.length) :
    storeAll buffer 0 xs = .ok (xs ++ buffer.drop xs.length) := by
  have stored := @storeAll_of_fits α buffer 0 xs (by omega)
  rwa [List.take_zero, List.nil_append, Nat.zero_add] at stored

end Chos.Library.Buffer
