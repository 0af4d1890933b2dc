import Mathlib.Logic.Function.Basic

/-!
# An allocator that remembers what was freed

Blocks are numbered in the order of their allocation and a number is never
handed out twice.  Freeing a block leaves its content in place and counts the
call, so that a second free, or an access after the first one, can be stated
instead of being ruled out by the model.
-/

namespace Chos.Library

structure Heap (β : Type) where
  next : Nat
  block : Nat → β
  frees : Nat → Nat

namespace Heap

variable {β : Type}

def empty [Inhabited β] : Heap β :=
  { next := 0
    block := fun _ => default
    frees := fun _ => 0 }

/-- The block was handed out and has not been freed since. -/
def Live (heap : Heap β) (address : Nat) : Prop :=
  address < heap.next ∧ heap.frees address = 0

instance (heap : Heap β) (address : Nat) :
    Decidable (heap.Live address) :=
  inferInstanceAs (Decidable (_ ∧ _))

/-- The new block's number is the old `next`. -/
def alloc (heap : Heap β) (content : β) : Heap β :=
  { next := heap.next + 1
    block := Function.update heap.block heap.next content
    frees := Function.update heap.frees heap.next 0 }

def modify (heap : Heap β) (address : Nat) (change : β → β) : Heap β :=
  { heap with
    block := Function.update heap.block address
      (change (heap.block address)) }

def free (heap : Heap β) (address : Nat) : Heap β :=
  { heap with
    frees := Function.update heap.frees address (heap.frees address + 1) }

variable (heap : Heap β) (address other : Nat) (content : β)
  (change : β → β)

@[simp] theorem alloc_next : (heap.alloc content).next = heap.next + 1 := rfl

@[simp] theorem modify_next : (heap.modify address change).next = heap.next :=
  rfl

@[simp] theorem modify_frees :
    (heap.modify address change).frees = heap.frees := rfl

@[simp] theorem free_next : (heap.free address).next = heap.next := rfl

@[simp] theorem free_block : (heap.free address).block = heap.block := rfl

@[simp] theorem alloc_block_self :
    (heap.alloc content).block heap.next = content := by
  simp [alloc]

@[simp] theorem alloc_frees_self :
    (heap.alloc content).frees heap.next = 0 := by
  simp [alloc]

@[simp] theorem modify_block_self :
    (heap.modify address change).block address =
      change (heap.block address) := by
  simp [modify]

@[simp] theorem free_frees_self :
    (heap.free address).frees address = heap.frees address + 1 := by
  simp [free]

variable {heap address other content change}

theorem not_live_of_next_le (above : heap.next ≤ address) :
    ¬ heap.Live address :=
  fun live => Nat.not_lt_of_le above live.1

theorem alloc_block_of_ne (different : other ≠ heap.next) :
    (heap.alloc content).block other = heap.block other := by
  simp [alloc, different]

theorem alloc_frees_of_ne (different : other ≠ heap.next) :
    (heap.alloc content).frees other = heap.frees other := by
  simp [alloc, different]

theorem modify_block_of_ne (different : other ≠ address) :
    (heap.modify address change).block other = heap.block other := by
  simp [modify, different]

theorem free_frees_of_ne (different : other ≠ address) :
    (heap.free address).frees other = heap.frees other := by
  simp [free, different]

end Heap

end Chos.Library
