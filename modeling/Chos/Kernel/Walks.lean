import Chos.Kernel.ValidList

/-!
# Walks over a list that changes

Nothing protects `valid_paths`: `is_valid_path` and `print_valid` walk over it
while `write_valid` adds to its end or empties it from the front.  Here a step
is one access to memory, and the steps of any number of calls come in any
order.  The walks stay within the list as long as two calls of `write_valid`
do not overlap and no node is poisoned under a walk.
-/

namespace Chos.Kernel

open Chos.Library

/-- What a walk is for; `printed` is what `print_valid` has written so
far. -/
inductive Walk where
  | isValid (path : Text)
  | print (printed : Text)
  deriving DecidableEq, Repr

/-- The next access of a walk: `p=valid_paths.next`, `c->path`, the characters
there, `p=p->next`. -/
inductive WalkPoint where
  | first
  | path (c : Nat)
  | text (c path : Nat)
  | next (c : Nat)
  deriving DecidableEq, Repr

/-- The next access of `write_valid`.  After the two allocations come those of
`list_add_tail`; from `loadFirst` on they are those of `resetvalid`, with the
six of `list_del` and the two calls of `kfree`, where `p` is the pointer the
loop goes on with. -/
inductive WritePoint where
  | allocPath (buf : List UInt8) (count : Nat) (outcome : ValidOutcome)
  | allocNode (path len : Nat) (allocated : Bool)
  | loadTail (new : Nat)
  | linkHead (new : Nat) (prev : ListPtr)
  | setNext (new : Nat) (prev : ListPtr)
  | setPrev (new : Nat) (prev : ListPtr)
  | linkLast (new : Nat) (prev : ListPtr)
  | loadFirst
  | loadNext (c : Nat)
  | delPrev (c : Nat) (p : ListPtr)
  | delNext (c : Nat) (p prev : ListPtr)
  | delBack (c : Nat) (p prev next : ListPtr)
  | delForth (c : Nat) (p prev next : ListPtr)
  | poisonNext (c : Nat) (p : ListPtr)
  | poisonPrev (c : Nat) (p : ListPtr)
  | loadPath (c : Nat) (p : ListPtr)
  | freePath (c : Nat) (p : ListPtr) (path : Nat)
  | freeNode (c : Nat) (p : ListPtr)
  deriving DecidableEq, Repr

inductive Answer where
  | valid (found : Bool)
  | printed (text : Text)
  | wrote (result : Except Errno Nat)

/-- Where a call stands; at `fault` it has followed a poisoned pointer. -/
inductive Doing where
  | walks (walk : Walk) (point : WalkPoint)
  | writes (count : Nat) (point : WritePoint)
  | returned (answer : Answer)
  | fault

/-- `return 0` after the loop. -/
def Walk.finish : Walk → Answer
  | .isValid _ => .valid false
  | .print printed => .printed printed

/-- The test of the loop and `list_entry`. -/
def Walk.arrive (walk : Walk) : ListPtr → Doing
  | .validPaths => .returned walk.finish
  | .node c => .walks walk (.path c)
  | .poison1 => .fault
  | .poison2 => .fault

/-- `strcmp` or `seq_printf`. -/
def Walk.look (walk : Walk) (c : Nat) (text : Text) : Doing :=
  match walk with
  | .isValid path =>
      if cString path = cString text then .returned (.valid true)
      else .walks walk (.next c)
  | .print printed =>
      .walks (.print (printed ++ cString text ++ ['\n'.toUInt8])) (.next c)

def Walk.advance (walk : Walk) (memory : PathMemory) :
    WalkPoint → Doing × PathMemory
  | .first =>
      let (p, memory) := memory.loadNext .validPaths
      (walk.arrive p, memory)
  | .path c =>
      let (path, memory) := memory.loadPath c
      (.walks walk (.text c path), memory)
  | .text c path =>
      let (text, memory) := memory.readPath path
      (walk.look c text, memory)
  | .next c =>
      let (p, memory) := memory.loadNext (.node c)
      (walk.arrive p, memory)

/-- The test of the loop in `resetvalid`. -/
def resetArrive (count : Nat) : ListPtr → Doing
  | .validPaths => .returned (.wrote (.ok count))
  | .node c => .writes count (.loadNext c)
  | .poison1 => .fault
  | .poison2 => .fault

def WritePoint.advance (count : Nat) (memory : PathMemory) :
    WritePoint → Doing × PathMemory
  | .allocPath buf count outcome =>
      if outcome.pathAlloc then
        (.writes count (.allocNode memory.paths.next (scan buf count 0)
          outcome.nodeAlloc),
          { memory with
            paths := memory.paths.alloc (copied buf count ++ [0]) })
      else (.returned (.wrote (.ok 0)), memory)
  | .allocNode path len allocated =>
      if allocated then
        (.writes count (.loadTail memory.nodes.next),
          memory.allocNode path len)
      else (.returned (.wrote (.ok count)), memory)
  | .loadTail new =>
      let (prev, memory) := memory.loadPrev .validPaths
      (.writes count (.linkHead new prev), memory)
  | .linkHead new prev =>
      (.writes count (.setNext new prev),
        memory.storePrev .validPaths (.node new))
  | .setNext new prev =>
      (.writes count (.setPrev new prev),
        memory.storeNext (.node new) .validPaths)
  | .setPrev new prev =>
      (.writes count (.linkLast new prev), memory.storePrev (.node new) prev)
  | .linkLast new prev =>
      (.returned (.wrote (.ok count)), memory.storeNext prev (.node new))
  | .loadFirst =>
      let (p, memory) := memory.loadNext .validPaths
      (resetArrive count p, memory)
  | .loadNext c =>
      let (p, memory) := memory.loadNext (.node c)
      (.writes count (.delPrev c p), memory)
  | .delPrev c p =>
      let (prev, memory) := memory.loadPrev (.node c)
      (.writes count (.delNext c p prev), memory)
  | .delNext c p prev =>
      let (next, memory) := memory.loadNext (.node c)
      (.writes count (.delBack c p prev next), memory)
  | .delBack c p prev next =>
      (.writes count (.delForth c p prev next), memory.storePrev next prev)
  | .delForth c p prev next =>
      (.writes count (.poisonNext c p), memory.storeNext prev next)
  | .poisonNext c p =>
      (.writes count (.poisonPrev c p), memory.storeNext (.node c) .poison1)
  | .poisonPrev c p =>
      (.writes count (.loadPath c p), memory.storePrev (.node c) .poison2)
  | .loadPath c p =>
      let (path, memory) := memory.loadPath c
      (.writes count (.freePath c p path), memory)
  | .freePath c p path =>
      (.writes count (.freeNode c p), memory.kfreePath path)
  | .freeNode c p => (resetArrive count p, memory.kfreeNode c)

def Doing.advance (memory : PathMemory) :
    Doing → Option (Doing × PathMemory)
  | .walks walk point => some (walk.advance memory point)
  | .writes count point => some (point.advance count memory)
  | .returned _ => none
  | .fault => none

inductive ListCall where
  | isValid (path : Text)
  | print
  | write (euid : Nat) (buf : List UInt8) (count : Nat)
      (outcome : ValidOutcome)

def ListCall.begin : ListCall → Doing
  | .isValid path => .walks (.isValid path) .first
  | .print => .walks (.print []) .first
  | .write euid buf count outcome =>
      if euid ≠ 0 then .returned (.wrote (.error .EPERM))
      else if buf.getD 0 0 = '-'.toUInt8 then .writes count .loadFirst
      else .writes count (.allocPath buf count outcome)

/-- The memory and all calls so far, in the order they were made. -/
structure Walks where
  memory : PathMemory
  calls : List Doing

inductive WalksEvent where
  | call (call : ListCall)
  | advance (index : Nat)

namespace Walks

def init : Walks :=
  { memory := .init
    calls := [] }

def step (state : Walks) : WalksEvent → Option Walks
  | .call call => some { state with calls := state.calls ++ [call.begin] }
  | .advance index =>
      match state.calls[index]? with
      | none => none
      | some doing =>
          (doing.advance state.memory).map fun (doing, memory) =>
            { memory := memory
              calls := state.calls.set index doing }

end Walks

def PathMemory.listed (memory : PathMemory) : Option (List Text) :=
  (memory.linkage.walk .validPaths (memory.nodes.next + 1)
    (memory.linkage.next .validPaths)).map fun nodes =>
      nodes.map fun pointer =>
        match pointer with
        | .node address => memory.paths.block (memory.pathOf address)
        | _ => []

def Doing.writing : Doing → Option WritePoint
  | .writes _ point => some point
  | _ => none

def Doing.hand : Doing → Option Nat
  | .walks _ (.path c) => some c
  | .walks _ (.text c _) => some c
  | .walks _ (.next c) => some c
  | _ => none

def Doing.poisons : Doing → Option Nat
  | .writes _ (.poisonNext c _) => some c
  | _ => none

namespace Walks

/-- A call of `write_valid` gets to the list only when no other is under way,
and a node is poisoned only when no walk has a pointer to it. -/
def Orderly (state : Walks) : WalksEvent → Prop
  | .call call =>
      call.begin.writing ≠ none →
        ∀ doing ∈ state.calls, doing.writing = none
  | .advance index =>
      match state.calls[index]?.bind Doing.poisons with
      | none => True
      | some c => ∀ doing ∈ state.calls, doing.hand ≠ some c

instance (state : Walks) : ∀ event, Decidable (state.Orderly event)
  | .call _ => inferInstanceAs (Decidable (_ → _))
  | .advance index =>
      match poisoned : state.calls[index]?.bind Doing.poisons with
      | none => .isTrue (by simp [Orderly, poisoned])
      | some c =>
          decidable_of_iff (∀ doing ∈ state.calls, doing.hand ≠ some c)
            (by simp [Orderly, poisoned])

theorem Orderly.held {state : Walks} {index : Nat}
    (orderly : state.Orderly (.advance index)) {doing : Doing}
    (found : state.calls[index]? = some doing) {c : Nat}
    (poisons : doing.poisons = some c) :
    ∀ other ∈ state.calls, other.hand ≠ some c := by
  simpa [Orderly, found, poisons] using orderly

end Walks

end Chos.Kernel
