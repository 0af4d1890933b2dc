import Chos.Library.Ring
import Chos.Kernel.Handlers

/-!
# The valid paths in memory

`valid_paths` is the head of an intrusive list: the `list` members of the
nodes point to each other, every node points to a path of its own, and both
were allocated with `kmalloc`.  The functions here follow these pointers as
the source does and charge each access to a freed block and each poisoned
pointer that is followed.
-/

namespace Chos.Kernel

open Chos.Library

/-- Where a pointer of a `struct list_head` leads: to `valid_paths`, to the
member of a node, or nowhere, after `list_del`. -/
inductive ListPtr where
  | validPaths
  | node (address : Nat)
  | poison1
  | poison2
  deriving DecidableEq, Repr, Inhabited

structure ListHead where
  next : ListPtr
  prev : ListPtr
  deriving DecidableEq, Repr, Inhabited

structure PathNode where
  path : Nat
  length : Nat
  list : ListHead
  deriving DecidableEq, Repr, Inhabited

structure PathMemory where
  valid_paths : ListHead
  nodes : Heap PathNode
  paths : Heap Text
  misuse : Nat

namespace PathMemory

/-- `LIST_HEAD(valid_paths)`. -/
def init : PathMemory :=
  { valid_paths := { next := .validPaths, prev := .validPaths }
    nodes := .empty
    paths := .empty
    misuse := 0 }

/-- What following a pointer is charged. -/
def charge (memory : PathMemory) : ListPtr → Nat
  | .validPaths => 0
  | .node address => memory.nodes.frees address
  | .poison1 => 1
  | .poison2 => 1

def touch (memory : PathMemory) (pointer : ListPtr) : PathMemory :=
  { memory with misuse := memory.misuse + memory.charge pointer }

def listHead (memory : PathMemory) : ListPtr → ListHead
  | .validPaths => memory.valid_paths
  | .node address => (memory.nodes.block address).list
  | .poison1 => default
  | .poison2 => default

def setHead (memory : PathMemory) (pointer : ListPtr)
    (change : ListHead → ListHead) : PathMemory :=
  match pointer with
  | .validPaths =>
      { memory with valid_paths := change memory.valid_paths }
  | .node address =>
      { memory with
        nodes := memory.nodes.modify address fun cell =>
          { cell with list := change cell.list } }
  | .poison1 => memory
  | .poison2 => memory

/-- Reading `pointer->next`. -/
def loadNext (memory : PathMemory) (pointer : ListPtr) :
    ListPtr × PathMemory :=
  ((memory.listHead pointer).next, memory.touch pointer)

def loadPrev (memory : PathMemory) (pointer : ListPtr) :
    ListPtr × PathMemory :=
  ((memory.listHead pointer).prev, memory.touch pointer)

def storeNext (memory : PathMemory) (pointer value : ListPtr) :
    PathMemory :=
  (memory.touch pointer).setHead pointer fun head =>
    { head with next := value }

def storePrev (memory : PathMemory) (pointer value : ListPtr) :
    PathMemory :=
  (memory.touch pointer).setHead pointer fun head =>
    { head with prev := value }

def loadPath (memory : PathMemory) (node : Nat) : Nat × PathMemory :=
  ((memory.nodes.block node).path, memory.touch (.node node))

def readPath (memory : PathMemory) (path : Nat) : Text × PathMemory :=
  (memory.paths.block path,
    { memory with misuse := memory.misuse + memory.paths.frees path })

def kfreePath (memory : PathMemory) (path : Nat) : PathMemory :=
  { memory with
    paths := memory.paths.free path
    misuse := memory.misuse + memory.paths.frees path }

def kfreeNode (memory : PathMemory) (node : Nat) : PathMemory :=
  { memory with
    nodes := memory.nodes.free node
    misuse := memory.misuse + memory.nodes.frees node }

end PathMemory

/-- `list_add_tail(new, head)`. -/
def listAddTail (new head : ListPtr) (memory : PathMemory) : PathMemory :=
  let (prev, memory) := memory.loadPrev head
  let memory := memory.storePrev head new
  let memory := memory.storeNext new head
  let memory := memory.storePrev new prev
  memory.storeNext prev new

/-- `list_del(entry)`. -/
def listDel (entry : ListPtr) (memory : PathMemory) : PathMemory :=
  let (prev, memory) := memory.loadPrev entry
  let (next, memory) := memory.loadNext entry
  let memory := memory.storePrev next prev
  let memory := memory.storeNext prev next
  let memory := memory.storeNext entry .poison1
  memory.storePrev entry .poison2

namespace PathMemory

/-- The `kmalloc` of a node and the stores to its first two members. -/
def allocNode (memory : PathMemory) (path len : Nat) : PathMemory :=
  { memory with
    nodes := memory.nodes.alloc
      { path := path
        length := len
        list := default } }

def addValidPath (path len : Nat) (allocated : Bool)
    (memory : PathMemory) : PathMemory :=
  if allocated then
    listAddTail (.node memory.nodes.next) .validPaths
      (memory.allocNode path len)
  else memory

def removeValidPath (v : Nat) (memory : PathMemory) : PathMemory :=
  let memory := listDel (.node v) memory
  let (path, memory) := memory.loadPath v
  (memory.kfreePath path).kfreeNode v

/-- The loop of `resetvalid`; the first argument bounds its rounds. -/
def resetLoop : Nat → ListPtr → PathMemory → Option PathMemory
  | 0, _, _ => none
  | _ + 1, .validPaths, memory => some memory
  | fuel + 1, .node c, memory =>
      let (p, memory) := memory.loadNext (.node c)
      resetLoop fuel p (removeValidPath c memory)
  | _ + 1, .poison1, _ => none
  | _ + 1, .poison2, _ => none

def resetvalid (memory : PathMemory) : Option PathMemory :=
  let (p, memory) := memory.loadNext .validPaths
  resetLoop (memory.nodes.next + 1) p memory

def writeValid (euid : Nat) (buf : List UInt8) (count : Nat)
    (outcome : ValidOutcome) (memory : PathMemory) :
    Option (Except Errno Nat × PathMemory) :=
  if euid ≠ 0 then some (.error .EPERM, memory)
  else if buf.getD 0 0 = '-'.toUInt8 then
    memory.resetvalid.map fun memory => (.ok count, memory)
  else if outcome.pathAlloc then
    let path := memory.paths.next
    let memory :=
      { memory with paths := memory.paths.alloc (copied buf count ++ [0]) }
    some (.ok count,
      addValidPath path (scan buf count 0) outcome.nodeAlloc memory)
  else some (.ok 0, memory)

def printLoop : Nat → ListPtr → PathMemory → Option (Text × PathMemory)
  | 0, _, _ => none
  | _ + 1, .validPaths, memory => some ([], memory)
  | fuel + 1, .node c, memory =>
      let (path, memory) := memory.loadPath c
      let (text, memory) := memory.readPath path
      let (p, memory) := memory.loadNext (.node c)
      (printLoop fuel p memory).map fun (rest, memory) =>
        (cString text ++ ['\n'.toUInt8] ++ rest, memory)
  | _ + 1, .poison1, _ => none
  | _ + 1, .poison2, _ => none

def printValid (memory : PathMemory) : Option (Text × PathMemory) :=
  let (p, memory) := memory.loadNext .validPaths
  printLoop (memory.nodes.next + 1) p memory

def isValidLoop (path : Text) :
    Nat → ListPtr → PathMemory → Option (Bool × PathMemory)
  | 0, _, _ => none
  | _ + 1, .validPaths, memory => some (false, memory)
  | fuel + 1, .node c, memory =>
      let (stored, memory) := memory.loadPath c
      let (text, memory) := memory.readPath stored
      if cString path = cString text then some (true, memory)
      else
        let (p, memory) := memory.loadNext (.node c)
        isValidLoop path fuel p memory
  | _ + 1, .poison1, _ => none
  | _ + 1, .poison2, _ => none

def isValidPath (path : Text) (memory : PathMemory) :
    Option (Bool × PathMemory) :=
  let (p, memory) := memory.loadNext .validPaths
  isValidLoop path (memory.nodes.next + 1) p memory

def linkage (memory : PathMemory) : Linkage ListPtr :=
  { next := fun pointer => (memory.listHead pointer).next
    prev := fun pointer => (memory.listHead pointer).prev }

/-- The pointer leads to a `struct list_head` in memory that is in use. -/
def Usable (memory : PathMemory) : ListPtr → Prop
  | .validPaths => True
  | .node address => memory.nodes.frees address = 0
  | .poison1 => False
  | .poison2 => False

section Stores

variable {memory : PathMemory} {pointer : ListPtr}

theorem touch_of_usable (usable : memory.Usable pointer) :
    memory.touch pointer = memory := by
  cases pointer with
  | validPaths => rfl
  | node address =>
      have unfreed : memory.nodes.frees address = 0 := usable
      simp [touch, charge, unfreed]
  | poison1 => exact absurd usable id
  | poison2 => exact absurd usable id

theorem listHead_setHead (usable : memory.Usable pointer)
    (change : ListHead → ListHead) :
    (memory.setHead pointer change).listHead =
      Function.update memory.listHead pointer
        (change (memory.listHead pointer)) := by
  funext other
  by_cases same : other = pointer
  · subst same
    rw [Function.update_self]
    cases other with
    | validPaths => rfl
    | node address => simp [setHead, listHead]
    | poison1 => exact absurd usable id
    | poison2 => exact absurd usable id
  · rw [Function.update_of_ne same]
    cases pointer with
    | validPaths =>
        cases other with
        | validPaths => exact absurd rfl same
        | _ => rfl
    | node address =>
        cases other with
        | node elsewhere =>
            have different : elsewhere ≠ address := by
              rintro rfl
              exact same rfl
            simp [setHead, listHead, Heap.modify_block_of_ne different]
        | _ => rfl
    | poison1 => exact absurd usable id
    | poison2 => exact absurd usable id

/-- All that a store leaves alone. -/
structure SameBlocks (older newer : PathMemory) : Prop where
  next : newer.nodes.next = older.nodes.next
  frees : newer.nodes.frees = older.nodes.frees
  path : ∀ node, (newer.nodes.block node).path =
    (older.nodes.block node).path
  length : ∀ node, (newer.nodes.block node).length =
    (older.nodes.block node).length
  paths : newer.paths = older.paths
  misuse : newer.misuse = older.misuse

theorem SameBlocks.trans {first second third : PathMemory}
    (before : SameBlocks first second) (after : SameBlocks second third) :
    SameBlocks first third :=
  { next := after.next.trans before.next
    frees := after.frees.trans before.frees
    path := fun node => (after.path node).trans (before.path node)
    length := fun node => (after.length node).trans (before.length node)
    paths := after.paths.trans before.paths
    misuse := after.misuse.trans before.misuse }

theorem SameBlocks.usable {older newer : PathMemory}
    (same : SameBlocks older newer) {pointer : ListPtr}
    (usable : older.Usable pointer) : newer.Usable pointer := by
  cases pointer with
  | validPaths => trivial
  | node address =>
      have unfreed : older.nodes.frees address = 0 := usable
      exact (congrFun same.frees address).trans unfreed
  | poison1 => exact usable
  | poison2 => exact usable

theorem sameBlocks_setHead (memory : PathMemory) (pointer : ListPtr)
    (change : ListHead → ListHead) :
    SameBlocks memory (memory.setHead pointer change) := by
  cases pointer with
  | node address =>
      refine ⟨rfl, rfl, ?_, ?_, rfl, rfl⟩
      · intro node
        by_cases same : node = address
        · simp [setHead, same]
        · simp [setHead, Heap.modify_block_of_ne same]
      · intro node
        by_cases same : node = address
        · simp [setHead, same]
        · simp [setHead, Heap.modify_block_of_ne same]
  | _ => exact ⟨rfl, rfl, fun _ => rfl, fun _ => rfl, rfl, rfl⟩

theorem storeNext_spec (usable : memory.Usable pointer) (value : ListPtr) :
    SameBlocks memory (memory.storeNext pointer value) ∧
      (memory.storeNext pointer value).linkage =
        { memory.linkage with
          next := Function.update memory.linkage.next pointer value } := by
  rw [storeNext, touch_of_usable usable]
  refine ⟨sameBlocks_setHead _ _ _, ?_⟩
  simp only [linkage, listHead_setHead usable, Linkage.mk.injEq]
  constructor
  · funext other
    by_cases same : other = pointer <;> simp [Function.update, same]
  · funext other
    by_cases same : other = pointer <;> simp [Function.update, same]

theorem storePrev_spec (usable : memory.Usable pointer) (value : ListPtr) :
    SameBlocks memory (memory.storePrev pointer value) ∧
      (memory.storePrev pointer value).linkage =
        { memory.linkage with
          prev := Function.update memory.linkage.prev pointer value } := by
  rw [storePrev, touch_of_usable usable]
  refine ⟨sameBlocks_setHead _ _ _, ?_⟩
  simp only [linkage, listHead_setHead usable, Linkage.mk.injEq]
  constructor
  · funext other
    by_cases same : other = pointer <;> simp [Function.update, same]
  · funext other
    by_cases same : other = pointer <;> simp [Function.update, same]

end Stores

/-- `list_add_tail` inserts in front of the head. -/
theorem listAddTail_spec {memory : PathMemory} {new head : ListPtr}
    (newUsable : memory.Usable new) (headUsable : memory.Usable head)
    (prevUsable : memory.Usable (memory.linkage.prev head)) :
    SameBlocks memory (listAddTail new head memory) ∧
      (listAddTail new head memory).linkage =
        memory.linkage.insert new (memory.linkage.prev head) head := by
  have loaded : memory.loadPrev head =
      (memory.linkage.prev head, memory) := by
    rw [loadPrev, touch_of_usable headUsable]
    rfl
  generalize memory.linkage.prev head = prev at loaded prevUsable ⊢
  simp only [listAddTail, loaded]
  obtain ⟨first, firstLinks⟩ := storePrev_spec headUsable new
  obtain ⟨second, secondLinks⟩ :=
    storeNext_spec (first.usable newUsable) head
  obtain ⟨third, thirdLinks⟩ :=
    storePrev_spec (second.usable (first.usable newUsable)) prev
  obtain ⟨fourth, fourthLinks⟩ := storeNext_spec
    (third.usable (second.usable (first.usable prevUsable))) new
  refine ⟨first.trans (second.trans (third.trans fourth)), ?_⟩
  rw [fourthLinks, thirdLinks, secondLinks, firstLinks]
  rfl

/-- `list_del` joins the neighbours and poisons the entry. -/
theorem listDel_spec {memory : PathMemory} {entry : ListPtr}
    (usable : memory.Usable entry)
    (prevUsable : memory.Usable (memory.linkage.prev entry))
    (nextUsable : memory.Usable (memory.linkage.next entry)) :
    SameBlocks memory (listDel entry memory) ∧
      (listDel entry memory).linkage =
        let joined := memory.linkage.join (memory.linkage.prev entry)
          (memory.linkage.next entry)
        { next := Function.update joined.next entry .poison1
          prev := Function.update joined.prev entry .poison2 } := by
  have loadedPrev : memory.loadPrev entry =
      (memory.linkage.prev entry, memory) := by
    rw [loadPrev, touch_of_usable usable]
    rfl
  have loadedNext : memory.loadNext entry =
      (memory.linkage.next entry, memory) := by
    rw [loadNext, touch_of_usable usable]
    rfl
  generalize memory.linkage.prev entry = prev at loadedPrev prevUsable ⊢
  generalize memory.linkage.next entry = next at loadedNext nextUsable ⊢
  simp only [listDel, loadedPrev, loadedNext]
  obtain ⟨first, firstLinks⟩ := storePrev_spec nextUsable prev
  obtain ⟨second, secondLinks⟩ :=
    storeNext_spec (first.usable prevUsable) next
  obtain ⟨third, thirdLinks⟩ := storeNext_spec
    (second.usable (first.usable usable)) .poison1
  obtain ⟨fourth, fourthLinks⟩ := storePrev_spec
    (third.usable (second.usable (first.usable usable))) .poison2
  refine ⟨first.trans (second.trans (third.trans fourth)), ?_⟩
  rw [fourthLinks, thirdLinks, secondLinks, firstLinks]
  rfl

end PathMemory

end Chos.Kernel
