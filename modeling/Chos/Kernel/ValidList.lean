import Chos.Kernel.Access
import Chos.Kernel.PathMemory
import Chos.Kernel.TextOwnership

/-!
# The valid paths in memory stand for a list

Each function that follows the pointers of `valid_paths` does on memory what
its counterpart on lists does.  `Represents` says what the memory stands for;
it also says that nothing is allocated but the nodes and paths of the list,
and the paths that got no node.
-/

namespace Chos.Kernel

open Chos.Library

namespace PathMemory

def pathOf (memory : PathMemory) (node : Nat) : Nat :=
  (memory.nodes.block node).path

/-- The node holds this entry; its text is terminated. -/
def Stores (memory : PathMemory) (node : Nat) (valid : ValidPath) : Prop :=
  memory.paths.block (memory.pathOf node) = valid.path ++ [0] ∧
    (memory.nodes.block node).length = valid.length

/-- `nodes` are the nodes in list order and `valid` what they hold; `lost`
are the paths no node got hold of.  Nothing else is allocated. -/
structure Represents (memory : PathMemory) (nodes : List Nat)
    (valid : List ValidPath) (lost : List Nat) : Prop where
  ring : memory.linkage.Ring .validPaths (nodes.map .node)
  contents : List.Forall₂ memory.Stores nodes valid
  nodesLive : ∀ node, memory.nodes.Live node ↔ node ∈ nodes
  pathsLive : ∀ path, memory.paths.Live path ↔
    path ∈ nodes.map memory.pathOf ++ lost
  owned : (nodes.map memory.pathOf ++ lost).Nodup
  misuse : memory.misuse = 0
  nodesOnce : ∀ node, memory.nodes.frees node ≤ 1
  pathsOnce : ∀ path, memory.paths.frees path ≤ 1

theorem represents_init : init.Represents [] [] [] := by
  refine ⟨.empty rfl rfl, .nil, ?_, ?_, List.nodup_nil, rfl, ?_, ?_⟩
  · intro node
    simp [Heap.Live, init, Heap.empty]
  · intro path
    simp [Heap.Live, init, Heap.empty]
  · intro node
    exact Nat.zero_le 1
  · intro path
    exact Nat.zero_le 1

/-- Where a cursor stands when these nodes are still ahead. -/
def cursor : List Nat → ListPtr
  | [] => .validPaths
  | node :: _ => .node node

namespace Represents

variable {memory : PathMemory} {nodes lost : List Nat}
  {valid : List ValidPath}

theorem usable (represents : memory.Represents nodes valid lost)
    {pointer : ListPtr} (inside : pointer ∈ .validPaths :: nodes.map .node) :
    memory.Usable pointer := by
  rcases List.mem_cons.mp inside with head | member
  · rw [head]
    trivial
  · obtain ⟨node, among, rfl⟩ := List.mem_map.mp member
    exact ((represents.nodesLive node).mpr among).2

theorem distinct (represents : memory.Represents nodes valid lost) :
    nodes.Nodup :=
  List.Nodup.of_map _ (List.nodup_cons.mp represents.ring.distinct).2

theorem length_le (represents : memory.Represents nodes valid lost) :
    nodes.length ≤ memory.nodes.next := by
  have below : nodes ⊆ List.range memory.nodes.next := by
    intro node inside
    exact List.mem_range.mpr ((represents.nodesLive node).mpr inside).1
  simpa using (represents.distinct.subperm below).length_le

theorem next_head (represents : memory.Represents nodes valid lost) :
    memory.linkage.next .validPaths = cursor nodes := by
  cases nodes with
  | nil => exact represents.ring.links.1
  | cons node nodes => exact represents.ring.next_head

theorem next_node {front back : List Nat} {node : Nat}
    (represents :
      memory.Represents (front ++ node :: back) valid lost) :
    memory.linkage.next (.node node) = cursor back := by
  have ring := represents.ring
  rw [List.map_append, List.map_cons] at ring
  rw [ring.neighbours.2]
  cases back with
  | nil => rfl
  | cons other back => rfl

theorem loadNext_head (represents : memory.Represents nodes valid lost) :
    memory.loadNext .validPaths = (cursor nodes, memory) := by
  have forward := represents.next_head
  rw [loadNext, touch_of_usable (represents.usable List.mem_cons_self)]
  exact congrArg (·, memory) forward

end Represents

/-- Nodes keep what they hold when neither they nor their paths change. -/
theorem contents_congr {memory newer : PathMemory} {nodes : List Nat}
    {valid : List ValidPath}
    (contents : List.Forall₂ memory.Stores nodes valid)
    (samePath : ∀ node ∈ nodes, newer.pathOf node = memory.pathOf node)
    (sameLength : ∀ node ∈ nodes,
      (newer.nodes.block node).length = (memory.nodes.block node).length)
    (sameText : ∀ node ∈ nodes,
      newer.paths.block (memory.pathOf node) =
        memory.paths.block (memory.pathOf node)) :
    List.Forall₂ newer.Stores nodes valid := by
  induction contents with
  | nil => exact .nil
  | @cons node entry nodes valid stores rest induction =>
      have first := List.mem_cons_self (a := node) (l := nodes)
      refine .cons ⟨?_, ?_⟩ ?_
      · rw [samePath node first, sameText node first]
        exact stores.1
      · rw [sameLength node first]
        exact stores.2
      · apply induction
        · intro other inside
          exact samePath other (List.mem_cons_of_mem _ inside)
        · intro other inside
          exact sameLength other (List.mem_cons_of_mem _ inside)
        · intro other inside
          exact sameText other (List.mem_cons_of_mem _ inside)

namespace Represents

variable {memory : PathMemory} {nodes lost : List Nat}
  {valid : List ValidPath}

theorem loadNext_node {front back : List Nat} {node : Nat}
    (represents :
      memory.Represents (front ++ node :: back) valid lost) :
    memory.loadNext (.node node) = (cursor back, memory) := by
  have forward := represents.next_node
  rw [loadNext, touch_of_usable (represents.usable (by simp))]
  exact congrArg (·, memory) forward

theorem loadPath_node (represents : memory.Represents nodes valid lost)
    {node : Nat} (inside : node ∈ nodes) :
    memory.loadPath node = (memory.pathOf node, memory) := by
  rw [loadPath, touch_of_usable (represents.usable (by simp [inside]))]
  rfl

theorem readPath_node (represents : memory.Represents nodes valid lost)
    {node : Nat} (inside : node ∈ nodes) :
    memory.readPath (memory.pathOf node) =
      (memory.paths.block (memory.pathOf node), memory) := by
  have live := (represents.pathsLive (memory.pathOf node)).mpr
    (List.mem_append_left _ (List.mem_map_of_mem inside))
  simp [readPath, live.2]

theorem path_ne_next (represents : memory.Represents nodes valid lost)
    {path : Nat} (inside : path ∈ nodes.map memory.pathOf ++ lost) :
    path ≠ memory.paths.next :=
  Nat.ne_of_lt ((represents.pathsLive path).mpr inside).1

theorem allocPath (represents : memory.Represents nodes valid lost)
    (content : Text) :
    ({ memory with paths := memory.paths.alloc content } :
      PathMemory).Represents nodes valid (memory.paths.next :: lost) := by
  refine ⟨represents.ring, ?_, represents.nodesLive, ?_, ?_,
    represents.misuse, represents.nodesOnce, ?_⟩
  · apply contents_congr represents.contents
    · intro node _
      rfl
    · intro node _
      rfl
    · intro node inside
      apply Heap.alloc_block_of_ne
      apply represents.path_ne_next
      exact List.mem_append_left _ (List.mem_map_of_mem inside)
  · intro path
    by_cases same : path = memory.paths.next
    · subst same
      simp [Heap.Live]
    · have old := represents.pathsLive path
      have sameLive : (memory.paths.alloc content).Live path ↔
          memory.paths.Live path := by
        simp only [Heap.Live, Heap.alloc_next, Heap.alloc_frees_of_ne same]
        omega
      rw [sameLive, old]
      simp only [List.mem_append, List.mem_cons, same, false_or]
      rfl
  · have fresh : memory.paths.next ∉ nodes.map memory.pathOf ++ lost :=
      fun inside => represents.path_ne_next inside rfl
    have shuffled : (nodes.map memory.pathOf ++
        memory.paths.next :: lost).Perm
        (memory.paths.next :: (nodes.map memory.pathOf ++ lost)) :=
      List.perm_middle
    exact shuffled.nodup_iff.mpr
      (List.nodup_cons.mpr ⟨fresh, represents.owned⟩)
  · intro path
    by_cases same : path = memory.paths.next
    · subst same
      rw [Heap.alloc_frees_self]
      exact Nat.zero_le 1
    · rw [Heap.alloc_frees_of_ne same]
      exact represents.pathsOnce path

theorem ne_next (represents : memory.Represents nodes valid lost)
    {node : Nat} (inside : node ∈ nodes) : node ≠ memory.nodes.next :=
  Nat.ne_of_lt ((represents.nodesLive node).mpr inside).1

theorem not_mem_ring (represents : memory.Represents nodes valid lost) :
    ListPtr.node memory.nodes.next ∉ .validPaths :: nodes.map .node := by
  intro inside
  rcases List.mem_cons.mp inside with head | member
  · cases head
  · obtain ⟨node, among, same⟩ := List.mem_map.mp member
    exact represents.ne_next among (ListPtr.node.inj same)

/-- A node that was just allocated changes nothing about the others. -/
theorem ring_allocNode (represents : memory.Represents nodes valid lost)
    (path len : Nat) :
    (memory.allocNode path len).linkage.Ring .validPaths
      (nodes.map .node) := by
  have sameHead : ∀ pointer ∈ .validPaths :: nodes.map ListPtr.node,
      (memory.allocNode path len).listHead pointer =
        memory.listHead pointer := by
    intro pointer inside
    rcases List.mem_cons.mp inside with head | member
    · rw [head]
      rfl
    · obtain ⟨node, among, rfl⟩ := List.mem_map.mp member
      exact congrArg PathNode.list
        (Heap.alloc_block_of_ne (represents.ne_next among))
  apply represents.ring.congr
  · intro pointer inside
    exact congrArg ListHead.next (sameHead pointer inside)
  · intro pointer inside
    exact congrArg ListHead.prev (sameHead pointer inside)

theorem usable_allocNode (represents : memory.Represents nodes valid lost)
    (path len : Nat) {pointer : ListPtr}
    (inside : pointer ∈ .validPaths :: nodes.map .node) :
    (memory.allocNode path len).Usable pointer := by
  have before := represents.usable inside
  rcases List.mem_cons.mp inside with head | member
  · rw [head]
    trivial
  · obtain ⟨node, among, rfl⟩ := List.mem_map.mp member
    exact (Heap.alloc_frees_of_ne (represents.ne_next among)).trans before

/-- `add_valid_path` links its node in at the end. -/
theorem appended (represents : memory.Represents nodes valid lost)
    (path len : Nat) :
    SameBlocks (memory.allocNode path len)
        (PathMemory.addValidPath path len true memory) ∧
      (PathMemory.addValidPath path len true memory).linkage.Ring
        .validPaths ((nodes ++ [memory.nodes.next]).map .node) := by
  have ring := represents.ring_allocNode path len
  have prevUsable : (memory.allocNode path len).Usable
      ((memory.allocNode path len).linkage.prev .validPaths) := by
    rw [ring.prev_head]
    exact represents.usable_allocNode path len (List.getLast_mem _)
  have newUsable : (memory.allocNode path len).Usable
      (.node memory.nodes.next) := Heap.alloc_frees_self memory.nodes _
  have headUsable : (memory.allocNode path len).Usable .validPaths := trivial
  obtain ⟨same, linkage⟩ :=
    listAddTail_spec newUsable headUsable prevUsable
  have result : PathMemory.addValidPath path len true memory =
      listAddTail (.node memory.nodes.next) .validPaths
        (memory.allocNode path len) := rfl
  rw [result]
  refine ⟨same, ?_⟩
  rw [linkage, List.map_append]
  exact ring.insert_tail represents.not_mem_ring

/-- A new node takes a path over and stands at the end of the list. -/
theorem addValidPath {path : Nat} {text : Text} {len : Nat}
    (represents : memory.Represents nodes valid (path :: lost))
    (terminated : memory.paths.block path = text ++ [0]) :
    (PathMemory.addValidPath path len true memory).Represents
      (nodes ++ [memory.nodes.next])
      (Kernel.addValidPath text len true valid) lost := by
  obtain ⟨same, ring⟩ := represents.appended path len
  generalize PathMemory.addValidPath path len true memory = newer
    at same ring ⊢
  have newBlock : (memory.allocNode path len).nodes.block
      memory.nodes.next =
        { path := path
          length := len
          list := default } := Heap.alloc_block_self memory.nodes _
  have oldBlock : ∀ node ∈ nodes,
      (memory.allocNode path len).nodes.block node =
        memory.nodes.block node := by
    intro node inside
    exact Heap.alloc_block_of_ne (represents.ne_next inside)
  have oldPaths : ∀ node ∈ nodes,
      newer.pathOf node = memory.pathOf node := by
    intro node inside
    exact (same.path node).trans (congrArg PathNode.path
      (oldBlock node inside))
  have newPath : newer.pathOf memory.nodes.next = path :=
    (same.path _).trans (congrArg PathNode.path newBlock)
  have mapped : (nodes ++ [memory.nodes.next]).map newer.pathOf ++ lost =
      nodes.map memory.pathOf ++ path :: lost := by
    rw [List.map_append, List.map_congr_left oldPaths]
    simp [newPath]
  have frees : ∀ node, newer.nodes.frees node =
      if node = memory.nodes.next then 0 else memory.nodes.frees node := by
    intro node
    rw [same.frees]
    split
    · rename_i isNew
      rw [isNew]
      exact Heap.alloc_frees_self memory.nodes _
    · rename_i old
      exact Heap.alloc_frees_of_ne old
  refine ⟨ring, ?_, ?_, ?_, ?_, same.misuse.trans represents.misuse, ?_, ?_⟩
  · apply List.rel_append
    · apply contents_congr represents.contents oldPaths
      · intro node inside
        exact (same.length node).trans (congrArg PathNode.length
          (oldBlock node inside))
      · intro node _
        exact congrFun (congrArg Heap.block same.paths) _
    · refine .cons ⟨?_, ?_⟩ .nil
      · rw [newPath, same.paths]
        exact terminated
      · exact (same.length _).trans (congrArg PathNode.length newBlock)
  · intro node
    have bound : newer.nodes.next = memory.nodes.next + 1 := same.next
    rw [Heap.Live, bound, frees, List.mem_append, List.mem_singleton,
      ← represents.nodesLive node, Heap.Live]
    split
    · rename_i isNew
      simp [isNew]
    · rename_i old
      omega
  · intro path
    rw [mapped, same.paths]
    exact represents.pathsLive path
  · rw [mapped]
    exact represents.owned
  · intro node
    rw [frees]
    split
    · exact Nat.zero_le 1
    · exact represents.nodesOnce node
  · intro path
    rw [same.paths]
    exact represents.pathsOnce path

theorem unlinked {c : Nat} {first : ValidPath}
    (represents : memory.Represents (c :: nodes) (first :: valid) lost) :
    SameBlocks memory (listDel (.node c) memory) ∧
      (listDel (.node c) memory).linkage.Ring .validPaths
        (nodes.map .node) := by
  have ring : memory.linkage.Ring .validPaths
      ([] ++ .node c :: nodes.map .node) := represents.ring
  have neighbours := ring.neighbours
  have usable : memory.Usable (.node c) := represents.usable (by simp)
  have prevUsable : memory.Usable (memory.linkage.prev (.node c)) := by
    rw [neighbours.1]
    trivial
  have nextUsable : memory.Usable (memory.linkage.next (.node c)) := by
    rw [neighbours.2]
    apply represents.usable
    have inside := List.head_mem
      (l := nodes.map ListPtr.node ++ [.validPaths]) (by simp)
    rcases List.mem_append.mp inside with among | head
    · exact List.mem_cons_of_mem _ (List.mem_cons_of_mem _ among)
    · rw [List.mem_singleton.mp head]
      exact List.mem_cons_self
  obtain ⟨same, linkage⟩ := listDel_spec usable prevUsable nextUsable
  refine ⟨same, ?_⟩
  have joined := ring.remove
  have outside : ListPtr.node c ∉ .validPaths :: nodes.map ListPtr.node := by
    intro inside
    have distinct := (List.nodup_cons.mp ring.distinct).2
    rcases List.mem_cons.mp inside with head | member
    · cases head
    · exact (List.nodup_cons.mp distinct).1 member
  apply joined.congr
  · intro pointer inside
    rw [linkage]
    apply Function.update_of_ne
    rintro rfl
    exact outside inside
  · intro pointer inside
    rw [linkage]
    apply Function.update_of_ne
    rintro rfl
    exact outside inside

theorem removeValidPath {c : Nat} {first : ValidPath}
    (represents : memory.Represents (c :: nodes) (first :: valid) lost) :
    (PathMemory.removeValidPath c memory).Represents nodes valid lost := by
  obtain ⟨same, ring⟩ := represents.unlinked
  have live := (represents.nodesLive c).mpr List.mem_cons_self
  have owned := represents.owned
  rw [List.map_cons, List.cons_append, List.nodup_cons] at owned
  have pathLive := (represents.pathsLive (memory.pathOf c)).mpr (by simp)
  have distinct := List.nodup_cons.mp represents.distinct
  have usable : (listDel (.node c) memory).Usable (.node c) :=
    same.usable live.2
  have result : PathMemory.removeValidPath c memory =
      ((listDel (.node c) memory).kfreePath (memory.pathOf c)).kfreeNode
        c := by
    rw [PathMemory.removeValidPath, loadPath]
    simp only [touch_of_usable usable, same.path]
    rfl
  rw [result]
  generalize listDel (.node c) memory = newer at same ring usable ⊢
  have nodesFrees : ∀ node,
      ((newer.kfreePath (memory.pathOf c)).kfreeNode c).nodes.frees node =
        if node = c then 1 else memory.nodes.frees node := by
    intro node
    have freed : ((newer.kfreePath (memory.pathOf c)).kfreeNode c).nodes =
        newer.nodes.free c := rfl
    rw [freed]
    split
    · rename_i isFirst
      rw [isFirst, Heap.free_frees_self, same.frees, live.2]
    · rename_i other
      rw [Heap.free_frees_of_ne other, same.frees]
  have pathsFrees : ∀ path,
      ((newer.kfreePath (memory.pathOf c)).kfreeNode c).paths.frees path =
        if path = memory.pathOf c then 1 else memory.paths.frees path := by
    intro path
    have freed : ((newer.kfreePath (memory.pathOf c)).kfreeNode c).paths =
        memory.paths.free (memory.pathOf c) := by
      rw [← same.paths]
      rfl
    rw [freed]
    split
    · rename_i isPath
      rw [isPath, Heap.free_frees_self, pathLive.2]
    · rename_i other
      rw [Heap.free_frees_of_ne other]
  have samePath : ∀ node,
      ((newer.kfreePath (memory.pathOf c)).kfreeNode c).pathOf node =
        memory.pathOf node := same.path
  refine ⟨ring, ?_, ?_, ?_, ?_, ?_, ?_, ?_⟩
  · cases represents.contents with
    | cons _ rest =>
        apply contents_congr rest
        · intro node _
          exact samePath node
        · intro node _
          exact same.length node
        · intro node _
          exact congrFun (congrArg Heap.block same.paths) _
  · intro node
    have bound : ((newer.kfreePath (memory.pathOf c)).kfreeNode
        c).nodes.next = memory.nodes.next := same.next
    have before := represents.nodesLive node
    rw [Heap.Live, List.mem_cons] at before
    rw [Heap.Live, bound, nodesFrees]
    split
    · rename_i isFirst
      subst isFirst
      simp [distinct.1]
    · rename_i other
      simpa [other] using before
  · intro path
    have bound : ((newer.kfreePath (memory.pathOf c)).kfreeNode
        c).paths.next = memory.paths.next := by
      rw [← same.paths]
      rfl
    have before := represents.pathsLive path
    rw [Heap.Live, List.map_cons, List.cons_append, List.mem_cons] at before
    rw [Heap.Live, bound, pathsFrees, funext samePath]
    split
    · rename_i isPath
      subst isPath
      simp only [one_ne_zero, and_false, false_iff]
      exact owned.1
    · rename_i other
      simpa only [other, false_or] using before
  · rw [funext samePath]
    exact owned.2
  · have free : newer.nodes.frees c = 0 := usable
    have pathFree : newer.paths.frees (memory.pathOf c) = 0 := by
      rw [same.paths]
      exact pathLive.2
    simp [kfreeNode, kfreePath, same.misuse, represents.misuse, free,
      pathFree]
  · intro node
    rw [nodesFrees]
    split
    · exact Nat.le_refl 1
    · exact represents.nodesOnce node
  · intro path
    rw [pathsFrees]
    split
    · exact Nat.le_refl 1
    · exact represents.pathsOnce path

/-- The loop of `resetvalid` frees whatever is on the list. -/
theorem resetLoop (represents : memory.Represents nodes valid lost)
    {fuel : Nat} (enough : nodes.length < fuel) :
    ∃ newer, PathMemory.resetLoop fuel (cursor nodes) memory =
        some newer ∧ newer.Represents [] [] lost := by
  induction nodes generalizing valid memory fuel with
  | nil =>
      obtain ⟨fuel, rfl⟩ := Nat.exists_eq_add_of_lt enough
      cases represents.contents
      exact ⟨memory, rfl, represents⟩
  | cons c nodes induction =>
      cases fuel with
      | zero => simp at enough
      | succ fuel =>
          cases valid with
          | nil => cases represents.contents
          | cons first valid =>
              have removed := represents.removeValidPath
              obtain ⟨newer, looped, emptied⟩ :=
                induction removed (by simpa using enough)
              refine ⟨newer, ?_, emptied⟩
              have next := @loadNext_node memory lost (first :: valid) []
                nodes c represents
              rw [cursor, PathMemory.resetLoop, next]
              exact looped

theorem resetvalid (represents : memory.Represents nodes valid lost) :
    ∃ newer, memory.resetvalid = some newer ∧
      newer.Represents [] (Kernel.resetvalid valid) lost := by
  have enough : nodes.length < memory.nodes.next + 1 :=
    Nat.lt_succ_of_le represents.length_le
  obtain ⟨newer, looped, emptied⟩ := represents.resetLoop enough
  refine ⟨newer, ?_, ?_⟩
  · rw [PathMemory.resetvalid, represents.loadNext_head]
    exact looped
  · rw [resetvalid_eq_nil]
    exact emptied

theorem cString_terminated (text : Text) :
    cString (text ++ [0]) = cString text := by
  unfold cString
  induction text with
  | nil => rfl
  | cons byte text induction =>
      rw [List.cons_append, List.takeWhile_cons, List.takeWhile_cons,
        induction]

theorem printLoop {front back : List Nat} {entries : List ValidPath}
    (represents : memory.Represents (front ++ back) valid lost)
    (contents : List.Forall₂ memory.Stores back entries) {fuel : Nat}
    (enough : back.length < fuel) :
    PathMemory.printLoop fuel (cursor back) memory =
      some (Kernel.printValid entries, memory) := by
  induction contents generalizing front fuel with
  | nil =>
      obtain ⟨fuel, rfl⟩ := Nat.exists_eq_add_of_lt enough
      rfl
  | @cons node entry back entries stores rest induction =>
      cases fuel with
      | zero => simp at enough
      | succ fuel =>
          have inside : node ∈ front ++ node :: back := by simp
          have further : memory.Represents ((front ++ [node]) ++ back)
              valid lost := by simpa using represents
          have later := induction further (by simpa using enough)
          rw [cursor, PathMemory.printLoop, represents.loadPath_node inside]
          simp only [represents.readPath_node inside,
            represents.loadNext_node, later, Option.map_some,
            Kernel.printValid, stores.1, cString_terminated]

theorem isValidLoop {front back : List Nat} {entries : List ValidPath}
    (represents : memory.Represents (front ++ back) valid lost)
    (contents : List.Forall₂ memory.Stores back entries) (path : Text)
    {fuel : Nat} (enough : back.length < fuel) :
    PathMemory.isValidLoop path fuel (cursor back) memory =
      some (Kernel.isValidPath path entries, memory) := by
  induction contents generalizing front fuel with
  | nil =>
      obtain ⟨fuel, rfl⟩ := Nat.exists_eq_add_of_lt enough
      rfl
  | @cons node entry back entries stores rest induction =>
      cases fuel with
      | zero => simp at enough
      | succ fuel =>
          have inside : node ∈ front ++ node :: back := by simp
          have further : memory.Represents ((front ++ [node]) ++ back)
              valid lost := by simpa using represents
          have later := induction further (by simpa using enough)
          rw [cursor, PathMemory.isValidLoop,
            represents.loadPath_node inside]
          simp only [represents.readPath_node inside,
            represents.loadNext_node, later, Kernel.isValidPath, stores.1,
            cString_terminated]
          split
          · rfl
          · rfl

theorem printValid (represents : memory.Represents nodes valid lost) :
    memory.printValid = some (Kernel.printValid valid, memory) := by
  have whole : memory.Represents ([] ++ nodes) valid lost := represents
  rw [PathMemory.printValid, represents.loadNext_head]
  exact whole.printLoop represents.contents
    (Nat.lt_succ_of_le represents.length_le)

theorem isValidPath (represents : memory.Represents nodes valid lost)
    (path : Text) :
    memory.isValidPath path =
      some (Kernel.isValidPath path valid, memory) := by
  have whole : memory.Represents ([] ++ nodes) valid lost := represents
  rw [PathMemory.isValidPath, represents.loadNext_head]
  exact whole.isValidLoop represents.contents path
    (Nat.lt_succ_of_le represents.length_le)

end Represents

/-- The write allocates a path and then no node for it. -/
def LosesPath : Event → Bool
  | .writeValid euid buf _ outcome =>
      euid = 0 ∧ buf.getD 0 0 ≠ '-'.toUInt8 ∧ outcome.pathAlloc ∧
        outcome.nodeAlloc = false
  | _ => false

/-- What an event of the system does to this part of the memory. -/
def follow (memory : PathMemory) : Event → Option PathMemory
  | .writeValid euid buf count outcome =>
      (memory.writeValid euid buf count outcome).map Prod.snd
  | _ => some memory

/-- `write_valid` on memory is `write_valid` on lists. -/
theorem Represents.writeValid {memory : PathMemory} {nodes lost : List Nat}
    {valid : List ValidPath}
    (represents : memory.Represents nodes valid lost) (euid : Nat)
    (buf : List UInt8) (count : Nat) (outcome : ValidOutcome) :
    ∃ newer nodesLater lostLater,
      memory.writeValid euid buf count outcome =
        some ((Kernel.writeValid euid buf count outcome valid).1, newer) ∧
      newer.Represents nodesLater
        (Kernel.writeValid euid buf count outcome valid).2 lostLater ∧
      lostLater.length = lost.length +
        if LosesPath (.writeValid euid buf count outcome) then 1 else 0 := by
  by_cases root : euid = 0
  · by_cases reset : buf.getD 0 0 = '-'.toUInt8
    · obtain ⟨newer, emptied, empty⟩ := represents.resetvalid
      refine ⟨newer, [], lost, ?_, ?_, ?_⟩
      · simp only [PathMemory.writeValid, Kernel.writeValid,
          if_neg (not_not.mpr root), if_pos reset, emptied, Option.map_some]
      · simpa only [Kernel.writeValid, if_neg (not_not.mpr root),
          if_pos reset] using empty
      · simp only [LosesPath, reset, ne_eq, not_true_eq_false, false_and,
          and_false, decide_false, Bool.false_eq_true, if_false,
          Nat.add_zero]
    · simp only [PathMemory.writeValid, Kernel.writeValid,
        if_neg (not_not.mpr root), if_neg reset]
      cases pathAlloc : outcome.pathAlloc with
      | false =>
          refine ⟨memory, nodes, lost, rfl, represents, ?_⟩
          simp [LosesPath, pathAlloc]
      | true =>
          have filled := represents.allocPath (copied buf count ++ [0])
          cases nodeAlloc : outcome.nodeAlloc with
          | false =>
              refine ⟨_, nodes, memory.paths.next :: lost, rfl, filled, ?_⟩
              simpa [LosesPath, root, pathAlloc, nodeAlloc] using reset
          | true =>
              refine ⟨_, nodes ++ [memory.nodes.next], lost, rfl, ?_, ?_⟩
              · exact filled.addValidPath
                  (Heap.alloc_block_self memory.paths _)
              · simp [LosesPath, nodeAlloc]
  · refine ⟨memory, nodes, lost, ?_, ?_, ?_⟩
    · simp only [PathMemory.writeValid, Kernel.writeValid, if_pos root]
    · simpa only [Kernel.writeValid, if_pos root] using represents
    · simp [LosesPath, root]

/-- The memory of every run stands for the list of the run. -/
theorem represents_of_run {start final : Sys} (sound : start.Sound)
    {memory : PathMemory} {nodes lost : List Nat}
    (represents : memory.Represents nodes start.valid_paths lost)
    {events : List Event}
    (finished : run Sys.step start events = some final) :
    ∃ newer nodesLater lostLater,
      run follow memory events = some newer ∧
      newer.Represents nodesLater final.valid_paths lostLater ∧
      lostLater.length = lost.length +
        (events.filter fun event => LosesPath event).length := by
  induction events generalizing start memory nodes lost with
  | nil =>
      cases finished
      exact ⟨memory, nodes, lost, rfl, represents, rfl⟩
  | cons event events induction =>
      obtain ⟨next, stepped, rest⟩ := run_cons_eq_some_iff.mp finished
      have taken := (Sys.step_iff_taken sound.inRange).mp stepped
      have followed : ∃ newer nodesLater lostLater,
          memory.follow event = some newer ∧
          newer.Represents nodesLater next.valid_paths lostLater ∧
          lostLater.length =
            lost.length + if LosesPath event then 1 else 0 := by
        cases taken with
        | writeValid euid buf count outcome =>
            obtain ⟨newer, nodesLater, lostLater, wrote, stands, lengths⟩ :=
              represents.writeValid euid buf count outcome
            refine ⟨newer, nodesLater, lostLater, ?_, stands, lengths⟩
            rw [follow, wrote]
            rfl
        | _ => exact ⟨memory, nodes, lost, rfl, represents, rfl⟩
      obtain ⟨middle, nodesMiddle, lostMiddle, moved, stands, lengths⟩ :=
        followed
      obtain ⟨newer, nodesLater, lostLater, completed, final, total⟩ :=
        induction (sound.taken taken) stands rest
      refine ⟨newer, nodesLater, lostLater, ?_, final, ?_⟩
      · exact run_cons_eq_some_iff.mpr ⟨middle, moved, completed⟩
      · rw [total, lengths, List.filter_cons]
        split
        · rw [List.length_cons]
          omega
        · omega

theorem Represents.nodes_card {memory : PathMemory} {nodes lost : List Nat}
    {valid : List ValidPath}
    (represents : memory.Represents nodes valid lost) :
    (liveBlocks memory.nodes).card = valid.length := by
  have same : liveBlocks memory.nodes = nodes.toFinset := by
    ext node
    rw [mem_liveBlocks, represents.nodesLive, List.mem_toFinset]
  rw [same, List.toFinset_card_of_nodup represents.distinct]
  exact represents.contents.length_eq

theorem Represents.paths_card {memory : PathMemory} {nodes lost : List Nat}
    {valid : List ValidPath}
    (represents : memory.Represents nodes valid lost) :
    (liveBlocks memory.paths).card = valid.length + lost.length := by
  have same : liveBlocks memory.paths =
      (nodes.map memory.pathOf ++ lost).toFinset := by
    ext path
    rw [mem_liveBlocks, represents.pathsLive, List.mem_toFinset]
  rw [same, List.toFinset_card_of_nodup represents.owned, List.length_append,
    List.length_map, represents.contents.length_eq]

/-- In every run the pointers of the list stand for the list: each loop comes
to its end with the result it has on lists, no freed block is touched and
none freed twice.  Of the memory nothing stays behind but the paths that got
no node. -/
theorem valid_list_refines {pid_max : Nat} {tree : ProcTree}
    (below : ∀ task ∈ tree.tasks, task.pid < pid_max)
    {events : List Event} {final : Sys}
    (finished : run Sys.step (Sys.init pid_max tree) events = some final) :
    ∃ memory, run follow init events = some memory ∧
      memory.misuse = 0 ∧
      (∀ node, memory.nodes.frees node ≤ 1) ∧
      (∀ path, memory.paths.frees path ≤ 1) ∧
      memory.printValid =
        some (Kernel.printValid final.valid_paths, memory) ∧
      (∀ path, memory.isValidPath path =
        some (Kernel.isValidPath path final.valid_paths, memory)) ∧
      (∀ euid buf count outcome, ∃ newer,
        memory.writeValid euid buf count outcome =
          some ((Kernel.writeValid euid buf count outcome
            final.valid_paths).1, newer)) ∧
      (liveBlocks memory.nodes).card = final.valid_paths.length ∧
      (liveBlocks memory.paths).card = final.valid_paths.length +
        (events.filter fun event => LosesPath event).length := by
  obtain ⟨memory, nodes, lost, completed, represents, lengths⟩ :=
    represents_of_run (Sys.init_sound below) represents_init finished
  refine ⟨memory, completed, represents.misuse, represents.nodesOnce,
    represents.pathsOnce, represents.printValid, represents.isValidPath, ?_,
    represents.nodes_card, ?_⟩
  · intro euid buf count outcome
    obtain ⟨newer, _, _, wrote, _, _⟩ :=
      represents.writeValid euid buf count outcome
    exact ⟨newer, wrote⟩
  · rw [represents.paths_card, lengths]
    simp

/-- Two paths are listed, one gets no node, the list is reset and one more is
listed. -/
theorem valid_list_refines_reset :
    ∃ memory, run follow init
        [.writeValid 0 [47, 97] 2 ⟨true, true⟩,
          .writeValid 0 [47, 98] 2 ⟨true, true⟩,
          .writeValid 0 [47, 99] 2 ⟨true, false⟩,
          .writeValid 0 [45] 1 ⟨true, true⟩,
          .writeValid 0 [47, 100] 2 ⟨true, true⟩] = some memory ∧
      memory.misuse = 0 ∧
      memory.printValid = some ([47, 100, 10], memory) ∧
      (liveBlocks memory.paths).card = 2 := by
  have ends : (run Sys.step (Sys.init 16 .boot)
      [.writeValid 0 [47, 97] 2 ⟨true, true⟩,
        .writeValid 0 [47, 98] 2 ⟨true, true⟩,
        .writeValid 0 [47, 99] 2 ⟨true, false⟩,
        .writeValid 0 [45] 1 ⟨true, true⟩,
        .writeValid 0 [47, 100] 2 ⟨true, true⟩]).any
      (fun final => final.valid_paths = [⟨[47, 100], 2⟩]) = true := by
    decide +kernel
  obtain ⟨final, finished, same⟩ := (Option.any_eq_true _ _).mp ends
  have same := of_decide_eq_true same
  obtain ⟨memory, completed, noMisuse, _, _, printed, _, _, _, paths⟩ :=
    valid_list_refines (ProcTree.boot_below (by decide)) finished
  rw [same] at printed paths
  refine ⟨memory, completed, noMisuse, printed, paths⟩

end PathMemory

end Chos.Kernel
