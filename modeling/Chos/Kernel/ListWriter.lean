import Chos.Kernel.Walks

/-!
# The list while it is written

Between two accesses of `write_valid` the links of `valid_paths` are not those
of a ring: the new node hangs at the head before the last one points to it,
and a removed one is passed by in one direction first.  Taking back the store
made too early gives a ring again, and the successors are those of a ring all
the time.
-/

namespace Chos.Kernel

open Chos.Library

/-- A node, its path and the characters there. -/
structure Entry where
  node : Nat
  path : Nat
  text : Text

/-- The entries of the list, and the one of the writer that is not yet or no
longer among them. -/
structure View where
  listed : List Entry
  aside : Option Entry

namespace View

def all (view : View) : List Entry := view.aside.toList ++ view.listed

def nodes (view : View) : List Nat := view.listed.map Entry.node

def start (view : View) : ListPtr := PathMemory.cursor view.nodes

end View

namespace PathMemory

structure Keeps (memory : PathMemory) (entry : Entry) : Prop where
  node : memory.nodes.Live entry.node
  path : memory.paths.Live entry.path
  points : memory.pathOf entry.node = entry.path
  text : memory.paths.block entry.path = entry.text

theorem Keeps.usable {memory : PathMemory} {entry : Entry}
    (keeps : memory.Keeps entry) : memory.Usable (.node entry.node) :=
  keeps.node.2

structure Shows (memory : PathMemory) (linkage : Linkage ListPtr)
    (view : View) : Prop where
  ring : linkage.Ring .validPaths (view.nodes.map .node)
  keeps : ∀ entry ∈ view.all, memory.Keeps entry
  nodes : (view.all.map Entry.node).Nodup
  paths : (view.all.map Entry.path).Nodup
  misuse : memory.misuse = 0

end PathMemory

/-- The linkage without the store the writer has made before the one that
changes the list. -/
def undone (linkage : Linkage ListPtr) : Option WritePoint → Linkage ListPtr
  | some (.setNext _ prev) | some (.setPrev _ prev) |
      some (.linkLast _ prev) =>
      { linkage with prev := Function.update linkage.prev .validPaths prev }
  | some (.delForth c _ _ next) =>
      { linkage with prev := Function.update linkage.prev next (.node c) }
  | _ => linkage

/-- Walks follow the successors, which are those of the list all the time. -/
@[simp] theorem undone_next (linkage : Linkage ListPtr)
    (writing : Option WritePoint) :
    (undone linkage writing).next = linkage.next := by
  unfold undone
  split <;> rfl

/-- What the writer has done up to its next access. -/
inductive Phase (memory : PathMemory) (view : View) :
    Option WritePoint → Prop where
  | nobody (alone : view.aside = none) : Phase memory view none
  | allocPath {buf : List UInt8} {count : Nat} {outcome : ValidOutcome}
      (alone : view.aside = none) :
      Phase memory view (some (.allocPath buf count outcome))
  | allocNode {path len : Nat} {allocated : Bool}
      (alone : view.aside = none) (live : memory.paths.Live path)
      (fresh : path ∉ view.listed.map Entry.path) :
      Phase memory view (some (.allocNode path len allocated))
  | loadTail {entry : Entry} (aside : view.aside = some entry) :
      Phase memory view (some (.loadTail entry.node))
  | linkHead {entry : Entry} (aside : view.aside = some entry) :
      Phase memory view (some (.linkHead entry.node
        (memory.linkage.prev .validPaths)))
  | setNext {entry : Entry} {prev : ListPtr}
      (aside : view.aside = some entry)
      (head : memory.linkage.prev .validPaths = .node entry.node) :
      Phase memory view (some (.setNext entry.node prev))
  | setPrev {entry : Entry} {prev : ListPtr}
      (aside : view.aside = some entry)
      (head : memory.linkage.prev .validPaths = .node entry.node)
      (next : memory.linkage.next (.node entry.node) = .validPaths) :
      Phase memory view (some (.setPrev entry.node prev))
  | linkLast {entry : Entry} {prev : ListPtr}
      (aside : view.aside = some entry)
      (head : memory.linkage.prev .validPaths = .node entry.node)
      (next : memory.linkage.next (.node entry.node) = .validPaths)
      (back : memory.linkage.prev (.node entry.node) = prev) :
      Phase memory view (some (.linkLast entry.node prev))
  | loadFirst (alone : view.aside = none) :
      Phase memory view (some .loadFirst)
  | loadNext {entry : Entry} {rest : List Entry}
      (alone : view.aside = none) (first : view.listed = entry :: rest) :
      Phase memory view (some (.loadNext entry.node))
  | delPrev {entry : Entry} {rest : List Entry}
      (alone : view.aside = none) (first : view.listed = entry :: rest) :
      Phase memory view (some (.delPrev entry.node
        (PathMemory.cursor (rest.map Entry.node))))
  | delNext {entry : Entry} {rest : List Entry}
      (alone : view.aside = none) (first : view.listed = entry :: rest) :
      Phase memory view (some (.delNext entry.node
        (PathMemory.cursor (rest.map Entry.node)) .validPaths))
  | delBack {entry : Entry} {rest : List Entry}
      (alone : view.aside = none) (first : view.listed = entry :: rest) :
      Phase memory view (some (.delBack entry.node
        (PathMemory.cursor (rest.map Entry.node)) .validPaths
        (PathMemory.cursor (rest.map Entry.node))))
  | delForth {entry : Entry} {rest : List Entry}
      (alone : view.aside = none) (first : view.listed = entry :: rest)
      (back : memory.linkage.prev (PathMemory.cursor (rest.map Entry.node)) =
        .validPaths) :
      Phase memory view (some (.delForth entry.node
        (PathMemory.cursor (rest.map Entry.node)) .validPaths
        (PathMemory.cursor (rest.map Entry.node))))
  | poisonNext {entry : Entry} (aside : view.aside = some entry)
      (next : memory.linkage.next (.node entry.node) = view.start) :
      Phase memory view (some (.poisonNext entry.node view.start))
  | poisonPrev {entry : Entry} (aside : view.aside = some entry) :
      Phase memory view (some (.poisonPrev entry.node view.start))
  | loadPath {entry : Entry} (aside : view.aside = some entry) :
      Phase memory view (some (.loadPath entry.node view.start))
  | freePath {entry : Entry} (aside : view.aside = some entry) :
      Phase memory view
        (some (.freePath entry.node view.start entry.path))
  | freeNode {c : Nat} (alone : view.aside = none)
      (live : memory.nodes.Live c) (gone : c ∉ view.nodes) :
      Phase memory view (some (.freeNode c view.start))

def View.texts (view : View) : List Text := view.listed.map Entry.text

/-- The list as the writer will leave it. -/
def promised (memory : PathMemory) (view : View) :
    Option WritePoint → List Text
  | none => view.texts
  | some (.allocPath buf count outcome) =>
      if outcome.pathAlloc ∧ outcome.nodeAlloc then
        view.texts ++ [copied buf count ++ [0]]
      else view.texts
  | some (.allocNode path _ allocated) =>
      if allocated then view.texts ++ [memory.paths.block path]
      else view.texts
  | some (.loadTail _) | some (.linkHead _ _) | some (.setNext _ _) |
      some (.setPrev _ _) | some (.linkLast _ _) =>
      view.texts ++ view.aside.toList.map Entry.text
  | some _ => []

namespace PathMemory.Shows

variable {memory : PathMemory} {linkage : Linkage ListPtr} {view : View}

theorem keeps_listed (shows : memory.Shows linkage view) {entry : Entry}
    (inside : entry ∈ view.listed) : memory.Keeps entry :=
  shows.keeps entry (List.mem_append_right _ inside)

theorem keeps_aside (shows : memory.Shows linkage view) {entry : Entry}
    (aside : view.aside = some entry) : memory.Keeps entry := by
  apply shows.keeps entry
  rw [View.all, aside]
  exact List.mem_cons_self

theorem usable (shows : memory.Shows linkage view) {pointer : ListPtr}
    (inside : pointer ∈ .validPaths :: view.nodes.map .node) :
    memory.Usable pointer := by
  rcases List.mem_cons.mp inside with head | member
  · rw [head]
    trivial
  · obtain ⟨node, among, rfl⟩ := List.mem_map.mp member
    obtain ⟨entry, listed, rfl⟩ := List.mem_map.mp among
    exact (shows.keeps_listed listed).usable

theorem aside_outside (shows : memory.Shows linkage view) {entry : Entry}
    (aside : view.aside = some entry) :
    ListPtr.node entry.node ∉ .validPaths :: view.nodes.map .node := by
  have distinct := shows.nodes
  rw [View.all, aside, Option.toList_some, List.singleton_append,
    List.map_cons, List.nodup_cons] at distinct
  intro inside
  rcases List.mem_cons.mp inside with head | member
  · cases head
  · obtain ⟨node, among, same⟩ := List.mem_map.mp member
    cases same
    exact distinct.1 among

theorem next_head (shows : memory.Shows linkage view) :
    linkage.next .validPaths = view.start := by
  have ring := shows.ring
  unfold View.start
  cases nodes : view.nodes with
  | nil =>
      rw [nodes] at ring
      exact ring.links.1
  | cons node rest =>
      rw [nodes] at ring
      exact ring.next_head

theorem next_listed (shows : memory.Shows linkage view)
    {front back : List Entry} {entry : Entry}
    (split : view.listed = front ++ entry :: back) :
    linkage.next (.node entry.node) = cursor (back.map Entry.node) := by
  have ring := shows.ring
  rw [View.nodes, split, List.map_append, List.map_cons, List.map_append,
    List.map_cons] at ring
  rw [ring.neighbours.2]
  cases back with
  | nil => rfl
  | cons other back => rfl

theorem cursor_mem (nodes : List Nat) :
    cursor nodes ∈ ListPtr.validPaths :: nodes.map .node := by
  cases nodes with
  | nil => exact List.mem_cons_self
  | cons node nodes => simp [cursor]

theorem relinked (shows : memory.Shows linkage view) {newer : PathMemory}
    (same : SameBlocks memory newer) {links : Linkage ListPtr} {later : View}
    (ring : links.Ring .validPaths (later.nodes.map .node))
    (all : later.all.Perm view.all) : newer.Shows links later where
  ring := ring
  keeps := by
    intro entry inside
    have keeps := shows.keeps entry (all.subset inside)
    refine ⟨?_, ?_, ?_, ?_⟩
    · rw [Heap.Live, same.next, same.frees]
      exact keeps.node
    · rw [same.paths]
      exact keeps.path
    · rw [pathOf, same.path]
      exact keeps.points
    · rw [same.paths]
      exact keeps.text
  nodes := (all.map _).nodup_iff.mpr shows.nodes
  paths := (all.map _).nodup_iff.mpr shows.paths
  misuse := same.misuse.trans shows.misuse

end PathMemory.Shows

/-- What an access of a writer can do to the list. -/
inductive Edit (view later : View) (writing : Option WritePoint) : Prop where
  | keep (same : later.listed = view.listed)
  | append (entry : Entry) (longer : later.listed = view.listed ++ [entry])
  | unlink (entry : Entry) (first : view.listed = entry :: later.listed)
      (aside : later.aside = some entry)
      (point : writing = some (.poisonNext entry.node later.start))

/-- What an access leaves. -/
structure Leaves (view later : View) (promise : List Text)
    (left : Doing × PathMemory) : Prop where
  shows : left.2.Shows (undone left.2.linkage left.1.writing) later
  phase : Phase left.2 later left.1.writing
  edit : Edit view later left.1.writing
  promise : promised left.2 later left.1.writing = promise
  sound : left.1 ≠ .fault

namespace PathMemory

theorem loadNext_of_usable {memory : PathMemory} {pointer : ListPtr}
    (usable : memory.Usable pointer) :
    memory.loadNext pointer = (memory.linkage.next pointer, memory) := by
  rw [loadNext, touch_of_usable usable]
  rfl

theorem loadPrev_of_usable {memory : PathMemory} {pointer : ListPtr}
    (usable : memory.Usable pointer) :
    memory.loadPrev pointer = (memory.linkage.prev pointer, memory) := by
  rw [loadPrev, touch_of_usable usable]
  rfl

namespace Shows

variable {memory : PathMemory} {view : View}

theorem allocPath {linkage : Linkage ListPtr}
    (shows : memory.Shows linkage view) (content : Text) :
    ({ memory with paths := memory.paths.alloc content } :
      PathMemory).Shows linkage view where
  ring := shows.ring
  keeps := by
    intro entry inside
    have keeps := shows.keeps entry inside
    have old : entry.path ≠ memory.paths.next := Nat.ne_of_lt keeps.path.1
    refine ⟨keeps.node, ⟨?_, ?_⟩, keeps.points, ?_⟩
    · exact Nat.lt_succ_of_lt keeps.path.1
    · exact (Heap.alloc_frees_of_ne old).trans keeps.path.2
    · exact (Heap.alloc_block_of_ne old).trans keeps.text
  nodes := shows.nodes
  paths := shows.paths
  misuse := shows.misuse

theorem path_fresh {linkage : Linkage ListPtr}
    (shows : memory.Shows linkage view) :
    memory.paths.next ∉ view.listed.map Entry.path := by
  intro inside
  obtain ⟨entry, listed, same⟩ := List.mem_map.mp inside
  have below := (shows.keeps_listed listed).path.1
  rw [same] at below
  exact Nat.lt_irrefl _ below

/-- The new node belongs to the writer alone. -/
theorem allocNode (shows : memory.Shows memory.linkage view)
    (alone : view.aside = none) {path : Nat}
    (live : memory.paths.Live path)
    (fresh : path ∉ view.listed.map Entry.path) (len : Nat) :
    (memory.allocNode path len).Shows (memory.allocNode path len).linkage
      { view with
        aside := some
          { node := memory.nodes.next
            path := path
            text := memory.paths.block path } } := by
  have old : ∀ entry ∈ view.listed, entry.node ≠ memory.nodes.next :=
    fun entry listed =>
      Nat.ne_of_lt (shows.keeps_listed listed).node.1
  have outside : memory.nodes.next ∉ view.nodes := by
    intro inside
    obtain ⟨entry, listed, same⟩ := List.mem_map.mp inside
    exact old entry listed same
  refine ⟨?_, ?_, ?_, ?_, shows.misuse⟩
  · have sameHead : ∀ pointer ∈ .validPaths :: view.nodes.map ListPtr.node,
        (memory.allocNode path len).listHead pointer =
          memory.listHead pointer := by
      intro pointer inside
      rcases List.mem_cons.mp inside with head | member
      · rw [head]
        rfl
      · obtain ⟨node, among, rfl⟩ := List.mem_map.mp member
        have different : node ≠ memory.nodes.next := by
          rintro rfl
          exact outside among
        exact congrArg PathNode.list (Heap.alloc_block_of_ne different)
    apply shows.ring.congr
    · intro pointer inside
      exact congrArg ListHead.next (sameHead pointer inside)
    · intro pointer inside
      exact congrArg ListHead.prev (sameHead pointer inside)
  · intro entry inside
    rcases List.mem_cons.mp inside with isNew | listed
    · subst isNew
      refine ⟨⟨Nat.lt_succ_self _, ?_⟩, live, ?_, rfl⟩
      · exact Heap.alloc_frees_self memory.nodes _
      · exact congrArg PathNode.path (Heap.alloc_block_self memory.nodes _)
    · have keeps := shows.keeps_listed listed
      have different := old entry listed
      refine ⟨⟨?_, ?_⟩, keeps.path, ?_, keeps.text⟩
      · exact Nat.lt_succ_of_lt keeps.node.1
      · exact (Heap.alloc_frees_of_ne different).trans keeps.node.2
      · exact (congrArg PathNode.path
          (Heap.alloc_block_of_ne different)).trans keeps.points
  · have nodes := shows.nodes
    rw [View.all, alone] at nodes
    exact List.nodup_cons.mpr ⟨outside, nodes⟩
  · have paths := shows.paths
    rw [View.all, alone] at paths
    exact List.nodup_cons.mpr ⟨fresh, paths⟩

theorem freePath {linkage : Linkage ListPtr}
    (shows : memory.Shows linkage view) {entry : Entry}
    (aside : view.aside = some entry) :
    (memory.kfreePath entry.path).Shows linkage
      { view with aside := none } := by
  have paths := shows.paths
  have nodes := shows.nodes
  rw [View.all, aside, Option.toList_some, List.singleton_append,
    List.map_cons, List.nodup_cons] at paths nodes
  refine ⟨shows.ring, ?_, nodes.2, paths.2, ?_⟩
  · intro other listed
    have keeps := shows.keeps_listed listed
    have different : other.path ≠ entry.path := by
      intro same
      exact paths.1 (same ▸ List.mem_map_of_mem listed)
    exact ⟨keeps.node,
      ⟨keeps.path.1, (Heap.free_frees_of_ne different).trans keeps.path.2⟩,
      keeps.points, keeps.text⟩
  · have live := (shows.keeps_aside aside).path.2
    exact congrArg₂ (· + ·) shows.misuse live

theorem freeNode {linkage : Linkage ListPtr}
    (shows : memory.Shows linkage view) (alone : view.aside = none) {c : Nat}
    (live : memory.nodes.Live c) (gone : c ∉ view.nodes) :
    (memory.kfreeNode c).Shows linkage view := by
  refine ⟨shows.ring, ?_, shows.nodes, shows.paths, ?_⟩
  · intro entry inside
    have keeps := shows.keeps entry inside
    rw [View.all, alone] at inside
    have different : entry.node ≠ c := by
      rintro rfl
      exact gone (List.mem_map_of_mem inside)
    exact ⟨⟨keeps.node.1,
        (Heap.free_frees_of_ne different).trans keeps.node.2⟩,
      keeps.path, keeps.points, keeps.text⟩
  · exact congrArg₂ (· + ·) shows.misuse live.2

/-- A store to the writer's own node is not seen by anybody. -/
theorem relinked_aside {linkage links : Linkage ListPtr}
    (shows : memory.Shows linkage view) {newer : PathMemory}
    (same : SameBlocks memory newer) {entry : Entry}
    (aside : view.aside = some entry)
    (next : ∀ pointer, pointer ≠ .node entry.node →
      links.next pointer = linkage.next pointer)
    (prev : ∀ pointer, pointer ≠ .node entry.node →
      links.prev pointer = linkage.prev pointer) :
    newer.Shows links view := by
  have outside := shows.aside_outside aside
  apply shows.relinked same _ (.refl _)
  apply shows.ring.congr
  · intro pointer inside
    exact next pointer (ne_of_mem_of_not_mem inside outside)
  · intro pointer inside
    exact prev pointer (ne_of_mem_of_not_mem inside outside)

end Shows

end PathMemory

section Accesses

open PathMemory

variable {memory : PathMemory} {view : View} {entry : Entry}
  {prev : ListPtr} {rest : List Entry} (count : Nat)

theorem texts_aside (aside : view.aside = some entry) :
    view.texts ++ [entry.text] =
      view.texts ++ view.aside.toList.map Entry.text := by
  rw [aside, Option.toList_some, List.map_singleton]

theorem leaves_linkHead (shows : memory.Shows memory.linkage view)
    (aside : view.aside = some entry) :
    Leaves view view (view.texts ++ [entry.text])
      ((WritePoint.linkHead entry.node
        (memory.linkage.prev .validPaths)).advance count memory) := by
  obtain ⟨same, links⟩ := storePrev_spec
    (shows.usable List.mem_cons_self) (.node entry.node)
  refine ⟨?_, ?_, .keep rfl,
    by simp [WritePoint.advance, Doing.writing, promised, aside],
    by simp [WritePoint.advance]⟩
  · apply shows.relinked same _ (.refl _)
    have restored : undone (memory.storePrev .validPaths
        (.node entry.node)).linkage (some (.setNext entry.node
          (memory.linkage.prev .validPaths))) = memory.linkage := by
      simp [undone, links]
    exact restored ▸ shows.ring
  · apply Phase.setNext aside
    simp [WritePoint.advance, links]

theorem leaves_setNext
    (shows : memory.Shows
      (undone memory.linkage (some (.setNext entry.node prev))) view)
    (aside : view.aside = some entry)
    (head : memory.linkage.prev .validPaths = .node entry.node) :
    Leaves view view (view.texts ++ [entry.text])
      ((WritePoint.setNext entry.node prev).advance count memory) := by
  obtain ⟨same, links⟩ := storeNext_spec
    (shows.keeps_aside aside).usable .validPaths
  refine ⟨?_, ?_, .keep rfl,
    by simp [WritePoint.advance, Doing.writing, promised, aside],
    by simp [WritePoint.advance]⟩
  · apply shows.relinked_aside same aside
    · intro pointer other
      simp [WritePoint.advance, links, Function.update_of_ne other]
    · intro pointer other
      simp [WritePoint.advance, undone, Doing.writing, links]
  · apply Phase.setPrev aside
    · simp [WritePoint.advance, links, head]
    · simp [WritePoint.advance, links]

theorem leaves_setPrev
    (shows : memory.Shows
      (undone memory.linkage (some (.setPrev entry.node prev))) view)
    (aside : view.aside = some entry)
    (head : memory.linkage.prev .validPaths = .node entry.node)
    (next : memory.linkage.next (.node entry.node) = .validPaths) :
    Leaves view view (view.texts ++ [entry.text])
      ((WritePoint.setPrev entry.node prev).advance count memory) := by
  obtain ⟨same, links⟩ := storePrev_spec
    (shows.keeps_aside aside).usable prev
  refine ⟨?_, ?_, .keep rfl,
    by simp [WritePoint.advance, Doing.writing, promised, aside],
    by simp [WritePoint.advance]⟩
  · apply shows.relinked_aside same aside
    · intro pointer other
      simp [WritePoint.advance, links]
    · intro pointer other
      by_cases isHead : pointer = .validPaths
      · simp [WritePoint.advance, undone, Doing.writing, links, isHead]
      · simp [WritePoint.advance, undone, Doing.writing, links, isHead,
          other]
  · apply Phase.linkLast aside
    · simp [WritePoint.advance, links, head]
    · simp [WritePoint.advance, links, next]
    · simp [WritePoint.advance, links]

/-- The node is in the list as soon as the last one points to it. -/
theorem leaves_linkLast
    (shows : memory.Shows
      (undone memory.linkage (some (.linkLast entry.node prev))) view)
    (aside : view.aside = some entry)
    (head : memory.linkage.prev .validPaths = .node entry.node)
    (next : memory.linkage.next (.node entry.node) = .validPaths)
    (back : memory.linkage.prev (.node entry.node) = prev) :
    Leaves view ⟨view.listed ++ [entry], none⟩ (view.texts ++ [entry.text])
      ((WritePoint.linkLast entry.node prev).advance count memory) := by
  have last := shows.ring.prev_head
  have old : (undone memory.linkage
      (some (.linkLast entry.node prev))).prev .validPaths = prev := by
    simp [undone]
  have inserted := shows.ring.insert_tail (shows.aside_outside aside)
  rw [old] at last inserted
  have usable : memory.Usable prev := by
    rw [last]
    exact shows.usable (List.getLast_mem _)
  obtain ⟨same, links⟩ := storeNext_spec usable (.node entry.node)
  have made : (undone memory.linkage
      (some (.linkLast entry.node prev))).insert (.node entry.node) prev
        .validPaths = (memory.storeNext prev (.node entry.node)).linkage := by
    rw [links]
    simp only [undone, Linkage.insert, Linkage.mk.injEq]
    constructor
    · rw [← next, Function.update_eq_self]
    · have atHead : Function.update memory.linkage.prev .validPaths
          (.node entry.node) = memory.linkage.prev := by
        rw [← head, Function.update_eq_self]
      rw [Function.update_idem, atHead, ← back, Function.update_eq_self]
  refine ⟨?_, .nobody rfl, .append entry rfl,
    by simp [WritePoint.advance, Doing.writing, promised, View.texts],
    by simp [WritePoint.advance]⟩
  rw [made] at inserted
  apply shows.relinked same
  · change (memory.storeNext prev (.node entry.node)).linkage.Ring
      .validPaths ((View.nodes ⟨view.listed ++ [entry], none⟩).map .node)
    rw [View.nodes, List.map_append, List.map_append]
    exact inserted
  · rw [View.all, View.all, aside, Option.toList_none, List.nil_append]
    exact List.perm_append_comm

theorem prev_second {linkage : Linkage ListPtr}
    (shows : memory.Shows linkage view)
    (first : view.listed = entry :: rest) :
    linkage.prev (cursor (rest.map Entry.node)) = .node entry.node := by
  have ring := shows.ring
  rw [View.nodes, first] at ring
  cases rest with
  | nil => exact ring.prev_head
  | cons second rest => exact ring.links.2.2.2.1

theorem mem_second (first : view.listed = entry :: rest) :
    cursor (rest.map Entry.node) ∈
      ListPtr.validPaths :: view.nodes.map .node := by
  rw [View.nodes, first, List.map_cons]
  rcases List.mem_cons.mp (Shows.cursor_mem (rest.map Entry.node)) with
    head | inside
  · rw [head]
    exact List.mem_cons_self
  · exact List.mem_cons_of_mem _ (List.mem_cons_of_mem _ inside)

theorem leaves_delBack (shows : memory.Shows memory.linkage view)
    (alone : view.aside = none) (first : view.listed = entry :: rest) :
    Leaves view view [] ((WritePoint.delBack entry.node
      (cursor (rest.map Entry.node)) .validPaths
      (cursor (rest.map Entry.node))).advance count memory) := by
  obtain ⟨same, links⟩ :=
    storePrev_spec (shows.usable (mem_second first)) .validPaths
  refine ⟨?_, ?_, .keep rfl, rfl, by simp [WritePoint.advance]⟩
  · apply shows.relinked same _ (.refl _)
    have restored : undone (memory.storePrev
        (cursor (rest.map Entry.node)) .validPaths).linkage
          (some (.delForth entry.node (cursor (rest.map Entry.node))
            .validPaths (cursor (rest.map Entry.node)))) =
        memory.linkage := by
      simp [undone, links, ← prev_second shows first]
    exact restored ▸ shows.ring
  · apply Phase.delForth alone first
    simp [WritePoint.advance, links]

/-- The node is out of the list as soon as the head points past it; a walk
that is there already gets on. -/
theorem leaves_delForth
    (shows : memory.Shows (undone memory.linkage (some (.delForth entry.node
      (cursor (rest.map Entry.node)) .validPaths
      (cursor (rest.map Entry.node))))) view)
    (alone : view.aside = none) (first : view.listed = entry :: rest)
    (back : memory.linkage.prev (cursor (rest.map Entry.node)) =
      .validPaths) :
    Leaves view ⟨rest, some entry⟩ [] ((WritePoint.delForth entry.node
      (cursor (rest.map Entry.node)) .validPaths
      (cursor (rest.map Entry.node))).advance count memory) := by
  have onwards := @Shows.next_listed _ _ _ shows [] rest entry first
  have ring := shows.ring
  rw [View.nodes, first, List.map_cons, List.map_cons] at ring
  have before := (@Linkage.Ring.neighbours _ _ _ _ [] _ ring).1
  have removed := @Linkage.Ring.remove _ _ _ _ _ [] _ ring
  rw [onwards, before] at removed
  obtain ⟨same, links⟩ := storeNext_spec
    (shows.usable (List.mem_cons_self)) (cursor (rest.map Entry.node))
  have made : (undone memory.linkage (some (.delForth entry.node
      (cursor (rest.map Entry.node)) .validPaths
      (cursor (rest.map Entry.node))))).join .validPaths
        (cursor (rest.map Entry.node)) =
      (memory.storeNext .validPaths
        (cursor (rest.map Entry.node))).linkage := by
    rw [links]
    simp only [undone, Linkage.join, Linkage.mk.injEq, true_and]
    rw [Function.update_idem, ← back, Function.update_eq_self]
  refine ⟨?_, ?_, .unlink entry first rfl rfl, rfl,
    by simp [WritePoint.advance]⟩
  · apply shows.relinked same
    · change (memory.storeNext .validPaths
        (cursor (rest.map Entry.node))).linkage.Ring .validPaths
          ((rest.map Entry.node).map .node)
      rw [← made]
      exact removed
    · rw [View.all, View.all, alone, first]
      exact .refl _
  · apply Phase.poisonNext rfl
    simp only [undone_next] at onwards
    simp [WritePoint.advance, links, onwards, View.start, View.nodes]

theorem leaves_poisonNext (shows : memory.Shows memory.linkage view)
    (aside : view.aside = some entry) :
    Leaves view view [] ((WritePoint.poisonNext entry.node
      view.start).advance count memory) := by
  obtain ⟨same, links⟩ :=
    storeNext_spec (shows.keeps_aside aside).usable .poison1
  refine ⟨?_, .poisonPrev aside, .keep rfl, rfl, by simp [WritePoint.advance]⟩
  apply shows.relinked_aside same aside
  · intro pointer other
    simp [WritePoint.advance, links, Function.update_of_ne other]
  · intro pointer other
    simp [WritePoint.advance, undone, Doing.writing, links]

theorem leaves_poisonPrev (shows : memory.Shows memory.linkage view)
    (aside : view.aside = some entry) :
    Leaves view view [] ((WritePoint.poisonPrev entry.node
      view.start).advance count memory) := by
  obtain ⟨same, links⟩ :=
    storePrev_spec (shows.keeps_aside aside).usable .poison2
  refine ⟨?_, .loadPath aside, .keep rfl, rfl, by simp [WritePoint.advance]⟩
  apply shows.relinked_aside same aside
  · intro pointer other
    simp [WritePoint.advance, links]
  · intro pointer other
    simp [WritePoint.advance, undone, Doing.writing, links,
      Function.update_of_ne other]

theorem leaves_resetArrive (shows : memory.Shows memory.linkage view)
    (alone : view.aside = none) :
    Leaves view view [] (resetArrive count view.start, memory) := by
  cases listed : view.listed with
  | nil =>
      have stop : view.start = .validPaths := by
        simp [View.start, View.nodes, listed, cursor]
      rw [stop]
      refine ⟨shows, .nobody alone, .keep rfl, ?_, by simp [resetArrive]⟩
      simp [resetArrive, Doing.writing, promised, View.texts, listed]
  | cons entry rest =>
      have goes : view.start = .node entry.node := by
        simp [View.start, View.nodes, listed, cursor]
      rw [goes]
      exact ⟨shows, .loadNext alone listed, .keep rfl, rfl,
        by simp [resetArrive]⟩

/-- Every access of a writer leaves a list that only changes by a whole
entry. -/
theorem WritePoint.advance_leaves {point : WritePoint}
    (shows : memory.Shows (undone memory.linkage (some point)) view)
    (phase : Phase memory view (some point)) :
    ∃ later, Leaves view later (promised memory view (some point))
      (point.advance count memory) := by
  cases phase with
  | @allocPath buf count outcome alone =>
      refine ⟨view, ?_⟩
      by_cases allocated : outcome.pathAlloc = true
      · simp only [advance, allocated, if_true]
        refine ⟨shows.allocPath _, .allocNode alone ?_ shows.path_fresh,
          .keep rfl, ?_, by simp⟩
        · exact ⟨Nat.lt_succ_self _, Heap.alloc_frees_self memory.paths _⟩
        · simp [Doing.writing, promised, allocated]
      · simp only [advance, allocated]
        refine ⟨shows, .nobody alone, .keep rfl, ?_, by simp⟩
        simp [Doing.writing, promised, allocated]
  | @allocNode path len allocated alone live fresh =>
      cases allocated with
      | true =>
          refine ⟨_, shows.allocNode alone live fresh len, ?_, .keep rfl, ?_,
            by simp [advance]⟩
          · exact @Phase.loadTail _ (View.mk view.listed (some _)) _ rfl
          · simp [advance, Doing.writing, promised, View.texts]
      | false =>
          exact ⟨view, shows, .nobody alone, .keep rfl, rfl,
            by simp [advance]⟩
  | loadTail aside =>
      refine ⟨view, ?_⟩
      simp only [advance,
        loadPrev_of_usable (shows.usable List.mem_cons_self)]
      exact ⟨shows, .linkHead aside, .keep rfl, rfl, by simp⟩
  | linkHead aside =>
      have left := leaves_linkHead count shows aside
      rw [texts_aside aside] at left
      exact ⟨view, left⟩
  | setNext aside head =>
      have left := leaves_setNext count shows aside head
      rw [texts_aside aside] at left
      exact ⟨view, left⟩
  | setPrev aside head next =>
      have left := leaves_setPrev count shows aside head next
      rw [texts_aside aside] at left
      exact ⟨view, left⟩
  | linkLast aside head next back =>
      have left := leaves_linkLast count shows aside head next back
      rw [texts_aside aside] at left
      exact ⟨_, left⟩
  | loadFirst alone =>
      refine ⟨view, ?_⟩
      have first := shows.next_head
      simp only [advance,
        loadNext_of_usable (shows.usable List.mem_cons_self)]
      rw [undone_next] at first
      rw [first]
      exact leaves_resetArrive count shows alone
  | @loadNext entry rest alone first =>
      refine ⟨view, ?_⟩
      have onwards := @Shows.next_listed _ _ _ shows [] rest entry first
      have usable := (shows.keeps_listed
        (first ▸ List.mem_cons_self)).usable
      simp only [advance, loadNext_of_usable usable]
      rw [undone_next] at onwards
      rw [onwards]
      exact ⟨shows, .delPrev alone first, .keep rfl, rfl, by simp⟩
  | @delPrev entry rest alone first =>
      refine ⟨view, ?_⟩
      have ring := shows.ring
      rw [View.nodes, first, List.map_cons, List.map_cons] at ring
      have before := (@Linkage.Ring.neighbours _ _ _ _ [] _ ring).1
      have usable := (shows.keeps_listed
        (first ▸ List.mem_cons_self)).usable
      simp only [advance, loadPrev_of_usable usable]
      exact ⟨shows, before ▸ .delNext alone first, .keep rfl, rfl, by simp⟩
  | @delNext entry rest alone first =>
      refine ⟨view, ?_⟩
      have onwards := @Shows.next_listed _ _ _ shows [] rest entry first
      have usable := (shows.keeps_listed
        (first ▸ List.mem_cons_self)).usable
      simp only [advance, loadNext_of_usable usable]
      rw [undone_next] at onwards
      rw [onwards]
      exact ⟨shows, .delBack alone first, .keep rfl, rfl, by simp⟩
  | delBack alone first =>
      exact ⟨view, leaves_delBack count shows alone first⟩
  | delForth alone first back =>
      exact ⟨_, leaves_delForth count shows alone first back⟩
  | poisonNext aside next =>
      exact ⟨view, leaves_poisonNext count shows aside⟩
  | poisonPrev aside =>
      exact ⟨view, leaves_poisonPrev count shows aside⟩
  | @loadPath entry aside =>
      refine ⟨view, ?_⟩
      have keeps := shows.keeps_aside aside
      have loaded : memory.loadPath entry.node = (entry.path, memory) := by
        rw [PathMemory.loadPath, touch_of_usable keeps.usable]
        exact congrArg (·, memory) keeps.points
      simp only [advance, loaded]
      exact ⟨shows, .freePath aside, .keep rfl, rfl, by simp⟩
  | @freePath entry aside =>
      refine ⟨{ view with aside := none }, shows.freePath aside, ?_,
        .keep rfl, rfl, by simp [advance]⟩
      have gone : entry.node ∉ view.nodes := by
        intro inside
        exact shows.aside_outside aside
          (List.mem_cons_of_mem _ (List.mem_map_of_mem inside))
      exact @Phase.freeNode _ (View.mk view.listed none) _ rfl
        (shows.keeps_aside aside).node gone
  | freeNode alone live gone =>
      exact ⟨view, leaves_resetArrive count
        (shows.freeNode alone live gone) alone⟩

end Accesses

end Chos.Kernel
