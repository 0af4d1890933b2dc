import Mathlib.Data.List.Nodup
import Mathlib.Logic.Function.Basic

/-!
# Circular doubly linked lists

Every address has a successor and a predecessor; a ring leads from its head
through its nodes back to the head.  The two edits are the classic ones of an
intrusive list: a new node in front of the head, which is at the tail, and a
node taken out by joining its neighbours.
-/

namespace Chos.Library

variable {α : Type*}

structure Linkage (α : Type*) where
  next : α → α
  prev : α → α

namespace Linkage

/-- Each address of the list is linked with the one after it, both ways. -/
def Links (linkage : Linkage α) : List α → Prop
  | first :: second :: rest =>
      linkage.next first = second ∧ linkage.prev second = first ∧
        linkage.Links (second :: rest)
  | _ => True

@[simp] theorem links_singleton (linkage : Linkage α) (address : α) :
    linkage.Links [address] := trivial

/-- A linked list falls apart into two at any of its members. -/
theorem links_append {linkage : Linkage α} {front : List α} {seam : α}
    {back : List α} :
    linkage.Links (front ++ seam :: back) ↔
      linkage.Links (front ++ [seam]) ∧ linkage.Links (seam :: back) := by
  induction front with
  | nil => simp
  | cons first front induction =>
      cases front with
      | nil => simp [Links, and_assoc]
      | cons second front =>
          simp only [List.cons_append, Links] at induction ⊢
          rw [induction]
          simp only [and_assoc]

/-- Only the successors of all but the last address and the predecessors of
all but the first one matter. -/
theorem Links.congr {linkage newer : Linkage α} {list : List α}
    (links : linkage.Links list)
    (sameNext : ∀ address ∈ list.dropLast,
      newer.next address = linkage.next address)
    (samePrev : ∀ address ∈ list.tail,
      newer.prev address = linkage.prev address) : newer.Links list := by
  induction list with
  | nil => trivial
  | cons first list induction =>
      cases list with
      | nil => trivial
      | cons second rest =>
          obtain ⟨forward, backward, later⟩ := links
          refine ⟨?_, ?_, ?_⟩
          · rw [sameNext first (by simp), forward]
          · rw [samePrev second (by simp), backward]
          · apply induction later
            · intro address inside
              exact sameNext address (by simp [inside])
            · intro address inside
              exact samePrev address (List.mem_cons_of_mem _ inside)

structure Ring (linkage : Linkage α) (head : α) (nodes : List α) :
    Prop where
  distinct : (head :: nodes).Nodup
  links : linkage.Links (head :: nodes ++ [head])

theorem Ring.empty {linkage : Linkage α} {head : α}
    (forward : linkage.next head = head)
    (backward : linkage.prev head = head) : linkage.Ring head [] :=
  { distinct := List.nodup_singleton head
    links := ⟨forward, backward, trivial⟩ }

theorem Ring.congr {linkage newer : Linkage α} {head : α} {nodes : List α}
    (ring : linkage.Ring head nodes)
    (sameNext : ∀ address ∈ head :: nodes,
      newer.next address = linkage.next address)
    (samePrev : ∀ address ∈ head :: nodes,
      newer.prev address = linkage.prev address) :
    newer.Ring head nodes := by
  refine ⟨ring.distinct, ring.links.congr ?_ ?_⟩
  · intro address inside
    rw [List.dropLast_concat] at inside
    exact sameNext address inside
  · intro address inside
    apply samePrev
    simpa [or_comm] using inside

theorem Ring.next_head {linkage : Linkage α} {head node : α}
    {nodes : List α} (ring : linkage.Ring head (node :: nodes)) :
    linkage.next head = node := ring.links.1

theorem Ring.neighbours {linkage : Linkage α} {head node : α}
    {front back : List α}
    (ring : linkage.Ring head (front ++ node :: back)) :
    linkage.prev node = (head :: front).getLast (List.cons_ne_nil _ _) ∧
      linkage.next node = (back ++ [head]).head (by simp) := by
  have links := ring.links
  have shape : head :: (front ++ node :: back) ++ [head] =
      (head :: front) ++ node :: (back ++ [head]) := by simp
  rw [shape] at links
  obtain ⟨lower, upper⟩ := links_append.mp links
  constructor
  · have split := List.dropLast_append_getLast (List.cons_ne_nil head front)
    rw [← split, List.append_assoc] at lower
    exact (links_append.mp lower).2.2.1
  · cases back with
    | nil => exact upper.1
    | cons first back => exact upper.1

theorem Ring.prev_head {linkage : Linkage α} {head : α} {nodes : List α}
    (ring : linkage.Ring head nodes) :
    linkage.prev head = (head :: nodes).getLast (List.cons_ne_nil _ _) := by
  have links := ring.links
  have split := List.dropLast_append_getLast (List.cons_ne_nil head nodes)
  rw [← split, List.append_assoc] at links
  exact (links_append.mp links).2.2.1

variable [DecidableEq α]

def insert (linkage : Linkage α) (node before after : α) : Linkage α :=
  { next := Function.update (Function.update linkage.next node after)
      before node
    prev := Function.update (Function.update linkage.prev after node)
      node before }

def join (linkage : Linkage α) (before after : α) : Linkage α :=
  { next := Function.update linkage.next before after
    prev := Function.update linkage.prev after before }

/-- Inserting in front of the head appends to the nodes. -/
theorem Ring.insert_tail {linkage : Linkage α} {head node : α}
    {nodes : List α} (ring : linkage.Ring head nodes)
    (fresh : node ∉ head :: nodes) :
    (linkage.insert node (linkage.prev head) head).Ring head
      (nodes ++ [node]) := by
  rw [ring.prev_head]
  have split := List.dropLast_append_getLast (List.cons_ne_nil head nodes)
  have distinct := ring.distinct
  have notHead : node ≠ head := fun same => fresh (by simp [same])
  constructor
  · rw [← List.cons_append]
    exact List.nodup_append.mpr ⟨distinct, List.nodup_singleton node, by
      intro first inside second alone same
      rw [List.mem_singleton] at alone
      exact fresh (by rw [← alone, ← same]; exact inside)⟩
  · generalize (head :: nodes).getLast _ = last at split ⊢
    generalize (head :: nodes).dropLast = front at split
    have shape : head :: (nodes ++ [node]) ++ [head] =
        front ++ last :: [node, head] := by
      rw [← List.cons_append, ← split]
      simp
    rw [shape, links_append]
    have notLast : node ≠ last := by
      rintro rfl
      exact fresh (by rw [← split]; simp)
    rw [← split] at distinct fresh
    constructor
    · have links := ring.links
      rw [← split, List.append_assoc] at links
      apply (links_append.mp links).1.congr
      · intro address inside
        rw [List.dropLast_concat] at inside
        have notLast : address ≠ last := by
          rintro rfl
          exact (List.nodup_append.mp distinct).2.2 _ inside _
            (List.mem_singleton_self _) rfl
        have other : address ≠ node := by
          rintro rfl
          exact fresh (by simp [inside])
        simp [insert, notLast, other]
      · intro address inside
        have other : address ≠ node := by
          rintro rfl
          exact fresh (List.mem_of_mem_tail inside)
        have later : address ≠ head := by
          rw [split] at inside distinct
          rintro rfl
          exact (List.nodup_cons.mp distinct).1 inside
        simp [insert, other, later]
    · refine ⟨?_, ?_, ?_, ?_, trivial⟩
      · simp [insert]
      · simp [insert]
      · simp [insert, notLast]
      · simp [insert, Ne.symm notHead]

/-- Joining the neighbours of a node takes it out of the ring. -/
theorem Ring.remove {linkage : Linkage α} {head node : α}
    {front back : List α}
    (ring : linkage.Ring head (front ++ node :: back)) :
    (linkage.join (linkage.prev node) (linkage.next node)).Ring head
      (front ++ back) := by
  rw [ring.neighbours.1, ring.neighbours.2]
  have splitFront :=
    List.dropLast_append_getLast (List.cons_ne_nil head front)
  have nonempty : back ++ [head] ≠ [] := by simp
  have splitBack := List.cons_head_tail nonempty
  have distinct := ring.distinct
  rw [← List.cons_append] at distinct
  have links := ring.links
  have shape : head :: (front ++ node :: back) ++ [head] =
      (head :: front) ++ node :: (back ++ [head]) := by simp
  have newShape : head :: (front ++ back) ++ [head] =
      (head :: front) ++ (back ++ [head]) := by simp
  rw [shape] at links
  obtain ⟨frontDistinct, nodeBackDistinct, apart⟩ :=
    List.nodup_append.mp distinct
  obtain ⟨outside, backDistinct⟩ := List.nodup_cons.mp nodeBackDistinct
  have headOutside : head ∉ back := by
    intro inside
    exact apart head (by simp) head (by simp [inside]) rfl
  have backHead : (back ++ [head]).Nodup :=
    List.nodup_append.mpr ⟨backDistinct, List.nodup_singleton head, by
      intro first inside second alone same
      rw [List.mem_singleton] at alone
      exact headOutside (by rw [← alone, ← same]; exact inside)⟩
  constructor
  · rw [← List.cons_append]
    apply List.nodup_append.mpr
    refine ⟨frontDistinct, backDistinct, ?_⟩
    intro first inside second among
    exact apart first inside second (List.mem_cons_of_mem _ among)
  · rw [newShape]
    have lower := (links_append.mp links).1
    have upper := (links_append.mp links).2
    have headApart : ∀ address ∈ front, address ∉ back ++ [head] := by
      intro address inside among
      rcases List.mem_append.mp among with later | alone
      · exact apart address (List.mem_cons_of_mem _ inside) address
          (List.mem_cons_of_mem _ later) rfl
      · rw [List.mem_singleton.mp alone] at inside
        exact (List.nodup_cons.mp frontDistinct).1 inside
    generalize (head :: front).getLast _ = before at splitFront ⊢
    generalize (head :: front).dropLast = rest at splitFront
    generalize (back ++ [head]).head nonempty = after at splitBack ⊢
    have lowerFront : linkage.Links (head :: front) := by
      rw [← splitFront] at lower ⊢
      rw [List.append_assoc] at lower
      exact (links_append.mp lower).1
    have upperBack : linkage.Links (back ++ [head]) := by
      rw [← splitBack] at upper ⊢
      exact upper.2.2
    rw [← splitFront, List.append_assoc, List.singleton_append,
      links_append, splitFront]
    constructor
    · apply lowerFront.congr
      · intro address inside
        have notBefore : address ≠ before := by
          rw [← splitFront, List.dropLast_concat] at inside
          rw [← splitFront] at frontDistinct
          rintro rfl
          exact (List.nodup_append.mp frontDistinct).2.2 _ inside _
            (List.mem_singleton_self _) rfl
        simp [join, notBefore]
      · intro address inside
        have notAfter : address ≠ after := by
          rintro rfl
          apply headApart address inside
          rw [← splitBack]
          exact List.mem_cons_self
        simp [join, notAfter]
    · have apartBefore : ∀ address ∈ back, address ≠ before := by
        rintro address inside rfl
        apply apart address _ address (List.mem_cons_of_mem _ inside) rfl
        rw [← splitFront]
        simp
      rw [← splitBack] at upperBack backHead ⊢
      refine ⟨by simp [join], by simp [join], ?_⟩
      apply upperBack.congr
      · intro address inside
        rw [splitBack, List.dropLast_concat] at inside
        simp [join, apartBefore address inside]
      · intro address inside
        have notAfter : address ≠ after := by
          rintro rfl
          exact (List.nodup_cons.mp backHead).1 inside
        simp [join, notAfter]

/-- The addresses a cursor meets from `cursor` on until it is back at the
head, if it gets there within `fuel` steps. -/
def walk (linkage : Linkage α) (head : α) : Nat → α → Option (List α)
  | 0, _ => none
  | fuel + 1, cursor =>
      if cursor = head then some []
      else (linkage.walk head fuel (linkage.next cursor)).map (cursor :: ·)

theorem walk_of_links {linkage : Linkage α} {head first : α}
    {nodes : List α} (apart : head ∉ nodes)
    (links : linkage.Links (first :: nodes ++ [head])) {fuel : Nat}
    (enough : nodes.length < fuel) :
    linkage.walk head fuel (linkage.next first) = some nodes := by
  induction nodes generalizing first fuel with
  | nil =>
      obtain ⟨fuel, rfl⟩ := Nat.exists_eq_add_of_lt enough
      have back : linkage.next first = head := links.1
      simp [walk, back]
  | cons node nodes induction =>
      cases fuel with
      | zero => simp at enough
      | succ fuel =>
          simp only [List.mem_cons, not_or] at apart
          have forward : linkage.next first = node := links.1
          have rest := induction apart.2 links.2.2 (by simpa using enough)
          rw [forward, walk, if_neg (Ne.symm apart.1), rest]
          rfl

theorem walk_congr {linkage newer : Linkage α}
    (same : newer.next = linkage.next) (head : α) (fuel : Nat) (cursor : α) :
    newer.walk head fuel cursor = linkage.walk head fuel cursor := by
  induction fuel generalizing cursor with
  | zero => rfl
  | succ fuel induction => rw [walk, walk, same, induction]

/-- The walk that starts behind the head meets all nodes in order. -/
theorem Ring.walk_eq {linkage : Linkage α} {head : α} {nodes : List α}
    (ring : linkage.Ring head nodes) {fuel : Nat}
    (enough : nodes.length < fuel) :
    linkage.walk head fuel (linkage.next head) = some nodes :=
  walk_of_links (List.nodup_cons.mp ring.distinct).1 ring.links enough

end Linkage

end Chos.Library
