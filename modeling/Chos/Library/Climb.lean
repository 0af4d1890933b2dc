import Mathlib.Data.List.Nodup
import Mathlib.Data.List.Perm.Subperm
import Mathlib.Data.List.TakeWhile

/-!
# Climbing to the nearest marked ancestor

A parent function `up` together with a stopping set describes a forest.
`Climb` lists the nodes on the way from a node to the first stopping one.
Some nodes carry a mark; resolving a node means taking the mark of the first
marked node on its way up.  The last section shows that a marking may be
completed with resolved marks, as a cache does, without any node resolving
differently.
-/

namespace Chos.Library

variable {α β : Type*}

/-- `Climb stop up node chain`: the nodes from `node` upwards, strictly below
the first stopping one. -/
inductive Climb (stop : α → Prop) (up : α → Option α) :
    α → List α → Prop where
  | top {node : α} : stop node → Climb stop up node []
  | next {node parent : α} {chain : List α} :
      ¬ stop node →
      up node = some parent →
      Climb stop up parent chain →
      Climb stop up node (node :: chain)

namespace Climb

variable {stop : α → Prop} {up : α → Option α}

theorem unique {node : α} {left right : List α}
    (first : Climb stop up node left) (second : Climb stop up node right) :
    left = right := by
  induction first generalizing right with
  | top stopped =>
      cases second with
      | top _ => rfl
      | next going _ _ => exact absurd stopped going
  | next going parentEq _ induction =>
      cases second with
      | top stopped => exact absurd stopped going
      | next _ otherEq rest =>
          rw [parentEq] at otherEq
          cases otherEq
          rw [induction rest]

/-- A chain can be entered at any of its members. -/
theorem from_member {node member : α} {chain : List α}
    (climb : Climb stop up node chain) (inside : member ∈ chain) :
    ∃ front back, chain = front ++ member :: back ∧
      Climb stop up member (member :: back) := by
  induction climb with
  | top _ => simp at inside
  | @next node parent chain going parentEq rest induction =>
      rcases List.mem_cons.mp inside with same | later
      · subst same
        exact ⟨[], chain, rfl, .next going parentEq rest⟩
      · obtain ⟨front, back, split, lower⟩ := induction later
        exact ⟨node :: front, back, by simp [split], lower⟩

theorem head_not_mem {node : α} {chain : List α}
    (climb : Climb stop up node (node :: chain)) : node ∉ chain := by
  intro repeated
  cases climb with
  | next _ _ rest =>
      rename_i going parentEq
      obtain ⟨front, back, split, again⟩ := rest.from_member repeated
      have same := unique again (.next going parentEq rest)
      have lengths := congrArg List.length same
      simp [split] at lengths
      omega

theorem nodup {node : α} {chain : List α}
    (climb : Climb stop up node chain) : chain.Nodup := by
  induction climb with
  | top _ => exact List.nodup_nil
  | next going parentEq rest induction =>
      exact List.nodup_cons.mpr
        ⟨head_not_mem (.next going parentEq rest), induction⟩

theorem not_stop_of_mem {node member : α} {chain : List α}
    (climb : Climb stop up node chain) (inside : member ∈ chain) :
    ¬ stop member := by
  obtain ⟨_, _, _, lower⟩ := climb.from_member inside
  cases lower
  assumption

theorem up_isSome_of_mem {node member : α} {chain : List α}
    (climb : Climb stop up node chain) (inside : member ∈ chain) :
    (up member).isSome := by
  obtain ⟨_, _, _, lower⟩ := climb.from_member inside
  cases lower with
  | next _ parentEq _ => simp [parentEq]

/-- Only the parents of the nodes on the chain matter. -/
theorem congr {up' : α → Option α} {node : α} {chain : List α}
    (climb : Climb stop up node chain)
    (agree : ∀ member ∈ chain, up' member = up member) :
    Climb stop up' node chain := by
  induction climb with
  | top stopped => exact .top stopped
  | @next node parent chain going parentEq _ induction =>
      refine .next going ?_ (induction ?_)
      · rw [agree node (by simp), parentEq]
      · intro member inside
        exact agree member (by simp [inside])

theorem length_le {node : α} {chain nodes : List α}
    (climb : Climb stop up node chain)
    (within : ∀ member ∈ chain, member ∈ nodes) :
    chain.length ≤ nodes.length :=
  (climb.nodup.subperm within).length_le

end Climb

/-- The chain above a node, followed for at most `fuel` nodes. -/
def climbList (stop : α → Prop) [DecidablePred stop] (up : α → Option α) :
    Nat → α → List α
  | 0, _ => []
  | fuel + 1, node =>
      if stop node then []
      else
        match up node with
        | none => []
        | some parent => node :: climbList stop up fuel parent

theorem Climb.climbList_eq {stop : α → Prop} [DecidablePred stop]
    {up : α → Option α} {node : α} {chain : List α}
    (climb : Climb stop up node chain) {fuel : Nat}
    (enough : chain.length ≤ fuel) :
    climbList stop up fuel node = chain := by
  induction climb generalizing fuel with
  | top stopped =>
      cases fuel with
      | zero => rfl
      | succ fuel => simp [climbList, stopped]
  | next going parentEq _ induction =>
      cases fuel with
      | zero => simp at enough
      | succ fuel =>
          simp only [List.length_cons, Nat.add_le_add_iff_right] at enough
          simp [climbList, going, parentEq, induction enough]

/-- The part of a chain up to the first marked node, that node included. -/
def upToHit (mark : α → Option β) : List α → List α
  | [] => []
  | node :: chain =>
      match mark node with
      | some _ => [node]
      | none => node :: upToHit mark chain

def beforeHit (mark : α → Option β) (chain : List α) : List α :=
  chain.takeWhile fun node => (mark node).isNone

@[simp] theorem beforeHit_nil (mark : α → Option β) :
    beforeHit mark [] = [] := rfl

theorem beforeHit_cons_of_none {mark : α → Option β} {node : α}
    (unmarked : mark node = none) (chain : List α) :
    beforeHit mark (node :: chain) = node :: beforeHit mark chain := by
  simp [beforeHit, unmarked]

theorem beforeHit_cons_of_some {mark : α → Option β} {node : α} {value : β}
    (marked : mark node = some value) (chain : List α) :
    beforeHit mark (node :: chain) = [] := by
  simp [beforeHit, marked]

theorem mem_of_mem_beforeHit {mark : α → Option β} {chain : List α}
    {member : α} (inside : member ∈ beforeHit mark chain) :
    member ∈ chain :=
  (List.takeWhile_sublist _).subset inside

theorem mark_of_mem_beforeHit {mark : α → Option β} {chain : List α}
    {member : α} (inside : member ∈ beforeHit mark chain) :
    mark member = none := by
  simpa using List.mem_takeWhile_imp inside

theorem mem_upToHit_of_mem_beforeHit {mark : α → Option β}
    {chain : List α} {member : α}
    (inside : member ∈ beforeHit mark chain) :
    member ∈ upToHit mark chain := by
  induction chain with
  | nil => exact inside
  | cons node chain induction =>
      cases marked : mark node with
      | some value =>
          simp [beforeHit_cons_of_some marked] at inside
      | none =>
          rw [beforeHit_cons_of_none marked, List.mem_cons] at inside
          simp only [upToHit, marked, List.mem_cons]
          exact inside.imp_right induction

theorem mem_beforeHit_or_mark {mark : α → Option β} {chain : List α}
    {member : α} (inside : member ∈ upToHit mark chain)
    {value : β} (found : chain.findSome? mark = some value) :
    member ∈ beforeHit mark chain ∨ mark member = some value := by
  induction chain with
  | nil => simp at found
  | cons node chain induction =>
      cases marked : mark node with
      | some other =>
          simp only [upToHit, marked, List.mem_singleton] at inside
          simp only [List.findSome?_cons, marked] at found
          right
          rw [inside, marked, found]
      | none =>
          simp only [upToHit, marked, List.mem_cons] at inside
          simp only [List.findSome?_cons, marked] at found
          rcases inside with same | later
          · left
            simp [beforeHit_cons_of_none marked, same]
          · rcases induction later found with passed | hit
            · left
              simp [beforeHit_cons_of_none marked, passed]
            · exact .inr hit

theorem mem_of_mem_upToHit {mark : α → Option β} {chain : List α}
    {member : α} (inside : member ∈ upToHit mark chain) :
    member ∈ chain := by
  induction chain with
  | nil => exact inside
  | cons node chain induction =>
      rw [upToHit] at inside
      cases marked : mark node with
      | some value =>
          simp only [marked, List.mem_singleton] at inside
          simp [inside]
      | none =>
          simp only [marked, List.mem_cons] at inside
          rcases inside with same | later
          · simp [same]
          · simp [induction later]

theorem Climb.resolves_of_mem_upToHit
    {stop : α → Prop} {up : α → Option α} {mark : α → Option β}
    {node member : α} {chain : List α}
    (climb : Climb stop up node chain)
    (inside : member ∈ upToHit mark chain) :
    ∃ lower, Climb stop up member lower ∧
      lower.findSome? mark = chain.findSome? mark := by
  induction climb with
  | top _ => simp [upToHit] at inside
  | @next node parent chain going parentEq rest induction =>
      rw [upToHit] at inside
      cases marked : mark node with
      | some other =>
          simp only [marked, List.mem_singleton] at inside
          subst inside
          exact ⟨member :: chain, .next going parentEq rest, rfl⟩
      | none =>
          simp only [marked, List.mem_cons] at inside
          rcases inside with same | later
          · subst same
            exact ⟨member :: chain, .next going parentEq rest, rfl⟩
          · simp only [List.findSome?_cons, marked]
            exact induction later

/-- Every node up to the first hit but the start itself is the parent of one
that was passed. -/
theorem Climb.exists_passed_child
    {stop : α → Prop} {up : α → Option α} {mark : α → Option β}
    {node member : α} {chain : List α}
    (climb : Climb stop up node chain)
    (inside : member ∈ upToHit mark chain) (different : member ≠ node) :
    ∃ child ∈ beforeHit mark chain, up child = some member := by
  induction climb with
  | top _ => simp [upToHit] at inside
  | @next node parent chain going parentEq rest induction =>
      rw [upToHit] at inside
      cases marked : mark node with
      | some value =>
          simp only [marked, List.mem_singleton] at inside
          exact absurd inside different
      | none =>
          rw [beforeHit_cons_of_none marked]
          simp only [marked, List.mem_cons] at inside
          rcases inside with same | later
          · exact absurd same different
          · by_cases isParent : member = parent
            · refine ⟨node, by simp, ?_⟩
              rw [isParent]
              exact parentEq
            · obtain ⟨child, passed, above⟩ := induction later isParent
              exact ⟨child, List.mem_cons_of_mem _ passed, above⟩

/-- With more nodes marked, the first hit is not further up. -/
theorem upToHit_subset {mark mark' : α → Option β} {chain : List α}
    (grows : ∀ node ∈ upToHit mark chain, mark' node = none →
      mark node = none) :
    upToHit mark' chain ⊆ upToHit mark chain := by
  induction chain with
  | nil => exact List.Subset.refl _
  | cons node chain induction =>
      intro member inside
      cases marked : mark node with
      | some value =>
          have first : node ∈ upToHit mark (node :: chain) := by
            simp [upToHit, marked]
          cases marked' : mark' node with
          | none =>
              rw [grows node first marked'] at marked
              cases marked
          | some other =>
              simp only [upToHit, marked'] at inside
              simpa only [upToHit, marked] using inside
      | none =>
          simp only [upToHit, marked, List.mem_cons] at grows ⊢
          cases marked' : mark' node with
          | none =>
              simp only [upToHit, marked', List.mem_cons] at inside
              apply inside.imp_right
              intro later
              exact induction (fun other among =>
                grows other (.inr among)) later
          | some value =>
              simp only [upToHit, marked', List.mem_singleton] at inside
              exact .inl inside

/-- Marks that change only to the value a chain resolves to anyway. -/
theorem findSome?_of_upToHit {mark mark' : α → Option β} {chain : List α}
    {value : β} (found : chain.findSome? mark = some value)
    (agree : ∀ node ∈ upToHit mark chain,
      mark' node = mark node ∨ mark' node = some value) :
    chain.findSome? mark' = some value := by
  induction chain with
  | nil => cases found
  | cons node chain induction =>
      have first : node ∈ upToHit mark (node :: chain) := by
        rw [upToHit]
        split <;> simp
      rcases agree node first with same | given
      · cases marked : mark node with
        | some other =>
            simp only [List.findSome?_cons, marked] at found
            simp only [List.findSome?_cons, same, marked]
            exact found
        | none =>
            simp only [List.findSome?_cons, marked] at found
            simp only [List.findSome?_cons, same, marked]
            apply induction found
            intro later inside
            apply agree
            simp only [upToHit, marked]
            exact List.mem_cons_of_mem _ inside
      · simp only [List.findSome?_cons, given]

theorem findSome?_congr {mark mark' : α → Option β} {chain : List α}
    (agree : ∀ node ∈ chain, mark' node = mark node) :
    chain.findSome? mark' = chain.findSome? mark := by
  induction chain with
  | nil => rfl
  | cons node chain induction =>
      have here := agree node (by simp)
      have above := induction fun later inside =>
        agree later (List.mem_cons_of_mem _ inside)
      simp only [List.findSome?_cons, here, above]

section ChangedMark

variable {mark mark' : α → Option β} {changed : α}
  (agree : ∀ node, node ≠ changed → mark' node = mark node)

include agree

theorem mem_upToHit_of_agree {chain : List α}
    (inside : changed ∈ upToHit mark chain) :
    changed ∈ upToHit mark' chain := by
  induction chain with
  | nil => exact inside
  | cons node chain induction =>
      by_cases same : node = changed
      · subst same
        rw [upToHit]
        split <;> simp
      · cases marked : mark node with
        | some value =>
            simp only [upToHit, marked, List.mem_singleton] at inside
            exact absurd inside.symm same
        | none =>
            simp only [upToHit, marked, List.mem_cons] at inside
            rw [upToHit, agree node same, marked]
            rcases inside with equal | later
            · exact absurd equal.symm same
            · exact List.mem_cons_of_mem _ (induction later)

/-- A chain that is marked below the changed node does not notice. -/
theorem findSome?_of_not_mem_upToHit {chain : List α}
    (outside : changed ∉ upToHit mark chain) :
    chain.findSome? mark' = chain.findSome? mark := by
  induction chain with
  | nil => rfl
  | cons node chain induction =>
      cases marked : mark node with
      | some value =>
          simp only [upToHit, marked, List.mem_singleton] at outside
          simp only [List.findSome?_cons, agree node (Ne.symm outside),
            marked]
      | none =>
          simp only [upToHit, marked, List.mem_cons, not_or] at outside
          simp only [List.findSome?_cons, agree node (Ne.symm outside.1),
            marked]
          exact induction outside.2

end ChangedMark

theorem findSome?_cut_of_mem_upToHit [DecidableEq α] {mark : α → Option β}
    {chain : List α} {cut : α} (inside : cut ∈ upToHit mark chain) :
    (chain.takeWhile (· ≠ cut)).findSome? mark = none := by
  induction chain with
  | nil => rfl
  | cons node chain induction =>
      by_cases same : node = cut
      · simp [same]
      · rw [List.takeWhile_cons_of_pos (by simpa using same)]
        cases marked : mark node with
        | some value =>
            simp only [upToHit, marked, List.mem_singleton] at inside
            exact absurd inside.symm same
        | none =>
            simp only [upToHit, marked, List.mem_cons] at inside
            rcases inside with equal | later
            · exact absurd equal.symm same
            · simp only [List.findSome?_cons, marked]
              exact induction later

/-- Cut anywhere else, it resolves as before. -/
theorem findSome?_cut_of_not_mem_upToHit [DecidableEq α]
    {mark : α → Option β} {chain : List α} {cut : α}
    (outside : cut ∉ upToHit mark chain) :
    (chain.takeWhile (· ≠ cut)).findSome? mark = chain.findSome? mark := by
  induction chain with
  | nil => rfl
  | cons node chain induction =>
      cases marked : mark node with
      | some value =>
          simp only [upToHit, marked, List.mem_singleton] at outside
          rw [List.takeWhile_cons_of_pos (by simpa using Ne.symm outside)]
          simp only [List.findSome?_cons, marked]
      | none =>
          simp only [upToHit, marked, List.mem_cons, not_or] at outside
          rw [List.takeWhile_cons_of_pos (by simpa using Ne.symm outside.1)]
          simp only [List.findSome?_cons, marked]
          exact induction outside.2

theorem upToHit_cut_subset [DecidableEq α] (mark : α → Option β)
    (chain : List α) (cut : α) :
    upToHit mark (chain.takeWhile (· ≠ cut)) ⊆ upToHit mark chain := by
  induction chain with
  | nil => exact List.Subset.refl _
  | cons node chain induction =>
      intro member inside
      by_cases same : node = cut
      · simp [same, upToHit] at inside
      · rw [List.takeWhile_cons_of_pos (by simpa using same)] at inside
        cases marked : mark node with
        | some value =>
            simp only [upToHit, marked] at inside ⊢
            exact inside
        | none =>
            simp only [upToHit, marked, List.mem_cons] at inside ⊢
            exact inside.imp_right fun later => induction later

/-- `mark'` differs from `mark` only where it records what a node resolves
to already. -/
def CompletesMarks (stop : α → Prop) (up : α → Option α)
    (mark mark' : α → Option β) : Prop :=
  ∀ node, mark' node = mark node ∨
    ∃ value chain, mark' node = some value ∧ Climb stop up node chain ∧
      chain.findSome? mark = some value

/-- Completing a marking with resolved marks is invisible. -/
theorem CompletesMarks.resolves_eq
    {stop : α → Prop} {up : α → Option α} {mark mark' : α → Option β}
    (completes : CompletesMarks stop up mark mark')
    {node : α} {chain : List α} (climb : Climb stop up node chain) :
    chain.findSome? mark' = chain.findSome? mark := by
  induction climb with
  | top _ => rfl
  | @next node parent chain going parentEq rest induction =>
      rcases completes node with same | ⟨value, other, recorded, way, found⟩
      · simp only [List.findSome?_cons, same, induction]
      · have sameChain := way.unique (.next going parentEq rest)
        subst sameChain
        rw [found, List.findSome?_cons, recorded]

end Chos.Library
