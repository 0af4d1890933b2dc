import Chos.Kernel.ListWriter

/-!
# Walks stay within the list

A walk that has a pointer to a node has it to an entry of the list, or to the
one that was just taken out and still points to the first.  What lies behind
the walk it has seen and not matched.
-/

namespace Chos.Kernel

open Chos.Library

/-- The walk does not end at the entry. -/
def Walk.Misses (walk : Walk) (entry : Entry) : Prop :=
  match walk with
  | .isValid path => cString path ≠ cString entry.text
  | .print _ => True

inductive Stands (view : View) (writing : Option WritePoint) (walk : Walk)
    (entry : Entry) : Prop where
  | listed (front back : List Entry)
      (split : view.listed = front ++ entry :: back)
      (missed : ∀ other ∈ front, walk.Misses other)
  | detached (aside : view.aside = some entry)
      (point : writing = some (.poisonNext entry.node view.start))

/-- The entry a walk has a pointer to; `seen` is what is known of it from the
time it was reached. -/
def AtEntry (seen : Entry → Prop) (view : View)
    (writing : Option WritePoint) : Doing → Prop
  | .walks walk (.path c) =>
      ∃ entry, entry.node = c ∧ seen entry ∧ Stands view writing walk entry
  | .walks walk (.text c path) =>
      ∃ entry, entry.node = c ∧ entry.path = path ∧ seen entry ∧
        Stands view writing walk entry
  | .walks walk (.next c) =>
      ∃ entry, entry.node = c ∧ walk.Misses entry ∧ seen entry ∧
        Stands view writing walk entry
  | .fault => False
  | _ => True

/-- How `is_valid_path` goes on. -/
inductive Outcome (path : Text) (seen : Entry → Prop) (view : View) :
    Doing → Prop where
  | goes (point : WalkPoint) :
      Outcome path seen view (.walks (.isValid path) point)
  | found (entry : Entry) (met : seen entry)
      (same : cString path = cString entry.text) :
      Outcome path seen view (.returned (.valid true))
  | missed (others : ∀ entry ∈ view.listed,
      cString path ≠ cString entry.text) :
      Outcome path seen view (.returned (.valid false))

structure Walked (seen : Entry → Prop) (view : View)
    (writing : Option WritePoint) (walk : Walk) (memory : PathMemory)
    (left : Doing × PathMemory) : Prop where
  same : left.2 = memory
  quiet : left.1.writing = none
  placed : ∀ later : Entry → Prop, (∀ entry, seen entry → later entry) →
    (∀ entry ∈ view.listed, later entry) → AtEntry later view writing left.1
  outcome : ∀ path, walk = .isValid path → Outcome path seen view left.1

section

variable {memory : PathMemory} {view : View} {writing : Option WritePoint}
  {walk : Walk} {entry : Entry} {seen : Entry → Prop}

theorem Phase.of_poisonNext (phase : Phase memory view writing) {c : Nat}
    {p : ListPtr} (point : writing = some (.poisonNext c p)) :
    memory.linkage.next (.node c) = view.start := by
  cases phase with
  | poisonNext aside next =>
      cases point
      exact next
  | _ => cases point

theorem Stands.keeps (stands : Stands view writing walk entry)
    (shows : memory.Shows (undone memory.linkage writing) view) :
    memory.Keeps entry := by
  cases stands with
  | listed front back split missed =>
      apply shows.keeps_listed
      rw [split]
      simp
  | detached aside point => exact shows.keeps_aside aside

theorem walked_arrive {front back : List Entry}
    (split : view.listed = front ++ back)
    (missed : ∀ other ∈ front, walk.Misses other) :
    Walked seen view writing walk memory
      (walk.arrive (PathMemory.cursor (back.map Entry.node)), memory) := by
  cases back with
  | nil =>
      rw [List.append_nil] at split
      refine ⟨rfl, rfl, fun _ _ _ => trivial, ?_⟩
      rintro path rfl
      refine .missed ?_
      rw [split]
      exact missed
  | cons first back =>
      refine ⟨rfl, rfl, ?_, ?_⟩
      · intro later _ known
        refine ⟨first, rfl, known first ?_, .listed front back split missed⟩
        rw [split]
        simp
      · rintro path rfl
        exact .goes _

/-- Every access of a walk stays within the list. -/
theorem Walk.advance_walked {point : WalkPoint}
    (shows : memory.Shows (undone memory.linkage writing) view)
    (phase : Phase memory view writing)
    (placed : AtEntry seen view writing (.walks walk point)) :
    Walked seen view writing walk memory (walk.advance memory point) := by
  cases point with
  | first =>
      have next := shows.next_head
      rw [undone_next] at next
      simp only [advance,
        PathMemory.loadNext_of_usable (shows.usable List.mem_cons_self),
        next]
      exact @walked_arrive _ _ _ _ _ [] view.listed rfl (by simp)
  | path c =>
      obtain ⟨entry, rfl, met, stands⟩ := placed
      have keeps := stands.keeps shows
      have loaded : memory.loadPath entry.node = (entry.path, memory) := by
        rw [PathMemory.loadPath, PathMemory.touch_of_usable keeps.usable]
        exact congrArg (·, memory) keeps.points
      simp only [advance, loaded]
      refine ⟨rfl, rfl, ?_, ?_⟩
      · intro later still _
        exact ⟨entry, rfl, rfl, still entry met, stands⟩
      · rintro path rfl
        exact .goes _
  | text c path =>
      obtain ⟨entry, rfl, rfl, met, stands⟩ := placed
      have keeps := stands.keeps shows
      have read : memory.readPath entry.path = (entry.text, memory) := by
        simp [PathMemory.readPath, keeps.path.2, keeps.text]
      simp only [advance, read]
      cases walk with
      | isValid path =>
          simp only [look]
          by_cases same : cString path = cString entry.text
          · rw [if_pos same]
            refine ⟨rfl, rfl, fun _ _ _ => trivial, ?_⟩
            intro other isPath
            cases isPath
            exact .found entry met same
          · rw [if_neg same]
            refine ⟨rfl, rfl, ?_, ?_⟩
            · intro later still _
              exact ⟨entry, rfl, same, still entry met, stands⟩
            · intro other isPath
              cases isPath
              exact .goes _
      | print printed =>
          refine ⟨rfl, rfl, ?_, ?_⟩
          · intro later still _
            refine ⟨entry, rfl, trivial, still entry met, ?_⟩
            cases stands with
            | listed front back split _ =>
                exact .listed front back split fun _ _ => trivial
            | detached aside point => exact .detached aside point
          · intro path impossible
            cases impossible
  | next c =>
      obtain ⟨entry, rfl, misses, _, stands⟩ := placed
      have usable := (stands.keeps shows).usable
      simp only [advance, PathMemory.loadNext_of_usable usable]
      cases stands with
      | listed front back split missed =>
          have next := shows.next_listed split
          rw [undone_next] at next
          rw [next]
          apply @walked_arrive _ _ _ _ _ (front ++ [entry]) back
          · simpa using split
          · intro other inside
            rcases List.mem_append.mp inside with before | alone
            · exact missed other before
            · rw [List.mem_singleton.mp alone]
              exact misses
      | detached aside point =>
          rw [phase.of_poisonNext point]
          exact @walked_arrive _ _ _ _ _ [] view.listed rfl (by simp)

theorem Stands.edit (stands : Stands view writing walk entry) {later : View}
    {now : Option WritePoint} (edit : Edit view later now)
    (held : ∀ p, writing ≠ some (.poisonNext entry.node p)) :
    Stands later now walk entry := by
  cases stands with
  | detached aside point => exact absurd point (held _)
  | listed front back split missed =>
      cases edit with
      | keep same => exact .listed front back (same.trans split) missed
      | append new longer =>
          apply Stands.listed front (back ++ [new]) _ missed
          rw [longer, split]
          simp
      | unlink first gone aside point =>
          rw [gone] at split
          cases front with
          | nil =>
              simp only [List.nil_append, List.cons.injEq] at split
              obtain ⟨rfl, _⟩ := split
              exact .detached aside point
          | cons other front =>
              simp only [List.cons_append, List.cons.injEq] at split
              exact .listed front back split.2 fun entry inside =>
                missed entry (List.mem_cons_of_mem _ inside)

theorem AtEntry.edit {doing : Doing}
    (placed : AtEntry seen view writing doing)
    {later : View} {now : Option WritePoint} (edit : Edit view later now)
    (held : ∀ c p, writing = some (.poisonNext c p) →
      doing.hand ≠ some c) : AtEntry seen later now doing := by
  have apart : ∀ c, doing.hand = some c →
      ∀ p, writing ≠ some (.poisonNext c p) :=
    fun c inHand p point => held c p point inHand
  cases doing with
  | walks walk point =>
      cases point with
      | first => trivial
      | path c =>
          obtain ⟨entry, rfl, met, stands⟩ := placed
          exact ⟨entry, rfl, met, stands.edit edit (apart _ rfl)⟩
      | text c path =>
          obtain ⟨entry, rfl, same, met, stands⟩ := placed
          exact ⟨entry, rfl, same, met, stands.edit edit (apart _ rfl)⟩
      | next c =>
          obtain ⟨entry, rfl, misses, met, stands⟩ := placed
          exact ⟨entry, rfl, misses, met, stands.edit edit (apart _ rfl)⟩
  | fault => exact placed
  | _ => trivial

end

/-- What the calls of `write_valid` make of the list, one after another. -/
def WalksEvent.effect (paths : List ValidPath) : WalksEvent → List ValidPath
  | .call (.write euid buf count outcome) =>
      (writeValid euid buf count outcome paths).2
  | _ => paths

def stored (paths : List ValidPath) : List Text :=
  paths.map fun valid => valid.path ++ [0]

namespace Walks

def writing (state : Walks) : Option WritePoint :=
  (state.calls.filterMap Doing.writing).head?

structure Sound (state : Walks) (view : View) : Prop where
  shows : state.memory.Shows (undone state.memory.linkage state.writing) view
  phase : Phase state.memory view state.writing
  placed : ∀ doing ∈ state.calls,
    AtEntry (fun _ => True) view state.writing doing
  alone : (state.calls.filterMap Doing.writing).length ≤ 1

/-- What a step means for the walks: it is one of theirs, or the writer's,
which takes its node out of nobody's hands. -/
inductive Turn (state next : Walks) (view later : View) : Prop where
  | read (sameView : later = view)
      (sameWriting : next.writing = state.writing)
  | write (edit : Edit view later next.writing)
      (held : ∀ c p, state.writing = some (.poisonNext c p) →
        ∀ doing ∈ state.calls, doing.hand ≠ some c)

end Walks

theorem AtEntry.turn {state next : Walks} {view later : View}
    {seen : Entry → Prop} {doing : Doing}
    (placed : AtEntry seen view state.writing doing)
    (turn : state.Turn next view later) (inside : doing ∈ state.calls) :
    AtEntry seen later next.writing doing := by
  cases turn with
  | read sameView sameWriting =>
      rw [sameView, sameWriting]
      exact placed
  | write edit held =>
      exact placed.edit edit fun c p point => held c p point doing inside

theorem points_set {calls : List Doing} {index : Nat} {doing : Doing}
    (found : calls[index]? = some doing) :
    ∃ front back : List WritePoint,
      calls.filterMap Doing.writing =
        front ++ doing.writing.toList ++ back ∧
      ∀ left : Doing, (calls.set index left).filterMap Doing.writing =
        front ++ left.writing.toList ++ back := by
  have alone : ∀ single : Doing,
      [single].filterMap Doing.writing = single.writing.toList := by
    intro single
    cases point : single.writing <;> simp [point]
  obtain ⟨below, rfl⟩ := List.getElem?_eq_some_iff.mp found
  refine ⟨(calls.take index).filterMap Doing.writing,
    (calls.drop (index + 1)).filterMap Doing.writing, ?_, ?_⟩
  · rw [← alone, ← List.filterMap_append, ← List.filterMap_append,
      List.append_assoc, List.singleton_append,
      ← List.drop_eq_getElem_cons below, List.take_append_drop]
  · intro left
    rw [← alone, ← List.filterMap_append, ← List.filterMap_append,
      List.append_assoc, List.singleton_append,
      List.set_eq_take_append_cons_drop, if_pos below]

theorem WritePoint.hand_advance (point : WritePoint) (count : Nat)
    (memory : PathMemory) : (point.advance count memory).1.hand = none := by
  have arrives : ∀ p, (resetArrive count p).hand = none := by
    intro p
    cases p <;> rfl
  cases point with
  | allocPath buf count outcome =>
      simp only [advance]
      split
      · rfl
      · rfl
  | allocNode path len allocated =>
      cases allocated
      · rfl
      · rfl
  | loadFirst => exact arrives _
  | freeNode c p => exact arrives p
  | _ => rfl

theorem placed_of_hand {seen : Entry → Prop} {view : View}
    {writing : Option WritePoint} {doing : Doing}
    (empty : doing.hand = none) (noFault : doing ≠ .fault) :
    AtEntry seen view writing doing := by
  cases doing with
  | walks walk point =>
      cases point with
      | first => trivial
      | _ => cases empty
  | fault => exact absurd rfl noFault
  | _ => trivial

section Calls

variable {memory : PathMemory} {view : View} {call : ListCall}
  {paths : List ValidPath}

theorem placed_begin {seen : Entry → Prop} {writing : Option WritePoint} :
    AtEntry seen view writing call.begin := by
  cases call with
  | write euid buf count outcome =>
      simp only [ListCall.begin]
      split
      · trivial
      · split
        · trivial
        · trivial
  | _ => trivial

theorem effect_of_quiet (quiet : call.begin.writing = none) :
    WalksEvent.effect paths (.call call) = paths := by
  cases call with
  | write euid buf count outcome =>
      by_cases root : euid = 0
      · simp only [ListCall.begin, root, ne_eq, not_true_eq_false,
          if_false] at quiet
        split at quiet
        · cases quiet
        · cases quiet
      · simp [WalksEvent.effect, writeValid, root]
  | _ => rfl

/-- A call of `write_valid` that gets to the list promises its effect. -/
theorem begins (alone : view.aside = none)
    (texts : view.texts = stored paths) {point : WritePoint}
    (begins : call.begin.writing = some point) :
    Phase memory view (some point) ∧
      (∀ linkage, undone linkage (some point) = linkage) ∧
      promised memory view (some point) =
        stored (WalksEvent.effect paths (.call call)) := by
  cases call with
  | write euid buf count outcome =>
      simp only [ListCall.begin] at begins
      split at begins
      · cases begins
      rename_i root
      split at begins
      · rename_i dash
        cases begins
        refine ⟨.loadFirst alone, fun _ => rfl, ?_⟩
        simp only [WalksEvent.effect, writeValid, if_neg root, if_pos dash,
          resetvalid_eq_nil]
        rfl
      · rename_i noDash
        cases begins
        refine ⟨.allocPath alone, fun _ => rfl, ?_⟩
        simp only [promised, texts, WalksEvent.effect, writeValid,
          if_neg root, if_neg noDash]
        cases outcome.pathAlloc with
        | false => rfl
        | true =>
            cases allocated : outcome.nodeAlloc with
            | false => simp [addValidPath]
            | true => simp [addValidPath, stored]
  | _ => cases begins

end Calls

namespace Walks.Sound

variable {state : Walks} {view : View}

theorem call (sound : state.Sound view) {call : ListCall}
    (orderly : state.Orderly (.call call)) {paths : List ValidPath}
    (promise : promised state.memory view state.writing = stored paths)
    {next : Walks}
    (made : { state with calls := state.calls ++ [call.begin] } = next) :
    next.Sound view ∧ state.Turn next view view ∧
      promised next.memory view next.writing =
        stored (WalksEvent.effect paths (.call call)) := by
  subst made
  have points : (state.calls ++ [call.begin]).filterMap Doing.writing =
      state.calls.filterMap Doing.writing ++ call.begin.writing.toList := by
    rw [List.filterMap_append]
    cases begun : call.begin.writing <;> simp [begun]
  have placedAll : ∀ {now : Option WritePoint},
      (∀ doing ∈ state.calls, AtEntry (fun _ => True) view now doing) →
      ∀ doing ∈ state.calls ++ [call.begin],
        AtEntry (fun _ => True) view now doing := by
    intro now old doing inside
    rcases List.mem_append.mp inside with before | alone
    · exact old doing before
    · rw [List.mem_singleton.mp alone]
      exact placed_begin
  cases begun : call.begin.writing with
  | none =>
      rw [begun, Option.toList_none, List.append_nil] at points
      have same : ({ state with calls := state.calls ++ [call.begin] } :
          Walks).writing = state.writing := congrArg List.head? points
      refine ⟨⟨?_, ?_, ?_, ?_⟩, .read rfl same, ?_⟩
      · rw [same]
        exact sound.shows
      · rw [same]
        exact sound.phase
      · rw [same]
        exact placedAll sound.placed
      · rw [points]
        exact sound.alone
      · rw [same, effect_of_quiet begun]
        exact promise
  | some point =>
      have idle : state.calls.filterMap Doing.writing = [] :=
        List.filterMap_eq_nil_iff.mpr
          (orderly (by rw [begun]; exact Option.some_ne_none point))
      have nobody : state.writing = none := by
        rw [Walks.writing, idle]
        rfl
      have now : ({ state with calls := state.calls ++ [call.begin] } :
          Walks).writing = some point := by
        rw [Walks.writing, points, idle, begun]
        rfl
      have alone : view.aside = none := by
        have phase := sound.phase
        rw [nobody] at phase
        cases phase with
        | nobody alone => exact alone
      have shows := sound.shows
      rw [nobody] at promise shows
      obtain ⟨phase, same, kept⟩ := begins alone promise begun
      have turn : state.Turn
          { state with calls := state.calls ++ [call.begin] } view view := by
        apply Turn.write (.keep rfl)
        intro c p impossible
        rw [nobody] at impossible
        cases impossible
      refine ⟨⟨?_, ?_, ?_, ?_⟩, turn, ?_⟩
      · rw [now, same]
        exact shows
      · rw [now]
        exact phase
      · apply placedAll
        intro doing inside
        exact (sound.placed doing inside).turn turn inside
      · rw [points, idle, begun]
        exact Nat.le_refl 1
      · rw [now]
        exact kept

theorem advance_walks (sound : state.Sound view) {index : Nat} {walk : Walk}
    {point : WalkPoint}
    (found : state.calls[index]? = some (.walks walk point)) :
    (Walks.mk (walk.advance state.memory point).2 (state.calls.set index
        (walk.advance state.memory point).1)).Sound view ∧
      (Walks.mk (walk.advance state.memory point).2 (state.calls.set index
        (walk.advance state.memory point).1)).writing = state.writing := by
  have placed := sound.placed _ (List.mem_of_getElem? found)
  obtain ⟨same, quiet, ownPlaced, _⟩ :=
    walk.advance_walked sound.shows sound.phase placed
  generalize walk.advance state.memory point = left at *
  obtain ⟨after, memory⟩ := left
  subst same
  have points : (state.calls.set index after).filterMap Doing.writing =
      state.calls.filterMap Doing.writing := by
    obtain ⟨front, back, older, newer⟩ := points_set found
    rw [newer, older, quiet]
    rfl
  have writing : (Walks.mk state.memory
      (state.calls.set index after)).writing = state.writing :=
    congrArg List.head? points
  refine ⟨⟨?_, ?_, ?_, ?_⟩, writing⟩
  · rw [writing]
    exact sound.shows
  · rw [writing]
    exact sound.phase
  · rw [writing]
    intro other inside
    rcases List.mem_or_eq_of_mem_set inside with old | isOwn
    · exact sound.placed other old
    · rw [isOwn]
      exact ownPlaced _ (fun _ _ => trivial) fun _ _ => trivial
  · rw [points]
    exact sound.alone

theorem advance_writes (sound : state.Sound view) {index count : Nat}
    {point : WritePoint} (orderly : state.Orderly (.advance index))
    (found : state.calls[index]? = some (.writes count point))
    {next : Walks}
    (made : Walks.mk (point.advance count state.memory).2 (state.calls.set
      index (point.advance count state.memory).1) = next) :
    ∃ later, next.Sound later ∧ state.Turn next view later ∧
      promised next.memory later next.writing =
        promised state.memory view state.writing := by
  subst made
  obtain ⟨front, back, older, newer⟩ := points_set found
  have alone := sound.alone
  rw [older, List.length_append, List.length_append] at alone
  simp only [Doing.writing, Option.toList_some, List.length_singleton]
    at alone
  have before : front = [] := List.eq_nil_of_length_eq_zero (by omega)
  have after : back = [] := List.eq_nil_of_length_eq_zero (by omega)
  subst before after
  have writing : state.writing = some point := by
    rw [Walks.writing, older]
    rfl
  have shows := sound.shows
  have phase := sound.phase
  rw [writing] at shows phase
  obtain ⟨later, leaves⟩ := point.advance_leaves count shows phase
  have ownHand := point.hand_advance count state.memory
  generalize point.advance count state.memory = left at *
  have points := newer left.1
  rw [List.nil_append, List.append_nil] at points
  have now : (Walks.mk left.2 (state.calls.set index left.1)).writing =
      left.1.writing := by
    rw [Walks.writing, points]
    cases left.1.writing <;> rfl
  have turn : state.Turn (Walks.mk left.2 (state.calls.set index left.1))
      view later := by
    apply Turn.write
    · rw [now]
      exact leaves.edit
    · intro c p poisons
      rw [writing] at poisons
      cases poisons
      exact orderly.held found rfl
  refine ⟨later, ⟨?_, ?_, ?_, ?_⟩, turn, ?_⟩
  · rw [now]
    exact leaves.shows
  · rw [now]
    exact leaves.phase
  · intro other inside
    rcases List.mem_or_eq_of_mem_set inside with old | isOwn
    · exact (sound.placed other old).turn turn old
    · rw [isOwn]
      exact placed_of_hand ownHand leaves.sound
  · rw [points]
    cases left.1.writing <;> simp
  · rw [now, writing]
    exact leaves.promise

theorem step (sound : state.Sound view) {event : WalksEvent}
    (orderly : state.Orderly event) {next : Walks}
    (stepped : state.step event = some next) {paths : List ValidPath}
    (promise : promised state.memory view state.writing = stored paths) :
    ∃ later, next.Sound later ∧ state.Turn next view later ∧
      promised next.memory later next.writing =
        stored (event.effect paths) := by
  cases event with
  | call call =>
      exact ⟨view, sound.call orderly promise (Option.some.inj stepped)⟩
  | advance index =>
      rw [Walks.step] at stepped
      cases found : state.calls[index]? with
      | none => simp [found] at stepped
      | some doing =>
          simp only [found] at stepped
          obtain ⟨left, advanced, made⟩ := Option.map_eq_some_iff.mp stepped
          cases doing with
          | walks walk point =>
              cases advanced
              subst made
              obtain ⟨nextSound, writing⟩ := sound.advance_walks found
              have same := (walk.advance_walked sound.shows sound.phase
                (sound.placed _ (List.mem_of_getElem? found))).same
              refine ⟨view, nextSound, .read rfl writing, ?_⟩
              rw [writing, same]
              exact promise
          | writes count point =>
              cases advanced
              obtain ⟨later, nextSound, turn, kept⟩ :=
                sound.advance_writes orderly found made
              exact ⟨later, nextSound, turn, kept.trans promise⟩
          | returned answer => cases advanced
          | fault => cases advanced

/-- A walk without interruption meets the entries of the list. -/
theorem listed (sound : state.Sound view) :
    state.memory.listed = some view.texts := by
  have ring := sound.shows.ring
  have distinct := (List.nodup_append.mp
    ((List.map_append ▸ sound.shows.nodes :
      (view.aside.toList.map Entry.node ++ view.nodes).Nodup))).2.1
  have below : view.nodes ⊆ List.range state.memory.nodes.next := by
    intro node inside
    obtain ⟨entry, listed, rfl⟩ := List.mem_map.mp inside
    exact List.mem_range.mpr (sound.shows.keeps_listed listed).node.1
  have length := (distinct.subperm below).length_le
  rw [List.length_range] at length
  have enough : (view.nodes.map ListPtr.node).length <
      state.memory.nodes.next + 1 := by
    rw [List.length_map]
    exact Nat.lt_succ_of_le length
  have walked := ring.walk_eq enough
  rw [undone_next, Linkage.walk_congr (undone_next _ _)] at walked
  rw [PathMemory.listed, walked, Option.map_some, View.texts, View.nodes,
    List.map_map, List.map_map]
  congr 1
  apply List.map_congr_left
  intro entry inside
  have keeps := sound.shows.keeps_listed inside
  change state.memory.paths.block (state.memory.pathOf entry.node) = _
  rw [keeps.points, keeps.text]

theorem init : Walks.init.Sound ⟨[], none⟩ where
  shows :=
    { ring := .empty rfl rfl
      keeps := by simp [View.all]
      nodes := List.nodup_nil
      paths := List.nodup_nil
      misuse := rfl }
  phase := .nobody rfl
  placed := by simp [Walks.init]
  alone := Nat.zero_le 1

/-- In every orderly run the writer of the moment promises what the calls of
`write_valid` so far come to. -/
theorem run {events : List WalksEvent} {final : Walks}
    (finished : run Walks.step .init events = some final)
    (orderly : Along Walks.step Walks.Orderly .init events) :
    ∃ view, final.Sound view ∧
      promised final.memory view final.writing =
        stored (events.foldl WalksEvent.effect []) := by
  apply @run_history _ _ _ _ _ _ (fun past current => ∃ view,
    current.Sound view ∧ promised current.memory view current.writing =
      stored (past.foldl WalksEvent.effect [])) _ events finished orderly
  · exact ⟨⟨[], none⟩, init, rfl⟩
  · rintro past current event next _ ⟨view, sound, promise⟩ allowed stepped
    obtain ⟨later, nextSound, _, kept⟩ := sound.step allowed stepped promise
    refine ⟨later, nextSound, ?_⟩
    rw [List.foldl_append]
    exact kept

end Walks.Sound

/-- Without a lock the list survives: nothing that was freed or poisoned is
touched, the list is always one a walk can finish, each step leaves it as it
is, adds one entry at its end or takes out its first one, and when no
`write_valid` is under way it is what the calls of `write_valid` make of the
empty list one after another. -/
theorem walks_memorySafe {events : List WalksEvent} {final : Walks}
    (finished : run Walks.step .init events = some final)
    (orderly : Along Walks.step Walks.Orderly .init events) :
    final.memory.misuse = 0 ∧ Doing.fault ∉ final.calls ∧
      ∃ texts, final.memory.listed = some texts ∧
        (final.writing = none →
          texts = stored (events.foldl WalksEvent.effect [])) ∧
        ∀ event next, final.Orderly event →
          final.step event = some next →
          ∃ later, next.memory.listed = some later ∧
            (later = texts ∨ (∃ text, later = texts ++ [text]) ∨
              ∃ text, texts = text :: later) := by
  obtain ⟨view, sound, promise⟩ := Walks.Sound.run finished orderly
  refine ⟨sound.shows.misuse, ?_, view.texts, sound.listed, ?_, ?_⟩
  · intro fault
    exact sound.placed _ fault
  · intro nobody
    rw [nobody] at promise
    exact promise
  · intro event next allowed stepped
    obtain ⟨later, nextSound, turn, _⟩ :=
      sound.step allowed stepped promise
    refine ⟨later.texts, nextSound.listed, ?_⟩
    cases turn with
    | read same _ =>
        rw [same]
        exact .inl rfl
    | write edit _ =>
        unfold View.texts
        cases edit with
        | keep same =>
            rw [same]
            exact .inl rfl
        | append entry longer =>
            refine .inr (.inl ⟨entry.text, ?_⟩)
            rw [longer, List.map_append]
            rfl
        | unlink entry first _ _ =>
            refine .inr (.inr ⟨entry.text, ?_⟩)
            rw [first]
            rfl

/-- `/a` is listed, a walk passes it, `/b` is listed and found, and the list
is emptied. -/
def busyList : List WalksEvent :=
  .call (.write 0 [47, 97] 2 ⟨true, true⟩) ::
    List.replicate 7 (.advance 0) ++
  .call (.isValid [47, 98]) :: List.replicate 3 (.advance 1) ++
  .call (.write 0 [47, 98] 2 ⟨true, true⟩) ::
    List.replicate 7 (.advance 2) ++
  List.replicate 3 (.advance 1) ++
  .call (.write 0 ['-'.toUInt8] 1 ⟨true, true⟩) ::
    List.replicate 21 (.advance 3)

theorem walks_memorySafe_busy :
    ∃ final, run Walks.step .init busyList = some final ∧
      final.memory.misuse = 0 ∧ final.memory.listed = some [] := by
  have ends : (run Walks.step .init busyList).any
      (fun final => final.writing = none) = true := by
    decide +kernel
  obtain ⟨final, finished, nobody⟩ := (Option.any_eq_true _ _).mp ends
  obtain ⟨safe, _, texts, listed, complete, _⟩ :=
    walks_memorySafe finished (by decide +kernel)
  refine ⟨final, finished, safe, ?_⟩
  rw [listed, complete (of_decide_eq_true nobody)]
  decide +kernel

/-- A reset under a walk: the walk follows a poisoned pointer. -/
example :
    (run Walks.step .init
      (.call (.write 0 [47, 97] 2 ⟨true, true⟩) ::
        List.replicate 7 (.advance 0) ++
      .call (.isValid [47, 98]) :: List.replicate 3 (.advance 1) ++
      .call (.write 0 ['-'.toUInt8] 1 ⟨true, true⟩) ::
        List.replicate 11 (.advance 2) ++
      [.advance 1])).any (fun final => 0 < final.memory.misuse) = true := by
  decide +kernel

/-- Two calls of `write_valid` that overlap: both return the count, and one
path is not in the list. -/
example :
    (run Walks.step .init
      (.call (.write 0 [47, 97] 2 ⟨true, true⟩) ::
        List.replicate 3 (.advance 0) ++
      .call (.write 0 [47, 98] 2 ⟨true, true⟩) ::
        List.replicate 7 (.advance 1) ++
      List.replicate 4 (.advance 0))).any (fun final =>
        final.writing = none ∧
          final.memory.listed = some [[47, 97, 0]]) = true := by
  decide +kernel

end Chos.Kernel
