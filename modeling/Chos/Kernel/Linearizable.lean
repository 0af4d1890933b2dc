import Chos.Kernel.WalkSafety

/-!
# The answer of a walk

`is_valid_path` reads one node after another while the list changes under it.
Its answer is nevertheless that of one moment of the call: what it finds was
listed when it got to the node, and when it finds nothing all that is listed
at the end lies behind it.
-/

namespace Chos.Kernel

open Chos.Library

/-- `strcmp` would find the path. -/
def Walks.Lists (state : Walks) (path : Text) (found : Bool) : Prop :=
  ∃ texts, state.memory.listed = some texts ∧
    (found = true ↔ ∃ text ∈ texts, cString path = cString text)

/-- The entry has been listed during the call. -/
def Walks.Met (called : Walks) (past : List WalksEvent) (entry : Entry) :
    Prop :=
  Once Walks.step (fun middle =>
    ∃ texts, middle.memory.listed = some texts ∧ entry.text ∈ texts)
    called past

/-- A call of `is_valid_path` is on its way, or its answer was right once. -/
def Walks.Justified (called : Walks) (path : Text) (past : List WalksEvent)
    (doing : Doing) : Prop :=
  (∃ point, doing = .walks (.isValid path) point) ∨
    ∃ answer, doing = .returned (.valid answer) ∧
      Once Walks.step (fun middle => middle.Lists path answer) called past

theorem AtEntry.mono {seen later : Entry → Prop} {view : View}
    {writing : Option WritePoint} {doing : Doing}
    (placed : AtEntry seen view writing doing)
    (implies : ∀ entry, seen entry → later entry) :
    AtEntry later view writing doing := by
  cases doing with
  | walks walk point =>
      cases point with
      | first => trivial
      | path c =>
          obtain ⟨entry, same, met, stands⟩ := placed
          exact ⟨entry, same, implies entry met, stands⟩
      | text c path =>
          obtain ⟨entry, same, points, met, stands⟩ := placed
          exact ⟨entry, same, points, implies entry met, stands⟩
      | next c =>
          obtain ⟨entry, same, misses, met, stands⟩ := placed
          exact ⟨entry, same, misses, implies entry met, stands⟩
  | fault => exact placed
  | _ => trivial

namespace Walks

variable {called : Walks} {path : Text} {past : List WalksEvent}

theorem Justified.append {doing : Doing}
    (justified : called.Justified path past doing)
    (event : WalksEvent) :
    called.Justified path (past ++ [event]) doing := by
  rcases justified with goes | ⟨answer, returned, once⟩
  · exact .inl goes
  · exact .inr ⟨answer, returned, once.append [event]⟩

theorem met_of_listed {state : Walks} {view : View} (sound : state.Sound view)
    (reached : run Walks.step called past = some state) {entry : Entry}
    (inside : entry ∈ view.listed) : called.Met past entry :=
  once_of_last reached
    ⟨view.texts, sound.listed, List.mem_map_of_mem inside⟩

/-- What the next access of the call comes to. -/
theorem justified_of_outcome {state : Walks} {view : View}
    (sound : state.Sound view)
    (reached : run Walks.step called past = some state) {doing : Doing}
    (outcome : Outcome path (called.Met past) view doing) :
    called.Justified path past doing := by
  cases outcome with
  | goes point => exact .inl ⟨point, rfl⟩
  | found entry met same =>
      refine .inr ⟨true, rfl, met.mono ?_⟩
      rintro middle ⟨texts, listed, inside⟩
      exact ⟨texts, listed, fun _ => ⟨entry.text, inside, same⟩,
        fun _ => rfl⟩
  | missed others =>
      refine .inr ⟨false, rfl, once_of_last reached ?_⟩
      refine ⟨view.texts, sound.listed, ?_⟩
      constructor
      · intro impossible
        cases impossible
      · rintro ⟨text, inside, same⟩
        obtain ⟨entry, listed, rfl⟩ := List.mem_map.mp inside
        exact absurd same (others entry listed)

/-- A call of `is_valid_path` since it was made. -/
structure Tracked (called : Walks) (path : Text) (index : Nat)
    (past : List WalksEvent) (state : Walks) (view : View) (doing : Doing) :
    Prop where
  sound : state.Sound view
  promise : ∃ paths, promised state.memory view state.writing = stored paths
  found : state.calls[index]? = some doing
  placed : AtEntry (called.Met past) view state.writing doing
  justified : called.Justified path past doing

theorem found_of_step {index : Nat} {state next : Walks} {doing : Doing}
    (found : state.calls[index]? = some doing) {event : WalksEvent}
    (other : event ≠ .advance index)
    (stepped : state.step event = some next) :
    next.calls[index]? = some doing := by
  cases event with
  | call call =>
      cases stepped
      have below := (List.getElem?_eq_some_iff.mp found).1
      rw [List.getElem?_append_left below]
      exact found
  | advance elsewhere =>
      have different : elsewhere ≠ index := by
        rintro rfl
        exact other rfl
      rw [Walks.step] at stepped
      cases moving : state.calls[elsewhere]? with
      | none => simp [moving] at stepped
      | some mover =>
          simp only [moving] at stepped
          obtain ⟨left, _, made⟩ := Option.map_eq_some_iff.mp stepped
          rw [← made, List.getElem?_set_ne different]
          exact found

theorem Tracked.others {index : Nat} {state next : Walks} {view : View}
    {doing : Doing}
    (tracked : called.Tracked path index past state view doing)
    {event : WalksEvent} (orderly : state.Orderly event)
    (stepped : state.step event = some next)
    (other : event ≠ .advance index) :
    ∃ later, called.Tracked path index (past ++ [event]) next later
      doing := by
  obtain ⟨paths, promise⟩ := tracked.promise
  obtain ⟨later, nextSound, turn, kept⟩ :=
    tracked.sound.step orderly stepped promise
  have inside := List.mem_of_getElem? tracked.found
  exact ⟨later, nextSound, ⟨_, kept⟩,
    found_of_step tracked.found other stepped,
    (tracked.placed.turn turn inside).mono
      fun entry met => met.append [event],
    tracked.justified.append event⟩

theorem Tracked.own {index : Nat} {state next : Walks} {view : View}
    {doing : Doing}
    (tracked : called.Tracked path index past state view doing)
    (reached : run Walks.step called past = some state)
    (stepped : state.step (.advance index) = some next) :
    ∃ left, called.Tracked path index (past ++ [.advance index]) next view
      left := by
  have further : run Walks.step called (past ++ [.advance index]) =
      some next :=
    run_append_eq_some_iff.mpr ⟨state, reached, run_singleton.mpr stepped⟩
  rw [Walks.step, tracked.found] at stepped
  rcases tracked.justified with ⟨point, rfl⟩ | ⟨answer, rfl, _⟩
  · have made : Walks.mk ((Walk.isValid path).advance state.memory point).2
        (state.calls.set index
          ((Walk.isValid path).advance state.memory point).1) = next :=
      Option.some.inj stepped
    subst made
    have below := (List.getElem?_eq_some_iff.mp tracked.found).1
    obtain ⟨nextSound, writing⟩ :=
      tracked.sound.advance_walks tracked.found
    have placed := tracked.placed.mono
      fun entry (met : called.Met past entry) =>
        met.append [.advance index]
    obtain ⟨same, _, ownPlaced, outcome⟩ :=
      (Walk.isValid path).advance_walked tracked.sound.shows
        tracked.sound.phase placed
    refine ⟨_, nextSound, ?_, List.getElem?_set_self below, ?_,
      justified_of_outcome nextSound further (outcome path rfl)⟩
    · rw [writing, same]
      exact tracked.promise
    · rw [writing]
      exact ownPlaced _ (fun _ met => met) fun entry inside =>
        met_of_listed nextSound further inside
  · cases stepped

theorem Tracked.step {index : Nat} {state next : Walks} {view : View}
    {doing : Doing}
    (tracked : called.Tracked path index past state view doing)
    (reached : run Walks.step called past = some state) {event : WalksEvent}
    (orderly : state.Orderly event)
    (stepped : state.step event = some next) :
    ∃ later left,
      called.Tracked path index (past ++ [event]) next later left := by
  by_cases own : event = .advance index
  · subst own
    exact ⟨view, tracked.own reached stepped⟩
  · obtain ⟨later, still⟩ := tracked.others orderly stepped own
    exact ⟨later, doing, still⟩

theorem tracked_of_call {start : Walks} {before : List WalksEvent}
    (further : run Walks.step .init (before ++ [.call (.isValid path)]) =
      some called)
    (orderly : Along Walks.step Walks.Orderly .init
      (before ++ [.call (.isValid path)]))
    (made : start.step (.call (.isValid path)) = some called) :
    ∃ view, called.Tracked path start.calls.length [] called view
      (.walks (.isValid path) .first) := by
  obtain ⟨view, sound, promise⟩ := Sound.run further orderly
  refine ⟨view, sound, ⟨_, promise⟩, ?_, trivial, .inl ⟨.first, rfl⟩⟩
  cases made
  exact List.getElem?_concat_length

end Walks

/-- In every orderly run the answer of `is_valid_path` is right at some moment
between its call and its return. -/
theorem is_valid_path_linearizable {before during : List WalksEvent}
    {start called final : Walks} {path : Text} {answer : Bool}
    (reached : run Walks.step .init before = some start)
    (made : start.step (.call (.isValid path)) = some called)
    (finished : run Walks.step called during = some final)
    (orderly : Along Walks.step Walks.Orderly .init
      (before ++ .call (.isValid path) :: during))
    (returned : final.calls[start.calls.length]? =
      some (.returned (.valid answer))) :
    Once Walks.step (fun middle => middle.Lists path answer) called
      during := by
  have further : run Walks.step .init (before ++ [.call (.isValid path)]) =
      some called :=
    run_append_eq_some_iff.mpr ⟨start, reached, run_singleton.mpr made⟩
  rw [List.append_cons] at orderly
  obtain ⟨untilCall, since⟩ := orderly.divide further
  obtain ⟨view, tracked⟩ := Walks.tracked_of_call further untilCall made
  have result : ∃ later doing, called.Tracked path start.calls.length during
      final later doing := by
    apply @run_history _ _ _ _ _ _ (fun past state => ∃ later doing,
      called.Tracked path start.calls.length past state later doing) _
      during finished since
    · exact ⟨view, _, tracked⟩
    · rintro past state event next arrived ⟨later, doing, still⟩ allowed
        stepped
      exact still.step arrived allowed stepped
  obtain ⟨later, doing, ended⟩ := result
  have isAnswer : doing = .returned (.valid answer) :=
    Option.some.inj (ended.found.symm.trans returned)
  rcases ended.justified with ⟨point, goes⟩ | ⟨other, same, once⟩
  · rw [goes] at isAnswer
    cases isAnswer
  · rw [same] at isAnswer
    cases isAnswer
    exact once

def Doing.found : Doing → Option Bool
  | .returned (.valid answer) => some answer
  | _ => none

theorem Doing.eq_of_found {doing : Doing} {answer : Bool}
    (found : doing.found = some answer) :
    doing = .returned (.valid answer) := by
  cases doing with
  | returned result =>
      cases result with
      | valid other =>
          cases found
          rfl
      | _ => cases found
  | _ => cases found

/-- `/b` is added while the walk is at `/a`. -/
def addedMeanwhile : List WalksEvent :=
  List.replicate 3 (.advance 1) ++
  .call (.write 0 [47, 98] 2 ⟨true, true⟩) ::
    List.replicate 7 (.advance 2) ++
  List.replicate 3 (.advance 1)

theorem is_valid_path_linearizable_added :
    ∃ called, run Walks.step .init
        (.call (.write 0 [47, 97] 2 ⟨true, true⟩) ::
          List.replicate 7 (.advance 0) ++ [.call (.isValid [47, 98])]) =
        some called ∧
      Once Walks.step (fun middle => middle.Lists [47, 98] true) called
        addedMeanwhile := by
  have ends : (run Walks.step .init
      (.call (.write 0 [47, 97] 2 ⟨true, true⟩) ::
        List.replicate 7 (.advance 0))).any (fun start =>
      (start.step (.call (.isValid [47, 98]))).any fun called =>
        (run Walks.step called addedMeanwhile).any fun final =>
          final.calls[start.calls.length]?.bind Doing.found = some true) =
      true := by
    decide +kernel
  obtain ⟨start, reached, ends⟩ := (Option.any_eq_true _ _).mp ends
  obtain ⟨called, made, ends⟩ := (Option.any_eq_true _ _).mp ends
  obtain ⟨final, finished, ends⟩ := (Option.any_eq_true _ _).mp ends
  obtain ⟨doing, isCall, found⟩ :=
    Option.bind_eq_some_iff.mp (of_decide_eq_true ends)
  rw [Doing.eq_of_found found] at isCall
  exact ⟨called,
    run_append_eq_some_iff.mpr ⟨start, reached, run_singleton.mpr made⟩,
    is_valid_path_linearizable reached made finished (by decide +kernel)
      isCall⟩

end Chos.Kernel
