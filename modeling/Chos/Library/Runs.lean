import Mathlib.Data.Option.Basic

/-!
# Finite runs of a partial step function

A system is a step function `σ → ε → Option σ`; `none` means that the event
cannot be taken.  Besides the invariant rule this file relates two ways of
speaking about a run: what holds in every state it passes through, and what
each of its steps satisfies in the state in which it is taken.
-/

namespace Chos.Library

variable {σ ε : Type*} {step : σ → ε → Option σ}

def run (step : σ → ε → Option σ) : σ → List ε → Option σ
  | start, [] => some start
  | start, event :: events =>
      match step start event with
      | none => none
      | some next => run step next events

@[simp] theorem run_nil (start : σ) : run step start [] = some start := rfl

theorem run_cons_eq_some_iff
    {start finish : σ} {event : ε} {events : List ε} :
    run step start (event :: events) = some finish ↔
      ∃ next, step start event = some next ∧
        run step next events = some finish := by
  rw [run]
  cases taken : step start event with
  | none => simp
  | some next => simp

theorem run_append_eq_some_iff
    {start finish : σ} {first second : List ε} :
    run step start (first ++ second) = some finish ↔
      ∃ middle, run step start first = some middle ∧
        run step middle second = some finish := by
  induction first generalizing start with
  | nil => simp
  | cons event events induction =>
      rw [List.cons_append, run_cons_eq_some_iff]
      simp only [run_cons_eq_some_iff, induction]
      constructor
      · rintro ⟨next, taken, middle, before, after⟩
        exact ⟨middle, ⟨next, taken, before⟩, after⟩
      · rintro ⟨middle, ⟨next, taken, before⟩, after⟩
        exact ⟨next, taken, middle, before, after⟩

theorem run_singleton {start finish : σ} {event : ε} :
    run step start [event] = some finish ↔
      step start event = some finish := by
  simp [run_cons_eq_some_iff]

/-- Every step of the run meets `allowed` in the state where it is taken. -/
def Along (step : σ → ε → Option σ) (allowed : σ → ε → Prop) :
    σ → List ε → Prop
  | _, [] => True
  | start, event :: events =>
      allowed start event ∧
        ∀ next, step start event = some next →
          Along step allowed next events

instance Along.decidable (step : σ → ε → Option σ) (allowed : σ → ε → Prop)
    [decideAllowed : ∀ state event, Decidable (allowed state event)] :
    ∀ start events, Decidable (Along step allowed start events)
  | _, [] => .isTrue trivial
  | start, event :: events =>
      @instDecidableAnd _ _ (decideAllowed start event)
        (match step start event with
        | none => .isTrue fun _ impossible => by cases impossible
        | some next =>
            @decidable_of_iff _ (Along step allowed next events)
              ⟨fun along other same => Option.some.inj same ▸ along,
                fun along => along next rfl⟩
              (Along.decidable step allowed next events))

/-- The property holds in every state the run passes through, its first and
its last one included. -/
def Throughout (step : σ → ε → Option σ) (property : σ → Prop) :
    σ → List ε → Prop
  | start, [] => property start
  | start, event :: events =>
      property start ∧
        ∀ next, step start event = some next →
          Throughout step property next events

/-- The run has been in a state with the property, its first and its last one
included. -/
def Once (step : σ → ε → Option σ) (property : σ → Prop) (start : σ)
    (events : List ε) : Prop :=
  ∃ before after middle, events = before ++ after ∧
    run step start before = some middle ∧ property middle

theorem once_of_last {property : σ → Prop} {start finish : σ}
    {events : List ε} (finished : run step start events = some finish)
    (holds : property finish) : Once step property start events :=
  ⟨events, [], finish, (List.append_nil _).symm, finished, holds⟩

theorem Once.append {property : σ → Prop} {start : σ} {events : List ε}
    (once : Once step property start events) (later : List ε) :
    Once step property start (events ++ later) := by
  obtain ⟨before, after, middle, rfl, reached, holds⟩ := once
  exact ⟨before, after ++ later, middle, List.append_assoc _ _ _, reached,
    holds⟩

theorem Once.mono {weaker stronger : σ → Prop} {start : σ} {events : List ε}
    (once : Once step stronger start events)
    (implies : ∀ state, stronger state → weaker state) :
    Once step weaker start events := by
  obtain ⟨before, after, middle, same, reached, holds⟩ := once
  exact ⟨before, after, middle, same, reached, implies middle holds⟩

/-- The invariant rule: what every allowed step keeps, an allowed run keeps. -/
theorem run_invariant
    {allowed : σ → ε → Prop} {invariant : σ → Prop}
    (kept : ∀ state event next, invariant state → allowed state event →
      step state event = some next → invariant next)
    {start finish : σ} {events : List ε}
    (finished : run step start events = some finish)
    (along : Along step allowed start events)
    (initially : invariant start) : invariant finish := by
  induction events generalizing start with
  | nil =>
      cases finished
      exact initially
  | cons event events induction =>
      obtain ⟨next, taken, rest⟩ := run_cons_eq_some_iff.mp finished
      exact induction rest (along.2 next taken)
        (kept start event next initially along.1 taken)

/-- The invariant rule for what also depends on the events so far. -/
theorem run_history
    {allowed : σ → ε → Prop} {start finish : σ}
    {invariant : List ε → σ → Prop}
    (kept : ∀ past state event next, run step start past = some state →
      invariant past state → allowed state event →
      step state event = some next → invariant (past ++ [event]) next)
    {events : List ε} (finished : run step start events = some finish)
    (along : Along step allowed start events)
    (initially : invariant [] start) : invariant events finish := by
  have onwards : ∀ past middle, run step start past = some middle →
      invariant past middle → run step middle events = some finish →
      Along step allowed middle events →
      invariant (past ++ events) finish := by
    clear finished along
    induction events with
    | nil =>
        intro past middle _ holds finished _
        cases finished
        rw [List.append_nil]
        exact holds
    | cons event events induction =>
        intro past middle reached holds finished along
        obtain ⟨next, taken, rest⟩ := run_cons_eq_some_iff.mp finished
        have further : run step start (past ++ [event]) = some next :=
          run_append_eq_some_iff.mpr
            ⟨middle, reached, run_singleton.mpr taken⟩
        have result := induction (past ++ [event]) next further
          (kept past middle event next reached holds along.1 taken) rest
          (along.2 next taken)
        rw [List.append_assoc] at result
        exact result
  exact onwards [] start rfl initially finished along

/-- Simulation in lockstep: a second system takes the same events, and the
relation between the two is kept by every allowed step. -/
theorem run_simulated {τ : Type*} {other : τ → ε → Option τ}
    {allowed : σ → ε → Prop} {related : σ → τ → Prop}
    (simulated : ∀ state image event next, related state image →
      allowed state event → step state event = some next →
      ∃ later, other image event = some later ∧ related next later)
    {start finish : σ} {events : List ε}
    (finished : run step start events = some finish)
    (along : Along step allowed start events)
    {image : τ} (initially : related start image) :
    ∃ final, run other image events = some final ∧
      related finish final := by
  induction events generalizing start image with
  | nil =>
      cases finished
      exact ⟨image, rfl, initially⟩
  | cons event events induction =>
      obtain ⟨next, taken, rest⟩ := run_cons_eq_some_iff.mp finished
      obtain ⟨later, follows, still⟩ :=
        simulated start image event next initially along.1 taken
      obtain ⟨final, reached, ends⟩ :=
        induction rest (along.2 next taken) still
      exact ⟨final, run_cons_eq_some_iff.mpr ⟨later, follows, reached⟩,
        ends⟩

theorem along_of_forall
    {allowed : σ → ε → Prop}
    (always : ∀ state event, allowed state event)
    (start : σ) (events : List ε) : Along step allowed start events := by
  induction events generalizing start with
  | nil => trivial
  | cons event events induction =>
      exact ⟨always start event, fun next _ => induction next⟩

theorem Along.mono
    {weaker stronger : σ → ε → Prop}
    (implies : ∀ state event, stronger state event → weaker state event)
    {start : σ} {events : List ε}
    (along : Along step stronger start events) :
    Along step weaker start events := by
  induction events generalizing start with
  | nil => trivial
  | cons event events induction =>
      exact ⟨implies start event along.1,
        fun next taken => induction (along.2 next taken)⟩

theorem Along.and
    {left right : σ → ε → Prop} {start : σ} {events : List ε}
    (first : Along step left start events)
    (second : Along step right start events) :
    Along step (fun state event => left state event ∧ right state event)
      start events := by
  induction events generalizing start with
  | nil => trivial
  | cons event events induction =>
      exact ⟨⟨first.1, second.1⟩, fun next taken =>
        induction (first.2 next taken) (second.2 next taken)⟩

theorem Along.append
    {allowed : σ → ε → Prop} {start middle : σ} {first second : List ε}
    (reached : run step start first = some middle)
    (before : Along step allowed start first)
    (after : Along step allowed middle second) :
    Along step allowed start (first ++ second) := by
  induction first generalizing start with
  | nil =>
      cases reached
      exact after
  | cons event events induction =>
      obtain ⟨next, taken, rest⟩ := run_cons_eq_some_iff.mp reached
      refine ⟨before.1, ?_⟩
      intro other takenOther
      have same := Option.some.inj (takenOther.symm.trans taken)
      subst same
      exact induction rest (before.2 other taken)

theorem Along.divide
    {allowed : σ → ε → Prop} {start middle : σ} {first second : List ε}
    (reached : run step start first = some middle)
    (along : Along step allowed start (first ++ second)) :
    Along step allowed start first ∧ Along step allowed middle second := by
  induction first generalizing start with
  | nil =>
      cases reached
      exact ⟨trivial, along⟩
  | cons event events induction =>
      obtain ⟨next, taken, rest⟩ := run_cons_eq_some_iff.mp reached
      obtain ⟨before, after⟩ := induction rest (along.2 next taken)
      refine ⟨⟨along.1, ?_⟩, after⟩
      intro other takenOther
      have same := Option.some.inj (takenOther.symm.trans taken)
      subst same
      exact before

/-- The invariant rule for what holds on the way. -/
theorem throughout_of_along
    {allowed : σ → ε → Prop} {property : σ → Prop} (invariant : σ → Prop)
    (implies : ∀ state, invariant state → property state)
    (kept : ∀ state event next, invariant state → allowed state event →
      step state event = some next → invariant next)
    {start : σ} {events : List ε}
    (along : Along step allowed start events)
    (initially : invariant start) :
    Throughout step property start events := by
  induction events generalizing start with
  | nil => exact implies start initially
  | cons event events induction =>
      refine ⟨implies start initially, ?_⟩
      intro next taken
      exact induction (along.2 next taken)
        (kept start event next initially along.1 taken)

/-- `Along` for a condition on the events alone. -/
theorem along_iff_forall_mem
    {allowed : ε → Prop} {start finish : σ} {events : List ε}
    (finished : run step start events = some finish) :
    Along step (fun _ event => allowed event) start events ↔
      ∀ event ∈ events, allowed event := by
  induction events generalizing start with
  | nil => simp [Along]
  | cons event events induction =>
      obtain ⟨next, taken, rest⟩ := run_cons_eq_some_iff.mp finished
      rw [List.forall_mem_cons, ← induction rest]
      constructor
      · intro along
        exact ⟨along.1, along.2 next taken⟩
      · rintro ⟨first, later⟩
        refine ⟨first, ?_⟩
        intro other takenOther
        rw [Option.some.inj (takenOther.symm.trans taken)]
        exact later

/-- Exactness of a step condition.  Suppose `good` implies `property`, an
allowed step leads from good to good, and a step that is not allowed leads
from good to a state without the property.  Then a run from a good state has
the property throughout exactly when all its steps are allowed.  Both are
asked of the considered steps only. -/
theorem throughout_iff_along
    {considered allowed : σ → ε → Prop}
    {property : σ → Prop} (good : σ → Prop)
    (good_property : ∀ state, good state → property state)
    (kept : ∀ state event next, good state → considered state event →
      allowed state event → step state event = some next → good next)
    (broken : ∀ state event next, good state → considered state event →
      ¬ allowed state event → step state event = some next →
      ¬ property next)
    {start finish : σ} {events : List ε}
    (finished : run step start events = some finish)
    (consider : Along step considered start events)
    (initially : good start) :
    Throughout step property start events ↔
      Along step allowed start events := by
  induction events generalizing start with
  | nil => exact ⟨fun _ => trivial, fun _ => good_property start initially⟩
  | cons event events induction =>
      obtain ⟨next, taken, rest⟩ := run_cons_eq_some_iff.mp finished
      have unique : ∀ other, step start event = some other → other = next := by
        intro other takenOther
        exact Option.some.inj (takenOther.symm.trans taken)
      have later := consider.2 next taken
      constructor
      · intro throughout
        have nextThroughout := throughout.2 next taken
        have nextProperty : property next := by
          cases events with
          | nil => exact nextThroughout
          | cons _ _ => exact nextThroughout.1
        have permitted : allowed start event := by
          by_contra forbidden
          exact broken start event next initially consider.1 forbidden taken
            nextProperty
        have nextGood :=
          kept start event next initially consider.1 permitted taken
        refine ⟨permitted, ?_⟩
        intro other takenOther
        rw [unique other takenOther]
        exact (induction rest later nextGood).mp nextThroughout
      · intro along
        have nextGood :=
          kept start event next initially consider.1 along.1 taken
        refine ⟨good_property start initially, ?_⟩
        intro other takenOther
        rw [unique other takenOther]
        exact (induction rest later nextGood).mpr (along.2 next taken)

theorem eq_ok_of_toOption {ω α : Type*} {result : Except ω α} {value : α}
    (returned : result.toOption = some value) : result = .ok value := by
  cases result with
  | error stop => cases returned
  | ok other => exact congrArg Except.ok (Option.some.inj returned)

/-- A computation that returns has returned from each of its parts. -/
theorem exists_ok_of_bind {ω α β : Type*} {first : Except ω α}
    {second : α → Except ω β} {value : β}
    (returned : first.bind second = .ok value) :
    ∃ middle, first = .ok middle ∧ second middle = .ok value := by
  cases first with
  | error stop => cases returned
  | ok middle => exact ⟨middle, rfl, returned⟩

end Chos.Library
