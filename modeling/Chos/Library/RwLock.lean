import Mathlib.Logic.Function.Basic

/-!
# Locks for many readers or one writer

A lock knows how many readers it has and whether it has a writer; who they
are it does not know.  Next to the locks stands a list with what each of the
processes holds, at most one lock a process.  The locks and the list agree,
and what a process does to a lock keeps that.
-/

namespace Chos.Library

structure RwLock where
  readers : Nat
  writing : Bool
  deriving DecidableEq, Repr

namespace RwLock

def free : RwLock :=
  { readers := 0
    writing := false }

def readLock (lock : RwLock) : Option RwLock :=
  if lock.writing then none
  else some { lock with readers := lock.readers + 1 }

def readUnlock (lock : RwLock) : RwLock :=
  { lock with readers := lock.readers - 1 }

def writeLock (lock : RwLock) : Option RwLock :=
  if lock.writing = true ∨ 0 < lock.readers then none
  else some { lock with writing := true }

def writeUnlock (lock : RwLock) : RwLock :=
  { lock with writing := false }

end RwLock

/-- What a process holds. -/
inductive Hold (ι : Type) where
  | read (index : ι)
  | write (index : ι)
  deriving DecidableEq, Repr

namespace Hold

variable {ι : Type}

def index : Hold ι → ι
  | .read index => index
  | .write index => index

end Hold

variable {ι : Type} [DecidableEq ι]

/-- The locks know what the processes hold, and no writer is beside a
reader. -/
structure Locked (locks : ι → RwLock) (held : List (Option (Hold ι))) :
    Prop where
  readers : ∀ index,
    (locks index).readers = held.count (some (.read index))
  writers : ∀ index,
    (if (locks index).writing then 1 else 0) =
      held.count (some (.write index))
  apart : ∀ index, (locks index).writing = true →
    (locks index).readers = 0

namespace Locked

variable {locks : ι → RwLock} {held : List (Option (Hold ι))}
  {position : Nat} {index : ι} {lock : RwLock}

theorem nobody : Locked (fun _ : ι => RwLock.free) [] where
  readers := by
    intro index
    rfl
  writers := by
    intro index
    rfl
  apart := by
    intro index impossible
    cases impossible

theorem enter (locked : Locked locks held) :
    Locked locks (held ++ [none]) where
  readers := by
    intro index
    simpa using locked.readers index
  writers := by
    intro index
    simpa using locked.writers index
  apart := locked.apart

theorem count_set {old new hold : Option (Hold ι)}
    (listed : held[position]? = some old) :
    (held.set position new).count hold + (if old = hold then 1 else 0) =
      held.count hold + if new = hold then 1 else 0 := by
  obtain ⟨inside, same⟩ := List.getElem?_eq_some_iff.mp listed
  have counted := @List.count_set _ _ new hold held position inside
  have member : old = hold → 0 < held.count hold := by
    intro equal
    apply List.count_pos_iff.mpr
    exact equal ▸ List.mem_of_getElem? listed
  rw [same] at counted
  simp only [beq_iff_eq] at counted
  by_cases equal : old = hold
  · have positive := member equal
    rw [if_pos equal] at counted ⊢
    omega
  · rw [if_neg equal] at counted ⊢
    omega

/-- One process changes what it holds of one lock. -/
theorem change {old new : Option (Hold ι)} (locked : Locked locks held)
    (listed : held[position]? = some old)
    (elsewhere : ∀ hold : Hold ι, hold.index ≠ index →
      (old = some hold ↔ new = some hold))
    (readers :
      lock.readers + (if old = some (.read index) then 1 else 0) =
        (locks index).readers +
          if new = some (.read index) then 1 else 0)
    (writers :
      (if lock.writing then 1 else 0) +
          (if old = some (.write index) then 1 else 0) =
        (if (locks index).writing then 1 else 0) +
          if new = some (.write index) then 1 else 0)
    (apart : lock.writing = true → lock.readers = 0) :
    Locked (Function.update locks index lock) (held.set position new) := by
  constructor
  · intro other
    have counted := @count_set _ _ _ _ old new (some (.read other)) listed
    have before := locked.readers other
    by_cases same : other = index
    · subst same
      rw [Function.update_self]
      omega
    · rw [Function.update_of_ne same]
      have unmoved := elsewhere (.read other) same
      simp only [unmoved] at counted
      omega
  · intro other
    have counted := @count_set _ _ _ _ old new (some (.write other)) listed
    have before := locked.writers other
    by_cases same : other = index
    · subst same
      rw [Function.update_self]
      omega
    · rw [Function.update_of_ne same]
      have unmoved := elsewhere (.write other) same
      simp only [unmoved] at counted
      omega
  · intro other writing
    by_cases same : other = index
    · subst same
      rw [Function.update_self] at writing ⊢
      exact apart writing
    · rw [Function.update_of_ne same] at writing ⊢
      exact locked.apart other writing

theorem readLock (locked : Locked locks held)
    (listed : held[position]? = some none)
    (taken : (locks index).readLock = some lock) :
    Locked (Function.update locks index lock)
      (held.set position (some (.read index))) := by
  simp only [RwLock.readLock] at taken
  split at taken
  · cases taken
  rename_i unwritten
  cases taken
  apply locked.change listed
  · intro hold different
    have other : Hold.read index ≠ hold := by
      rintro rfl
      exact different rfl
    simp [other]
  · simp
  · simp
  · intro writing
    exact absurd writing unwritten

theorem writeLock (locked : Locked locks held)
    (listed : held[position]? = some none)
    (taken : (locks index).writeLock = some lock) :
    Locked (Function.update locks index lock)
      (held.set position (some (.write index))) := by
  simp only [RwLock.writeLock] at taken
  split at taken
  · cases taken
  rename_i free
  simp only [not_or, Bool.not_eq_true, Nat.not_lt, Nat.le_zero] at free
  cases taken
  apply locked.change listed
  · intro hold different
    have other : Hold.write index ≠ hold := by
      rintro rfl
      exact different rfl
    simp [other]
  · simp
  · simp [free.1]
  · intro _
    exact free.2

theorem readUnlock (locked : Locked locks held)
    (listed : held[position]? = some (some (.read index))) :
    Locked (Function.update locks index (locks index).readUnlock)
      (held.set position none) := by
  have reading : 0 < (locks index).readers := by
    rw [locked.readers]
    exact List.count_pos_iff.mpr (List.mem_of_getElem? listed)
  apply locked.change listed
  · intro hold different
    have other : Hold.read index ≠ hold := by
      rintro rfl
      exact different rfl
    simp [other]
  · simp only [RwLock.readUnlock, if_true, reduceCtorEq, if_false]
    omega
  · simp only [RwLock.readUnlock, Option.some.injEq, reduceCtorEq, if_false]
    rfl
  · intro writing
    have zero := locked.apart index writing
    omega

/-- The lock of a writer knows that it has one. -/
theorem writing_of_listed (locked : Locked locks held)
    (listed : held[position]? = some (some (.write index))) :
    (locks index).writing = true := by
  have positive : 0 < held.count (some (.write index)) :=
    List.count_pos_iff.mpr (List.mem_of_getElem? listed)
  rw [← locked.writers] at positive
  by_contra unwritten
  rw [if_neg unwritten] at positive
  exact Nat.lt_irrefl 0 positive

theorem writeUnlock (locked : Locked locks held)
    (listed : held[position]? = some (some (.write index))) :
    Locked (Function.update locks index (locks index).writeUnlock)
      (held.set position none) := by
  have writing := locked.writing_of_listed listed
  apply locked.change listed
  · intro hold different
    have other : Hold.write index ≠ hold := by
      rintro rfl
      exact different rfl
    simp [other]
  · simp [RwLock.writeUnlock]
  · simp [RwLock.writeUnlock, writing]
  · intro impossible
    cases impossible

theorem keep {old : Option (Hold ι)} (locked : Locked locks held)
    (listed : held[position]? = some old) :
    Locked locks (held.set position old) := by
  obtain ⟨inside, same⟩ := List.getElem?_eq_some_iff.mp listed
  rw [← same, List.set_getElem_self]
  exact locked

theorem exclusive (locked : Locked locks held) {first second : Nat}
    {hold : Hold ι}
    (writes : held[first]? = some (some (.write index)))
    (holds : held[second]? = some (some hold))
    (same : hold.index = index) : first = second := by
  have writing := locked.writing_of_listed writes
  cases hold with
  | read other =>
      change other = index at same
      subst same
      have reading : 0 < held.count (some (.read other)) :=
        List.count_pos_iff.mpr (List.mem_of_getElem? holds)
      have none := locked.apart other writing
      rw [locked.readers] at none
      omega
  | write other =>
      change other = index at same
      subst same
      by_contra different
      have one := locked.writers other
      rw [if_pos writing] at one
      have counted := @count_set _ _ _ _ _ none (some (.write other)) writes
      have remains : (held.set first none)[second]? =
          some (some (.write other)) := by
        rw [List.getElem?_set_ne different, holds]
      have positive : 0 < (held.set first none).count
          (some (.write other)) :=
        List.count_pos_iff.mpr (List.mem_of_getElem? remains)
      simp only [if_true, reduceCtorEq, if_false] at counted
      omega

/-- Who cannot read waits for a writer. -/
theorem holder_of_readLock (locked : Locked locks held)
    (waits : (locks index).readLock = none) :
    ∃ position : Nat, held[position]? = some (some (.write index)) := by
  simp only [RwLock.readLock] at waits
  split at waits
  · rename_i writing
    have counted := locked.writers index
    rw [if_pos writing] at counted
    apply List.mem_iff_getElem?.mp
    apply List.count_pos_iff.mp
    omega
  · cases waits

/-- Who cannot write waits for somebody. -/
theorem holder_of_writeLock (locked : Locked locks held)
    (waits : (locks index).writeLock = none) :
    ∃ (position : Nat) (hold : Hold ι),
      held[position]? = some (some hold) ∧ hold.index = index := by
  simp only [RwLock.writeLock] at waits
  split at waits
  · rename_i busy
    rcases busy with writing | reading
    · obtain ⟨position, listed⟩ := locked.holder_of_readLock
        (show (locks index).readLock = none from if_pos writing)
      exact ⟨position, _, listed, rfl⟩
    · rw [locked.readers] at reading
      obtain ⟨position, listed⟩ :=
        List.mem_iff_getElem?.mp (List.count_pos_iff.mp reading)
      exact ⟨position, _, listed, rfl⟩
  · cases waits

end Locked

end Chos.Library
