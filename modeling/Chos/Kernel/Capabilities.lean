import Mathlib.Data.BitVec
import Chos.Library.Runs
import Chos.Kernel.Handlers

/-!
# Capabilities lent to `my_chroot`

With `USE_CRED` the effective capabilities of a task are in a `struct cred`
that the threads of a process share.  `my_chroot` raises `CAP_SYS_CHROOT`
there for the time of `sys_chroot` and writes the old value back, without a
lock.  Next to the machine with these accesses stands one that only knows
what the kernel itself has granted.
-/

namespace Chos.Kernel

open Chos.Library

abbrev Caps := BitVec 64

def capSysChroot : Nat := 18

def chrootMask : Caps := BitVec.twoPow 64 capSysChroot

def Capable (caps : Caps) : Prop := caps.getLsbD capSysChroot = true

instance (caps : Caps) : Decidable (Capable caps) :=
  inferInstanceAs (Decidable (_ = true))

/-- The accesses of `my_chroot`; `cap_raise` reads the word and stores it
with the bit. -/
inductive ChrootPoint where
  | save
  | load (capback : Caps)
  | raise (capback word : Caps)
  | chroot (capback : Caps)
  | restore (capback : Caps)
  deriving DecidableEq, Repr

structure CredTask where
  cred : Nat
  root : Root
  point : Option ChrootPoint
  deriving DecidableEq, Repr

/-- `caps` is `cap_effective` of each `struct cred`, and `next` is the first
one that is not in use. -/
structure Creds where
  caps : Nat → Caps
  next : Nat
  tasks : List CredTask

/-- `call` and `advance` are `my_chroot`; `clone` makes a thread, which
shares the `struct cred`, `fork` a process with a copy of it, and `commit`
is `commit_creds` with a copy of the task's own one; both may drop
capabilities. -/
inductive CredEvent where
  | call (index : Nat)
  | advance (index : Nat) (outcome : SetchosOutcome)
  | clone (index : Nat)
  | fork (index : Nat) (kept : Caps)
  | commit (index : Nat) (kept : Caps)
  deriving DecidableEq, Repr

namespace Creds

def access (state : Creds) (index : Nat) (task : CredTask)
    (outcome : SetchosOutcome) : ChrootPoint → Creds
  | .save =>
      { state with
        tasks := state.tasks.set index
          { task with point := some (.load (state.caps task.cred)) } }
  | .load capback =>
      { state with
        tasks := state.tasks.set index
          { task with
            point := some (.raise capback (state.caps task.cred)) } }
  | .raise capback word =>
      { state with
        caps := Function.update state.caps task.cred (word ||| chrootMask)
        tasks := state.tasks.set index
          { task with point := some (.chroot capback) } }
  | .chroot capback =>
      { state with
        tasks := state.tasks.set index
          { task with
            root :=
              if Capable (state.caps task.cred) then
                myChroot outcome task.root
              else task.root
            point := some (.restore capback) } }
  | .restore capback =>
      { state with
        caps := Function.update state.caps task.cred capback
        tasks := state.tasks.set index { task with point := none } }

/-- A copy of the task's `struct cred`. -/
def copyCred (state : Creds) (task : CredTask) (kept : Caps) : Creds :=
  { state with
    caps := Function.update state.caps state.next
      (state.caps task.cred &&& kept)
    next := state.next + 1 }

/-- Inside `my_chroot` a task does nothing else. -/
def step (state : Creds) (event : CredEvent) : Option Creds :=
  match event with
  | .call index =>
      match state.tasks[index]? with
      | some ⟨cred, root, none⟩ =>
          some { state with
            tasks := state.tasks.set index ⟨cred, root, some .save⟩ }
      | _ => none
  | .advance index outcome =>
      match state.tasks[index]? with
      | some ⟨cred, root, some point⟩ =>
          some (state.access index ⟨cred, root, some point⟩ outcome point)
      | _ => none
  | .clone index =>
      match state.tasks[index]? with
      | some ⟨cred, root, none⟩ =>
          some { state with tasks := state.tasks ++ [⟨cred, root, none⟩] }
      | _ => none
  | .fork index kept =>
      match state.tasks[index]? with
      | some ⟨cred, root, none⟩ =>
          some { state.copyCred ⟨cred, root, none⟩ kept with
            tasks := state.tasks ++ [⟨state.next, root, none⟩] }
      | _ => none
  | .commit index kept =>
      match state.tasks[index]? with
      | some ⟨cred, root, none⟩ =>
          some { state.copyCred ⟨cred, root, none⟩ kept with
            tasks := state.tasks.set index ⟨state.next, root, none⟩ }
      | _ => none

structure Quiet (state : Creds) : Prop where
  bounded : ∀ task ∈ state.tasks, task.cred < state.next
  outside : ∀ task ∈ state.tasks, task.point = none

/-- No task with this `struct cred` is in `my_chroot`. -/
def Free (state : Creds) (cred : Nat) : Prop :=
  ∀ task ∈ state.tasks, task.cred = cred → task.point = none

/-- No other task with the same `struct cred` is in `my_chroot`. -/
def AloneAt (state : Creds) (index : Nat) : Prop :=
  ∀ one ∈ state.tasks[index]?, ∀ other ∈ List.range state.tasks.length,
    other ≠ index → ∀ two ∈ state.tasks[other]?,
      two.cred = one.cred → two.point = none

instance (state : Creds) (index : Nat) : Decidable (state.AloneAt index) :=
  inferInstanceAs (Decidable (∀ one ∈ state.tasks[index]?,
    ∀ other ∈ List.range state.tasks.length,
      other ≠ index → ∀ two ∈ state.tasks[other]?,
        two.cred = one.cred → two.point = none))

/-- The `struct cred` is copied, or `my_chroot` entered, only while no other
task with it is in `my_chroot`. -/
def Alone (state : Creds) : CredEvent → Prop
  | .call index => state.AloneAt index
  | .fork index _ => state.AloneAt index
  | .commit index _ => state.AloneAt index
  | _ => True

instance (state : Creds) : ∀ event, Decidable (state.Alone event)
  | .call index => inferInstanceAs (Decidable (state.AloneAt index))
  | .fork index _ => inferInstanceAs (Decidable (state.AloneAt index))
  | .commit index _ => inferInstanceAs (Decidable (state.AloneAt index))
  | .advance _ _ => .isTrue trivial
  | .clone _ => .isTrue trivial

end Creds

/-- What the kernel has granted, and which `struct cred` each task has. -/
structure Grants where
  caps : Nat → Caps
  next : Nat
  owners : List Nat

namespace Grants

/-- `my_chroot` grants nothing. -/
def step (grants : Grants) (event : CredEvent) : Option Grants :=
  match event with
  | .call _ => some grants
  | .advance _ _ => some grants
  | .clone index =>
      match grants.owners[index]? with
      | some cred => some { grants with owners := grants.owners ++ [cred] }
      | none => none
  | .fork index kept =>
      match grants.owners[index]? with
      | some cred =>
          some
            { caps := Function.update grants.caps grants.next
                (grants.caps cred &&& kept)
              next := grants.next + 1
              owners := grants.owners ++ [grants.next] }
      | none => none
  | .commit index kept =>
      match grants.owners[index]? with
      | some cred =>
          some
            { caps := Function.update grants.caps grants.next
                (grants.caps cred &&& kept)
              next := grants.next + 1
              owners := grants.owners.set index grants.next }
      | none => none

end Grants

def Creds.grants (state : Creds) : Grants :=
  { caps := state.caps
    next := state.next
    owners := state.tasks.map CredTask.cred }

section Steps

variable {state next : Creds} {grants : Grants}

/-- The events with the task that takes them. -/
inductive CredTaken (state : Creds) : CredEvent → Creds → Prop where
  | call {index : Nat} {task : CredTask}
      (listed : state.tasks[index]? = some task)
      (outside : task.point = none) :
      CredTaken state (.call index)
        { state with
          tasks := state.tasks.set index { task with point := some .save } }
  | advance {index : Nat} {task : CredTask} {point : ChrootPoint}
      (outcome : SetchosOutcome)
      (listed : state.tasks[index]? = some task)
      (inside : task.point = some point) :
      CredTaken state (.advance index outcome)
        (state.access index task outcome point)
  | clone {index : Nat} {task : CredTask}
      (listed : state.tasks[index]? = some task)
      (outside : task.point = none) :
      CredTaken state (.clone index)
        { state with tasks := state.tasks ++ [task] }
  | fork {index : Nat} {task : CredTask} (kept : Caps)
      (listed : state.tasks[index]? = some task)
      (outside : task.point = none) :
      CredTaken state (.fork index kept)
        { state.copyCred task kept with
          tasks := state.tasks ++ [{ task with cred := state.next }] }
  | commit {index : Nat} {task : CredTask} (kept : Caps)
      (listed : state.tasks[index]? = some task)
      (outside : task.point = none) :
      CredTaken state (.commit index kept)
        { state.copyCred task kept with
          tasks := state.tasks.set index { task with cred := state.next } }

theorem Creds.taken_of_step {event : CredEvent}
    (taken : state.step event = some next) : CredTaken state event next := by
  cases event with
  | call index =>
      simp only [step] at taken
      split at taken
      · rename_i listed
        cases taken
        exact .call listed rfl
      · cases taken
  | advance index outcome =>
      simp only [step] at taken
      split at taken
      · rename_i listed
        cases taken
        exact .advance outcome listed rfl
      · cases taken
  | clone index =>
      simp only [step] at taken
      split at taken
      · rename_i listed
        cases taken
        exact .clone listed rfl
      · cases taken
  | fork index kept =>
      simp only [step] at taken
      split at taken
      · rename_i listed
        cases taken
        exact .fork kept listed rfl
      · cases taken
  | commit index kept =>
      simp only [step] at taken
      split at taken
      · rename_i listed
        cases taken
        exact .commit kept listed rfl
      · cases taken

structure Follows (state : Creds) (grants : Grants) : Prop where
  owners : grants.owners = state.tasks.map CredTask.cred
  next : grants.next = state.next
  bounded : ∀ task ∈ state.tasks, task.cred < state.next

theorem Follows.owner {index : Nat} {task : CredTask}
    (follows : Follows state grants)
    (listed : state.tasks[index]? = some task) :
    grants.owners[index]? = some task.cred := by
  rw [follows.owners, List.getElem?_map, listed]
  rfl

theorem Follows.set {index : Nat} {task moved : CredTask}
    {caps : Nat → Caps} (follows : Follows state grants)
    (listed : state.tasks[index]? = some task)
    (same : moved.cred = task.cred) :
    Follows
      { state with
        caps := caps
        tasks := state.tasks.set index moved } grants where
  owners := by
    obtain ⟨length, found⟩ := List.getElem?_eq_some_iff.mp listed
    rw [follows.owners, List.map_set, same]
    apply List.ext_getElem?
    intro other
    by_cases equal : index = other
    · subst equal
      rw [List.getElem?_set_self (by simpa using length), List.getElem?_map,
        listed]
      rfl
    · rw [List.getElem?_set_ne equal]
  next := follows.next
  bounded := by
    intro other member
    rcases List.mem_or_eq_of_mem_set member with older | rfl
    · exact follows.bounded other older
    · rw [same]
      exact follows.bounded task (List.mem_of_getElem? listed)

theorem Follows.append {task : CredTask} {caps : Nat → Caps} {later : Nat}
    (follows : Follows state grants) (below : task.cred < later)
    (grows : state.next ≤ later) {granted : Nat → Caps} :
    Follows ⟨caps, later, state.tasks ++ [task]⟩
      ⟨granted, later, grants.owners ++ [task.cred]⟩ where
  owners := by
    rw [follows.owners, List.map_append]
    rfl
  next := rfl
  bounded := by
    intro other member
    rcases List.mem_append.mp member with older | new
    · exact Nat.lt_of_lt_of_le (follows.bounded other older) grows
    · rw [List.mem_singleton.mp new]
      exact below

theorem Follows.clone {index : Nat} {task : CredTask}
    (follows : Follows state grants)
    (listed : state.tasks[index]? = some task) :
    grants.step (.clone index) =
      some { grants with owners := grants.owners ++ [task.cred] } := by
  simp only [Grants.step, follows.owner listed]

theorem Follows.fork {index : Nat} {task : CredTask} {kept : Caps}
    (follows : Follows state grants)
    (listed : state.tasks[index]? = some task) :
    grants.step (.fork index kept) =
      some
        { caps := Function.update grants.caps state.next
            (grants.caps task.cred &&& kept)
          next := state.next + 1
          owners := grants.owners ++ [state.next] } := by
  simp only [Grants.step, follows.owner listed, follows.next]

theorem Follows.commit {index : Nat} {task : CredTask} {kept : Caps}
    (follows : Follows state grants)
    (listed : state.tasks[index]? = some task) :
    grants.step (.commit index kept) =
      some
        { caps := Function.update grants.caps state.next
            (grants.caps task.cred &&& kept)
          next := state.next + 1
          owners := grants.owners.set index state.next } := by
  simp only [Grants.step, follows.owner listed, follows.next]

theorem Follows.renew {index : Nat} {task : CredTask}
    {caps granted : Nat → Caps} (follows : Follows state grants) :
    Follows
      ⟨caps, state.next + 1,
        state.tasks.set index { task with cred := state.next }⟩
      ⟨granted, state.next + 1, grants.owners.set index state.next⟩ where
  owners := by
    rw [follows.owners, List.map_set]
  next := rfl
  bounded := by
    intro other member
    rcases List.mem_or_eq_of_mem_set member with older | rfl
    · exact Nat.lt_succ_of_lt (follows.bounded other older)
    · exact Nat.lt_succ_self state.next

end Steps

/-- The granted capabilities, with or without the one that is lent. -/
def Lent (granted caps : Caps) : Prop :=
  caps = granted ∨ caps = granted ||| chrootMask

theorem Lent.raise {granted caps : Caps} (lent : Lent granted caps) :
    Lent granted (caps ||| chrootMask) := by
  rcases lent with rfl | rfl
  · exact .inr rfl
  · right
    rw [BitVec.or_assoc, BitVec.or_self]

theorem chrootMask_and (kept : Caps) :
    chrootMask &&& kept = 0 ∨ chrootMask &&& kept = chrootMask := by
  rw [chrootMask, BitVec.twoPow_and]
  split
  · exact .inr rfl
  · exact .inl rfl

theorem Lent.and {granted caps : Caps} (lent : Lent granted caps)
    (kept : Caps) : Lent (granted &&& kept) (caps &&& kept) := by
  rcases lent with rfl | rfl
  · exact .inl rfl
  · have apart : (granted ||| chrootMask) &&& kept =
        granted &&& kept ||| chrootMask &&& kept := by
      apply BitVec.eq_of_getLsbD_eq
      intro bit _
      simp [Bool.and_or_distrib_right]
    rcases chrootMask_and kept with dropped | stays
    · left
      rw [apart, dropped]
      simp
    · right
      rw [apart, stays]

/-- Every word `my_chroot` has read is one of the two. -/
def ChrootPoint.Lent (granted : Caps) : ChrootPoint → Prop
  | .save => True
  | .load capback => Kernel.Lent granted capback
  | .raise capback word =>
      Kernel.Lent granted capback ∧ Kernel.Lent granted word
  | .chroot capback => Kernel.Lent granted capback
  | .restore capback => Kernel.Lent granted capback

/-- No `struct cred` has lost a capability or has more than
`CAP_SYS_CHROOT` in addition. -/
structure Borrowed (state : Creds) (grants : Grants) : Prop where
  follows : Follows state grants
  caps : ∀ cred < state.next, Lent (grants.caps cred) (state.caps cred)
  points : ∀ task ∈ state.tasks, ∀ point ∈ task.point,
    point.Lent (grants.caps task.cred)

section Borrowed

variable {state next : Creds} {grants : Grants} {index : Nat}
  {task moved : CredTask}

theorem Borrowed.set (borrowed : Borrowed state grants)
    (listed : state.tasks[index]? = some task)
    (same : moved.cred = task.cred)
    (right : ∀ point ∈ moved.point, point.Lent (grants.caps task.cred)) :
    Borrowed { state with tasks := state.tasks.set index moved } grants where
  follows := borrowed.follows.set listed same
  caps := borrowed.caps
  points := by
    intro other member point inside
    rcases List.mem_or_eq_of_mem_set member with older | rfl
    · exact borrowed.points other older point inside
    · rw [same]
      exact right point inside

theorem Borrowed.write {cred : Nat} {word : Caps}
    (borrowed : Borrowed state grants)
    (lent : Lent (grants.caps cred) word) :
    Borrowed
      { state with caps := Function.update state.caps cred word } grants where
  follows := ⟨borrowed.follows.owners, borrowed.follows.next,
    borrowed.follows.bounded⟩
  caps := by
    intro other below
    by_cases same : other = cred
    · subst same
      simpa using lent
    · simpa [Function.update_of_ne same] using borrowed.caps other below
  points := borrowed.points

theorem Borrowed.access {point : ChrootPoint}
    (borrowed : Borrowed state grants)
    (listed : state.tasks[index]? = some task)
    (inside : task.point = some point) (outcome : SetchosOutcome) :
    Borrowed (state.access index task outcome point) grants := by
  have member := List.mem_of_getElem? listed
  have now := borrowed.caps task.cred (borrowed.follows.bounded task member)
  have known := borrowed.points task member point inside
  cases point with
  | save =>
      apply borrowed.set listed
      · rfl
      · intro point stands
        cases stands
        exact now
  | load capback =>
      apply borrowed.set listed
      · rfl
      · intro point stands
        cases stands
        exact ⟨known, now⟩
  | raise capback word =>
      apply (borrowed.write known.2.raise).set listed
      · rfl
      · intro point stands
        cases stands
        exact known.1
  | chroot capback =>
      apply borrowed.set listed
      · rfl
      · intro point stands
        cases stands
        exact known
  | restore capback =>
      apply (borrowed.write known).set listed
      · rfl
      · intro point impossible
        cases impossible

theorem Borrowed.caps_copy {kept : Caps} (borrowed : Borrowed state grants)
    (listed : state.tasks[index]? = some task) :
    ∀ cred < state.next + 1,
      Lent
        (Function.update grants.caps state.next
          (grants.caps task.cred &&& kept) cred)
        (Function.update state.caps state.next
          (state.caps task.cred &&& kept) cred) := by
  have below := borrowed.follows.bounded task (List.mem_of_getElem? listed)
  intro cred bound
  by_cases same : cred = state.next
  · subst same
    simpa using (borrowed.caps task.cred below).and kept
  · rw [Function.update_of_ne same, Function.update_of_ne same]
    exact borrowed.caps cred (by omega)

theorem Borrowed.points_copy {word : Caps} (borrowed : Borrowed state grants)
    {other : CredTask} (member : other ∈ state.tasks) :
    ∀ point ∈ other.point, point.Lent
      (Function.update grants.caps state.next word other.cred) := by
  have below := borrowed.follows.bounded other member
  rw [Function.update_of_ne (Nat.ne_of_lt below)]
  exact borrowed.points other member

theorem Borrowed.step {event : CredEvent} (borrowed : Borrowed state grants)
    (taken : CredTaken state event next) :
    ∃ later, grants.step event = some later ∧ Borrowed next later := by
  cases taken with
  | call listed outside =>
      refine ⟨grants, rfl, ?_⟩
      apply borrowed.set listed
      · rfl
      · intro point stands
        cases stands
        trivial
  | advance outcome listed inside =>
      exact ⟨grants, rfl, borrowed.access listed inside outcome⟩
  | @clone index task listed outside =>
      have member := List.mem_of_getElem? listed
      have follows : Follows _ _ := @Follows.append state grants task
        state.caps state.next borrowed.follows
        (borrowed.follows.bounded task member) (Nat.le_refl _) grants.caps
      refine ⟨_, borrowed.follows.clone listed, ?_, borrowed.caps, ?_⟩
      · exact ⟨follows.owners, borrowed.follows.next, follows.bounded⟩
      · intro other inside point stands
        rcases List.mem_append.mp inside with older | new
        · exact borrowed.points other older point stands
        · rw [List.mem_singleton.mp new, outside] at stands
          cases stands
  | @fork index task kept listed outside =>
      have follows := @Follows.append state grants
        { task with cred := state.next } (state.copyCred task kept).caps
        (state.next + 1) borrowed.follows (Nat.lt_succ_self _)
        (Nat.le_succ _) (Function.update grants.caps state.next
          (grants.caps task.cred &&& kept))
      refine ⟨_, borrowed.follows.fork listed, follows,
        borrowed.caps_copy listed, ?_⟩
      intro other inside point stands
      rcases List.mem_append.mp inside with older | new
      · exact borrowed.points_copy older point stands
      · rw [List.mem_singleton.mp new, outside] at stands
        cases stands
  | @commit index task kept listed outside =>
      refine ⟨_, borrowed.follows.commit listed, borrowed.follows.renew,
        borrowed.caps_copy listed, ?_⟩
      intro other inside point stands
      rcases List.mem_or_eq_of_mem_set inside with older | rfl
      · exact borrowed.points_copy older point stands
      · rw [outside] at stands
        cases stands

end Borrowed

/-- What holds in `my_chroot` when nobody disturbs it. -/
def ChrootPoint.Right (caps granted : Caps) : ChrootPoint → Prop
  | .save => caps = granted
  | .load capback => caps = granted ∧ capback = granted
  | .raise capback word =>
      caps = granted ∧ capback = granted ∧ word = granted
  | .chroot capback => caps = granted ||| chrootMask ∧ capback = granted
  | .restore capback => capback = granted

/-- At most one task is in `my_chroot` with a `struct cred`, and it knows
what it has to restore. -/
structure Restored (state : Creds) (grants : Grants) : Prop where
  follows : Follows state grants
  free : ∀ cred < state.next, state.Free cred →
    state.caps cred = grants.caps cred
  right : ∀ task ∈ state.tasks, ∀ point ∈ task.point,
    point.Right (state.caps task.cred) (grants.caps task.cred)
  single : ∀ (first second : Nat) (one two : CredTask),
    state.tasks[first]? = some one → state.tasks[second]? = some two →
    one.cred = two.cred → one.point ≠ none → two.point ≠ none →
    first = second

section Restored

variable {state next : Creds} {grants : Grants} {index : Nat}
  {task moved : CredTask}

/-- All others with the `struct cred` of the task are outside. -/
def Creds.Others (state : Creds) (index cred : Nat) : Prop :=
  ∀ (other : Nat) (two : CredTask), other ≠ index →
    state.tasks[other]? = some two → two.cred = cred → two.point = none

theorem Creds.AloneAt.others (alone : state.AloneAt index)
    (listed : state.tasks[index]? = some task) :
    state.Others index task.cred := by
  intro other two different listedOther same
  have length := (List.getElem?_eq_some_iff.mp listedOther).1
  exact alone task listed other (List.mem_range.mpr length) different two
    listedOther same

theorem Restored.others (restored : Restored state grants)
    (listed : state.tasks[index]? = some task)
    (inside : task.point ≠ none) : state.Others index task.cred := by
  intro other two different listedOther same
  by_contra busy
  exact different (restored.single other index two task listedOther listed
    same busy inside)

theorem Creds.Others.free (others : state.Others index task.cred)
    (listed : state.tasks[index]? = some task)
    (outside : task.point = none) : state.Free task.cred := by
  intro two member same
  obtain ⟨other, listedOther⟩ := List.mem_iff_getElem?.mp member
  by_cases equal : other = index
  · subst equal
    cases listed.symm.trans listedOther
    exact outside
  · exact others other two equal listedOther same

/-- The task that is alone with its `struct cred` writes there and gets
on. -/
theorem Restored.move {word : Caps} (restored : Restored state grants)
    (listed : state.tasks[index]? = some task)
    (others : state.Others index task.cred)
    (same : moved.cred = task.cred)
    (outside : moved.point = none → word = grants.caps task.cred)
    (right : ∀ point ∈ moved.point,
      point.Right word (grants.caps task.cred)) :
    Restored
      { state with
        caps := Function.update state.caps task.cred word
        tasks := state.tasks.set index moved } grants := by
  have length := (List.getElem?_eq_some_iff.mp listed).1
  constructor
  · exact restored.follows.set listed same
  · intro cred below free
    change Function.update state.caps task.cred word cred = _
    by_cases own : cred = task.cred
    · subst own
      rw [Function.update_self]
      apply outside
      exact free moved (List.mem_set length moved) same
    · rw [Function.update_of_ne own]
      apply restored.free cred below
      intro two member found
      apply free two _ found
      obtain ⟨other, listedOther⟩ := List.mem_iff_getElem?.mp member
      apply List.mem_iff_getElem?.mpr
      refine ⟨other, ?_⟩
      rw [List.getElem?_set_ne]
      · exact listedOther
      · rintro rfl
        cases listed.symm.trans listedOther
        exact own found.symm
  · intro two member point inside
    change point.Right (Function.update state.caps task.cred word two.cred) _
    obtain ⟨other, listedOther⟩ := List.mem_iff_getElem?.mp member
    by_cases equal : index = other
    · subst equal
      rw [List.getElem?_set_self length] at listedOther
      cases listedOther
      rw [same, Function.update_self]
      exact right point inside
    · rw [List.getElem?_set_ne equal] at listedOther
      by_cases own : two.cred = task.cred
      · have out := others other two (Ne.symm equal) listedOther own
        rw [out] at inside
        cases inside
      · rw [Function.update_of_ne own]
        exact restored.right two (List.mem_of_getElem? listedOther) point
          inside
  · intro first second one two listedOne listedTwo equal busyOne busyTwo
    by_cases here : index = first
    · subst here
      by_contra different
      rw [List.getElem?_set_self length] at listedOne
      rw [List.getElem?_set_ne different] at listedTwo
      cases listedOne
      exact busyTwo (others second two (Ne.symm different) listedTwo
        (equal.symm.trans same))
    · rw [List.getElem?_set_ne here] at listedOne
      by_cases there : index = second
      · subst there
        rw [List.getElem?_set_self length] at listedTwo
        cases listedTwo
        exact absurd (others first one (Ne.symm here) listedOne
          (equal.trans same)) busyOne
      · rw [List.getElem?_set_ne there] at listedTwo
        exact restored.single first second one two listedOne listedTwo
          equal busyOne busyTwo

theorem Restored.access {point : ChrootPoint}
    (restored : Restored state grants)
    (listed : state.tasks[index]? = some task)
    (inside : task.point = some point) (outcome : SetchosOutcome) :
    Restored (state.access index task outcome point) grants := by
  have known := restored.right task (List.mem_of_getElem? listed) point
    inside
  have busy : task.point ≠ none := inside ▸ Option.some_ne_none point
  have others := restored.others listed busy
  have kept : ∀ moved : CredTask, moved.cred = task.cred →
      moved.point ≠ none →
      (∀ point ∈ moved.point,
        point.Right (state.caps task.cred) (grants.caps task.cred)) →
      Restored { state with tasks := state.tasks.set index moved }
        grants := by
    intro moved same stays right
    have result := restored.move listed others same
      (fun gone => absurd gone stays) right
    rw [Function.update_eq_self] at result
    exact result
  cases point with
  | save =>
      apply kept
      · rfl
      · exact Option.some_ne_none _
      · intro point stands
        cases stands
        exact ⟨known, known⟩
  | load capback =>
      apply kept
      · rfl
      · exact Option.some_ne_none _
      · intro point stands
        cases stands
        exact ⟨known.1, known.2, known.1⟩
  | raise capback word =>
      apply restored.move listed others
      · rfl
      · intro impossible
        cases impossible
      · intro point stands
        cases stands
        exact ⟨by rw [known.2.2], known.2.1⟩
  | chroot capback =>
      apply kept
      · rfl
      · exact Option.some_ne_none _
      · intro point stands
        cases stands
        exact known.2
  | restore capback =>
      apply restored.move listed others
      · rfl
      · intro _
        exact known
      · intro point impossible
        cases impossible

/-- Tasks and capabilities are added by the kernel; nobody enters or leaves
`my_chroot`. -/
theorem Restored.grow {later : Grants} (restored : Restored state grants)
    (follows : Follows next later)
    (older : ∀ (other : Nat) (two : CredTask),
      next.tasks[other]? = some two → two.point ≠ none →
        state.tasks[other]? = some two)
    (stays : ∀ two ∈ state.tasks, two.point ≠ none → two ∈ next.tasks)
    (sameCaps : ∀ cred < state.next, next.caps cred = state.caps cred)
    (sameGrants : ∀ cred < state.next, later.caps cred = grants.caps cred)
    (fresh : ∀ cred < next.next, state.next ≤ cred →
      next.caps cred = later.caps cred) :
    Restored next later := by
  constructor
  · exact follows
  · intro cred below free
    by_cases old : cred < state.next
    · rw [sameCaps cred old, sameGrants cred old]
      apply restored.free cred old
      intro two member same
      by_contra busy
      exact busy (free two (stays two member busy) same)
    · exact fresh cred below (Nat.le_of_not_lt old)
  · intro two member point inside
    obtain ⟨other, listed⟩ := List.mem_iff_getElem?.mp member
    have busy : two.point ≠ none := by
      rw [inside]
      exact Option.some_ne_none point
    have before := List.mem_of_getElem? (older other two listed busy)
    have below := restored.follows.bounded two before
    rw [sameCaps _ below, sameGrants _ below]
    exact restored.right two before point inside
  · intro first second one two listedOne listedTwo same busyOne busyTwo
    exact restored.single first second one two
      (older first one listedOne busyOne)
      (older second two listedTwo busyTwo) same busyOne busyTwo

/-- Only the new task is at a new place, and it is outside. -/
theorem busy_of_append (new : CredTask) {two : CredTask}
    {tasks : List CredTask} {other : Nat} (outside : new.point = none)
    (listed : (tasks ++ [new])[other]? = some two)
    (busy : two.point ≠ none) : tasks[other]? = some two := by
  rcases Nat.lt_or_ge other tasks.length with below | above
  · rwa [List.getElem?_append_left below] at listed
  · rw [List.getElem?_append_right above] at listed
    have found := List.mem_singleton.mp (List.mem_of_getElem? listed)
    exact absurd (found ▸ outside) busy

theorem busy_of_set (new : CredTask) {two : CredTask}
    {tasks : List CredTask} {other : Nat} (outside : new.point = none)
    (listed : (tasks.set index new)[other]? = some two)
    (busy : two.point ≠ none) : tasks[other]? = some two := by
  by_cases equal : index = other
  · subst equal
    obtain ⟨length, found⟩ := List.getElem?_eq_some_iff.mp listed
    rw [List.getElem_set_self] at found
    exact absurd (found ▸ outside) busy
  · rwa [List.getElem?_set_ne equal] at listed

theorem Restored.fresh {kept : Caps}
    (same : state.caps task.cred = grants.caps task.cred) :
    ∀ cred < state.next + 1, state.next ≤ cred →
      (state.copyCred task kept).caps cred =
        Function.update grants.caps state.next
          (grants.caps task.cred &&& kept) cred := by
  intro cred below above
  have equal : cred = state.next := by omega
  subst equal
  simp [Creds.copyCred, same]

theorem Restored.step {event : CredEvent} (restored : Restored state grants)
    (alone : state.Alone event) (taken : CredTaken state event next) :
    ∃ later, grants.step event = some later ∧ Restored next later := by
  cases taken with
  | @call index task listed outside =>
      have others := Creds.AloneAt.others alone listed
      have same := restored.free task.cred
        (restored.follows.bounded task (List.mem_of_getElem? listed))
        (others.free listed outside)
      have result := @Restored.move _ _ _ _ { task with point := some .save }
        (state.caps task.cred) restored listed others rfl (fun _ => same)
        (by
          intro point stands
          cases stands
          exact same)
      rw [Function.update_eq_self] at result
      exact ⟨grants, rfl, result⟩
  | advance outcome listed inside =>
      exact ⟨grants, rfl, restored.access listed inside outcome⟩
  | @clone index task listed outside =>
      have member := List.mem_of_getElem? listed
      have follows := @Follows.append state grants task state.caps state.next
        restored.follows (restored.follows.bounded task member)
        (Nat.le_refl _) grants.caps
      refine ⟨_, restored.follows.clone listed, ?_⟩
      apply restored.grow
      · exact ⟨follows.owners, restored.follows.next, follows.bounded⟩
      · intro other two found busy
        exact busy_of_append task outside found busy
      · intro two older _
        exact List.mem_append_left _ older
      · intro cred _
        rfl
      · intro cred _
        rfl
      · intro cred below above
        exact absurd below (Nat.not_lt_of_le above)
  | @fork index task kept listed outside =>
      have others := Creds.AloneAt.others alone listed
      have same := restored.free task.cred
        (restored.follows.bounded task (List.mem_of_getElem? listed))
        (others.free listed outside)
      refine ⟨_, restored.follows.fork listed, ?_⟩
      apply restored.grow
      · exact @Follows.append state grants { task with cred := state.next }
          (state.copyCred task kept).caps (state.next + 1) restored.follows
          (Nat.lt_succ_self _) (Nat.le_succ _) _
      · intro other two found busy
        exact busy_of_append { task with cred := state.next } outside found
          busy
      · intro two older _
        exact List.mem_append_left _ older
      · intro cred below
        exact Function.update_of_ne (Nat.ne_of_lt below) _ _
      · intro cred below
        exact Function.update_of_ne (Nat.ne_of_lt below) _ _
      · exact Restored.fresh same
  | @commit index task kept listed outside =>
      have others := Creds.AloneAt.others alone listed
      have same := restored.free task.cred
        (restored.follows.bounded task (List.mem_of_getElem? listed))
        (others.free listed outside)
      refine ⟨_, restored.follows.commit listed, ?_⟩
      apply restored.grow
      · exact restored.follows.renew
      · intro other two found busy
        exact busy_of_set { task with cred := state.next } outside found busy
      · intro two older busy
        obtain ⟨other, listedOther⟩ := List.mem_iff_getElem?.mp older
        apply List.mem_iff_getElem?.mpr
        refine ⟨other, ?_⟩
        rw [List.getElem?_set_ne]
        · exact listedOther
        · rintro rfl
          cases listed.symm.trans listedOther
          exact busy outside
      · intro cred below
        exact Function.update_of_ne (Nat.ne_of_lt below) _ _
      · intro cred below
        exact Function.update_of_ne (Nat.ne_of_lt below) _ _
      · exact Restored.fresh same

end Restored

/-- The event makes a thread with the `struct cred` of another task. -/
def CredEvent.Shares : CredEvent → Prop
  | .clone _ => True
  | _ => False

instance : ∀ event : CredEvent, Decidable event.Shares
  | .clone _ => .isTrue trivial
  | .call _ => .isFalse id
  | .advance _ _ => .isFalse id
  | .fork _ _ => .isFalse id
  | .commit _ _ => .isFalse id

/-- Every task has capabilities of its own, as in a build without
`USE_CRED`. -/
structure Creds.Separate (state : Creds) : Prop where
  bounded : ∀ task ∈ state.tasks, task.cred < state.next
  distinct : ∀ (first second : Nat) (one two : CredTask),
    state.tasks[first]? = some one → state.tasks[second]? = some two →
    one.cred = two.cred → first = second

namespace Creds.Separate

variable {state next : Creds} {index : Nat} {task moved : CredTask}

theorem alone (separate : state.Separate) (event : CredEvent) :
    state.Alone event := by
  have everywhere : ∀ index, state.AloneAt index := by
    intro index one listedOne other _ different two listedTwo same
    exact absurd (separate.distinct other index two one listedTwo listedOne
      same) different
  cases event with
  | call index => exact everywhere index
  | fork index kept => exact everywhere index
  | commit index kept => exact everywhere index
  | advance index outcome => trivial
  | clone index => trivial

theorem set {caps : Nat → Caps} {later : Nat} (separate : state.Separate)
    (grows : state.next ≤ later) (below : moved.cred < later)
    (apart : ∀ (other : Nat) (two : CredTask), other ≠ index →
      state.tasks[other]? = some two → two.cred ≠ moved.cred) :
    Creds.Separate ⟨caps, later, state.tasks.set index moved⟩ where
  bounded := by
    intro two member
    rcases List.mem_or_eq_of_mem_set member with older | rfl
    · exact Nat.lt_of_lt_of_le (separate.bounded two older) grows
    · exact below
  distinct := by
    intro first second one two listedOne listedTwo same
    by_cases here : index = first
    · subst here
      by_contra different
      have length := (List.getElem?_eq_some_iff.mp listedOne).1
      rw [List.length_set] at length
      rw [List.getElem?_set_self length] at listedOne
      rw [List.getElem?_set_ne different] at listedTwo
      cases listedOne
      exact apart second two (Ne.symm different) listedTwo same.symm
    · rw [List.getElem?_set_ne here] at listedOne
      by_cases there : index = second
      · subst there
        have length := (List.getElem?_eq_some_iff.mp listedTwo).1
        rw [List.length_set] at length
        rw [List.getElem?_set_self length] at listedTwo
        cases listedTwo
        exact absurd same (apart first one (Ne.symm here) listedOne)
      · rw [List.getElem?_set_ne there] at listedTwo
        exact separate.distinct first second one two listedOne listedTwo same

theorem setSame {caps : Nat → Caps} (separate : state.Separate)
    (listed : state.tasks[index]? = some task)
    (same : moved.cred = task.cred) :
    Creds.Separate ⟨caps, state.next, state.tasks.set index moved⟩ := by
  apply separate.set (Nat.le_refl _)
  · rw [same]
    exact separate.bounded task (List.mem_of_getElem? listed)
  · intro other two different listedOther equal
    exact different (separate.distinct other index two task listedOther
      listed (equal.trans same))

theorem append {caps : Nat → Caps} {new : CredTask}
    (separate : state.Separate) (fresh : new.cred = state.next) :
    Creds.Separate ⟨caps, state.next + 1, state.tasks ++ [new]⟩ where
  bounded := by
    intro two member
    rcases List.mem_append.mp member with older | added
    · exact Nat.lt_succ_of_lt (separate.bounded two older)
    · rw [List.mem_singleton.mp added, fresh]
      exact Nat.lt_succ_self _
  distinct := by
    intro first second one two listedOne listedTwo same
    have older : ∀ (position : Nat) (two : CredTask),
        (state.tasks ++ [new])[position]? = some two →
        two.cred < state.next ∧ state.tasks[position]? = some two ∨
          two.cred = state.next ∧ position = state.tasks.length := by
      intro position two listed
      rcases Nat.lt_or_ge position state.tasks.length with below | above
      · rw [List.getElem?_append_left below] at listed
        exact .inl ⟨separate.bounded two (List.mem_of_getElem? listed),
          listed⟩
      · have length := (List.getElem?_eq_some_iff.mp listed).1
        rw [List.getElem?_append_right above] at listed
        have added := List.mem_singleton.mp (List.mem_of_getElem? listed)
        rw [List.length_append, List.length_singleton] at length
        exact .inr ⟨added ▸ fresh, by omega⟩
    rcases older first one listedOne with ⟨belowOne, one⟩ | ⟨freshOne, one⟩
    · rcases older second two listedTwo with ⟨_, two⟩ | ⟨freshTwo, _⟩
      · exact separate.distinct first second _ _ one two same
      · omega
    · rcases older second two listedTwo with ⟨belowTwo, _⟩ | ⟨_, two⟩
      · omega
      · exact one.trans two.symm

theorem step {event : CredEvent} (separate : state.Separate)
    (own : ¬ event.Shares) (taken : CredTaken state event next) :
    next.Separate := by
  cases taken with
  | call listed outside => exact separate.setSame listed rfl
  | @advance index task point outcome listed inside =>
      cases point with
      | save => exact separate.setSame listed rfl
      | load capback => exact separate.setSame listed rfl
      | raise capback word => exact separate.setSame listed rfl
      | chroot capback => exact separate.setSame listed rfl
      | restore capback => exact separate.setSame listed rfl
  | clone listed outside => exact absurd trivial own
  | fork kept listed outside => exact separate.append rfl
  | commit kept listed outside =>
      apply separate.set (Nat.le_succ _) (Nat.lt_succ_self _)
      intro other two different listedOther equal
      have below := separate.bounded two (List.mem_of_getElem? listedOther)
      exact Nat.lt_irrefl _ (equal ▸ below)

theorem along {state : Creds} {events : List CredEvent}
    (separate : state.Separate) (own : ∀ event ∈ events, ¬ event.Shares) :
    Along Creds.step Creds.Alone state events := by
  induction events generalizing state with
  | nil => trivial
  | cons event events induction =>
      obtain ⟨first, later⟩ := List.forall_mem_cons.mp own
      refine ⟨separate.alone event, ?_⟩
      intro next taken
      exact induction (separate.step first (Creds.taken_of_step taken)) later

end Creds.Separate

namespace Creds.Quiet

variable {start : Creds}

theorem follows (quiet : start.Quiet) : Follows start start.grants where
  owners := rfl
  next := rfl
  bounded := quiet.bounded

theorem borrowed (quiet : start.Quiet) : Borrowed start start.grants where
  follows := quiet.follows
  caps := by
    intro cred _
    exact .inl rfl
  points := by
    intro task member point inside
    cases (quiet.outside task member).symm.trans inside

theorem restored (quiet : start.Quiet) : Restored start start.grants where
  follows := quiet.follows
  free := by
    intro cred _ _
    rfl
  right := by
    intro task member point inside
    cases (quiet.outside task member).symm.trans inside
  single := by
    intro first second one two listed _ _ busy _
    exact absurd (quiet.outside one (List.mem_of_getElem? listed)) busy

end Creds.Quiet

/-- A `struct cred` holds what the kernel has granted to it, or that and
`CAP_SYS_CHROOT`, whatever happens at the same time.  If nobody enters
`my_chroot` or copies a `struct cred` while another task is in `my_chroot`
with it, then it holds exactly what was granted as soon as nobody is in
`my_chroot` with it, and `sys_chroot` always runs with the capability.  Where
tasks share nothing this is so in every run. -/
theorem capabilities_lent {start state : Creds} {events : List CredEvent}
    (quiet : start.Quiet)
    (reached : run Creds.step start events = some state) :
    ∃ grants, run Grants.step start.grants events = some grants ∧
      (∀ cred < state.next, Lent (grants.caps cred) (state.caps cred)) ∧
      (Along Creds.step Creds.Alone start events ∨
          start.Separate ∧ (∀ event ∈ events, ¬ event.Shares) →
        (∀ cred < state.next, state.Free cred →
          state.caps cred = grants.caps cred) ∧
        ∀ task ∈ state.tasks, ∀ capback,
          task.point = some (.chroot capback) →
          Capable (state.caps task.cred)) := by
  obtain ⟨grants, followed, borrowed⟩ := run_simulated
    (fun _ _ _ _ before _ taken =>
      before.step (Creds.taken_of_step taken))
    reached (along_of_forall (fun _ _ => trivial) _ _) quiet.borrowed
  refine ⟨grants, followed, borrowed.caps, ?_⟩
  intro condition
  have alone : Along Creds.step Creds.Alone start events := by
    rcases condition with alone | ⟨separate, own⟩
    · exact alone
    · exact separate.along own
  obtain ⟨again, same, restored⟩ := run_simulated
    (fun _ _ _ _ before alone taken =>
      before.step alone (Creds.taken_of_step taken))
    reached alone quiet.restored
  cases followed.symm.trans same
  refine ⟨restored.free, ?_⟩
  intro task member capback inside
  have raised := (restored.right task member _ inside).1
  rw [raised, Capable]
  simp [chrootMask, capSysChroot]

def twoThreads : Creds :=
  { caps := fun _ => 0
    next := 1
    tasks := [⟨0, .nochroot, none⟩, ⟨0, .nochroot, none⟩] }

def inTurns : List CredEvent :=
  [.call 0] ++ List.replicate 5 (.advance 0 ⟨true, true, true, .other 0⟩) ++
    [.call 1] ++ List.replicate 5 (.advance 1 ⟨true, true, true, .other 0⟩)

theorem capabilities_lent_turns :
    ∃ state, run Creds.step twoThreads inTurns = some state ∧
      ∃ grants, run Grants.step twoThreads.grants inTurns = some grants ∧
        Lent (grants.caps 0) (state.caps 0) ∧
        state.caps 0 = grants.caps 0 := by
  have quiet : twoThreads.Quiet := by
    constructor
    · decide
    · decide
  have ends : (run Creds.step twoThreads inTurns).any
      (fun state => state.next = 1 ∧
        ∀ task ∈ state.tasks, task.point = none) = true := by
    decide +kernel
  obtain ⟨state, reached, facts⟩ := (Option.any_eq_true _ _).mp ends
  obtain ⟨one, outside⟩ := of_decide_eq_true facts
  obtain ⟨grants, followed, lent, exact_of⟩ := capabilities_lent quiet reached
  have below : 0 < state.next := one ▸ Nat.one_pos
  have restored := exact_of (.inl (by decide +kernel))
  exact ⟨state, reached, grants, followed, lent 0 below,
    restored.1 0 below (fun task member _ => outside task member)⟩

/-- The second thread saves the raised word and restores it last: both are
done, and the capability has stayed. -/
example : (run Creds.step twoThreads
    ([.call 0] ++
      List.replicate 3 (.advance 0 ⟨true, true, true, .other 0⟩) ++
      [.call 1, .advance 1 ⟨true, true, true, .other 0⟩] ++
      List.replicate 2 (.advance 0 ⟨true, true, true, .other 0⟩) ++
      List.replicate 4 (.advance 1 ⟨true, true, true, .other 0⟩))).any
      (fun state => Capable (state.caps 0) ∧
        ∀ task ∈ state.tasks, task.point = none) = true := by
  decide +kernel

end Chos.Kernel
