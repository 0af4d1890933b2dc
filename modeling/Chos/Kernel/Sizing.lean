import Mathlib.Logic.Relation
import Chos.Kernel.Loading
import Chos.Kernel.RoundTrip

/-!
# The size of the process table

The product and the loop of `init_chos` in the machine's arithmetic: the size
of the block is a product modulo `2^64`, and the loop counts with an `int`
that is converted to `unsigned long` for its test.
-/

namespace Chos.Kernel

open Chos.Library

def largestInt : Int := 2147483647

/-- `i++` on an `int`, as the machine does it. -/
def nextInt (i : Int) : Int := Int.bmod (i + 1) (2 ^ 32)

def unsignedLong (i : Int) : Nat := (i % 2 ^ 64).toNat

/-- `psize`, with `size` for `sizeof(struct chos_proc)`. -/
def psize (pid_max size : Nat) : Nat := pid_max * size % 2 ^ 64

/-- The loop over the entries; they are addressed with an `int`. -/
structure InitLoop where
  i : Int
  procs : Int → ChosProc

/-- One round, unless the test of the loop fails. -/
def InitLoop.round (pid_max : Nat) (loop : InitLoop) : Option InitLoop :=
  if unsignedLong loop.i < pid_max then
    some
      { i := nextInt loop.i
        procs := Function.update loop.procs loop.i .initial }
  else none

/-- The loop comes from its start, with any content of the block. -/
def InitLoop.Reached (pid_max : Nat) (content : Int → ChosProc) :
    InitLoop → Prop :=
  Relation.ReflTransGen (fun loop next => loop.round pid_max = some next)
    ⟨0, content⟩

/-- The table is as large as its entries, and the loop initialises entries of
it until it ends, without a counter that overflows. -/
structure Sized (pid_max size : Nat) (content : Int → ChosProc) : Prop where
  product : psize pid_max size = pid_max * size
  counter : ∀ loop next, InitLoop.Reached pid_max content loop →
    loop.round pid_max = some next → loop.i + 1 ≤ largestInt
  inside : ∀ loop next, InitLoop.Reached pid_max content loop →
    loop.round pid_max = some next →
      0 ≤ loop.i ∧ (loop.i.toNat + 1) * size ≤ psize pid_max size
  ends : ∃ loop, InitLoop.Reached pid_max content loop ∧
    loop.round pid_max = none

theorem nextInt_of_lt {i : Int} (nonnegative : 0 ≤ i)
    (below : i < largestInt) : nextInt i = i + 1 := by
  simp only [largestInt] at below
  apply Int.bmod_eq_of_le <;> omega

theorem unsignedLong_of_le {i : Int} (nonnegative : 0 ≤ i)
    (small : i ≤ largestInt) : unsignedLong i = i.toNat := by
  simp only [largestInt] at small
  rw [unsignedLong, Int.emod_eq_of_lt nonnegative (by omega)]

theorem psize_eq_iff (pid_max size : Nat) :
    psize pid_max size = pid_max * size ↔ pid_max * size < 2 ^ 64 := by
  constructor
  · intro same
    rw [← same]
    exact Nat.mod_lt _ (by decide)
  · exact Nat.mod_eq_of_lt

namespace InitLoop

variable {pid_max : Nat} {content : Int → ChosProc} {loop next : InitLoop}

theorem round_eq_some_iff :
    loop.round pid_max = some next ↔
      unsignedLong loop.i < pid_max ∧
        next =
          ⟨nextInt loop.i, Function.update loop.procs loop.i .initial⟩ := by
  unfold round
  by_cases goes : unsignedLong loop.i < pid_max
  · simp [goes, eq_comm]
  · simp [goes]

theorem round_eq_none_iff :
    loop.round pid_max = none ↔ pid_max ≤ unsignedLong loop.i := by
  simp [round]

/-- What holds before each test, while the counter is large enough for the
bound. -/
structure Invariant (pid_max : Nat) (content : Int → ChosProc)
    (loop : InitLoop) : Prop where
  nonnegative : 0 ≤ loop.i
  bound : loop.i ≤ pid_max
  filled : ∀ j, 0 ≤ j → j < loop.i → loop.procs j = .initial
  untouched : ∀ j, j < 0 ∨ loop.i ≤ j → loop.procs j = content j

theorem Invariant.round (fits : (pid_max : Int) ≤ largestInt)
    (holds : Invariant pid_max content loop)
    (rounded : loop.round pid_max = some next) :
    loop.i < pid_max ∧ next.i = loop.i + 1 ∧
      Invariant pid_max content next := by
  obtain ⟨tested, rfl⟩ := round_eq_some_iff.mp rounded
  have nonnegative := holds.nonnegative
  have bound := holds.bound
  rw [unsignedLong_of_le nonnegative (Int.le_trans bound fits)] at tested
  have below : loop.i < pid_max := by omega
  have successor : nextInt loop.i = loop.i + 1 :=
    nextInt_of_lt nonnegative (Int.lt_of_lt_of_le below fits)
  refine ⟨below, successor, ?_⟩
  constructor
  · show 0 ≤ nextInt loop.i
    omega
  · show nextInt loop.i ≤ pid_max
    omega
  · intro j lower upper
    dsimp only at upper ⊢
    by_cases here : j = loop.i
    · rw [here, Function.update_self]
    · rw [Function.update_of_ne here]
      exact holds.filled j lower (by omega)
  · intro j outside
    dsimp only at outside ⊢
    have elsewhere : j ≠ loop.i := by omega
    rw [Function.update_of_ne elsewhere]
    exact holds.untouched j (by omega)

theorem Reached.invariant (fits : (pid_max : Int) ≤ largestInt)
    (reached : Reached pid_max content loop) :
    Invariant pid_max content loop := by
  induction reached with
  | refl =>
      constructor
      · exact Int.le_refl 0
      · exact Int.natCast_nonneg pid_max
      · intro j lower upper
        exact absurd lower (Int.not_le.mpr upper)
      · intro j _
        rfl
  | tail _ rounded holds => exact (holds.round fits rounded).2.2

theorem exists_reached (content : Int → ChosProc) {count : Nat}
    (bound : count ≤ pid_max) (small : (count : Int) ≤ largestInt) :
    ∃ loop, Reached pid_max content loop ∧ loop.i = count := by
  induction count with
  | zero => exact ⟨⟨0, content⟩, .refl, rfl⟩
  | succ count induction =>
      rw [Int.natCast_succ] at small
      obtain ⟨loop, reached, counted⟩ := induction (by omega) (by omega)
      have tested : unsignedLong loop.i < pid_max := by
        rw [unsignedLong_of_le (by omega) (by omega)]
        omega
      refine ⟨_, .tail reached (round_eq_some_iff.mpr ⟨tested, rfl⟩), ?_⟩
      show nextInt loop.i = _
      rw [nextInt_of_lt (by omega) (by omega), counted]
      rfl

/-- A loop that ends has initialised all entries of the table. -/
theorem Reached.filled (fits : (pid_max : Int) ≤ largestInt)
    (reached : Reached pid_max content loop)
    (ended : loop.round pid_max = none) {index : Nat}
    (within : index < pid_max) : loop.procs index = .initial := by
  have holds := reached.invariant fits
  have nonnegative := holds.nonnegative
  have bound := holds.bound
  rw [round_eq_none_iff, unsignedLong_of_le nonnegative
    (Int.le_trans bound fits)] at ended
  exact holds.filled index (by omega) (by omega)

end InitLoop

theorem sized_iff (pid_max size : Nat) (content : Int → ChosProc) :
    Sized pid_max size content ↔
      (pid_max : Int) ≤ largestInt ∧ pid_max * size < 2 ^ 64 := by
  constructor
  · intro sized
    refine ⟨?_, (psize_eq_iff pid_max size).mp sized.product⟩
    apply Int.le_of_not_gt
    intro large
    -- the counter gets to its largest value, and the test lets it go on
    have top : ((2147483647 : Nat) : Int) = largestInt := rfl
    obtain ⟨loop, reached, counted⟩ := @InitLoop.exists_reached pid_max
      content 2147483647 (by omega) (Int.le_of_eq top)
    rw [top] at counted
    have tested : unsignedLong loop.i < pid_max := by
      rw [counted, unsignedLong_of_le (by decide) (Int.le_refl _)]
      omega
    have stays := sized.counter loop _ reached
      (InitLoop.round_eq_some_iff.mpr ⟨tested, rfl⟩)
    rw [counted] at stays
    omega
  · rintro ⟨fits, small⟩
    have product := (psize_eq_iff pid_max size).mpr small
    have below : ∀ loop next, InitLoop.Reached pid_max content loop →
        loop.round pid_max = some next →
        0 ≤ loop.i ∧ loop.i < pid_max := by
      intro loop next reached rounded
      have holds := reached.invariant fits
      exact ⟨holds.nonnegative, (holds.round fits rounded).1⟩
    refine ⟨product, ?_, ?_, ?_⟩
    · intro loop next reached rounded
      have upper := (below loop next reached rounded).2
      omega
    · intro loop next reached rounded
      obtain ⟨lower, upper⟩ := below loop next reached rounded
      refine ⟨lower, ?_⟩
      rw [product]
      apply Nat.mul_le_mul_right
      omega
    · obtain ⟨loop, reached, counted⟩ :=
        InitLoop.exists_reached content (Nat.le_refl pid_max) fits
      refine ⟨loop, reached, ?_⟩
      rw [InitLoop.round_eq_none_iff, counted,
        unsignedLong_of_le (Int.natCast_nonneg _) fits]
      exact Nat.le_refl _

def pidMax (max : Int) : Nat :=
  if max > 0 then max.toNat else pidMaxDefault

theorem pidMax_le_iff (max : Int) :
    (pidMax max : Int) ≤ largestInt ↔ max ≤ largestInt := by
  unfold pidMax
  by_cases given : max > 0
  · rw [if_pos given, Int.toNat_of_nonneg (Int.le_of_lt given)]
  · have default : (pidMaxDefault : Int) ≤ largestInt := by decide
    have small : max ≤ largestInt := by
      simp only [largestInt]
      omega
    rw [if_neg given]
    exact iff_of_true default small

section Loaded

variable {config : Config} {image : Image} {max : Int}
  {outcome : LoadOutcome} {jumper : Memory} {host : Host}
  (loaded : ∀ ch saved next,
    initChos config image max outcome jumper host ≠
      some (-1, ch, saved, next))

include loaded

theorem allocates_of_loaded : outcome.Allocates := by
  by_contra failed
  obtain ⟨_, _, returned, _⟩ :=
    initChos_of_not_allocates failed config image max jumper host
  exact loaded _ _ _ returned

theorem buildChos_pid_max :
    ((buildChos max outcome host).2.2.structs.block
      (buildChos max outcome host).2.1).pid_max = pidMax max := by
  obtain ⟨built, builds, facts⟩ :=
    buildChos_of_allocates (allocates_of_loaded loaded) max host
  rw [builds, facts.chos]
  rfl

theorem buildChos_procs (fits : max ≤ largestInt)
    {content : Int → ChosProc} {loop : InitLoop}
    (reached : loop.Reached (pidMax max) content)
    (ended : loop.round (pidMax max) = none) {index : Nat}
    (within : index < pidMax max) :
    (buildChos max outcome host).2.2.arrays.block
        ((buildChos max outcome host).2.2.structs.block
          (buildChos max outcome host).2.1).procs index =
      loop.procs index := by
  have filled := reached.filled ((pidMax_le_iff max).mpr fits) ended within
  obtain ⟨built, builds, facts⟩ :=
    buildChos_of_allocates (allocates_of_loaded loaded) max host
  rw [filled, builds, facts.chos]
  exact congrFun facts.procs index

/-- The table that `init_chos` builds is as large as its entries if and only
if the parameter is an `int` and the product a `size_t`. -/
theorem init_chos_sized_iff (size : Nat) (content : Int → ChosProc) :
    Sized ((buildChos max outcome host).2.2.structs.block
        (buildChos max outcome host).2.1).pid_max size content ↔
      max ≤ largestInt ∧ pidMax max * size < 2 ^ 64 := by
  rw [buildChos_pid_max loaded, sized_iff, pidMax_le_iff]

end Loaded

theorem loaded_of_allocates {outcome : LoadOutcome}
    (allocates : outcome.Allocates) (config : Config) (image : Image)
    (max : Int) (jumper : Memory) (host : Host) :
    ∀ ch saved next, initChos config image max outcome jumper host ≠
      some (-1, ch, saved, next) := by
  intro ch saved next returned
  exact absurd (initChos_of_allocates allocates returned).returned
    (by decide)

theorem initChos_pid_max {outcome : LoadOutcome}
    (allocates : outcome.Allocates) {config : Config} {image : Image}
    {max : Int} {jumper saved : Memory} {host next : Host} {code : Int}
    {ch : Nat} (returned : initChos config image max outcome jumper host =
      some (code, ch, saved, next)) :
    (next.structs.block ch).pid_max = pidMax max := by
  obtain ⟨built, builds, facts⟩ := buildChos_of_allocates allocates max host
  rw [initChos_of_built builds, Option.map_eq_some_iff] at returned
  obtain ⟨⟨forked, _, machine⟩, _, same⟩ := returned
  cases same
  rw [Host.recordFork_block_self, facts.chos]
  rfl

theorem init_chos_sized_iff_default :
    Sized ((buildChos 0 ⟨true, true, true, fun _ => true⟩
        (Life.init releaseFiveMachine).host).2.2.structs.block
        (buildChos 0 ⟨true, true, true, fun _ => true⟩
          (Life.init releaseFiveMachine).host).2.1).pid_max
      24 (fun _ => .cleared) :=
  (init_chos_sized_iff
    (loaded_of_allocates ⟨rfl, rfl⟩ releaseFive
      ⟨0xffffffffa0001000, 0xffffffffa0003000, fun _ => 0xcc⟩ 0
      (fun _ => 0) (Life.init releaseFiveMachine).host)
    24 (fun _ => .cleared)).mpr ⟨by decide, by decide⟩

/-- With `max` at `2^60+1` and entries of 16 bytes the block has room for one
of them; with `2^31` the counter overflows, without wrap-around of the
product. -/
theorem large_max_not_sized :
    psize (2 ^ 60 + 1) 16 = 16 ∧
    psize (2 ^ 31) 16 = 2 ^ 31 * 16 ∧
    ∀ max ∈ [(2 ^ 60 + 1 : Int), 2 ^ 31],
      ∃ ch saved next,
        initChos releaseFive
          ⟨0xffffffffa0001000, 0xffffffffa0003000, fun _ => 0xcc⟩ max
          ⟨true, true, true, fun _ => true⟩ (fun _ => 0)
          (Life.init releaseFiveMachine).host = some (0, ch, saved, next) ∧
        ¬ Sized (next.structs.block ch).pid_max 16 (fun _ => .cleared) := by
  refine ⟨by decide, by decide, ?_⟩
  intro max listed
  have large : ¬ max ≤ largestInt := by
    simp only [List.mem_cons, List.not_mem_nil, or_false] at listed
    rcases listed with rfl | rfl <;> decide
  have allocates : LoadOutcome.Allocates
      ⟨true, true, true, fun _ => true⟩ := ⟨rfl, rfl⟩
  obtain ⟨⟨code, ch, saved, next⟩, returned⟩ :=
    (@exists_initChos_iff _ allocates releaseFive
      ⟨0xffffffffa0001000, 0xffffffffa0003000, fun _ => 0xcc⟩ max
      (fun _ => 0) (Life.init releaseFiveMachine).host).mpr
      (fun _ => pagesOpen_of_fits (by decide) (by decide +kernel))
  obtain rfl := (initChos_of_allocates allocates returned).returned
  refine ⟨ch, saved, next, returned, ?_⟩
  rw [initChos_pid_max allocates returned, sized_iff]
  intro counted
  exact large ((pidMax_le_iff max).mp counted.1)

end Chos.Kernel
