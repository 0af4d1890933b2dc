import Chos.User.Main
import Chos.Library.Buffers

/-!
# Already in the requested tree

`get_multi` and the comparison in `main` with all accesses to the buffer of
`MAX_OS` bytes checked, and when the comparison is that of the whole strings.
`readlink` may fill the buffer, and then neither the terminator fits nor does
the rest of the link take part.
-/

namespace Chos.User

open Chos.Library
open Chos.Kernel

namespace Checked

open Buffer

/-- `get_multi`; what `readlink` stores are the first `MAX_OS` bytes. -/
def getMulti (link : Option Text) (os : Text) : Except Nat (Int × Text) :=
  match link with
  | none => .ok (-3, os)
  | some text => do
      let stored := text.take maxOs
      let os ← storeAll os 0 stored
      if stored.length < 1 then .ok (-3, os)
      else
        let os ← store os stored.length 0
        .ok (0, os)

/-- The loop of `strncmp` on a buffer and a string: whether it gets to the
end of both or has compared enough. -/
def strncmpIsZero (left : Text) : Text → Nat → Nat → Except Nat Bool
  | _, 0, _ => .ok true
  | right, count + 1, i => do
      let c ← load left i
      if c ≠ right.headD 0 then .ok false
      else if c = 0 then .ok true
      else strncmpIsZero left right.tail count (i + 1)

/-- The two tests of `main`. -/
def compare (link : Option Text) (chos os : Text) :
    Except Nat Utility.Request := do
  let (ret, chos) ← getMulti link chos
  if ret ≠ 0 then .ok (.exit (-3))
  else if ← strncmpIsZero chos os maxOs 0 then .ok .skip
  else .ok (.set os)

theorem strncmpIsZero_of_fits {left right : Text} {count i : Nat}
    (fits : i + count ≤ left.length) :
    strncmpIsZero left right count i =
      .ok (User.strncmpIsZero (left.drop i) right count) := by
  induction count generalizing i right with
  | zero => simp [strncmpIsZero, User.strncmpIsZero]
  | succ count induction =>
      have inside : i < left.length := by omega
      have rest := @induction right.tail (i + 1) (by omega)
      rw [strncmpIsZero, load_of_lt inside, List.drop_eq_getElem_cons inside]
      simp only [bind, Except.bind]
      rw [rest]
      generalize left[i] = c
      generalize left.drop (i + 1) = left
      unfold User.strncmpIsZero
      cases right with
      | nil =>
          by_cases ends : c = 0
          · simp [cString, ends]
          · simp [cString, ends]
      | cons d right =>
          by_cases same : c = d
          · by_cases ends : d = 0
            · simp [cString, same, ends]
            · simp [cString, same, ends]
          · by_cases ends : c = 0
            · have other : d ≠ 0 := by
                rw [← ends]
                exact Ne.symm same
              simp [cString, ends, other, Ne.symm other]
            · by_cases nothing : d = 0
              · simp [cString, ends, nothing]
              · simp [cString, same, ends, nothing]

theorem getMulti_of_short {link os : Text} (size : os.length = maxOs)
    (short : link.length < maxOs) :
    getMulti (some link) os = .ok (User.getMulti (some link) os) := by
  have whole : link.take maxOs = link :=
    List.take_of_length_le (Nat.le_of_lt short)
  have stored : storeAll os 0 link =
      .ok (link ++ os.drop link.length) := storeAll_zero (by omega)
  have inside : link.length < (link ++ os.drop link.length).length := by
    rw [List.length_append, List.length_drop]
    omega
  cases link with
  | nil =>
      simp [getMulti, User.getMulti, storeAll, bind, Except.bind]
  | cons c link =>
      have some : ¬ (c :: link).length < 1 := by simp
      simp only [getMulti, User.getMulti, whole, stored, bind, Except.bind,
        some, if_false, store_of_lt inside]

theorem getMulti_of_long {link os : Text} (size : os.length = maxOs)
    (long : maxOs ≤ link.length) :
    getMulti (some link) os = .error maxOs := by
  have length : (link.take maxOs).length = maxOs :=
    List.length_take_of_le long
  have stored : storeAll os 0 (link.take maxOs) = .ok (link.take maxOs) := by
    rw [storeAll_zero (by omega), length, List.drop_eq_nil_of_le (by omega),
      List.append_nil]
  have some : ¬ (link.take maxOs).length < 1 := by
    rw [length, maxOs]
    decide
  have full : (link.take maxOs).length ≤ (link.take maxOs).length :=
    Nat.le_refl _
  simp only [getMulti, stored, bind, Except.bind, some, if_false,
    store_of_le full]
  rw [length]

theorem length_getMulti {link os : Text} (size : os.length = maxOs) :
    (User.getMulti (some link) os).2.length = maxOs := by
  have stored : (link.take maxOs).length ≤ maxOs := List.length_take_le _ _
  unfold User.getMulti
  dsimp only
  split
  · exact size
  · rw [List.length_set, List.length_append, List.length_drop]
    omega

theorem compare_of_short {calls : Utility.Calls} {state next : Sys}
    {pid : Nat} {link : Text} (linked : calls.linked = true)
    (read : state.readlink pid = some (link, next))
    (short : link.length < maxOs) (os : Text) :
    ∃ request, compare (some link) calls.chos os = .ok request ∧
      Utility.compare calls state pid os = some (request, next) := by
  have got := getMulti_of_short calls.size short
  have size := @length_getMulti link calls.chos calls.size
  simp only [compare, got, Utility.compare, Utility.readlink, linked, read,
    if_true, Option.map_some, bind, Except.bind]
  generalize User.getMulti (some link) calls.chos = result at size
  obtain ⟨ret, chos⟩ := result
  have compared := @strncmpIsZero_of_fits chos os maxOs 0
    (by rw [Nat.zero_add]; exact Nat.le_of_eq size.symm)
  rw [List.drop_zero] at compared
  dsimp only
  by_cases error : ret = 0
  · simp only [error, ne_eq, not_true_eq_false, if_false, compared]
    cases User.strncmpIsZero chos os maxOs with
    | true => exact ⟨.skip, rfl, rfl⟩
    | false => exact ⟨.set os, rfl, rfl⟩
  · exact ⟨.exit (-3), if_pos error, if_pos error⟩

theorem compare_of_long {link chos : Text} (size : chos.length = maxOs)
    (long : maxOs ≤ link.length) (os : Text) :
    compare (some link) chos os = .error maxOs := by
  rw [compare, getMulti_of_long size long]
  rfl

end Checked

namespace Utility

variable {calls : Calls} {state : Sys} {pid : Nat} {link os : Text}

/-- `main` comes to its two tests, and the link has the given text. -/
structure Compares (calls : Calls) (state : Sys) (pid : Nat)
    (link os : Text) : Prop where
  args : chosParseArgs calls.argv ≠ 0
  known : calls.getpwuid = true
  linked : calls.linked = true
  requested : ∃ name, calls.getenv = some name ∧
    Utility.os calls.conf name = some os
  read : ∃ next, state.readlink pid = some (link, next)
  terminated : 0 ∉ link

/-- The update is left out in the requested tree only, and nothing past the
buffer is touched. -/
structure Exact (calls : Calls) (state : Sys) (pid : Nat)
    (link os : Text) : Prop where
  skips : ¬ Passes calls state pid os ↔ link = os
  inBounds : ∃ request,
    Checked.compare (some link) calls.chos os = .ok request

theorem Compares.passes_iff (compares : Compares calls state pid link os) :
    Passes calls state pid os ↔ link ≠ [] ∧ ¬ AlreadyIn link os := by
  obtain ⟨name, set, selected⟩ := compares.requested
  obtain ⟨next, read⟩ := compares.read
  rw [Utility.passes_iff]
  constructor
  · rintro ⟨_, _, _, _, other, _, _, _, found, nonempty, differs⟩
    cases read.symm.trans found
    exact ⟨nonempty, differs⟩
  · rintro ⟨nonempty, differs⟩
    exact ⟨compares.args, compares.known, compares.linked, name, link, next,
      set, selected, read, nonempty, differs⟩

theorem Compares.alreadyIn_iff (compares : Compares calls state pid link os) :
    AlreadyIn link os ↔ link.take maxOs = os.take maxOs := by
  have whole : cString (link.take maxOs) = link.take maxOs := by
    apply cString_of_terminated
    exact fun inside => compares.terminated (List.mem_of_mem_take inside)
  rw [AlreadyIn, whole]

theorem take_eq_take_iff_of_short (short : link.length < maxOs) :
    link.take maxOs = os.take maxOs ↔ link = os := by
  constructor
  · intro same
    have fits : os.length ≤ maxOs := by
      apply Nat.le_of_not_lt
      intro long
      have lengths := congrArg List.length same
      rw [List.length_take_of_le (Nat.le_of_lt long),
        List.length_take] at lengths
      omega
    rwa [List.take_of_length_le (Nat.le_of_lt short),
      List.take_of_length_le fits] at same
  · exact congrArg (List.take maxOs)

end Utility

/-- The utility compares the whole strings inside of its buffer if and only
if the link is shorter than the buffer, and is not empty unless the string
is. -/
theorem in_tree_exact_iff {calls : Utility.Calls} {state : Sys} {pid : Nat}
    {link os : Text} (compares : Utility.Compares calls state pid link os) :
    Utility.Exact calls state pid link os ↔
      link.length < maxOs ∧ (link = [] → os = []) := by
  have passes := compares.passes_iff
  rw [compares.alreadyIn_iff] at passes
  constructor
  · intro exact
    refine ⟨?_, ?_⟩
    · apply Nat.lt_of_not_le
      intro long
      obtain ⟨request, inBounds⟩ := exact.inBounds
      have outside := Checked.compare_of_long calls.size long os
      rw [outside] at inBounds
      cases inBounds
    · intro empty
      have skipped : ¬ Utility.Passes calls state pid os := by
        intro passed
        exact (passes.mp passed).1 empty
      exact ((exact.skips.mp skipped).symm.trans empty)
  · rintro ⟨short, empty⟩
    have whole := @Utility.take_eq_take_iff_of_short link os short
    refine ⟨?_, ?_⟩
    · rw [passes, whole, not_and_not_right]
      constructor
      · intro same
        by_cases nothing : link = []
        · rw [nothing, empty nothing]
        · exact same nothing
      · intro same _
        exact same
    · obtain ⟨next, read⟩ := compares.read
      obtain ⟨request, inBounds, _⟩ :=
        Checked.compare_of_short compares.linked read short os
      exact ⟨request, inBounds⟩

theorem in_tree_exact_iff_listed :
    Utility.Exact (.plain ⟨ascii "chos", by decide⟩ ⟨ascii "old", by decide⟩
      (ascii "%SHELLS\nold:/x\n")) (Sys.init 16 .boot) 1 (ascii "/")
      (ascii "/x") := by
  apply (in_tree_exact_iff _).mpr
  · exact ⟨by decide, by decide⟩
  · exact
      { args := by decide
        known := rfl
        linked := rfl
        requested := ⟨_, rfl, by decide +kernel⟩
        read := ⟨_, rfl⟩
        terminated := by decide }

def longPath (length : Nat) : Text :=
  '/'.toUInt8 :: List.replicate length 'a'.toUInt8

/-- A process is in a tree with a path of 81 characters, and asks for the one
whose path has all but the last of them. -/
theorem full_buffer_hides_change :
    ∃ state, run Sys.step (Sys.init 16 .boot)
        [.writeValid 0 (longPath 80) 81 ⟨true, true⟩,
          .begin 1, .create 1 ⟨10, ⟨5, 0⟩, 0, []⟩, .finish 1,
          .setchos 10 (longPath 80) 81 ⟨true, true, true, .other 0⟩] =
        some state ∧
      (∃ next, state.readlink 10 = some (longPath 80, next)) ∧
      ¬ Utility.Passes (.plain ⟨ascii "chos", by decide⟩
        ⟨longPath 79, by decide⟩ (ascii "%SHELLS\n")) state 10
        (longPath 79) ∧
      longPath 80 ≠ longPath 79 ∧
      Checked.compare (some (longPath 80)) (List.replicate maxOs 0)
        (longPath 79) = .error 80 ∧
      ¬ Utility.Exact (.plain ⟨ascii "chos", by decide⟩
        ⟨longPath 79, by decide⟩ (ascii "%SHELLS\n")) state 10
        (longPath 80) (longPath 79) := by
  have ends : (run Sys.step (Sys.init 16 .boot)
      [.writeValid 0 (longPath 80) 81 ⟨true, true⟩,
        .begin 1, .create 1 ⟨10, ⟨5, 0⟩, 0, []⟩, .finish 1,
        .setchos 10 (longPath 80) 81 ⟨true, true, true, .other 0⟩]).any
      (fun state => (state.readlink 10).any
        (fun found => decide (found.1 = longPath 80))) = true := by
    decide +kernel
  obtain ⟨state, reached, read⟩ := (Option.any_eq_true _ _).mp ends
  obtain ⟨⟨link, next⟩, found, text⟩ := (Option.any_eq_true _ _).mp read
  have same : link = longPath 80 := of_decide_eq_true text
  subst same
  have compares : Utility.Compares (.plain ⟨ascii "chos", by decide⟩
      ⟨longPath 79, by decide⟩ (ascii "%SHELLS\n")) state 10
      (longPath 80) (longPath 79) :=
    { args := by decide
      known := rfl
      linked := rfl
      requested := ⟨_, rfl, by decide +kernel⟩
      read := ⟨next, found⟩
      terminated := by decide }
  have outside : Checked.compare (some (longPath 80))
      (List.replicate maxOs 0) (longPath 79) = .error 80 :=
    Checked.compare_of_long List.length_replicate (by decide) _
  have different : longPath 80 ≠ longPath 79 := by decide
  refine ⟨state, reached, ⟨next, found⟩, ?_, different, outside, ?_⟩
  · rw [compares.passes_iff, compares.alreadyIn_iff]
    rintro ⟨_, differs⟩
    exact differs (by decide)
  · intro exact
    obtain ⟨request, inBounds⟩ := exact.inBounds
    cases outside.symm.trans inBounds

end Chos.User
