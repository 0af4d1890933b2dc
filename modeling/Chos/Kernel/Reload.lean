import Chos.Library.Lines
import Chos.Kernel.Access

/-!
# Reading the valid paths and writing them back

A reset and the printed lines, written one by one, are what is needed to have
the list of valid paths once more.  This rests on what no path can be: a path
has no newline, and none begins with the dash that resets the list.
-/

namespace Chos.Kernel

open Chos.Library

/-- What the writes of root let onto the list. -/
structure ValidPath.Printable (valid : ValidPath) : Prop where
  oneLine : '\n'.toUInt8 ∉ valid.path
  whole : 0 ∉ valid.path
  noReset : valid.path.head? ≠ some '-'.toUInt8
  measured : valid.length = valid.path.length

theorem newline_not_mem_trim (buf : List UInt8) (count : Nat) :
    '\n'.toUInt8 ∉ trim buf count := by
  intro inside
  have plain := List.mem_takeWhile_imp inside
  rw [decide_eq_true_eq] at plain
  exact plain.1 rfl

theorem head_of_trim {buf : List UInt8} {count : Nat} {byte : UInt8}
    (first : (trim buf count).head? = some byte) :
    buf.getD 0 0 = byte := by
  have isPrefix : trim buf count <+: buf :=
    (List.takeWhile_prefix _).trans (List.take_prefix _ _)
  obtain ⟨rest, whole⟩ := isPrefix
  rw [← whole, List.getD_eq_getElem?_getD, ← List.head?_eq_getElem?,
    List.head?_append, first]
  rfl

theorem scan_eq_length (buf : List UInt8) (count : Nat) :
    scan buf count 0 = (copied buf count).length := by
  rw [scan_eq_length_trim, copied_eq_trim, List.drop_zero, Nat.zero_add]

theorem printable_copied {buf : List UInt8} {count : Nat}
    (noReset : buf.getD 0 0 ≠ '-'.toUInt8) :
    ({ path := copied buf count
       length := scan buf count 0 } : ValidPath).Printable := by
  refine ⟨?_, ?_, ?_, scan_eq_length buf count⟩
  · rw [copied_eq_trim]
    exact newline_not_mem_trim buf count
  · rw [copied_eq_trim]
    intro inside
    exact ne_zero_of_mem_trim inside rfl
  · rw [copied_eq_trim]
    intro dash
    exact noReset (head_of_trim dash)

theorem printable_writeValid {paths : List ValidPath}
    (printable : ∀ valid ∈ paths, valid.Printable) (euid : Nat)
    (buf : List UInt8) (count : Nat) (outcome : ValidOutcome) :
    ∀ valid ∈ (writeValid euid buf count outcome paths).2,
      valid.Printable := by
  simp only [writeValid]
  split
  · exact printable
  · split
    · intro valid inside
      rw [resetvalid_eq_nil] at inside
      cases inside
    · rename_i noReset
      split
      · simp only [addValidPath]
        split
        · intro valid inside
          rcases List.mem_append.mp inside with old | new
          · exact printable valid old
          · rw [List.mem_singleton.mp new]
            exact printable_copied noReset
        · exact printable
      · exact printable

theorem printable_of_run {state final : Sys} (sound : state.Sound)
    (printable : ∀ valid ∈ state.valid_paths, valid.Printable)
    {events : List Event}
    (finished : run Sys.step state events = some final) :
    ∀ valid ∈ final.valid_paths, valid.Printable := by
  have kept : final.Sound ∧ ∀ valid ∈ final.valid_paths,
      valid.Printable := by
    apply run_invariant _ finished
      (along_of_forall (fun _ _ => trivial) state events)
      ⟨sound, printable⟩
    intro state event next holds _ stepped
    have taken := (Sys.step_iff_taken holds.1.inRange).mp stepped
    refine ⟨holds.1.taken taken, ?_⟩
    cases taken with
    | writeValid euid buf count outcome =>
        exact printable_writeValid holds.2 euid buf count outcome
    | _ => exact holds.2
  exact kept.2

/-- Root writes a line to `/proc/chos/valid`, as `echo` does. -/
def echoed (line : Text) : Event :=
  .writeValid 0 (line ++ ['\n'.toUInt8]) (line.length + 1)
    { pathAlloc := true
      nodeAlloc := true }

/-- A dash, then the lines of an earlier output one by one. -/
def reloading (output : Text) : List Event :=
  echoed ['-'.toUInt8] :: (lines '\n'.toUInt8 output).map echoed

theorem lines_printValid {paths : List ValidPath}
    (printable : ∀ valid ∈ paths, valid.Printable) :
    lines '\n'.toUInt8 (printValid paths) = paths.map ValidPath.path := by
  induction paths with
  | nil => rfl
  | cons first paths induction =>
      have here := printable first List.mem_cons_self
      have later := induction fun valid inside =>
        printable valid (List.mem_cons_of_mem _ inside)
      have whole : cString first.path = first.path := by
        apply List.takeWhile_eq_self_iff.mpr
        intro byte inside
        have nonzero : byte ≠ 0 := by
          rintro rfl
          exact here.whole inside
        simpa using nonzero
      rw [printValid, whole, List.append_assoc, List.singleton_append,
        lines_append_newline here.oneLine, later, List.map_cons]

theorem writeValid_echoed {valid : ValidPath} (printable : valid.Printable)
    (paths : List ValidPath) :
    (writeValid 0 (valid.path ++ ['\n'.toUInt8]) (valid.path.length + 1)
      { pathAlloc := true, nodeAlloc := true } paths).2 =
        paths ++ [valid] := by
  have noReset : (valid.path ++ ['\n'.toUInt8]).getD 0 0 ≠
      '-'.toUInt8 := by
    have noReset := printable.noReset
    cases path : valid.path with
    | nil => decide
    | cons byte rest =>
        rw [path] at noReset
        intro dash
        exact noReset (congrArg some dash)
  have trimmed := trim_append_newline printable.oneLine printable.whole []
  rw [List.length_append, List.length_singleton] at trimmed
  have sameText : copied (valid.path ++ ['\n'.toUInt8])
      (valid.path.length + 1) = valid.path := by
    rw [copied_eq_trim]
    exact trimmed
  rw [writeValid, if_neg (not_not.mpr rfl), if_neg noReset, if_pos rfl,
    addValidPath, if_pos rfl, scan_eq_length, sameText,
    ← printable.measured]

theorem step_echoed (state : Sys) (line : Text) :
    state.step (echoed line) =
      some { state with
        valid_paths :=
          (writeValid 0 (line ++ ['\n'.toUInt8]) (line.length + 1)
            { pathAlloc := true, nodeAlloc := true }
            state.valid_paths).2 } := rfl

theorem run_echoed (state : Sys) {paths : List ValidPath}
    (printable : ∀ valid ∈ paths, valid.Printable) :
    run Sys.step state ((paths.map ValidPath.path).map echoed) =
      some { state with valid_paths := state.valid_paths ++ paths } := by
  induction paths generalizing state with
  | nil => simp
  | cons first paths induction =>
      have here := printable first List.mem_cons_self
      have later := fun valid inside =>
        printable valid (List.mem_cons_of_mem first inside)
      rw [List.map_cons, List.map_cons]
      apply run_cons_eq_some_iff.mpr
      refine ⟨_, step_echoed state first.path, ?_⟩
      rw [writeValid_echoed here, induction _ later]
      simp

/-- Whatever is on the list of valid paths, a reset and the lines that reading
it gave put it there again, in any state of the system and whatever was
listed before. -/
theorem reload_restores {pid_max : Nat} {tree : ProcTree}
    (below : ∀ task ∈ tree.tasks, task.pid < pid_max)
    {events : List Event} {final : Sys}
    (finished : run Sys.step (Sys.init pid_max tree) events = some final)
    (state : Sys) :
    run Sys.step state (reloading (printValid final.valid_paths)) =
      some { state with valid_paths := final.valid_paths } := by
  have printable := printable_of_run (Sys.init_sound below) (by simp [Sys.init])
    finished
  apply run_cons_eq_some_iff.mpr
  refine ⟨_, step_echoed state ['-'.toUInt8], ?_⟩
  have emptied : (writeValid 0 (['-'.toUInt8] ++ ['\n'.toUInt8]) 2
      { pathAlloc := true, nodeAlloc := true } state.valid_paths).2 = [] :=
    resetvalid_eq_nil state.valid_paths
  rw [List.length_singleton, emptied, lines_printValid printable,
    run_echoed _ printable]
  rfl

/-- The empty path and a doubled one come back as well. -/
theorem reload_restores_odd :
    ∃ final, run Sys.step (Sys.init 16 .boot)
        [.writeValid 0 [47, 97, 10] 3 ⟨true, true⟩,
          .writeValid 0 [10] 1 ⟨true, true⟩,
          .writeValid 0 [47, 97, 0, 98] 4 ⟨true, true⟩] = some final ∧
      final.valid_paths = [⟨[47, 97], 2⟩, ⟨[], 0⟩, ⟨[47, 97], 2⟩] ∧
      run Sys.step (Sys.init 32 .boot)
        (reloading (printValid final.valid_paths)) =
          some { Sys.init 32 .boot with valid_paths := final.valid_paths } := by
  have ends : (run Sys.step (Sys.init 16 .boot)
      [.writeValid 0 [47, 97, 10] 3 ⟨true, true⟩,
        .writeValid 0 [10] 1 ⟨true, true⟩,
        .writeValid 0 [47, 97, 0, 98] 4 ⟨true, true⟩]).any
      (fun final => final.valid_paths =
        [⟨[47, 97], 2⟩, ⟨[], 0⟩, ⟨[47, 97], 2⟩]) = true := by
    decide +kernel
  obtain ⟨final, finished, same⟩ := (Option.any_eq_true _ _).mp ends
  exact ⟨final, finished, of_decide_eq_true same,
    reload_restores (ProcTree.boot_below (by decide)) finished
      (Sys.init 32 .boot)⟩

end Chos.Kernel
