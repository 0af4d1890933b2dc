import Chos.User.Strings
import Chos.Kernel.OwnEntry

/-!
# Setting the link

`set_multi` writes a path to `/proc/chos/setchos` through a buffered stream:
the text waits in the buffer until `fclose` hands it to `write_setchos`.  The
functions of the two programs differ in where they report an error only.
-/

namespace Chos.User

open Chos.Library
open Chos.Kernel

structure Stream where
  capacity : Nat
  held : Text

/-- What a format without arguments prints: `%%` is a `%`.  `none` stands for
a conversion that asks for an argument, and for one that is not complete. -/
def formatted : Text → Option Text
  | [] => some []
  | c :: format =>
      if c = '%'.toUInt8 then
        match format with
        | [] => none
        | conversion :: format =>
            if conversion = '%'.toUInt8 then
              (formatted format).map ('%'.toUInt8 :: ·)
            else none
      else (formatted format).map (c :: ·)

/-- `fprintf(stream, format)`: a text that fits is kept, and its length is
returned.  `none` stands for a format that asks for arguments, and for a text
the buffer cannot hold. -/
def Stream.fprintf (stream : Stream) (format : CString) :
    Option (Int × Stream) :=
  match formatted format.text with
  | none => none
  | some text =>
      if stream.capacity < stream.held.length + text.length then none
      else some (text.length, { stream with held := stream.held ++ text })

/-- `fclose(stream)`: the value it returns, the bytes `write_setchos` received
with its answer, and the state.  An empty buffer is not written. -/
def Stream.fclose (stream : Stream) (state : Sys) (pid : Nat)
    (outcome : SetchosOutcome) :
    Option (Int × Option (Text × Except Errno Nat) × Sys) :=
  if stream.held = [] then some (0, none, state)
  else
    match state.setchos pid stream.held stream.held.length outcome with
    | none => none
    | some (.ok count, next) =>
        some (0, some (stream.held, .ok count), next)
    | some (.error errno, next) =>
        some (-1, some (stream.held, .error errno), next)

/-- What a call of `set_multi` comes to. -/
structure SetMulti where
  code : Int
  received : Option (Text × Except Errno Nat)
  sys : Sys

def setMulti (opened : Bool) (capacity : Nat) (state : Sys) (pid : Nat)
    (outcome : SetchosOutcome) (os : CString) : Option SetMulti :=
  if ¬ opened then some ⟨-3, none, state⟩
  else
    match Stream.fprintf ⟨capacity, []⟩ os with
    | none => none
    | some (ret, stream) =>
        if ret = -1 then some ⟨-3, none, state⟩
        else
          -- the value of `fclose` is not looked at
          match stream.fclose state pid outcome with
          | none => none
          | some (_, received, next) => some ⟨0, received, next⟩

def Utility.setMulti (opened : Bool) (capacity : Nat) (state : Sys)
    (pid : Nat) (outcome : SetchosOutcome) (os : CString) :
    Option SetMulti :=
  User.setMulti opened capacity state pid outcome os

def Pam.setMulti (opened : Bool) (capacity : Nat) (state : Sys)
    (pid : Nat) (outcome : SetchosOutcome) (os : CString) :
    Option SetMulti :=
  User.setMulti opened capacity state pid outcome os

/-- The state after `write_setchos` was called with a text. -/
def written (state : Sys) (pid : Nat) (current : Task)
    (outcome : SetchosOutcome) (text : Text) : Sys :=
  { state with
    table := setchosTable state.tree state.valid_paths current text
      text.length outcome state.table
    tree := state.tree.setRoot pid
      (setchosRoot state.valid_paths current text text.length outcome) }

theorem formatted_cons {c : UInt8} (plain : c ≠ '%'.toUInt8)
    (format : Text) :
    formatted (c :: format) = (formatted format).map (c :: ·) := by
  cases format <;> simp [formatted, plain]

theorem length_formatted {format text : Text}
    (printed : formatted format = some text) :
    text.length ≤ format.length ∧
      ('%'.toUInt8 ∈ format → text.length < format.length) := by
  induction format using formatted.induct generalizing text with
  | case1 =>
      cases printed
      simp
  | case2 => simp [formatted] at printed
  | case3 rest induction =>
      simp only [formatted, if_true, Option.map_eq_some_iff] at printed
      obtain ⟨shorter, printed, rfl⟩ := printed
      have less := (induction printed).1
      simp only [List.length_cons]
      omega
  | case4 conversion rest other => simp [formatted, other] at printed
  | case5 c rest other induction =>
      rw [formatted_cons other, Option.map_eq_some_iff] at printed
      obtain ⟨shorter, printed, rfl⟩ := printed
      obtain ⟨most, less⟩ := induction printed
      refine ⟨Nat.succ_le_succ most, fun inside => ?_⟩
      rcases List.mem_cons.mp inside with same | inRest
      · exact absurd same.symm other
      · exact Nat.succ_lt_succ (less inRest)

theorem formatted_eq_self_iff (format : Text) :
    formatted format = some format ↔ '%'.toUInt8 ∉ format := by
  constructor
  · intro printed inside
    exact Nat.lt_irrefl _ ((length_formatted printed).2 inside)
  · intro plain
    induction format with
    | nil => rfl
    | cons c format induction =>
        rw [List.mem_cons, not_or] at plain
        rw [formatted_cons (Ne.symm plain.1), induction plain.2]
        rfl

theorem Stream.fprintf_eq {stream : Stream} {format : CString}
    (noFormat : '%'.toUInt8 ∉ format.text)
    (room : stream.held.length + format.text.length ≤ stream.capacity) :
    stream.fprintf format = some ((format.text.length : Int),
      { stream with held := stream.held ++ format.text }) := by
  rw [fprintf, (formatted_eq_self_iff _).mpr noFormat]
  exact if_neg (Nat.not_lt_of_le room)

/-- The text may stand for a format: it has no `%`, and `fprintf` writes it
and nothing else. -/
structure PrintsItself (os : Text) : Prop where
  noFormat : '%'.toUInt8 ∉ os
  printed : ∀ (terminated : 0 ∉ os) (stream : Stream),
    stream.held.length + os.length ≤ stream.capacity →
      stream.fprintf ⟨os, terminated⟩ = some ((os.length : Int),
        { stream with held := stream.held ++ os })

theorem printsItself_iff (os : Text) :
    PrintsItself os ↔ '%'.toUInt8 ∉ os := by
  constructor
  · exact PrintsItself.noFormat
  · intro noFormat
    refine ⟨noFormat, ?_⟩
    intro terminated stream room
    exact Stream.fprintf_eq noFormat room

theorem copied_of_plain {text : Text} (plain : newline ∉ text)
    (terminated : 0 ∉ text) : copied text text.length = text := by
  rw [copied_eq_trim]
  exact trim_of_plain plain terminated

section

variable {state : Sys} (inRange : state.InRange) {pid : Nat}
  {current : Task} (running : state.current pid = some current)

include inRange running

theorem fclose_eq (capacity : Nat) (outcome : SetchosOutcome) {held : Text}
    (nonempty : held ≠ []) :
    ∃ ret : Int, Stream.fclose ⟨capacity, held⟩ state pid outcome =
      some (ret, some (held, setchosResult state.valid_paths held held.length
        outcome), written state pid current outcome held) := by
  have wrote := Sys.setchos_eq inRange running held held.length outcome
  rw [Stream.fclose, if_neg nonempty]
  dsimp only
  rw [wrote]
  cases setchosResult state.valid_paths held held.length outcome with
  | ok count => exact ⟨0, rfl⟩
  | error errno => exact ⟨-1, rfl⟩

/-- The stream was opened: the call succeeds whatever the kernel answers. -/
theorem setMulti_eq {capacity : Nat} {os : CString}
    (noFormat : '%'.toUInt8 ∉ os.text)
    (fits : os.text.length ≤ capacity) (outcome : SetchosOutcome) :
    setMulti true capacity state pid outcome os =
      if os.text = [] then some ⟨0, none, state⟩
      else
        some ⟨0, some (os.text, setchosResult state.valid_paths os.text
          os.text.length outcome),
          written state pid current outcome os.text⟩ := by
  have kept : Stream.fprintf ⟨capacity, []⟩ os =
      some ((os.text.length : Int), Stream.mk capacity os.text) := by
    apply Stream.fprintf_eq noFormat
    simpa using fits
  have counted : ((os.text.length : Nat) : Int) ≠ -1 := by
    omega
  simp only [setMulti, kept, not_true_eq_false, if_false, counted]
  by_cases empty : os.text = []
  · simp [Stream.fclose, empty]
  · obtain ⟨ret, closed⟩ := fclose_eq inRange running capacity outcome empty
    simp only [closed, empty, if_false]

end

/-- The call reports success exactly when the kernel received the path and
accepted it. -/
def SetMulti.Reports (result : Option SetMulti) (os : CString) : Prop :=
  ∃ call, result = some call ∧
    (call.code = 0 ↔ call.received = some (os.text, .ok os.text.length))

theorem setchosResult_eq_ok_iff {paths : List ValidPath} {text : Text}
    (plain : newline ∉ text) (terminated : 0 ∉ text)
    {outcome : SetchosOutcome} :
    setchosResult paths text text.length outcome = .ok text.length ↔
      outcome.textAlloc = true ∧ accepts paths text = true := by
  constructor
  · intro returned
    have accepted := Sys.accepts_of_setchosResult returned
    rwa [copied_of_plain plain terminated] at accepted
  · rintro ⟨allocated, accepted⟩
    simp [setchosResult, allocated, copied_of_plain plain terminated,
      accepted]

theorem setMulti_reports_iff {state : Sys} (inRange : state.InRange)
    {pid : Nat} {current : Task}
    (running : state.current pid = some current) {capacity : Nat}
    {os : CString} (nonempty : os.text ≠ [])
    (noFormat : '%'.toUInt8 ∉ os.text) (plain : newline ∉ os.text)
    (fits : os.text.length ≤ capacity) (opened : Bool)
    (outcome : SetchosOutcome) :
    SetMulti.Reports (setMulti opened capacity state pid outcome os) os ↔
      (opened = true →
        outcome.textAlloc = true ∧
          accepts state.valid_paths os.text = true) := by
  cases opened with
  | false =>
      have refused : setMulti false capacity state pid outcome os =
          some ⟨-3, none, state⟩ := rfl
      rw [refused]
      simp [SetMulti.Reports]
  | true =>
      rw [setMulti_eq inRange running noFormat fits, if_neg nonempty,
        ← setchosResult_eq_ok_iff plain os.terminated]
      simp [SetMulti.Reports]

/-- Both versions report success exactly when the kernel received the path and
accepted it, if and only if the stream does not open or the kernel accepts the
path. -/
theorem set_multi_success_iff {state : Sys} (inRange : state.InRange)
    {pid : Nat} {current : Task}
    (running : state.current pid = some current) {capacity : Nat}
    {os : CString} (nonempty : os.text ≠ [])
    (noFormat : '%'.toUInt8 ∉ os.text) (plain : newline ∉ os.text)
    (fits : os.text.length ≤ capacity) (opened : Bool)
    (outcome : SetchosOutcome) :
    (SetMulti.Reports
        (Utility.setMulti opened capacity state pid outcome os) os ↔
      (opened = true →
        outcome.textAlloc = true ∧
          accepts state.valid_paths os.text = true)) ∧
    (SetMulti.Reports
        (Pam.setMulti opened capacity state pid outcome os) os ↔
      (opened = true →
        outcome.textAlloc = true ∧
          accepts state.valid_paths os.text = true)) := by
  have both := setMulti_reports_iff inRange running nonempty noFormat plain
    fits opened outcome
  exact ⟨both, both⟩

theorem set_multi_success_iff_root :
    SetMulti.Reports
        (Utility.setMulti true 1024 (Sys.init 16 .boot) 1
          ⟨true, true, true, .other 0⟩ ⟨ascii "/", by decide⟩)
        ⟨ascii "/", by decide⟩ ∧
      SetMulti.Reports
        (Pam.setMulti true 1024 (Sys.init 16 .boot) 1
          ⟨true, true, true, .other 0⟩ ⟨ascii "/", by decide⟩)
        ⟨ascii "/", by decide⟩ := by
  have both := @set_multi_success_iff (Sys.init 16 .boot)
    (Sys.init_sound (ProcTree.boot_below (by decide))).inRange 1 _ rfl 1024
    ⟨ascii "/", by decide⟩ (by decide) (by decide) (by decide) (by decide)
    true ⟨true, true, true, .other 0⟩
  exact ⟨both.1.mpr fun _ => by decide, both.2.mpr fun _ => by decide⟩

/-- A path that no one listed: the kernel answers `-ENOENT`, and `set_multi`
returns 0. -/
theorem set_multi_hides_rejection :
    (∃ call, Utility.setMulti true 1024 (Sys.init 16 .boot) 1
        ⟨true, true, true, .other 0⟩ ⟨ascii "/a", by decide⟩ = some call ∧
      call.code = 0 ∧ call.received = some (ascii "/a", .error .ENOENT) ∧
      ¬ (call.code = 0 ↔ call.received = some (ascii "/a", .ok 2))) ∧
    (∃ call, Pam.setMulti true 1024 (Sys.init 16 .boot) 1
        ⟨true, true, true, .other 0⟩ ⟨ascii "/a", by decide⟩ = some call ∧
      call.code = 0 ∧ call.received = some (ascii "/a", .error .ENOENT) ∧
      ¬ (call.code = 0 ↔ call.received = some (ascii "/a", .ok 2))) := by
  refine ⟨⟨_, rfl, rfl, ?_, ?_⟩, ⟨_, rfl, rfl, ?_, ?_⟩⟩ <;> decide

end Chos.User
