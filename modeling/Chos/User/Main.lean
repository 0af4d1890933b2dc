import Chos.User.SameTree

/-!
# The `chos` utility

`main` of the utility from its arguments to `set_multi`: it runs with the
privileges of root, and what it writes to the kernel comes from `$CHOS` and
from `/etc/chos` without a sanitizer in between.
-/

namespace Chos.User

open Chos.Library
open Chos.Kernel

def maxOs : Nat := 80

def strncmpIsZero (left right : Text) (count : Nat) : Bool :=
  (cString left).take count = (cString right).take count

def argmatch (arg matched : Text) : Bool :=
  if arg.length < matched.length then false
  else strncmpIsZero arg matched matched.length

/-- `chos_parse_args`, without what it prints. -/
def chosParseArgs : List CString → Int
  | [_, arg] =>
      if argmatch arg.text (ascii "--version") then 0
      else if argmatch arg.text (ascii "--help") then 0
      else 1
  | _ => 1

/-- `get_multi` on a buffer of `MAX_OS` bytes; `link` is the text of
`/proc/chos/link`, if `readlink` succeeds.  A text that fills the buffer has
its NUL stored after the end of the buffer, which leaves the buffer as it
is. -/
def getMulti (link : Option Text) (os : Text) : Int × Text :=
  match link with
  | none => (-3, os)
  | some text =>
      let stored := text.take maxOs
      if stored.length < 1 then (-3, os)
      else (0, (stored ++ os.drop stored.length).set stored.length 0)

/-- What the calls of `main` give; `chos` is the local array, `linked` says
that `readlink` succeeds. -/
structure Utility.Calls where
  argv : List CString
  getenv : Option CString
  conf : ConfFile
  getpwuid : Bool
  chos : Text
  size : chos.length = maxOs
  linked : Bool
  opened : Bool
  capacity : Nat
  setchos : SetchosOutcome

def Utility.readlink (linked : Bool) (state : Sys) (pid : Nat) :
    Option (Option Text × Sys) :=
  if linked then
    (state.readlink pid).map fun (text, next) => (some text, next)
  else some (none, state)

/-- How `main` comes to `set_multi`: it returns before, or goes past it, or
passes a string to it. -/
inductive Utility.Request where
  | exit (code : Int)
  | skip
  | set (os : Text)

/-- The two tests before `set_multi`: the link can be read, and it is not the
requested one already. -/
def Utility.compare (calls : Utility.Calls) (state : Sys) (pid : Nat)
    (os : Text) : Option (Utility.Request × Sys) :=
  match Utility.readlink calls.linked state pid with
  | none => none
  | some (link, next) =>
      let (ret, chos) := getMulti link calls.chos
      if ret ≠ 0 then some (.exit (-3), next)
      else if strncmpIsZero chos os maxOs then some (.skip, next)
      else some (.set os, next)

/-- `main` up to the call of `set_multi`. -/
def Utility.request (calls : Utility.Calls) (state : Sys) (pid : Nat) :
    Option (Utility.Request × Sys) :=
  if chosParseArgs calls.argv = 0 then some (.exit 1, state)
  else
    match calls.getenv with
    | none => some (.exit (-2), state)
    | some osenv =>
        let os := Utility.os calls.conf osenv
        if ¬ calls.getpwuid then some (.exit (-2), state)
        else
          match os with
          | none => some (.skip, state)
          | some os => Utility.compare calls state pid os

/-- What `main` comes to before it drops its privileges: the value it returns,
if it does, the string passed to `set_multi`, and the state. -/
structure Utility.Run where
  exit : Option Int
  passed : Option Text
  sys : Sys

def Utility.main (calls : Utility.Calls) (state : Sys) (pid : Nat) :
    Option Utility.Run :=
  match Utility.request calls state pid with
  | none => none
  | some (.exit code, next) => some ⟨some code, none, next⟩
  | some (.skip, next) => some ⟨none, none, next⟩
  | some (.set os, next) =>
      match Utility.setMulti calls.opened calls.capacity next pid
          calls.setchos ⟨cString os, terminated_cString os⟩ with
      | none => none
      | some multi =>
          if multi.code ≠ 0 then some ⟨some (-3), some os, multi.sys⟩
          else some ⟨none, some os, multi.sys⟩

def Utility.Passes (calls : Utility.Calls) (state : Sys) (pid : Nat)
    (os : Text) : Prop :=
  ∃ next, Utility.request calls state pid = some (.set os, next)

theorem Utility.passed_iff_passes {calls : Utility.Calls} {state : Sys}
    {pid : Nat} {run : Utility.Run}
    (ended : Utility.main calls state pid = some run) (os : Text) :
    run.passed = some os ↔ Utility.Passes calls state pid os := by
  unfold main at ended
  unfold Passes
  cases requested : request calls state pid with
  | none => simp [requested] at ended
  | some found =>
      obtain ⟨asked, next⟩ := found
      cases asked with
      | exit code =>
          simp only [requested, Option.some.injEq] at ended
          simp [← ended]
      | skip =>
          simp only [requested, Option.some.injEq] at ended
          simp [← ended]
      | set text =>
          simp only [requested] at ended
          split at ended
          · cases ended
          · split at ended
            · cases ended
              simp
            · cases ended
              simp

/-- The text of the link is that of the string, as far as the buffer goes. -/
def AlreadyIn (link os : Text) : Prop :=
  cString (link.take maxOs) = os.take maxOs

instance (link os : Text) : Decidable (AlreadyIn link os) :=
  inferInstanceAs (Decidable (_ = _))

theorem Utility.os_terminated {conf : ConfFile} {name : CString}
    {os : Text} (selected : Utility.os conf name = some os) : 0 ∉ os := by
  unfold Utility.os at selected
  split at selected
  · rename_i path found
    cases selected
    exact (checkChosIn_line found).2.2
  · split at selected
    · cases selected
    · cases selected
      exact name.terminated

theorem getMulti_some {link : Text} (nonempty : link ≠ []) (chos : Text) :
    getMulti (some link) chos =
      (0, (link.take maxOs ++ chos.drop (link.take maxOs).length).set
        (link.take maxOs).length 0) := by
  have some := List.length_pos_iff.mpr nonempty
  have stored : ¬ (link.take maxOs).length < 1 := by
    rw [List.length_take, maxOs]
    omega
  simp only [getMulti, stored, if_false]

theorem getMulti_nil (chos : Text) : getMulti (some []) chos = (-3, chos) :=
  rfl

theorem take_cString_stored {stored : Text}
    (fits : stored.length ≤ maxOs) (chos : Text) :
    (cString ((stored ++ chos.drop stored.length).set stored.length
      0)).take maxOs = cString stored := by
  have short : (cString stored).length ≤ maxOs :=
    Nat.le_trans (length_cString_le stored) fits
  rw [List.set_append_right _ _ (Nat.le_refl _), Nat.sub_self]
  cases rest : chos.drop stored.length with
  | nil =>
      rw [List.set_nil, List.append_nil, List.take_of_length_le short]
  | cons c rest =>
      rw [List.set_cons_zero, cString_append_zero,
        List.take_of_length_le short]

theorem strncmpIsZero_getMulti {link os : Text} (nonempty : link ≠ [])
    (terminated : 0 ∉ os) (chos : Text) :
    strncmpIsZero (getMulti (some link) chos).2 os maxOs = true ↔
      AlreadyIn link os := by
  have fits : (link.take maxOs).length ≤ maxOs := List.length_take_le _ _
  rw [getMulti_some nonempty, strncmpIsZero, decide_eq_true_eq,
    take_cString_stored fits, cString_of_terminated terminated]
  rfl

namespace Utility

variable {calls : Calls} {state : Sys} {pid : Nat} {os : Text}

/-- What the two tests come to when the link can be read. -/
theorem compare_eq (terminated : 0 ∉ os) (linked : calls.linked = true)
    {link : Text} {next : Sys}
    (read : state.readlink pid = some (link, next)) :
    compare calls state pid os = some
      (if link = [] then .exit (-3)
        else if AlreadyIn link os then .skip else .set os, next) := by
  by_cases nothing : link = []
  · subst nothing
    simp [compare, readlink, linked, read, getMulti_nil]
  · have same := strncmpIsZero_getMulti nothing terminated calls.chos
    have zero : (getMulti (some link) calls.chos).1 = 0 := by
      rw [getMulti_some nothing]
    simp only [compare, readlink, linked, read, if_true, Option.map_some,
      zero, ne_eq, not_true_eq_false, if_false, same, nothing]
    split <;> rfl

theorem compare_eq_set_iff (terminated : 0 ∉ os) {text : Text}
    {next : Sys} :
    compare calls state pid os = some (.set text, next) ↔
      calls.linked = true ∧ text = os ∧
        ∃ link, state.readlink pid = some (link, next) ∧ link ≠ [] ∧
          ¬ AlreadyIn link os := by
  cases linked : calls.linked with
  | false => simp [compare, readlink, linked, getMulti]
  | true =>
      cases read : state.readlink pid with
      | none => simp [compare, readlink, linked, read]
      | some pair =>
          obtain ⟨link, after⟩ := pair
          rw [compare_eq terminated linked read]
          by_cases nothing : link = []
          · simp [nothing]
          · by_cases already : AlreadyIn link os
            · simp [nothing, already]
            · simp only [nothing, already, if_false]
              constructor
              · intro asked
                cases asked
                exact ⟨trivial, rfl, link, rfl, nothing, already⟩
              · rintro ⟨_, rfl, other, asked, _⟩
                cases asked
                rfl

theorem passes_iff :
    Passes calls state pid os ↔
      chosParseArgs calls.argv ≠ 0 ∧ calls.getpwuid = true ∧
        calls.linked = true ∧
        ∃ name link next, calls.getenv = some name ∧
          Utility.os calls.conf name = some os ∧
          state.readlink pid = some (link, next) ∧ link ≠ [] ∧
          ¬ AlreadyIn link os := by
  unfold Passes request
  by_cases args : chosParseArgs calls.argv = 0
  · simp [args]
  · simp only [args, if_false, ne_eq, not_false_eq_true, true_and]
    cases set : calls.getenv with
    | none => simp
    | some name =>
        cases known : calls.getpwuid with
        | false => simp
        | true =>
            cases selected : Utility.os calls.conf name with
            | none => simp [selected]
            | some path =>
                have terminated := os_terminated selected
                simp only [not_true_eq_false, if_false, selected,
                  compare_eq_set_iff terminated]
                constructor
                · rintro ⟨next, linked, rfl, link, read, facts⟩
                  exact ⟨trivial, linked, name, link, next, rfl, selected,
                    read, facts⟩
                · rintro ⟨_, linked, _, link, next, ⟨⟩, same, read, facts⟩
                  cases selected.symm.trans same
                  exact ⟨next, linked, rfl, link, read, facts⟩

def listed (conf : ConfFile) (name : CString) : Option Text :=
  if conf.Usable then (confEntries maxLine conf.content).lookup name.text
  else none

theorem checkChos_eq_listed (conf : ConfFile) (name : CString) :
    Utility.checkChos conf name.text = listed conf name := by
  by_cases usable : conf.Usable
  · rw [listed, if_pos usable, checkChos, checkChosIn_eq usable,
      name.cString_text]
  · rw [listed, if_neg usable]
    cases found : Utility.checkChos conf name.text with
    | none => rfl
    | some path => exact absurd (usable_of_checkChosIn found) usable

/-- The listed path has no `%`, nor has a name that is not listed, or the
process is where the string leads. -/
def HarmlessName (conf : ConfFile) (name : CString) (link : Text) : Prop :=
  match listed conf name with
  | some path => '%'.toUInt8 ∉ path ∨ AlreadyIn link path
  | none =>
      name.text = defaultName ∨ '%'.toUInt8 ∉ name.text ∨
        AlreadyIn link name.text

theorem harmlessName_iff (conf : ConfFile) (name : CString) (link : Text) :
    HarmlessName conf name link ↔
      ∀ os, Utility.os conf name = some os → ¬ AlreadyIn link os →
        '%'.toUInt8 ∉ os := by
  have same := checkChos_eq_listed conf name
  unfold HarmlessName Utility.os
  cases entry : listed conf name with
  | some path =>
      rw [entry] at same
      simp only [same, Option.some.injEq, forall_eq']
      exact or_iff_not_imp_right
  | none =>
      rw [entry] at same
      by_cases default : name.text = defaultName
      · rw [default] at same
        simp [default, same]
      · simp only [same, default, if_false, false_or, Option.some.injEq,
          forall_eq']
        exact or_iff_not_imp_right

/-- `main` does not come to `set_multi`, or the name is harmless. -/
def Harmless (calls : Calls) (state : Sys) (pid : Nat) : Prop :=
  chosParseArgs calls.argv = 0 ∨ calls.getpwuid = false ∨
    calls.linked = false ∨
    ∀ name link next, calls.getenv = some name →
      state.readlink pid = some (link, next) → link ≠ [] →
        HarmlessName calls.conf name link

theorem passes_printsItself_iff (calls : Calls) (state : Sys) (pid : Nat) :
    (∀ os, Passes calls state pid os → PrintsItself os) ↔
      Harmless calls state pid := by
  simp only [passes_iff, printsItself_iff]
  constructor
  · intro literal
    by_cases args : chosParseArgs calls.argv = 0
    · exact Or.inl args
    · cases known : calls.getpwuid with
      | false => exact Or.inr (Or.inl known)
      | true =>
          cases linked : calls.linked with
          | false => exact Or.inr (Or.inr (Or.inl linked))
          | true =>
              right; right; right
              intro name link next set read nonempty
              rw [harmlessName_iff]
              intro os selected other
              exact literal os ⟨args, known, linked, name, link, next, set,
                selected, read, nonempty, other⟩
  · rintro harmless os ⟨args, known, linked, name, link, next, set,
      selected, read, nonempty, other⟩
    rcases harmless with noArgs | unknown | unlinked | harmless
    · exact absurd noArgs args
    · rw [known] at unknown
      cases unknown
    · rw [linked] at unlinked
      cases unlinked
    · have name_harmless := harmless name link next set read nonempty
      exact (harmlessName_iff calls.conf name link).mp name_harmless os
        selected other

end Utility

/-- What the module passes to `set_multi` is never a format, and what the
utility passes is none if and only if the request is harmless. -/
theorem user_text_prints_itself_iff {state : Sys} (inRange : state.InRange)
    {pid : Nat} {current : Task}
    (running : state.current pid = some current) (session : Calls)
    (env : Environment) (calls : Utility.Calls) :
    (∃ ended, pamSmOpenSession session state pid env = some ended ∧
        ∀ os, ended.passed = some os → PrintsItself os) ∧
      ((∀ os, Utility.Passes calls state pid os → PrintsItself os) ↔
        Utility.Harmless calls state pid) := by
  refine ⟨?_, Utility.passes_printsItself_iff calls state pid⟩
  obtain ⟨ended, opened, passed⟩ := @passed_eq session state inRange pid
    current running env
  refine ⟨ended, opened, ?_⟩
  intro os given
  rw [passed] at given
  split at given
  · rename_i reaches
    cases given
    rw [printsItself_iff]
    exact Calls.path_noFormat reaches.2.2.2.2.2.1
  · cases given

def Utility.Calls.plain (program name : CString) (content : Text) :
    Utility.Calls where
  argv := [program]
  getenv := some name
  conf := ⟨true, true, 0, content⟩
  getpwuid := true
  chos := List.replicate maxOs 0
  size := List.length_replicate
  linked := true
  opened := true
  capacity := 1024
  setchos := ⟨true, true, true, .other 0⟩

/-- A process at the root environment asks for a tree of the file. -/
theorem user_text_prints_itself_iff_listed :
    (∃ ended, pamSmOpenSession
        (.ofChild (.plain (ascii "%SHELLS\nold:/x\n")
          (some ⟨ascii "old", by decide⟩)))
        (Sys.init 16 .boot) 1 (fun _ => none) = some ended ∧
      ∀ os, ended.passed = some os → PrintsItself os) ∧
    Utility.Passes (.plain ⟨ascii "chos", by decide⟩ ⟨ascii "old", by decide⟩
      (ascii "%SHELLS\nold:/x\n")) (Sys.init 16 .boot) 1 (ascii "/x") ∧
    PrintsItself (ascii "/x") := by
  have passes : Utility.Passes (.plain ⟨ascii "chos", by decide⟩
      ⟨ascii "old", by decide⟩ (ascii "%SHELLS\nold:/x\n"))
      (Sys.init 16 .boot) 1 (ascii "/x") := by
    rw [Utility.passes_iff]
    exact ⟨by decide, rfl, rfl, _, ascii "/", _, rfl, by decide +kernel,
      rfl, by decide, by decide +kernel⟩
  obtain ⟨session, utility⟩ := user_text_prints_itself_iff
    (Sys.init_sound (ProcTree.boot_below (by decide))).inRange
    (rfl : (Sys.init 16 .boot).current 1 = some _)
    (.ofChild (.plain (ascii "%SHELLS\nold:/x\n")
      (some ⟨ascii "old", by decide⟩)))
    (fun _ => none)
    (.plain ⟨ascii "chos", by decide⟩ ⟨ascii "old", by decide⟩
      (ascii "%SHELLS\nold:/x\n"))
  refine ⟨session, passes, utility.mpr ?_ _ passes⟩
  refine Or.inr (Or.inr (Or.inr ?_))
  rintro name link next ⟨⟩ read nonempty
  have entry : Utility.listed ⟨true, true, 0, ascii "%SHELLS\nold:/x\n"⟩
      ⟨ascii "old", by decide⟩ = some (ascii "/x") := by decide +kernel
  have harmless : Utility.HarmlessName
      ⟨true, true, 0, ascii "%SHELLS\nold:/x\n"⟩ ⟨ascii "old", by decide⟩
      link := by
    rw [Utility.HarmlessName, entry]
    exact Or.inl (by decide)
  exact harmless

/-- `CHOS=%n` where no entry has that name: the name is the format. -/
theorem unlisted_name_is_format :
    Utility.Passes (.plain ⟨ascii "chos", by decide⟩ ⟨ascii "%n", by decide⟩
        (ascii "%SHELLS\nlocal:/\n")) (Sys.init 16 .boot) 1 (ascii "%n") ∧
      '%'.toUInt8 ∈ ascii "%n" ∧ formatted (ascii "%n") = none ∧
      ¬ ∀ os, Utility.Passes
        (.plain ⟨ascii "chos", by decide⟩ ⟨ascii "%n", by decide⟩
          (ascii "%SHELLS\nlocal:/\n")) (Sys.init 16 .boot) 1 os →
        PrintsItself os := by
  have passes : Utility.Passes
      (.plain ⟨ascii "chos", by decide⟩ ⟨ascii "%n", by decide⟩
        (ascii "%SHELLS\nlocal:/\n")) (Sys.init 16 .boot) 1
      (ascii "%n") := by
    rw [Utility.passes_iff]
    exact ⟨by decide, rfl, rfl, _, ascii "/", _, rfl, by decide +kernel,
      rfl, by decide, by decide +kernel⟩
  have percent : '%'.toUInt8 ∈ ascii "%n" := by decide
  refine ⟨passes, percent, by decide, ?_⟩
  intro literal
  exact (literal _ passes).noFormat percent

end Chos.User
