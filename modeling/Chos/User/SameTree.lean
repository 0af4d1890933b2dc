import Chos.User.Session

/-!
# The trees the programs select

A session from the child's choice to the string handed to the kernel, beside
what `main` of the `chos` utility selects from the same file: whether both
come to the same tree, and whether the exported name leads there again.
-/

namespace Chos.User

open Chos.Library
open Chos.Kernel

/-- The calls of the child before `get_chos_info`. -/
structure Drops where
  close : Bool
  setgroups : Bool
  setresgid : Bool
  setresuid : Bool

/-- What `wait` reports after `exit(-1)`. -/
def exitFailure : Int := 65280

/-- What `wait` reports after `SIGSEGV`. -/
def segmentationFault : Int := 11

/-- The branch of `pam_sm_open_session` in the child: the bytes it leaves on
the pipe and its status. -/
def childProcess (drops : Drops) (child : Child) : Text × Int :=
  if ¬ drops.close then ([], exitFailure)
  else if ¬ drops.setgroups then ([], exitFailure)
  else if ¬ drops.setresgid then ([], exitFailure)
  else if ¬ drops.setresuid then ([], exitFailure)
  else
    match getChosInfo child with
    | none => ([], segmentationFault)
    | some (ret, bytes) =>
        if ret ≠ 1 then (bytes, exitFailure) else (bytes, 0)

def Utility.defaultName : Text := ascii "default"

/-- The variable `os` of the utility's `main`, or the null pointer. -/
def Utility.os (conf : ConfFile) (osenv : CString) : Option Text :=
  match Utility.checkChos conf osenv.text with
  | some os => some os
  | none => if osenv.text = defaultName then none else some osenv.text

/-- A session for a user other than root: no call fails before `set_multi`,
and what comes from the pipe is what this child leaves there. -/
structure Calls.Serves (calls : Calls) (child : Child) : Prop where
  pam_get_user : calls.pam_get_user = true
  getpwnam : (calls.getpwnam.any (· ≠ 0)) = true
  pipe : calls.pipe = true
  fork : calls.fork = true
  close : calls.close = true
  fdopen : calls.fdopen = true
  fclose : calls.fclose = true
  left : (calls.bytes, calls.child_status) =
    childProcess ⟨true, true, true, true⟩ child

theorem Message.decode_path (message : Message)
    (env_path osenv : LineBuffer) :
    (decode env_path osenv message.encode).1 = 1 ∧
      (decode env_path osenv message.encode).2.1 =
        sanitized true (message.os.take (maxLine - 1)) := by
  rcases Nat.lt_or_ge message.os.length (maxLine - 1) with short | long
  · rw [message.decode_of_short short,
      List.take_of_length_le (Nat.le_of_lt short)]
    exact ⟨rfl, rfl⟩
  · rw [message.decode_of_long long]
    exact ⟨rfl, rfl⟩

namespace Calls.Serves

variable {calls : Calls} {child : Child} (serves : calls.Serves child)

include serves

variable {cfg : PamChosConfig} (works : child.Works cfg)

theorem left_of_found (found : ¬ child.Stranded cfg) :
    calls.bytes = (Child.message works).encode ∧ calls.child_status = 0 := by
  have left := serves.left
  simpa [childProcess, Child.getChosInfo_eq_encode works found] using left

theorem decoded (found : ¬ child.Stranded cfg) :
    decode calls.env_path calls.osenv (Child.message works).encode =
      (calls.retrieved.1, calls.path, calls.name) := by
  rw [← (serves.left_of_found works found).1]
  simp only [decode, path, name, retrieved, serves.fdopen, serves.fclose]

include works

theorem not_reaches (stranded : child.Stranded cfg) : ¬ calls.Reaches := by
  intro reaches
  have status := reaches.2.2.2.2.2.2
  have failed := congrArg Prod.snd serves.left
  rw [childProcess, Child.getChosInfo_of_works works, if_pos stranded]
    at failed
  exact absurd (status.symm.trans failed) (by decide)

theorem reaches (found : ¬ child.Stranded cfg) : calls.Reaches := by
  have read := (Child.message works).decode_path calls.env_path calls.osenv
  rw [serves.decoded works found] at read
  exact ⟨serves.pam_get_user, serves.getpwnam, serves.pipe, serves.fork,
    serves.close, read.1, (serves.left_of_found works found).2⟩

theorem path_eq (found : ¬ child.Stranded cfg) :
    calls.path = sanitized true ((child.path cfg).take (maxLine - 1)) := by
  have read := (Child.message works).decode_path calls.env_path calls.osenv
  rw [serves.decoded works found] at read
  exact read.2

theorem name_eq (found : ¬ child.Stranded cfg)
    (short : (child.path cfg).length < maxLine - 1) :
    calls.name = (child.name cfg).take (maxLine - 1) := by
  have read := (Child.message works).decode_of_short short calls.env_path
    calls.osenv
  rw [serves.decoded works found] at read
  exact congrArg (fun result => result.2.2) read

end Calls.Serves

theorem passed_eq {calls : Calls} {state : Sys} (inRange : state.InRange)
    {pid : Nat} {current : Task}
    (running : state.current pid = some current) (env : Environment) :
    ∃ session, pamSmOpenSession calls state pid env = some session ∧
      session.passed = if calls.Reaches then some calls.path else none := by
  by_cases reaches : calls.Reaches
  · rw [if_pos reaches]
    cases opened : calls.opened with
    | true =>
        exact ⟨_, pamSmOpenSession_eq reaches opened inRange running env,
          rfl⟩
    | false =>
        exact ⟨_, pamSmOpenSession_of_not_opened reaches opened state pid
          env, rfl⟩
  · rw [if_neg reaches]
    exact ⟨_, pamSmOpenSession_of_not_reaches reaches state pid env, rfl⟩

/-- The file, as the PAM module reads it, leads from the sanitized name to the
path: an entry's path comes to it, or the name itself is it. -/
def Leads (content name path : Text) : Prop :=
  match (confEntries (maxLine + 1) content).lookup (sanitized false name) with
  | some listed => sanitized true listed = path
  | none =>
      sanitized false name ≠ defaultEnvName ∧ sanitized false name = path

instance (content name path : Text) : Decidable (Leads content name path) :=
  match looked : (confEntries (maxLine + 1) content).lookup
      (sanitized false name) with
  | some listed =>
      decidable_of_iff (sanitized true listed = path) (by
        rw [Leads, looked])
  | none =>
      decidable_of_iff
        (sanitized false name ≠ defaultEnvName ∧
          sanitized false name = path) (by
            rw [Leads, looked])

theorem Utility.length_found {conf : ConfFile} {name : CString} {path : Text}
    (found : Utility.checkChos conf name.text = some path) :
    name.text.length < maxLine - 1 := by
  have fits := (checkChosIn_line found).1
  rw [name.cString_text] at fits
  omega

theorem Pam.checkChos_eq {conf : ConfFile} (usable : conf.Usable)
    {name : Text} (clean : Clean false name) :
    Pam.checkChos conf name =
      (confEntries (maxLine + 1) conf.content).lookup name := by
  rw [Pam.checkChos, checkChosIn_eq usable,
    cString_of_terminated clean.terminated]

theorem passed_of_leads_iff {child : Child} {cfg : PamChosConfig}
    (works : child.Works cfg) (option : cfg.fail_to_default = 0)
    {name : CString} (set : child.chos = some name) {path : Text}
    (found : Utility.checkChos child.conf name.text = some path)
    {calls : Calls} (serves : calls.Serves child) :
    (if calls.Reaches then some calls.path else none) = some path ↔
      Leads child.conf.content name.text path := by
  have usable := usable_of_checkChosIn found
  have short := Utility.length_found found
  have named : child.name cfg = sanitized false name.text := by
    have fits : name.text.length ≤ maxLine := by
      simp only [maxLine] at short ⊢
      omega
    simp [Child.name, set, fits]
  have clean := clean_sanitized false name.text
  have looked := Pam.checkChos_eq usable clean
  unfold Leads
  cases entry : (confEntries (maxLine + 1) child.conf.content).lookup
      (sanitized false name.text) with
  | some listed =>
      rw [entry] at looked
      have chosen : child.path cfg = listed := by
        simp [Child.path, named, looked]
      have notStranded : ¬ child.Stranded cfg := by
        simp [Child.Stranded, named, looked]
      have whole : listed.take (maxLine - 1) = listed :=
        List.take_of_length_le
          (Nat.le_pred_of_lt (Child.checkChos_plain looked).2.2)
      rw [if_pos (serves.reaches works notStranded),
        serves.path_eq works notStranded, chosen, whole, Option.some.injEq]
  | none =>
      rw [entry] at looked
      by_cases falls : sanitized false name.text = defaultEnvName
      · -- the default environment is looked up a second time
        have stranded : child.Stranded cfg := by
          refine ⟨by rw [named, looked], .inl (named.trans falls), ?_⟩
          rw [falls] at looked
          exact looked
        rw [if_neg (serves.not_reaches works stranded)]
        simp [falls]
      · have notStranded : ¬ child.Stranded cfg := by
          rintro ⟨_, default | one, _⟩
          · exact falls (named.symm.trans default)
          · rw [option] at one
            cases one
        have chosen : child.path cfg = sanitized false name.text := by
          simp [Child.path, named, looked, option, falls]
        have whole : (sanitized false name.text).take (maxLine - 1) =
            sanitized false name.text := by
          apply List.take_of_length_le
          have shorter := length_sanitized_le false name.text
          omega
        rw [if_pos (serves.reaches works notStranded),
          serves.path_eq works notStranded, chosen, whole,
          clean.toPath.sanitized, Option.some.injEq]
        simp [falls]

/-- A session passes to `set_multi` what the utility selects for the same
`$CHOS`, if and only if the sanitized name leads there in the file as the
module reads it. -/
theorem same_tree_iff {child : Child} {cfg : PamChosConfig}
    (works : child.Works cfg) (option : cfg.fail_to_default = 0)
    {name : CString} (set : child.chos = some name) {path : Text}
    (found : Utility.checkChos child.conf name.text = some path)
    {calls : Calls} (serves : calls.Serves child) {state : Sys}
    (inRange : state.InRange) {pid : Nat} {current : Task}
    (running : state.current pid = some current) (env : Environment) :
    Utility.os child.conf name = some path ∧
      ∃ session, pamSmOpenSession calls state pid env = some session ∧
        (session.passed = some path ↔
          Leads child.conf.content name.text path) := by
  refine ⟨by rw [Utility.os, found], ?_⟩
  obtain ⟨session, opened, passed⟩ := passed_eq inRange running env
  refine ⟨session, opened, ?_⟩
  rw [passed]
  exact passed_of_leads_iff works option set found serves

/-- The two versions of `check_chos` agree on files with lines that fit. -/
theorem checkChos_agree {conf : ConfFile}
    (short : ∀ line ∈ lines newline conf.content, line.length < maxLine)
    (name : Text) : Utility.checkChos conf name = Pam.checkChos conf name :=
  (checkChosIn_of_larger (by decide) (Nat.le_succ _) short name).symm

theorem leads_of_clean {conf : ConfFile} {name : CString} {path : Text}
    (found : Utility.checkChos conf name.text = some path)
    (short : ∀ line ∈ lines newline conf.content, line.length < maxLine)
    (cleanName : Clean false name.text) (cleanPath : Clean true path) :
    Leads conf.content name.text path := by
  have looked := (checkChos_agree short name.text).symm.trans found
  rw [Pam.checkChos_eq (usable_of_checkChosIn found) cleanName] at looked
  rw [Leads, cleanName.sanitized, looked]
  exact cleanPath.sanitized

def Calls.ofChild (child : Child) : Calls :=
  { Calls.succeed (childProcess ⟨true, true, true, true⟩ child).1 with
    child_status := (childProcess ⟨true, true, true, true⟩ child).2 }

theorem Calls.ofChild_serves (child : Child) :
    (Calls.ofChild child).Serves child :=
  ⟨rfl, rfl, rfl, rfl, rfl, rfl, rfl, rfl⟩

theorem same_tree_iff_local :
    ∃ session, pamSmOpenSession
        (.ofChild (.plain (ascii "%SHELLS\nlocal:/\n")
          (some ⟨ascii "local", by decide⟩)))
        (Sys.init 16 .boot) 1 (fun _ => none) = some session ∧
      session.passed = some (ascii "/") := by
  obtain ⟨_, session, opened, exactly⟩ := same_tree_iff
    (Child.plain_works (ascii "%SHELLS\nlocal:/\n")
      (some ⟨ascii "local", by decide⟩)) rfl rfl
    (by decide +kernel : Utility.checkChos _ _ = some (ascii "/"))
    (Calls.ofChild_serves _)
    (Sys.init_sound (ProcTree.boot_below (by decide))).inRange
    (rfl : (Sys.init 16 .boot).current 1 = some _) (fun _ => none)
  exact ⟨session, opened, exactly.mpr (by decide +kernel)⟩

/-- An alias that is a full path, as the comments of the sample configuration
have it: the utility selects the tree, the session asks for another. -/
theorem full_path_alias_differs :
    Utility.checkChos
        (Child.plain (ascii "%SHELLS\n/auto/redhat73:/auto/redhat73\n")
          (some ⟨ascii "/auto/redhat73", by decide⟩)).conf
        (ascii "/auto/redhat73") = some (ascii "/auto/redhat73") ∧
      ∃ session, pamSmOpenSession
          (.ofChild (.plain (ascii "%SHELLS\n/auto/redhat73:/auto/redhat73\n")
            (some ⟨ascii "/auto/redhat73", by decide⟩)))
          (Sys.init 16 .boot) 1 (fun _ => none) = some session ∧
        session.passed = some (ascii "_auto_redhat73") ∧
        session.passed ≠ some (ascii "/auto/redhat73") := by
  refine ⟨by decide +kernel, ?_⟩
  have ends : (pamSmOpenSession
      (.ofChild (.plain (ascii "%SHELLS\n/auto/redhat73:/auto/redhat73\n")
        (some ⟨ascii "/auto/redhat73", by decide⟩)))
      (Sys.init 16 .boot) 1 (fun _ => none)).any (fun session =>
        decide (session.passed = some (ascii "_auto_redhat73") ∧
          session.passed ≠ some (ascii "/auto/redhat73"))) = true := by
    decide +kernel
  obtain ⟨session, opened, passed⟩ := (Option.any_eq_true _ _).mp ends
  exact ⟨session, opened, of_decide_eq_true passed⟩

/-- The path comes from `check_chos`: it is that of the name, or that of the
default environment. -/
def Child.LooksUp (child : Child) (cfg : PamChosConfig) (path : Text) :
    Prop :=
  Pam.checkChos child.conf (child.name cfg) = some path ∨
    (Pam.checkChos child.conf (child.name cfg) = none ∧
      (child.name cfg = defaultEnvName ∨ cfg.fail_to_default = 1) ∧
      Pam.checkChos child.conf defaultEnvName = some path)

namespace Child.LooksUp

variable {child : Child} {cfg : PamChosConfig} {path : Text}
  (looks : child.LooksUp cfg path)

include looks

theorem path_eq : child.path cfg = path := by
  unfold Child.path
  rcases looks with listed | ⟨missing, falls, fallback⟩
  · rw [listed]
  · rw [missing, fallback]
    exact if_pos falls

theorem not_stranded : ¬ child.Stranded cfg := by
  rintro ⟨missing, _, missingDefault⟩
  rcases looks with listed | ⟨_, _, fallback⟩
  · rw [missing] at listed
    cases listed
  · rw [missingDefault] at fallback
    cases fallback

theorem length_path
    (short : ∀ line ∈ lines newline child.conf.content, line.length ≤ 78) :
    path.length < maxLine - 1 := by
  have fits : ∀ {name : Text},
      Pam.checkChos child.conf name = some path →
      path.length < maxLine - 1 := by
    intro name found
    rw [Pam.checkChos, @checkChosIn_of_larger 79 (maxLine + 1) child.conf
      (by decide) (by decide) fun line inside =>
        Nat.lt_succ_of_le (short line inside)] at found
    have room := (checkChosIn_line found).1
    simp only [maxLine] at room ⊢
    omega
  rcases looks with listed | ⟨_, _, fallback⟩
  · exact fits listed
  · exact fits fallback

end Child.LooksUp

/-- The exported name leads `check_chos` to the path again, if and only if the
name was not cut and is listed itself, or was cut to another alias of the
path. -/
theorem exported_name_iff {child : Child} {cfg : PamChosConfig}
    (works : child.Works cfg)
    (short : ∀ line ∈ lines newline child.conf.content, line.length ≤ 78)
    {path : Text} (looks : child.LooksUp cfg path) {calls : Calls}
    (serves : calls.Serves child) (opened : calls.opened = true)
    {state : Sys} (inRange : state.InRange) {pid : Nat} {current : Task}
    (running : state.current pid = some current) (env : Environment) :
    ∃ session value, pamSmOpenSession calls state pid env = some session ∧
      session.handed = some (ascii "CHOS=" ++ value) ∧
      (Utility.checkChos child.conf value = some path ↔
        ((child.name cfg).length ≤ 40 ∧
            (Pam.checkChos child.conf (child.name cfg)).isSome = true) ∨
          (40 < (child.name cfg).length ∧
            Pam.checkChos child.conf ((child.name cfg).take 40) =
              some path)) := by
  have found := looks.not_stranded
  have named : calls.name.take 40 = (child.name cfg).take 40 := by
    rw [serves.name_eq works found
      (by rw [looks.path_eq]; exact looks.length_path short), List.take_take]
    rfl
  refine ⟨_, calls.name.take 40,
    pamSmOpenSession_eq (serves.reaches works found) opened inRange running
      env, rfl, ?_⟩
  rw [named, checkChos_agree fun line inside =>
    Nat.lt_of_le_of_lt (short line inside) (by decide)]
  rcases Nat.lt_or_ge 40 (child.name cfg).length with long | fits
  · simp [long, Nat.not_le_of_lt long]
  · rw [List.take_of_length_le fits]
    simp only [fits, true_and, Nat.not_lt_of_le fits, false_and, or_false]
    constructor
    · intro listed
      rw [listed]
      rfl
    · intro listed
      obtain ⟨other, listed⟩ := Option.isSome_iff_exists.mp listed
      -- a name that is listed is not one that fell back
      rcases looks with same | ⟨missing, _⟩
      · exact same
      · rw [listed] at missing
        cases missing

theorem exported_name_iff_local :
    ∃ session value, pamSmOpenSession
        (.ofChild (.plain (ascii "%SHELLS\nlocal:/\n")
          (some ⟨ascii "local", by decide⟩)))
        (Sys.init 16 .boot) 1 (fun _ => none) = some session ∧
      session.handed = some (ascii "CHOS=" ++ value) ∧
      Utility.checkChos ⟨true, true, 0, ascii "%SHELLS\nlocal:/\n"⟩ value =
        some (ascii "/") := by
  obtain ⟨session, value, opened, handed, exactly⟩ := exported_name_iff
    (Child.plain_works (ascii "%SHELLS\nlocal:/\n")
      (some ⟨ascii "local", by decide⟩))
    (by decide +kernel)
    (.inl (by decide +kernel) : Child.LooksUp _ _ (ascii "/"))
    (Calls.ofChild_serves _) rfl
    (Sys.init_sound (ProcTree.boot_below (by decide))).inRange
    (rfl : (Sys.init 16 .boot).current 1 = some _) (fun _ => none)
  exact ⟨session, value, opened, handed, exactly.mpr (by decide +kernel)⟩

/-- An unknown name with `fail_to_default=1`: the session is in the default
environment, under a name that leads nowhere. -/
theorem fallback_exports_unknown_name :
    Child.LooksUp
        { Child.plain (ascii "%SHELLS\ndefault:/\n")
            (some ⟨ascii "gone", by decide⟩) with
          argv := [⟨ascii "fail_to_default=1", by decide⟩] }
        ⟨ascii ".chos", 1⟩ (ascii "/") ∧
      ∃ session, pamSmOpenSession
          (.ofChild
            { Child.plain (ascii "%SHELLS\ndefault:/\n")
                (some ⟨ascii "gone", by decide⟩) with
              argv := [⟨ascii "fail_to_default=1", by decide⟩] })
          (Sys.init 16 .boot) 1 (fun _ => none) = some session ∧
        session.passed = some (ascii "/") ∧
        session.handed = some (ascii "CHOS=gone") ∧
        Utility.checkChos
          ⟨true, true, 0, ascii "%SHELLS\ndefault:/\n"⟩ (ascii "gone") =
            none := by
  refine ⟨.inr (by decide +kernel), ?_⟩
  have ends : (pamSmOpenSession
      (.ofChild
        { Child.plain (ascii "%SHELLS\ndefault:/\n")
            (some ⟨ascii "gone", by decide⟩) with
          argv := [⟨ascii "fail_to_default=1", by decide⟩] })
      (Sys.init 16 .boot) 1 (fun _ => none)).any (fun session =>
        decide (session.passed = some (ascii "/") ∧
          session.handed = some (ascii "CHOS=gone"))) = true := by
    decide +kernel
  obtain ⟨session, opened, facts⟩ := (Option.any_eq_true _ _).mp ends
  obtain ⟨passed, handed⟩ := of_decide_eq_true facts
  exact ⟨session, opened, passed, handed, by decide +kernel⟩

end Chos.User
