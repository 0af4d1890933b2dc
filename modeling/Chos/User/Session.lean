import Chos.User.Pipe
import Chos.User.SetMulti
import Chos.Kernel.Agreement

/-!
# Opening a session

`pam_sm_open_session` in the parent: it learns path and name from its child,
writes the path to the kernel and exports the name.  The state it starts from
is the one it finds once the child is gone; nothing before that concerns the
link.
-/

namespace Chos.User

open Chos.Library
open Chos.Kernel

/-- `PAM_SUCCESS`, which is also `ONERR`. -/
def pamSuccess : Int := 0

/-- The environment PAM keeps for the user. -/
abbrev Environment := Text → Option Text

/-- What the calls of `pam_sm_open_session` give, in the order they are made;
`env_path` and `osenv` are the local arrays, and the buffer of the stream in
`set_multi` has room for a line. -/
structure Calls where
  pam_get_user : Bool
  getpwnam : Option Nat
  pipe : Bool
  fork : Bool
  close : Bool
  env_path : LineBuffer
  osenv : LineBuffer
  fdopen : Bool
  bytes : Text
  fclose : Bool
  child_status : Int
  opened : Bool
  capacity : Nat
  room : maxLine ≤ capacity
  setchos : SetchosOutcome
  pam_putenv : Bool

/-- What a call of `pam_sm_open_session` comes to: its value, the string
passed to `set_multi`, the one handed to `pam_putenv`, whether this one was
put into the environment, and both states. -/
structure Session where
  code : Int
  passed : Option Text
  handed : Option Text
  put : Bool
  sys : Sys
  env : Environment

/-- `pam_putenv`: `NAME=value` sets a variable, `NAME` removes it. -/
def pamPutenv (name_value : Text) (env : Environment) : Environment :=
  let name := name_value.takeWhile (· ≠ '='.toUInt8)
  match name_value.dropWhile (· ≠ '='.toUInt8) with
  | [] => Function.update env name none
  | _ :: value => Function.update env name (some value)

/-- `"CHOS=%.40s"`. -/
def formatEnvvar (osenv : Text) : Text :=
  ascii "CHOS=" ++ osenv.take 40

/-- The end of `pam_sm_open_session`, from the two sanitized buffers on. -/
def enterSession (calls : Calls) (state : Sys) (pid : Nat)
    (env : Environment) (env_path osenv : Text) : Option Session :=
  match Pam.setMulti calls.opened calls.capacity state pid calls.setchos
      ⟨cString env_path, terminated_cString env_path⟩ with
  | none => none
  | some multi =>
      let passed := some (cString env_path)
      if multi.code ≠ 0 then
        some ⟨pamSuccess, passed, none, false, multi.sys, env⟩
      else
        let ret := (formatEnvvar (cString osenv)).length
        let envvar := (formatEnvvar (cString osenv)).take maxLine
        if ret < 1 then
          some ⟨pamSuccess, passed, none, false, multi.sys, env⟩
        else if ret > maxLen + 1 then
          some ⟨-1, passed, none, false, multi.sys, env⟩
        else if calls.pam_putenv then
          some ⟨pamSuccess, passed, some envvar, true, multi.sys,
            pamPutenv envvar env⟩
        else some ⟨pamSuccess, passed, some envvar, false, multi.sys, env⟩

/-- `pam_sm_open_session` of the process `pid`. -/
def pamSmOpenSession (calls : Calls) (state : Sys) (pid : Nat)
    (env : Environment) : Option Session :=
  let idle : Session := ⟨pamSuccess, none, none, false, state, env⟩
  if ¬ calls.pam_get_user then some idle
  else
    match calls.getpwnam with
    | none => some idle
    | some pw_uid =>
        if pw_uid = 0 then some idle
        else if ¬ calls.pipe then some idle
        else if ¬ calls.fork then some idle
        else if ¬ calls.close then some idle
        else
          let (ret, env_path, osenv) := retrieveFromChild calls.fdopen
            calls.fclose calls.env_path.bytes calls.osenv.bytes calls.bytes
          if ret ≠ 1 then some idle
          else if calls.child_status ≠ 0 then some idle
          else
            enterSession calls state pid env
              (sanitizePath env_path (maxLine + 1)).2
              (sanitizeName osenv (maxLine + 1)).2

namespace Calls

def retrieved (calls : Calls) : Int × Text × Text :=
  retrieveFromChild calls.fdopen calls.fclose calls.env_path.bytes
    calls.osenv.bytes calls.bytes

def path (calls : Calls) : Text :=
  cString (sanitizePath calls.retrieved.2.1 (maxLine + 1)).2

def name (calls : Calls) : Text :=
  cString (sanitizeName calls.retrieved.2.2 (maxLine + 1)).2

def Reaches (calls : Calls) : Prop :=
  calls.pam_get_user = true ∧ (calls.getpwnam.any (· ≠ 0)) = true ∧
    calls.pipe = true ∧ calls.fork = true ∧ calls.close = true ∧
    calls.retrieved.1 = 1 ∧ calls.child_status = 0

instance (calls : Calls) : Decidable calls.Reaches :=
  inferInstanceAs (Decidable (_ ∧ _ ∧ _ ∧ _ ∧ _ ∧ _ ∧ _))

end Calls

theorem pamSmOpenSession_of_reaches {calls : Calls}
    (reaches : calls.Reaches) (state : Sys) (pid : Nat)
    (env : Environment) :
    pamSmOpenSession calls state pid env =
      enterSession calls state pid env
        (sanitizePath calls.retrieved.2.1 (maxLine + 1)).2
        (sanitizeName calls.retrieved.2.2 (maxLine + 1)).2 := by
  obtain ⟨user, passwd, piped, forked, closed, returned, status⟩ := reaches
  unfold Calls.retrieved at returned ⊢
  cases known : calls.getpwnam with
  | none => simp [known] at passwd
  | some pw_uid =>
      have other : pw_uid ≠ 0 := by simpa [known] using passwd
      simp [pamSmOpenSession, user, known, other, piped, forked, closed,
        returned, status]

theorem pamSmOpenSession_of_not_reaches {calls : Calls}
    (stops : ¬ calls.Reaches) (state : Sys) (pid : Nat)
    (env : Environment) :
    pamSmOpenSession calls state pid env =
      some ⟨pamSuccess, none, none, false, state, env⟩ := by
  unfold Calls.Reaches Calls.retrieved at stops
  by_cases user : calls.pam_get_user = true
  · cases known : calls.getpwnam with
    | none => simp [pamSmOpenSession, user, known]
    | some pw_uid =>
        simp only [pamSmOpenSession, user, known, not_true_eq_false,
          if_false]
        split_ifs with root piped forked closed returned status
        any_goals rfl
        -- no call failed, so the session would have gone on
        refine absurd ⟨user, ?_, piped, forked, closed, not_not.mp returned,
          not_not.mp status⟩ stops
        simpa [known] using root
  · simp [pamSmOpenSession, user]

theorem retrieveFromChild_eq_one {fdopen fclose : Bool}
    {env_path osenv : Text} {stream : Text}
    (returned : (retrieveFromChild fdopen fclose env_path osenv stream).1 =
      1) :
    (retrieveFromChild fdopen fclose env_path osenv stream).2 =
      (storeString env_path (readLine newline (maxLine - 1) stream).1,
        storeString osenv (readLine newline (maxLine - 1)
          (readLine newline (maxLine - 1) stream).2).1) := by
  cases fdopen with
  | false => cases returned
  | true =>
      by_cases first : stream = []
      · subst first
        cases returned
      · by_cases second : (readLine newline (maxLine - 1) stream).2 = []
        · have ended : ∀ dest size, fgets dest size [] = none :=
            fun _ _ => rfl
          simp [retrieveFromChild, readLineFromFile,
            fgets_of_ne_nil first, second, ended] at returned
        · simp [retrieveFromChild, readLineFromFile,
            fgets_of_ne_nil first, fgets_of_ne_nil second]

namespace Calls

variable {calls : Calls}

theorem path_eq (returned : calls.retrieved.1 = 1) :
    calls.path =
      sanitized true (readLine newline (maxLine - 1) calls.bytes).1 := by
  have read := retrieveFromChild_eq_one returned
  rw [path, retrieved, read]
  exact cString_sanitize_read calls.env_path calls.bytes true

theorem name_eq (returned : calls.retrieved.1 = 1) :
    calls.name =
      sanitized false (readLine newline (maxLine - 1)
        (readLine newline (maxLine - 1) calls.bytes).2).1 := by
  have read := retrieveFromChild_eq_one returned
  rw [name, retrieved, read]
  exact cString_sanitize_read calls.osenv _ false

theorem path_clean (returned : calls.retrieved.1 = 1) :
    Clean true calls.path := by
  rw [path_eq returned]
  exact clean_sanitized true _

theorem path_fits (returned : calls.retrieved.1 = 1) :
    calls.path.length ≤ calls.capacity := by
  have read := length_readLine_le newline (maxLine - 1) calls.bytes
  have shorter := length_sanitized_le true
    (readLine newline (maxLine - 1) calls.bytes).1
  have room := calls.room
  rw [path_eq returned]
  omega

theorem path_noFormat (returned : calls.retrieved.1 = 1) :
    '%'.toUInt8 ∉ calls.path := by
  intro inside
  have kept := (path_clean returned _ inside).2
  revert kept
  decide

end Calls

theorem length_formatEnvvar (osenv : Text) :
    (formatEnvvar osenv).length = 5 + min 40 osenv.length := by
  have five : (ascii "CHOS=").length = 5 := by decide
  simp [formatEnvvar, five]

theorem pamPutenv_formatEnvvar (osenv : Text) (env : Environment) :
    pamPutenv (formatEnvvar osenv) env =
      Function.update env (ascii "CHOS") (some (osenv.take 40)) := by
  have letters : ascii "CHOS=" = ascii "CHOS" ++ ['='.toUInt8] := by decide
  have plain : ∀ c ∈ ascii "CHOS", (decide (c ≠ '='.toUInt8)) = true := by
    decide +kernel
  have shape : formatEnvvar osenv =
      ascii "CHOS" ++ '='.toUInt8 :: osenv.take 40 := by
    rw [formatEnvvar, letters]
    simp
  rw [shape, pamPutenv, List.takeWhile_append_of_pos plain,
    List.dropWhile_append_of_pos plain]
  simp

theorem enterSession_of_set {calls : Calls} {state : Sys} {pid : Nat}
    {env_path : Text} {received : Option (Text × Except Errno Nat)}
    {sys : Sys}
    (set : Pam.setMulti calls.opened calls.capacity state pid calls.setchos
      ⟨cString env_path, terminated_cString env_path⟩ =
        some ⟨0, received, sys⟩) (env : Environment) (osenv : Text) :
    enterSession calls state pid env env_path osenv =
      some ⟨pamSuccess, some (cString env_path),
        some (formatEnvvar (cString osenv)), calls.pam_putenv, sys,
        if calls.pam_putenv then
          Function.update env (ascii "CHOS") (some ((cString osenv).take 40))
        else env⟩ := by
  have length := length_formatEnvvar (cString osenv)
  have whole : (formatEnvvar (cString osenv)).take maxLine =
      formatEnvvar (cString osenv) := by
    apply List.take_of_length_le
    simp only [maxLine]
    omega
  have notShort : ¬ (formatEnvvar (cString osenv)).length < 1 := by
    omega
  have notLong : ¬ (formatEnvvar (cString osenv)).length > maxLen + 1 := by
    simp only [maxLen]
    omega
  have putenv := pamPutenv_formatEnvvar (cString osenv) env
  rw [enterSession, set]
  simp only [ne_eq, not_true_eq_false, if_false, notShort, notLong, whole,
    putenv]
  cases calls.pam_putenv <;> rfl

/-- The state after `set_multi` could open its stream. -/
def Calls.sysAfter (calls : Calls) (state : Sys) (pid : Nat)
    (current : Task) : Sys :=
  if calls.path = [] then state
  else written state pid current calls.setchos calls.path

/-- The environment after `pam_putenv`. -/
def Calls.envAfter (calls : Calls) (env : Environment) : Environment :=
  if calls.pam_putenv then
    Function.update env (ascii "CHOS") (some (calls.name.take 40))
  else env

/-- Whatever the kernel answers, the name is handed to PAM. -/
theorem pamSmOpenSession_eq {calls : Calls} (reaches : calls.Reaches)
    (opened : calls.opened = true) {state : Sys} (inRange : state.InRange)
    {pid : Nat} {current : Task}
    (running : state.current pid = some current) (env : Environment) :
    pamSmOpenSession calls state pid env =
      some ⟨pamSuccess, some calls.path, some (formatEnvvar calls.name),
        calls.pam_putenv, calls.sysAfter state pid current,
        calls.envAfter env⟩ := by
  have returned := reaches.2.2.2.2.2.1
  have multi := @setMulti_eq state inRange pid current running
    calls.capacity ⟨calls.path, terminated_cString _⟩
    (Calls.path_noFormat returned) (Calls.path_fits returned) calls.setchos
  have set : ∃ received, Pam.setMulti calls.opened calls.capacity state pid
      calls.setchos ⟨calls.path, terminated_cString _⟩ =
        some ⟨0, received, calls.sysAfter state pid current⟩ := by
    rw [Pam.setMulti, opened, multi, Calls.sysAfter]
    split
    · exact ⟨none, rfl⟩
    · exact ⟨_, rfl⟩
  obtain ⟨received, set⟩ := set
  rw [pamSmOpenSession_of_reaches reaches, enterSession_of_set set]
  rfl

theorem pamSmOpenSession_of_not_opened {calls : Calls}
    (reaches : calls.Reaches) (refused : calls.opened = false) (state : Sys)
    (pid : Nat) (env : Environment) :
    pamSmOpenSession calls state pid env =
      some ⟨pamSuccess, some calls.path, none, false, state, env⟩ := by
  rw [pamSmOpenSession_of_reaches reaches, enterSession, Pam.setMulti,
    refused]
  rfl

theorem validLink_written_of_refused {state : Sys} {pid : Nat}
    {current : Task} {outcome : SetchosOutcome} {text : Text}
    (plain : newline ∉ text) (terminated : 0 ∉ text)
    (refused : ¬ (outcome.textAlloc = true ∧
      accepts state.valid_paths text = true)) :
    (written state pid current outcome text).tree.validLink
        (written state pid current outcome text).table pid =
      state.tree.validLink state.table pid := by
  have whole := copied_of_plain plain terminated
  have kept : (setchosTable state.tree state.valid_paths current text
      text.length outcome state.table).procs = state.table.procs := by
    simp only [setchosTable, whole]
    split
    · rename_i allocated
      rw [if_neg fun accepted => refused ⟨allocated, accepted⟩]
      rfl
    · rfl
  simp only [written]
  rw [ProcTree.validLink_setRoot]
  exact ProcTree.validLink_congr (congrFun kept pid)

/-- Without memory for the link the process loses the one it had. -/
theorem validLink_written_of_no_link {state : Sys} {pid : Nat}
    {current : Task} (running : state.current pid = some current)
    {outcome : SetchosOutcome} {text : Text} (plain : newline ∉ text)
    (terminated : 0 ∉ text) (textAlloc : outcome.textAlloc = true)
    (accepted : accepts state.valid_paths text = true)
    (linkAlloc : outcome.linkAlloc = false) :
    (written state pid current outcome text).tree.validLink
      (written state pid current outcome text).table pid = none := by
  have found := Sys.current_find running
  have samePid := ProcTree.find_pid found
  subst samePid
  simp only [written]
  rw [ProcTree.validLink_setRoot, ProcTree.validLink, found]
  simp [setchosTable, textAlloc, copied_of_plain plain terminated, accepted,
    installed, linkAlloc, createLink, assignLink_procs, ChosProc.validFor,
    ChosProc.assigned]

theorem validLink_ne_next {state : Sys} (sound : state.Sound) (pid : Nat) :
    state.tree.validLink state.table pid ≠ some state.table.links.next := by
  intro valid
  obtain ⟨task, found, entry⟩ := ProcTree.validLink_eq_some_iff.mp valid
  have below := sound.inRange task (ProcTree.find_mem found)
  rw [ProcTree.find_pid found] at below
  exact Nat.lt_irrefl _ (sound.table.entries pid below _
    (validFor_link entry).1)

/-- The process has a new link to the path and `CHOS=name` was put into its
environment, or both link and environment are what they were. -/
def Session.AllOrNothing (session : Session) (state : Sys) (pid : Nat)
    (env : Environment) (path name : Text) : Prop :=
  (session.sys.tree.validLink session.sys.table pid =
        some state.table.links.next ∧
      session.sys.table.textOf state.table.links.next = path ∧
      session.put = true ∧
      session.env = Function.update env (ascii "CHOS") (some name)) ∨
    (session.sys.tree.validLink session.sys.table pid =
        state.tree.validLink state.table pid ∧ session.env = env)

namespace Calls

def Accepted (calls : Calls) (state : Sys) : Prop :=
  calls.path ≠ [] ∧ calls.setchos.textAlloc = true ∧
    accepts state.valid_paths calls.path = true

instance (calls : Calls) (state : Sys) : Decidable (calls.Accepted state) :=
  inferInstanceAs (Decidable (_ ∧ _ ∧ _))

/-- The link gets set, and a name that is not cut gets exported. -/
def Both (calls : Calls) (state : Sys) : Prop :=
  calls.Accepted state ∧ calls.setchos.linkAlloc = true ∧
    calls.pam_putenv = true ∧ calls.name.length ≤ 40

/-- The link stays as it is, and so does the environment. -/
def Neither (calls : Calls) (state : Sys) (pid : Nat) (env : Environment) :
    Prop :=
  (calls.Accepted state → calls.setchos.linkAlloc = false ∧
      state.tree.validLink state.table pid = none) ∧
    (calls.pam_putenv = true →
      env (ascii "CHOS") = some (calls.name.take 40))

theorem envAfter_eq_self_iff {calls : Calls} {env : Environment} :
    calls.envAfter env = env ↔
      (calls.pam_putenv = true →
        env (ascii "CHOS") = some (calls.name.take 40)) := by
  unfold envAfter
  cases calls.pam_putenv with
  | false => simp
  | true => simp [eq_comm]

theorem envAfter_eq_name_iff {calls : Calls} {env : Environment}
    (putenv : calls.pam_putenv = true) :
    calls.envAfter env =
        Function.update env (ascii "CHOS") (some calls.name) ↔
      calls.name.length ≤ 40 := by
  rw [envAfter, if_pos putenv, (Function.update_injective env _).eq_iff,
    Option.some.injEq]
  exact List.take_eq_self_iff _

end Calls

section

variable {calls : Calls} {state : Sys} {pid : Nat} {current : Task}

theorem validLink_sysAfter (sound : state.Sound)
    (running : state.current pid = some current)
    (returned : calls.retrieved.1 = 1) :
    (calls.sysAfter state pid current).tree.validLink
        (calls.sysAfter state pid current).table pid =
      if calls.Accepted state then
        if calls.setchos.linkAlloc then some state.table.links.next else none
      else state.tree.validLink state.table pid := by
  have plain := (Calls.path_clean returned).plain
  have terminated := (Calls.path_clean returned).terminated
  unfold Calls.sysAfter
  by_cases empty : calls.path = []
  · rw [if_pos empty, if_neg fun accepted => accepted.1 empty]
  · rw [if_neg empty]
    by_cases accepted : calls.Accepted state
    · rw [if_pos accepted]
      obtain ⟨_, textAlloc, taken⟩ := accepted
      cases linkAlloc : calls.setchos.linkAlloc with
      | true =>
          have whole := copied_of_plain plain terminated
          exact (Sys.valid_of_setchos sound running textAlloc
            (by rw [whole]; exact taken) linkAlloc
            (.setchos calls.path calls.path.length calls.setchos
              running)).1
      | false =>
          exact validLink_written_of_no_link running plain terminated
            textAlloc taken linkAlloc
    · rw [if_neg accepted]
      exact validLink_written_of_refused plain terminated
        fun taken => accepted ⟨empty, taken⟩

theorem textOf_sysAfter (sound : state.Sound)
    (running : state.current pid = some current)
    (returned : calls.retrieved.1 = 1) (accepted : calls.Accepted state)
    (linkAlloc : calls.setchos.linkAlloc = true) :
    (calls.sysAfter state pid current).table.textOf
      state.table.links.next = calls.path := by
  have whole := copied_of_plain (Calls.path_clean returned).plain
    (Calls.path_clean returned).terminated
  obtain ⟨nonempty, textAlloc, taken⟩ := accepted
  have text := (Sys.valid_of_setchos sound running textAlloc
    (by rw [whole]; exact taken) linkAlloc
    (.setchos calls.path calls.path.length calls.setchos running)).2.2
  rw [← copied_eq_trim, whole] at text
  rw [Calls.sysAfter, if_neg nonempty]
  exact text

theorem both_iff (sound : state.Sound)
    (running : state.current pid = some current)
    (returned : calls.retrieved.1 = 1) (env : Environment) :
    ((calls.sysAfter state pid current).tree.validLink
          (calls.sysAfter state pid current).table pid =
        some state.table.links.next ∧
      (calls.sysAfter state pid current).table.textOf
        state.table.links.next = calls.path ∧
      calls.pam_putenv = true ∧
      calls.envAfter env =
        Function.update env (ascii "CHOS") (some calls.name)) ↔
      calls.Both state := by
  rw [validLink_sysAfter sound running returned]
  constructor
  · rintro ⟨valid, _, putenv, exported⟩
    have notLong := (Calls.envAfter_eq_name_iff putenv).mp exported
    by_cases accepted : calls.Accepted state
    · rw [if_pos accepted] at valid
      cases linkAlloc : calls.setchos.linkAlloc with
      | true => exact ⟨accepted, linkAlloc, putenv, notLong⟩
      | false => simp [linkAlloc] at valid
    · rw [if_neg accepted] at valid
      exact absurd valid (validLink_ne_next sound pid)
  · rintro ⟨accepted, linkAlloc, putenv, notLong⟩
    refine ⟨?_, textOf_sysAfter sound running returned accepted linkAlloc,
      putenv, (Calls.envAfter_eq_name_iff putenv).mpr notLong⟩
    rw [if_pos accepted, if_pos linkAlloc]

theorem neither_iff (sound : state.Sound)
    (running : state.current pid = some current)
    (returned : calls.retrieved.1 = 1) (env : Environment) :
    ((calls.sysAfter state pid current).tree.validLink
          (calls.sysAfter state pid current).table pid =
        state.tree.validLink state.table pid ∧
      calls.envAfter env = env) ↔
      calls.Neither state pid env := by
  rw [validLink_sysAfter sound running returned, Calls.envAfter_eq_self_iff]
  refine and_congr_left fun _ => ?_
  by_cases accepted : calls.Accepted state
  · rw [if_pos accepted]
    cases calls.setchos.linkAlloc with
    | true =>
        have fresh := Ne.symm (validLink_ne_next sound pid)
        simp [accepted, fresh]
    | false => simp [accepted, eq_comm]
  · simp [accepted]

end

/-- Opening a session sets both link and variable or leaves both alone, if and
only if it does not come to `set_multi` or cannot open the stream there, or
the kernel and PAM take path and name, or neither of them changes anything. -/
theorem open_session_all_or_nothing_iff {pid_max : Nat} {tree : ProcTree}
    (below : ∀ task ∈ tree.tasks, task.pid < pid_max)
    {events : List Event} {state : Sys}
    (finished : run Sys.step (Sys.init pid_max tree) events = some state)
    {pid : Nat} {current : Task}
    (running : state.current pid = some current) (calls : Calls)
    (env : Environment) :
    ∃ session, pamSmOpenSession calls state pid env = some session ∧
      (session.AllOrNothing state pid env calls.path calls.name ↔
        (calls.Reaches → calls.opened = true →
          calls.Both state ∨ calls.Neither state pid env)) := by
  have sound := (Sys.init_sound below).run finished
  by_cases reaches : calls.Reaches
  · have returned := reaches.2.2.2.2.2.1
    cases opened : calls.opened with
    | true =>
        refine ⟨_, pamSmOpenSession_eq reaches opened sound.inRange running
          env, ?_⟩
        rw [Session.AllOrNothing, both_iff sound running returned,
          neither_iff sound running returned]
        simp [reaches]
    | false =>
        refine ⟨_, pamSmOpenSession_of_not_opened reaches opened state pid
          env, ?_⟩
        simp [Session.AllOrNothing]
  · refine ⟨_, pamSmOpenSession_of_not_reaches reaches state pid env, ?_⟩
    simp [Session.AllOrNothing, reaches]

/-- All calls succeed, for a user whose child wrote the given bytes. -/
def Calls.succeed (bytes : Text) : Calls :=
  { pam_get_user := true
    getpwnam := some 1000
    pipe := true
    fork := true
    close := true
    env_path := ⟨List.replicate 81 0, List.length_replicate⟩
    osenv := ⟨List.replicate 81 0, List.length_replicate⟩
    fdopen := true
    bytes := bytes
    fclose := true
    child_status := 0
    opened := true
    capacity := 1024
    room := Nat.le_of_ble_eq_true rfl
    setchos := ⟨true, true, true, .other 0⟩
    pam_putenv := true }

theorem open_session_all_or_nothing_iff_root :
    ∃ session,
      pamSmOpenSession (.succeed (ascii "/\nlocal\n")) (Sys.init 16 .boot) 1
        (fun _ => none) = some session ∧
      session.AllOrNothing (Sys.init 16 .boot) 1 (fun _ => none)
        (Calls.succeed (ascii "/\nlocal\n")).path
        (Calls.succeed (ascii "/\nlocal\n")).name := by
  obtain ⟨session, opened, exactly⟩ := @open_session_all_or_nothing_iff 16
    .boot (ProcTree.boot_below (by decide)) [] _ rfl 1 _ rfl
    (.succeed (ascii "/\nlocal\n")) (fun _ => none)
  refine ⟨session, opened, exactly.mpr fun _ _ => .inl ⟨?_, rfl, rfl, ?_⟩⟩
  · decide +kernel
  · decide +kernel

/-- The kernel refuses the path, which nobody listed, and the name is exported
all the same. -/
theorem refused_path_exports_name :
    ∃ session,
      pamSmOpenSession (.succeed (ascii "/a\na\n")) (Sys.init 16 .boot) 1
        (fun _ => none) = some session ∧
      session.sys.tree.validLink session.sys.table 1 = none ∧
      session.env (ascii "CHOS") = some (ascii "a") ∧
      ¬ session.AllOrNothing (Sys.init 16 .boot) 1 (fun _ => none)
        (ascii "/a") (ascii "a") := by
  have ends : (pamSmOpenSession (.succeed (ascii "/a\na\n"))
      (Sys.init 16 .boot) 1 (fun _ => none)).any (fun session =>
        decide (session.sys.tree.validLink session.sys.table 1 = none ∧
          session.env (ascii "CHOS") = some (ascii "a"))) = true := by
    decide +kernel
  obtain ⟨session, opened, facts⟩ := (Option.any_eq_true _ _).mp ends
  obtain ⟨unset, exported⟩ := of_decide_eq_true facts
  refine ⟨session, opened, unset, exported, ?_⟩
  rintro (⟨set, _⟩ | ⟨_, same⟩)
  · rw [unset] at set
    cases set
  · rw [same] at exported
    cases exported

end Chos.User
