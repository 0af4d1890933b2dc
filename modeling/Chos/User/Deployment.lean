import Chos.Kernel.Isolation
import Chos.User.InTree
import Chos.User.LoadValid

/-!
# From the configuration to the tree

The boot script lists the paths of `/etc/chos` in the kernel, and later
somebody asks for one of its names, through the `chos` utility or when a
session is opened.  All parts together: the script, the programs, their
buffers and streams, the handlers and the table.
-/

namespace Chos.User

open Chos.Library
open Chos.Kernel

/-- The writes of `loadvalid`, all with memory for the path. -/
def bootEvents (expand : Text → List Text) (content : Text) : List Event :=
  (loadvalid expand content).map fun text =>
    .writeValid 0 text text.length ⟨true, true⟩

def Event.listsPath : Event → Bool
  | .writeValid _ _ _ _ => true
  | _ => false

theorem run_writes (state : Sys) (writes : List Text) :
    run Sys.step state (writes.map fun text =>
        .writeValid 0 text text.length ⟨true, true⟩) =
      some { state with
        valid_paths := writeAll state.valid_paths writes } := by
  induction writes generalizing state with
  | nil => rfl
  | cons text writes induction => exact induction _

/-- The list changes through `/proc/chos/valid` only. -/
theorem valid_paths_of_taken {state next : Sys} {event : Event}
    (taken : Sys.Taken state event next)
    (other : Event.listsPath event = false) :
    next.valid_paths = state.valid_paths := by
  cases taken with
  | writeValid euid buf count outcome => cases other
  | _ => rfl

theorem valid_paths_of_run {state final : Sys} (sound : state.Sound)
    {events : List Event} (finished : run Sys.step state events = some final)
    (others : ∀ event ∈ events, Event.listsPath event = false) :
    final.valid_paths = state.valid_paths := by
  have both : final.Sound ∧ final.valid_paths = state.valid_paths := by
    apply @run_invariant _ _ _ _ (fun current : Sys =>
      current.Sound ∧ current.valid_paths = state.valid_paths) _ _ _ _
      finished ((along_iff_forall_mem finished).mpr others) ⟨sound, rfl⟩
    rintro current event next ⟨sound, same⟩ other stepped
    have taken := (Sys.step_iff_taken sound.inRange).mp stepped
    exact ⟨sound.taken taken, (valid_paths_of_taken taken other).trans same⟩
  exact both.2

/-- The script has written the list of the file, and nobody has written to
the list since. -/
structure Deployed (expand : Text → List Text) (content : Text)
    (pid_max : Nat) (tree : ProcTree) (state : Sys) : Prop where
  below : ∀ task ∈ tree.tasks, task.pid < pid_max
  reached : ∃ before after,
    run Sys.step (Sys.init pid_max tree)
        (before ++ bootEvents expand content ++ after) = some state ∧
      ∀ event ∈ after, Event.listsPath event = false

namespace Deployed

variable {expand : Text → List Text} {content : Text} {pid_max : Nat}
  {tree : ProcTree} {state : Sys}

theorem sound (deployed : Deployed expand content pid_max tree state) :
    state.Sound := by
  obtain ⟨before, after, reached, _⟩ := deployed.reached
  exact (Sys.init_sound deployed.below).run reached

theorem lists (deployed : Deployed expand content pid_max tree state) :
    ∃ paths, state.valid_paths =
      writeAll paths (loadvalid expand content) := by
  obtain ⟨before, after, reached, others⟩ := deployed.reached
  obtain ⟨booted, boots, later⟩ := run_append_eq_some_iff.mp reached
  obtain ⟨earlier, first, script⟩ := run_append_eq_some_iff.mp boots
  have sound := (Sys.init_sound deployed.below).run boots
  rw [bootEvents, run_writes, Option.some.injEq] at script
  refine ⟨earlier.valid_paths, ?_⟩
  rw [valid_paths_of_run sound later others, ← script]

theorem accepts_path
    (deployed : Deployed expand content pid_max tree state)
    (plainConf : PlainConf content) (separate : Separate content)
    (expands : ∀ word : Text, (∀ c ∈ word, isPattern c = false) →
      expand word = [word])
    {path : Text} (listed : path ∈ Utility.sectionPaths content) :
    accepts state.valid_paths path = true := by
  obtain ⟨paths, same⟩ := deployed.lists
  have parts := plainConf.plain_path (plainConf.sectionPaths_subset listed)
  have whole : trim path path.length = path :=
    trim_of_plain parts.1 parts.2
  have alike := (readAlike_of_separate plainConf expands separate).2
  have taken := (alike paths path path.length).mpr
    (.inr (by rw [whole]; exact listed))
  rw [copied_eq_trim, whole] at taken
  rw [same]
  exact taken

end Deployed

theorem Deployed.forked :
    ∃ state, Deployed (fun word => [word]) (ascii "%SHELLS\nold:/x\n") 16
        .boot state ∧
      state.forks = [] ∧ (state.current 10).isSome ∧
      state.textSeen 10 = rootText := by
  have ends : (run Sys.step (Sys.init 16 .boot)
      ([] ++ bootEvents (fun word => [word]) (ascii "%SHELLS\nold:/x\n") ++
        [.begin 1, .create 1 ⟨10, ⟨5, 0⟩, 0, []⟩, .finish 1])).any
        (fun state => state.forks = [] ∧ (state.current 10).isSome ∧
          state.textSeen 10 = rootText) = true := by
    decide +kernel
  obtain ⟨state, reached, facts⟩ := (Option.any_eq_true _ _).mp ends
  refine ⟨state, ⟨ProcTree.boot_below (by decide), [], _, reached, ?_⟩,
    of_decide_eq_true facts⟩
  decide

theorem plainConf_old : PlainConf (ascii "%SHELLS\nold:/x\n") := by
  constructor <;> decide +kernel

/-- All calls of `main` succeed, and so do those of `write_setchos`. -/
structure Utility.Calls.Works (calls : Utility.Calls) : Prop where
  args : chosParseArgs calls.argv ≠ 0
  getpwuid : calls.getpwuid = true
  linked : calls.linked = true
  opened : calls.opened = true
  room : maxOs ≤ calls.capacity
  textAlloc : calls.setchos.textAlloc = true
  linkAlloc : calls.setchos.linkAlloc = true

theorem mem_sectionPathsIn {size : Nat} {conf : ConfFile} {name path : Text}
    (found : checkChosIn size conf name = some path)
    (nonempty : path ≠ []) : path ∈ sectionPathsIn size conf.content := by
  have usable := usable_of_checkChosIn found
  rw [checkChosIn_eq usable] at found
  have member := mem_of_lookup_eq_some found
  apply List.mem_filter.mpr
  exact ⟨List.mem_map.mpr ⟨_, member, rfl⟩, by simpa using nonempty⟩

/-- Until it writes again or exits, and as long as no cleanup from another
pid namespace clears its entry, the process reads the path. -/
def Stays (state : Sys) (pid : Nat) (path : Text) : Prop :=
  ∀ events final, state.Continues pid events final →
    final.textSeen pid = path

theorem stays_of_valid {state : Sys} (sound : state.Sound) {pid : Nat}
    (above : 1 < pid) {link : LinkId}
    (valid : state.tree.validLink state.table pid = some link)
    (unawaited : ¬ state.Awaited pid) :
    Stays state pid (state.table.textOf link) := by
  intro events final continues
  have settles : state.Settles pid link (state.table.links.frees link) :=
    ⟨sound, valid, rfl, unawaited⟩
  have kept := settles.run continues.finished continues.others
    continues.spared
  rw [kept.textSeen above]
  exact (sound.run_evolves continues.finished).textOf link
    settles.holding.known

theorem Stays.textSeen {state : Sys} {pid : Nat} {path : Text}
    (stays : Stays state pid path) : state.textSeen pid = path :=
  stays [] state ⟨rfl, by simp, trivial⟩

theorem stays_written {state : Sys} (sound : state.Sound) {pid : Nat}
    (above : 1 < pid) {current : Task}
    (running : state.current pid = some current)
    (unawaited : ¬ state.Awaited pid) {outcome : SetchosOutcome}
    (textAlloc : outcome.textAlloc = true)
    (linkAlloc : outcome.linkAlloc = true) {path : Text}
    (plain : newline ∉ path) (terminated : 0 ∉ path)
    (accepted : accepts state.valid_paths path = true) :
    Stays (written state pid current outcome path) pid path := by
  have taken : Sys.Taken state (.setchos pid path path.length outcome)
      (written state pid current outcome path) := .setchos _ _ _ running
  have whole := copied_of_plain plain terminated
  obtain ⟨valid, _, text⟩ := Sys.valid_of_setchos sound running textAlloc
    (by rw [whole]; exact accepted) linkAlloc taken
  have free := Sys.not_awaited_taken sound taken
    (Sys.current_find running) (by simp) unawaited
  have stays := stays_of_valid (sound.taken taken) above valid free
  rwa [text, ← copied_eq_trim, whole] at stays

/-- The texts of links have no NUL. -/
structure PlainTexts (state : Sys) : Prop where
  sound : state.Sound
  terminated : ∀ link < state.table.links.next,
    0 ∉ state.table.textOf link

theorem PlainTexts.taken {state next : Sys} {event : Event}
    (plain : PlainTexts state) (taken : Sys.Taken state event next) :
    PlainTexts next where
  sound := plain.sound.taken taken
  terminated := by
    intro link known
    by_cases old : link < state.table.links.next
    · rw [(plain.sound.evolves taken).textOf link old]
      exact plain.terminated link old
    · obtain ⟨_, buf, count, _, _, _, _, _, text⟩ :=
        Sys.created_text taken old known
      rw [text, copied_eq_trim]
      exact fun inside => ne_zero_of_mem_trim inside rfl

namespace Deployed

variable {expand : Text → List Text} {content : Text} {pid_max : Nat}
  {tree : ProcTree} {state : Sys}

theorem plainTexts (deployed : Deployed expand content pid_max tree state) :
    PlainTexts state := by
  obtain ⟨before, after, reached, _⟩ := deployed.reached
  have sound := Sys.init_sound deployed.below
  apply @run_invariant _ _ _ (fun _ _ => True) PlainTexts _ _ _ _ reached
  · exact along_of_forall (fun _ _ => trivial) _ _
  · refine ⟨sound, ?_⟩
    intro link impossible
    cases impossible
  · intro current event next plain _ stepped
    exact plain.taken ((Sys.step_iff_taken plain.sound.inRange).mp stepped)

theorem terminated_textSeen
    (deployed : Deployed expand content pid_max tree state) {pid : Nat}
    {current : Task} (running : state.current pid = some current) :
    0 ∉ state.textSeen pid := by
  have sound := deployed.sound
  rw [Sys.textSeen_eq sound (Sys.current_find running)]
  cases resolved : state.tree.resolve state.table pid with
  | none =>
      change 0 ∉ rootText
      decide
  | some link =>
      exact deployed.plainTexts.terminated link
        (sound.resolve_known resolved)

end Deployed

def afterRead (state : Sys) (pid : Nat) : Sys :=
  { state with table := state.readTable pid }

section

variable {state : Sys} (sound : state.Sound) {pid : Nat} {current : Task}
  (running : state.current pid = some current)

theorem validLink_afterRead (other : Nat) :
    (afterRead state pid).tree.validLink (afterRead state pid).table other =
      state.tree.validLink (state.tree.lookedUp state.table pid) other := by
  apply ProcTree.validLink_congr
  change (state.readTable pid).procs other = _
  unfold Sys.readTable
  split
  · rfl
  · rfl

include sound running

theorem sound_afterRead : (afterRead state pid).Sound :=
  sound.taken (.readlink running)

theorem textSeen_afterRead :
    (afterRead state pid).textSeen pid = state.textSeen pid := by
  have found := Sys.current_find running
  have resolved : (afterRead state pid).tree.resolve
      (afterRead state pid).table pid =
        state.tree.resolve state.table pid := by
    have live := ProcTree.find_mem found
    have looked := @ProcTree.resolve_lookedUp state.tree state.table current
      current live live
    rw [ProcTree.find_pid found] at looked
    have marks := funext fun other =>
      @validLink_afterRead state pid other
    rw [← looked, ProcTree.resolve, ProcTree.resolve, marks]
    rfl
  rw [Sys.textSeen_eq (sound_afterRead sound running) found,
    Sys.textSeen_eq sound found, resolved]
  cases seen : state.tree.resolve state.table pid with
  | none => rfl
  | some link =>
      exact (sound.readTable found).textOf link (sound.resolve_known seen)

/-- A text other than `/` comes from a link, which the process has in its own
entry once it has read it. -/
theorem stays_afterRead (above : 1 < pid)
    (unawaited : ¬ state.Awaited pid)
    (other : state.textSeen pid ≠ rootText) :
    Stays (afterRead state pid) pid (state.textSeen pid) := by
  have found := Sys.current_find running
  have nextSound := sound_afterRead sound running
  rw [Sys.textSeen_eq sound found] at other
  cases resolved : state.tree.resolve state.table pid with
  | none =>
      rw [resolved] at other
      exact absurd rfl other
  | some link =>
      have valid : (afterRead state pid).tree.validLink
          (afterRead state pid).table pid = some link := by
        have own := @ProcTree.validLink_lookedUp_self state.tree state.table
          current (ProcTree.find_mem found) link
        rw [ProcTree.find_pid found] at own
        exact (validLink_afterRead pid).trans (own resolved)
      have free := Sys.not_awaited_taken sound (.readlink running) found
        (by simp) unawaited
      have stays := stays_of_valid nextSound above valid free
      rwa [← stays.textSeen, textSeen_afterRead sound running] at stays

end

/-- A path that fits into the buffer is compared whole. -/
theorem eq_of_alreadyIn {link path : Text} (terminated : 0 ∉ link)
    (short : path.length < maxOs) (already : AlreadyIn link path) :
    link = path := by
  have cut : 0 ∉ link.take maxOs :=
    fun inside => terminated (List.mem_of_mem_take inside)
  rw [AlreadyIn, cString_of_terminated cut] at already
  exact ((Utility.take_eq_take_iff_of_short short).mp already.symm).symm

/-- `main` for a name with a path: it leaves the process in the tree, if it
can read the link. -/
theorem main_of_configured {state : Sys} (sound : state.Sound) {pid : Nat}
    {current : Task} (running : state.current pid = some current)
    (readable : state.textSeen pid ≠ []) {calls : Utility.Calls}
    (works : calls.Works) {name : CString}
    (asked : calls.getenv = some name) {path : Text}
    (configured : Utility.checkChos calls.conf name.text = some path)
    (nonempty : path ≠ []) (noFormat : '%'.toUInt8 ∉ path) :
    Utility.main calls state pid =
      if AlreadyIn (state.textSeen pid) path then
        some ⟨none, none, afterRead state pid⟩
      else
        some ⟨none, some path,
          written (afterRead state pid) pid current calls.setchos path⟩ := by
  have selected : Utility.os calls.conf name = some path := by
    rw [Utility.os, configured]
  have terminated := Utility.os_terminated selected
  have read : state.readlink pid =
      some (state.textSeen pid, afterRead state pid) :=
    Sys.readlink_eq sound.inRange running
  have requested : Utility.request calls state pid =
      some (if AlreadyIn (state.textSeen pid) path then .skip
        else .set path, afterRead state pid) := by
    simp only [Utility.request, works.args, if_false, asked, works.getpwuid,
      not_true_eq_false, selected,
      Utility.compare_eq terminated works.linked read, if_neg readable]
  by_cases already : AlreadyIn (state.textSeen pid) path
  · rw [if_pos already] at requested ⊢
    rw [Utility.main, requested]
  · rw [if_neg already] at requested ⊢
    have room : path.length ≤ calls.capacity := by
      have length := (checkChosIn_line configured).1
      have most := works.room
      simp only [maxLine, maxOs] at length most
      omega
    have same : (⟨cString path, terminated_cString path⟩ : CString) =
        ⟨path, terminated⟩ := by
      simp only [cString_of_terminated terminated]
    have set := @setMulti_eq (afterRead state pid)
      (sound_afterRead sound running).inRange pid current running
      calls.capacity ⟨path, terminated⟩ noFormat room calls.setchos
    rw [if_neg nonempty] at set
    simp only [Utility.main, requested, Utility.setMulti, works.opened,
      same, set, ne_eq, not_true_eq_false, if_false]

/-- Whoever runs the utility with a name of the section is in its tree
afterwards, and stays there unless that is the one a process without a link
is in. -/
theorem configured_name_reached {expand : Text → List Text} {content : Text}
    (plainConf : PlainConf content) (separate : Separate content)
    (expands : ∀ word : Text, (∀ c ∈ word, isPattern c = false) →
      expand word = [word])
    {pid_max : Nat} {tree : ProcTree} {state : Sys}
    (deployed : Deployed expand content pid_max tree state)
    {pid : Nat} (above : 1 < pid) {current : Task}
    (running : state.current pid = some current)
    (unawaited : ¬ state.Awaited pid) (readable : state.textSeen pid ≠ [])
    {calls : Utility.Calls} (works : calls.Works)
    (conf : calls.conf.content = content) {name : CString}
    (asked : calls.getenv = some name) {path : Text}
    (configured : Utility.checkChos calls.conf name.text = some path)
    (nonempty : path ≠ []) (noFormat : '%'.toUInt8 ∉ path) :
    ∃ result, Utility.main calls state pid = some result ∧
      result.exit = none ∧ result.sys.textSeen pid = path ∧
      (path ≠ rootText → Stays result.sys pid path) := by
  have sound := deployed.sound
  have ended := main_of_configured sound running readable works asked
    configured nonempty noFormat
  by_cases already : AlreadyIn (state.textSeen pid) path
  · rw [if_pos already] at ended
    have short : path.length < maxOs := by
      have length := (checkChosIn_line configured).1
      simp only [maxLine, maxOs] at length ⊢
      omega
    have same := eq_of_alreadyIn (deployed.terminated_textSeen running) short
      already
    subst same
    exact ⟨_, ended, rfl, textSeen_afterRead sound running,
      stays_afterRead sound running above unawaited⟩
  · rw [if_neg already] at ended
    have listed : path ∈ Utility.sectionPaths content :=
      conf ▸ mem_sectionPathsIn configured nonempty
    have parts := plainConf.plain_path
      (plainConf.sectionPaths_subset listed)
    have free := Sys.not_awaited_taken sound (.readlink running)
      (Sys.current_find running) (by simp) unawaited
    have stays := stays_written (sound_afterRead sound running) above running
      free works.textAlloc works.linkAlloc parts.1
      (checkChosIn_line configured).2.2
      (deployed.accepts_path plainConf separate expands listed)
    exact ⟨_, ended, rfl, stays.textSeen, fun _ => stays⟩

theorem configured_name_reached_old :
    ∃ state result, Utility.main
        (.plain ⟨ascii "chos", by decide⟩ ⟨ascii "old", by decide⟩
          (ascii "%SHELLS\nold:/x\n")) state 10 = some result ∧
      result.sys.textSeen 10 = ascii "/x" ∧
      Stays result.sys 10 (ascii "/x") := by
  obtain ⟨state, deployed, idle, live, atRoot⟩ := Deployed.forked
  obtain ⟨current, running⟩ := Option.isSome_iff_exists.mp live
  have unawaited : ¬ state.Awaited 10 := by
    rintro ⟨fork, pending, _⟩
    rw [idle] at pending
    cases pending
  have works : (Utility.Calls.plain ⟨ascii "chos", by decide⟩
      ⟨ascii "old", by decide⟩ (ascii "%SHELLS\nold:/x\n")).Works :=
    ⟨by decide +kernel, rfl, rfl, rfl, by decide, rfl, rfl⟩
  obtain ⟨result, ended, _, seen, stays⟩ := configured_name_reached
    plainConf_old (by decide +kernel) (fun _ _ => rfl) deployed (by decide)
    running unawaited (by rw [atRoot]; decide) works rfl rfl
    (by decide +kernel : Utility.checkChos _ _ = some (ascii "/x"))
    (by decide) (by decide)
  exact ⟨state, result, ended, seen, stays (by decide)⟩

theorem mem_sectionPaths_of_pam {content : Text}
    (plainConf : PlainConf content) {conf : ConfFile}
    (same : conf.content = content) {name path : Text}
    (found : Pam.checkChos conf name = some path) (nonempty : path ≠ []) :
    path ∈ Utility.sectionPaths content := by
  subst same
  have short : ∀ line ∈ lines newline conf.content, line.length < maxLine :=
    fun line inside => Nat.lt_succ_of_le (plainConf.short line inside)
  rw [← checkChos_agree short] at found
  exact mem_sectionPathsIn found nonempty

theorem Child.LooksUp.listed {child : Child} {cfg : PamChosConfig}
    {path : Text} (looks : child.LooksUp cfg path) :
    ∃ name, Pam.checkChos child.conf name = some path := by
  rcases looks with own | ⟨_, _, fallback⟩
  · exact ⟨_, own⟩
  · exact ⟨_, fallback⟩

/-- A session whose child finds a clean path enters its tree, and the process
stays there. -/
theorem opened_session_stays {expand : Text → List Text} {content : Text}
    (plainConf : PlainConf content) (separate : Separate content)
    (expands : ∀ word : Text, (∀ c ∈ word, isPattern c = false) →
      expand word = [word])
    {pid_max : Nat} {tree : ProcTree} {state : Sys}
    (deployed : Deployed expand content pid_max tree state)
    {pid : Nat} (above : 1 < pid) {current : Task}
    (running : state.current pid = some current)
    (unawaited : ¬ state.Awaited pid) {child : Child} {cfg : PamChosConfig}
    (works : child.Works cfg) (conf : child.conf.content = content)
    {path : Text} (looks : child.LooksUp cfg path) (clean : Clean true path)
    (nonempty : path ≠ []) {calls : Calls} (serves : calls.Serves child)
    (opened : calls.opened = true)
    (textAlloc : calls.setchos.textAlloc = true)
    (linkAlloc : calls.setchos.linkAlloc = true) (env : Environment) :
    ∃ session, pamSmOpenSession calls state pid env = some session ∧
      session.code = pamSuccess ∧ Stays session.sys pid path := by
  have sound := deployed.sound
  obtain ⟨name, found⟩ := looks.listed
  have listed := mem_sectionPaths_of_pam plainConf conf found nonempty
  have whole : path.take (maxLine - 1) = path :=
    List.take_of_length_le
      (Nat.le_pred_of_lt (Child.checkChos_plain found).2.2)
  have passed : calls.path = path := by
    rw [serves.path_eq works looks.not_stranded, looks.path_eq, whole,
      clean.sanitized]
  have stays := stays_written sound above running unawaited textAlloc
    linkAlloc clean.plain clean.terminated
    (deployed.accepts_path plainConf separate expands listed)
  refine ⟨_, pamSmOpenSession_eq (serves.reaches works looks.not_stranded)
    opened sound.inRange running env, rfl, ?_⟩
  rw [Calls.sysAfter, passed, if_neg nonempty]
  exact stays

theorem opened_session_stays_old :
    ∃ state session, pamSmOpenSession
        (.ofChild (.plain (ascii "%SHELLS\nold:/x\n")
          (some ⟨ascii "old", by decide⟩))) state 10 (fun _ => none) =
            some session ∧
      Stays session.sys 10 (ascii "/x") := by
  obtain ⟨state, deployed, idle, live, _⟩ := Deployed.forked
  obtain ⟨current, running⟩ := Option.isSome_iff_exists.mp live
  have unawaited : ¬ state.Awaited 10 := by
    rintro ⟨fork, pending, _⟩
    rw [idle] at pending
    cases pending
  obtain ⟨session, ended, _, stays⟩ := opened_session_stays plainConf_old
    (by decide +kernel) (fun _ _ => rfl) deployed (by decide) running
    unawaited
    (Child.plain_works (ascii "%SHELLS\nold:/x\n")
      (some ⟨ascii "old", by decide⟩)) rfl
    (.inl (by decide +kernel) : Child.LooksUp _ _ (ascii "/x"))
    (by decide +kernel) (by decide) (Calls.ofChild_serves _) rfl rfl rfl
    (fun _ => none)
  exact ⟨state, session, ended, stays⟩

end Chos.User
