import Chos.User.Conf
import Chos.Kernel.Access

/-!
# Choosing an environment

`pam_chos_helper.c`: the module's options, the user's configuration file,
`$CHOS`, and `get_chos_info`, which picks a name, finds its path and writes
both to the pipe.  Everything outside comes in as an argument: the files, the
environment, the outcome of calls, and the bytes a local array starts with.
-/

namespace Chos.User

open Chos.Library
open Chos.Kernel (Text cString scan)

structure PamChosConfig where
  user_conf_file : Text
  fail_to_default : Nat
  deriving DecidableEq, Repr

def userConfFileDefault : Text := ascii ".chos"

def defaultEnvName : Text := ascii "default"

def failToDefault : Nat := 0

def initPamChosConfig : PamChosConfig :=
  { user_conf_file := userConfFileDefault
    fail_to_default := failToDefault }

/-- `argmatch` of the PAM module; a match leaves room for a value. -/
def Pam.argmatch (arg option : Text) : Bool :=
  if arg.length < option.length + 1 then false
  else arg.take option.length = option

def userConfFileOption : Text := ascii "user_conf_file="

def failToDefaultOption : Text := ascii "fail_to_default="

/-- One round of the loop of `parse_pam_chos_args`. -/
def parseArg (cfg : PamChosConfig) (arg : Text) : Option PamChosConfig :=
  let cfg :=
    if Pam.argmatch arg userConfFileOption then
      { cfg with
        user_conf_file :=
          (arg.drop userConfFileOption.length).take maxLen }
    else cfg
  if Pam.argmatch arg failToDefaultOption then
    let val := arg.getD failToDefaultOption.length 0
    if val = '0'.toUInt8 then some { cfg with fail_to_default := 0 }
    else if val = '1'.toUInt8 then some { cfg with fail_to_default := 1 }
    else none
  else some cfg

/-- `none` stands for the return value `-1`. -/
def parsePamChosArgs (cfg : PamChosConfig) :
    List CString → Option PamChosConfig
  | [] => some cfg
  | arg :: argv =>
      match parseArg cfg arg.text with
      | none => none
      | some cfg => parsePamChosArgs cfg argv

/-- What the calls on the user's file give: its bytes if `open` succeeds, and
whether `read` and `close` do. -/
structure UserFile where
  content : Option Text
  reads : Bool
  closes : Bool

def userFilePath (dir user_conf_file : Text) : Text :=
  dir.take 100 ++ '/'.toUInt8 :: user_conf_file.take 20

def finishName (count : Nat) (osenv : Text) : Int × Text :=
  let (count, osenv) :=
    if count = 0 then
      (defaultEnvName.length + 1, storeString osenv defaultEnvName)
    else (count, osenv)
  let osenv := osenv.set (scan osenv count 0) 0
  (count, (sanitizeName osenv (cString osenv).length).2)

/-- `read_chos_file`: the value it returns and the buffer. -/
def readChosFile (files : Text → UserFile) (user_conf_file dir osenv : Text) :
    Int × Text :=
  let userfile := userFilePath dir user_conf_file
  if userfile.length < 1 then (-1, osenv)
  else if userfile.length > maxLen + 1 then (-1, osenv)
  else
    let conf := files userfile
    match conf.content with
    | none => finishName 0 osenv
    | some content =>
        let read := if conf.reads then content.take maxLine else []
        let osenv := (read ++ osenv.drop read.length).set read.length 0
        if conf.closes then finishName read.length osenv else (-1, osenv)

/-- A local array of `MAXLINE+1` bytes. -/
structure LineBuffer where
  bytes : Text
  size : bytes.length = maxLine + 1

/-- The child of `pam_sm_open_session`, as far as `get_chos_info` sees it. -/
structure Child where
  argv : List CString
  user_conf_dir : CString
  files : Text → UserFile
  chos : Option CString
  conf : ConfFile
  stack : LineBuffer
  fdopen : Bool
  fclose : Bool

/-- `strncpy(dest, src, n)`, which pads with NUL. -/
def strncpy (dest src : Text) (n : Nat) : Text :=
  src.take n ++ List.replicate (n - src.length) 0 ++ dest.drop n

/-- The buffer `osenv` once `$CHOS` was looked at. -/
def Child.osenv (child : Child) (osenv : Text) : Text :=
  match child.chos with
  | none => osenv
  | some env =>
      if env.text.length > maxLine then osenv
      else
        let osenv := strncpy osenv env.text (maxLine + 1)
        (sanitizeName osenv (cString osenv).length).2

def Child.os (child : Child) (cfg : PamChosConfig) (osenv : Text) :
    Option Text :=
  match Pam.checkChos child.conf osenv with
  | some os => some os
  | none =>
      if cString osenv = defaultEnvName ∨ cfg.fail_to_default > 0 then
        Pam.checkChos child.conf defaultEnvName
      else some (cString osenv)

/-- `get_chos_info`: the value it returns and the bytes it writes.  `none`
stands for `fputs` with a null pointer. -/
def getChosInfo (child : Child) : Option (Int × Text) :=
  match parsePamChosArgs initPamChosConfig child.argv with
  | none => some (-1, [])
  | some cfg =>
      let (count, osenv) := readChosFile child.files cfg.user_conf_file
        child.user_conf_dir.text child.stack.bytes
      if count < 0 then some (-1, [])
      else
        let osenv := child.osenv osenv
        let os := child.os cfg osenv
        if ¬ child.fdopen then some (-1, [])
        else
          match os with
          | none => none
          | some os =>
              if child.fclose then
                some (1, os ++ newline :: (cString osenv ++ [newline]))
              else some (-1, [])

theorem cString_set_scan {buffer : Text} {count : Nat}
    (inside : count < buffer.length) :
    cString (buffer.set (scan buffer count 0) 0) =
      Kernel.trim buffer count := by
  have ends : scan buffer count 0 = (Kernel.trim buffer count).length := by
    rw [Kernel.scan_eq_length_trim, Nat.zero_add, List.drop_zero]
  have within : (Kernel.trim buffer count).length ≤ count :=
    Nat.le_trans (List.takeWhile_sublist _).length_le
      (List.length_take_le count buffer)
  have start : buffer.take (scan buffer count 0) =
      Kernel.trim buffer count := Kernel.copied_eq_trim buffer count
  have terminated : 0 ∉ Kernel.trim buffer count :=
    fun zero => Kernel.ne_zero_of_mem_trim zero rfl
  rw [List.set_eq_take_append_cons_drop, if_pos (by omega), start,
    cString_append_zero, cString_of_terminated terminated]

theorem clean_defaultEnvName : Clean false defaultEnvName := by
  decide +kernel

def withDefault (count : Nat) (osenv : Text) : Nat × Text :=
  if count = 0 then
    (defaultEnvName.length + 1, storeString osenv defaultEnvName)
  else (count, osenv)

/-- The buffer ended at the first newline or NUL, and sanitized. -/
def endName (count : Nat) (osenv : Text) : Text :=
  (sanitizeName (osenv.set (scan osenv count 0) 0)
    (cString (osenv.set (scan osenv count 0) 0)).length).2

theorem finishName_eq (count : Nat) (osenv : Text) :
    finishName count osenv = (((withDefault count osenv).1 : Int),
      endName (withDefault count osenv).1 (withDefault count osenv).2) := by
  by_cases none : count = 0
  · simp only [finishName, withDefault, none, if_true]
    rfl
  · simp only [finishName, withDefault, none, if_false]
    rfl

theorem cString_endName {osenv : Text} {count : Nat}
    (inside : count < osenv.length) :
    cString (endName count osenv) = sanitized false (osenv.take count) := by
  rw [endName, sanitizeName, cString_sanitizeStr_length,
    cString_set_scan inside]
  exact sanitized_takeWhile false _

theorem length_withDefault {osenv : Text} (count : Nat)
    (large : maxLine < osenv.length) :
    (withDefault count osenv).2.length = osenv.length := by
  have seven : defaultEnvName.length = 7 := by decide
  unfold withDefault
  split
  · simp only [maxLine] at large
    rw [storeString, List.length_append, List.length_cons,
      List.length_drop, seven]
    omega
  · rfl

theorem withDefault_lt {osenv : Text} {count : Nat}
    (inside : count < osenv.length) (large : maxLine < osenv.length) :
    (withDefault count osenv).1 < (withDefault count osenv).2.length := by
  rw [length_withDefault count large]
  unfold withDefault
  split
  · apply Nat.lt_trans _ large
    show defaultEnvName.length + 1 < maxLine
    decide
  · exact inside

theorem sanitized_take_withDefault (count : Nat) (osenv : Text) :
    sanitized false ((withDefault count osenv).2.take
        (withDefault count osenv).1) =
      if count = 0 then defaultEnvName
      else sanitized false (osenv.take count) := by
  unfold withDefault
  split
  · have start : (storeString osenv defaultEnvName).take
        (defaultEnvName.length + 1) = defaultEnvName ++ [0] := by
      simp [storeString, List.take_append]
    rw [start, sanitized_append_zero]
    exact clean_defaultEnvName.sanitized
  · rfl

theorem cString_finishName {osenv : Text} {count : Nat}
    (inside : count < osenv.length) (large : maxLine < osenv.length) :
    cString (finishName count osenv).2 =
      if count = 0 then defaultEnvName
      else sanitized false (osenv.take count) := by
  rw [finishName_eq, ← sanitized_take_withDefault]
  exact cString_endName (withDefault_lt inside large)

def UserFile.read (file : UserFile) : Text :=
  if file.reads then (file.content.getD []).take maxLine else []

/-- The name `read_chos_file` finds in what it reads. -/
def UserFile.name (file : UserFile) : Text :=
  if file.read = [] then defaultEnvName else sanitized false file.read

/-- The one error is that the open file cannot be closed. -/
def UserFile.Fails (file : UserFile) : Prop :=
  file.content ≠ none ∧ file.closes = false

instance (file : UserFile) : Decidable file.Fails :=
  inferInstanceAs (Decidable (_ ∧ _))

theorem UserFile.length_read (file : UserFile) :
    file.read.length ≤ maxLine := by
  unfold UserFile.read
  split
  · exact List.length_take_le _ _
  · exact Nat.zero_le _

/-- `read_chos_file` with what comes of opening its file. -/
def readOpened (conf : UserFile) (osenv : Text) : Int × Text :=
  match conf.content with
  | none => finishName 0 osenv
  | some content =>
      let read := if conf.reads then content.take maxLine else []
      let osenv := (read ++ osenv.drop read.length).set read.length 0
      if conf.closes then finishName read.length osenv else (-1, osenv)

theorem length_userFilePath (dir user_conf_file : Text) :
    (userFilePath dir user_conf_file).length =
      min 100 dir.length + (min 20 user_conf_file.length + 1) := by
  simp [userFilePath]

theorem userFilePath_passes (dir user_conf_file : Text) :
    ¬ (userFilePath dir user_conf_file).length < 1 ∧
      ¬ (userFilePath dir user_conf_file).length > maxLen + 1 := by
  have length := length_userFilePath dir user_conf_file
  simp only [maxLen]
  omega

theorem readChosFile_eq (files : Text → UserFile)
    (user_conf_file dir osenv : Text) :
    readChosFile files user_conf_file dir osenv =
      readOpened (files (userFilePath dir user_conf_file)) osenv := by
  obtain ⟨notShort, notLong⟩ := userFilePath_passes dir user_conf_file
  simp only [readChosFile, notShort, notLong, if_false]
  rfl

/-- The buffer with the bytes read and the NUL that is stored after them. -/
theorem readOpened_of_some {file : UserFile} {content : Text}
    (opened : file.content = some content) (osenv : Text) :
    readOpened file osenv =
      if file.closes then
        finishName file.read.length
          ((file.read ++ osenv.drop file.read.length).set file.read.length 0)
      else
        (-1, (file.read ++ osenv.drop file.read.length).set
          file.read.length 0) := by
  have same : (if file.reads = true then content.take maxLine else []) =
      file.read := by
    rw [UserFile.read, opened, Option.getD_some]
  rw [readOpened, opened]
  dsimp only
  rw [same]

theorem length_stored (file : UserFile) (buffer : LineBuffer) :
    ((file.read ++ buffer.bytes.drop file.read.length).set
      file.read.length 0).length = maxLine + 1 := by
  have size := buffer.size
  have few := file.length_read
  rw [List.length_set, List.length_append, List.length_drop]
  omega

/-- Without an error the name is found in a buffer that begins with what was
read. -/
theorem readOpened_of_succeeds {file : UserFile} (succeeds : ¬ file.Fails)
    (buffer : LineBuffer) :
    ∃ osenv : Text, osenv.length = maxLine + 1 ∧
      osenv.take file.read.length = file.read ∧
      readOpened file buffer.bytes = finishName file.read.length osenv := by
  cases opened : file.content with
  | none =>
      have nothing : file.read = [] := by
        simp [UserFile.read, opened]
      refine ⟨buffer.bytes, buffer.size, ?_, ?_⟩
      · rw [nothing]
        rfl
      · rw [readOpened, opened, nothing]
        rfl
  | some content =>
      have closes : file.closes = true := by
        apply Bool.eq_true_of_not_eq_false
        intro fails
        exact succeeds ⟨by rw [opened]; exact Option.some_ne_none _, fails⟩
      refine ⟨_, length_stored file buffer, by simp, ?_⟩
      rw [readOpened_of_some opened, if_pos closes]

theorem cString_readOpened {file : UserFile} (succeeds : ¬ file.Fails)
    (buffer : LineBuffer) :
    cString (readOpened file buffer.bytes).2 = file.name := by
  obtain ⟨osenv, size, start, same⟩ :=
    readOpened_of_succeeds succeeds buffer
  have few := file.length_read
  rw [same, cString_finishName (by omega) (by omega), start, UserFile.name]
  simp only [List.length_eq_zero_iff]

theorem readOpened_count {file : UserFile} (succeeds : ¬ file.Fails)
    (buffer : LineBuffer) :
    (readOpened file buffer.bytes).1 =
      if file.read = [] then (defaultEnvName.length + 1 : Int)
      else file.read.length := by
  obtain ⟨osenv, _, _, same⟩ := readOpened_of_succeeds succeeds buffer
  rw [same, finishName_eq]
  simp only [withDefault, List.length_eq_zero_iff]
  split <;> rfl

theorem cString_readChosFile {files : Text → UserFile}
    {user_conf_file dir : Text} (buffer : LineBuffer)
    (closes : (files (userFilePath dir user_conf_file)).closes = true) :
    0 ≤ (readChosFile files user_conf_file dir buffer.bytes).1 ∧
      cString (readChosFile files user_conf_file dir buffer.bytes).2 =
        (files (userFilePath dir user_conf_file)).name := by
  have succeeds : ¬ (files (userFilePath dir user_conf_file)).Fails := by
    rintro ⟨_, fails⟩
    rw [closes] at fails
    cases fails
  rw [readChosFile_eq, cString_readOpened succeeds buffer,
    readOpened_count succeeds buffer]
  refine ⟨?_, rfl⟩
  split <;> omega

theorem UserFile.clean_name (file : UserFile) : Clean false file.name := by
  unfold UserFile.name
  split
  · exact clean_defaultEnvName
  · exact clean_sanitized false _

theorem UserFile.length_name (file : UserFile) :
    file.name.length ≤ maxLine := by
  unfold UserFile.name
  split
  · decide
  · exact Nat.le_trans (length_sanitized_le false _) file.length_read

namespace Child

/-- The calls of `get_chos_info` succeed, but for the one that reads the
user's file, and the options are those in `cfg`. -/
structure Works (child : Child) (cfg : PamChosConfig) : Prop where
  parsed : parsePamChosArgs initPamChosConfig child.argv = some cfg
  closes : (child.files (userFilePath child.user_conf_dir.text
    cfg.user_conf_file)).closes = true
  fdopen : child.fdopen = true
  fclose : child.fclose = true

def fileName (child : Child) (cfg : PamChosConfig) : Text :=
  cString (readChosFile child.files cfg.user_conf_file
    child.user_conf_dir.text child.stack.bytes).2

/-- `$CHOS` if it is set and not too long, else the user's file. -/
def name (child : Child) (cfg : PamChosConfig) : Text :=
  match child.chos with
  | none => child.fileName cfg
  | some env =>
      if env.text.length ≤ maxLine then sanitized false env.text
      else child.fileName cfg

/-- The documented order: the path of the name; else the default environment
where it applies, and the root environment without one; else the name. -/
def path (child : Child) (cfg : PamChosConfig) : Text :=
  match Pam.checkChos child.conf (child.name cfg) with
  | some path => path
  | none =>
      if child.name cfg = defaultEnvName ∨ cfg.fail_to_default = 1 then
        (Pam.checkChos child.conf defaultEnvName).getD Kernel.rootText
      else child.name cfg

/-- The default environment is called for and not configured. -/
def Stranded (child : Child) (cfg : PamChosConfig) : Prop :=
  Pam.checkChos child.conf (child.name cfg) = none ∧
    (child.name cfg = defaultEnvName ∨ cfg.fail_to_default = 1) ∧
    Pam.checkChos child.conf defaultEnvName = none

instance (child : Child) (cfg : PamChosConfig) :
    Decidable (child.Stranded cfg) :=
  inferInstanceAs (Decidable (_ ∧ _ ∧ _))

theorem cString_strncpy {text : Text} (terminated : 0 ∉ text)
    (short : text.length < maxLine + 1) (dest : Text) :
    cString (strncpy dest text (maxLine + 1)) = text := by
  have room : maxLine + 1 - text.length =
      (maxLine - text.length) + 1 := by omega
  rw [strncpy, List.take_of_length_le (Nat.le_of_lt short), room,
    List.replicate_succ, List.append_assoc, List.cons_append,
    cString_append_zero, cString_of_terminated terminated]

theorem cString_osenv (child : Child) (cfg : PamChosConfig) :
    cString (child.osenv (readChosFile child.files cfg.user_conf_file
      child.user_conf_dir.text child.stack.bytes).2) = child.name cfg := by
  unfold osenv name
  cases child.chos with
  | none => rfl
  | some env =>
      dsimp only
      by_cases short : env.text.length ≤ maxLine
      · rw [if_neg (Nat.not_lt_of_le short), if_pos short, sanitizeName,
          cString_sanitizeStr_length,
          cString_strncpy env.terminated (Nat.lt_succ_of_le short)]
      · rw [if_pos (Nat.lt_of_not_le short), if_neg short]
        rfl

theorem clean_name {child : Child} {cfg : PamChosConfig}
    (works : child.Works cfg) : Clean false (child.name cfg) := by
  have fromFile : Clean false (child.fileName cfg) := by
    rw [fileName, (cString_readChosFile child.stack works.closes).2]
    exact UserFile.clean_name _
  unfold name
  split
  · exact fromFile
  · split
    · exact clean_sanitized false _
    · exact fromFile

theorem length_name {child : Child} {cfg : PamChosConfig}
    (works : child.Works cfg) : (child.name cfg).length ≤ maxLine := by
  have fromFile : (child.fileName cfg).length ≤ maxLine := by
    rw [fileName, (cString_readChosFile child.stack works.closes).2]
    exact UserFile.length_name _
  unfold name
  split
  · exact fromFile
  · split
    · rename_i short
      exact Nat.le_trans (length_sanitized_le false _) short
    · exact fromFile

theorem parsed_fail_to_default {cfg final : PamChosConfig}
    {argv : List CString} (small : cfg.fail_to_default ≤ 1)
    (parsed : parsePamChosArgs cfg argv = some final) :
    final.fail_to_default ≤ 1 := by
  induction argv generalizing cfg with
  | nil =>
      cases parsed
      exact small
  | cons arg argv induction =>
      rw [parsePamChosArgs] at parsed
      cases first : parseArg cfg arg.text with
      | none =>
          rw [first] at parsed
          cases parsed
      | some middle =>
          rw [first] at parsed
          apply induction _ parsed
          unfold parseArg at first
          dsimp only at first
          split at first
          · split at first
            · cases first
              exact Nat.zero_le 1
            · split at first
              · cases first
                exact Nat.le_refl 1
              · cases first
          · cases first
            split
            · exact small
            · exact small

theorem checkChos_congr {file : ConfFile} {left right : Text}
    (same : cString left = cString right) :
    Pam.checkChos file left = Pam.checkChos file right := by
  unfold Pam.checkChos checkChosIn
  rw [same]

/-- `get_chos_info` with all calls succeeding: the path that was found with
the name, or no return. -/
theorem getChosInfo_of_works {child : Child} {cfg : PamChosConfig}
    (works : child.Works cfg) :
    getChosInfo child =
      if child.Stranded cfg then none
      else some (1, child.path cfg ++
        newline :: (child.name cfg ++ [newline])) := by
  have count := (cString_readChosFile child.stack works.closes).1
  have named := child.cString_osenv cfg
  have option : cfg.fail_to_default > 0 ↔ cfg.fail_to_default = 1 := by
    have small := parsed_fail_to_default (Nat.zero_le 1) works.parsed
    omega
  unfold getChosInfo
  simp only [works.parsed, Int.not_lt.mpr count, works.fdopen, works.fclose,
    not_true_eq_false, if_false, if_true, os, named, option]
  have looked : Pam.checkChos child.conf (child.osenv (readChosFile
      child.files cfg.user_conf_file child.user_conf_dir.text
      child.stack.bytes).2) = Pam.checkChos child.conf (child.name cfg) := by
    apply checkChos_congr
    rw [named, cString_of_terminated (clean_name works).terminated]
  rw [looked]
  by_cases stranded : child.Stranded cfg
  · rw [if_pos stranded]
    obtain ⟨unknown, falls, missing⟩ := stranded
    simp [unknown, falls, missing]
  · rw [if_neg stranded, path]
    cases found : Pam.checkChos child.conf (child.name cfg) with
    | some path => rfl
    | none =>
        by_cases falls :
            child.name cfg = defaultEnvName ∨ cfg.fail_to_default = 1
        · cases fallback : Pam.checkChos child.conf defaultEnvName with
          | none => exact absurd ⟨found, falls, fallback⟩ stranded
          | some path => simp [falls]
        · simp [falls]

theorem checkChos_plain {file : ConfFile} {name path : Text}
    (found : Pam.checkChos file name = some path) :
    newline ∉ path ∧ 0 ∉ path ∧ path.length < maxLine := by
  obtain ⟨fits, plain, terminated⟩ := checkChosIn_line found
  refine ⟨plain, terminated, ?_⟩
  rw [Nat.add_sub_cancel] at fits
  omega

theorem path_plain {child : Child} {cfg : PamChosConfig}
    (works : child.Works cfg) :
    newline ∉ child.path cfg ∧ 0 ∉ child.path cfg ∧
      (child.path cfg).length ≤ maxLine := by
  have found : ∀ {name path : Text},
      Pam.checkChos child.conf name = some path →
      newline ∉ path ∧ 0 ∉ path ∧ path.length ≤ maxLine := by
    intro name path looked
    obtain ⟨plain, terminated, short⟩ := checkChos_plain looked
    exact ⟨plain, terminated, Nat.le_of_lt short⟩
  unfold path
  cases looked : Pam.checkChos child.conf (child.name cfg) with
  | some path => exact found looked
  | none =>
      dsimp only
      split
      · cases fallback : Pam.checkChos child.conf defaultEnvName with
        | some path => exact found fallback
        | none => decide
      · exact ⟨(clean_name works).plain, (clean_name works).terminated,
          length_name works⟩

/-- `get_chos_info` returns 1 and writes path and name, one line each, in the
documented order, if and only if it is not left without a default
environment. -/
theorem getChosInfo_selects_iff {child : Child} {cfg : PamChosConfig}
    (works : child.Works cfg) :
    (getChosInfo child = some (1, child.path cfg ++
        newline :: (child.name cfg ++ [newline])) ∧
      newline ∉ child.path cfg ∧ newline ∉ child.name cfg) ↔
      ¬ child.Stranded cfg := by
  rw [getChosInfo_of_works works]
  constructor
  · rintro ⟨written, _⟩ stranded
    rw [if_pos stranded] at written
    cases written
  · intro found
    exact ⟨if_neg found, (path_plain works).1, (clean_name works).plain⟩

def plain (content : Text) (chos : Option CString) : Child :=
  { argv := []
    user_conf_dir := ⟨ascii "/home", by decide⟩
    files := fun _ => ⟨none, true, true⟩
    chos := chos
    conf := ⟨true, true, 0, content⟩
    stack := ⟨List.replicate 81 0, by decide⟩
    fdopen := true
    fclose := true }

theorem plain_works (content : Text) (chos : Option CString) :
    (plain content chos).Works initPamChosConfig :=
  ⟨rfl, rfl, rfl, rfl⟩

theorem getChosInfo_selects_iff_sample :
    getChosInfo (plain (ascii "# comment\n%SHELLS\nlocal:/\n\n%ENV\n")
        (some ⟨ascii "local", by decide⟩)) =
      some (1, ascii "/\nlocal\n") := by
  have written := ((getChosInfo_selects_iff
    (plain_works (ascii "# comment\n%SHELLS\nlocal:/\n\n%ENV\n")
      (some ⟨ascii "local", by decide⟩))).mpr (by decide +kernel)).1
  rw [written]
  decide +kernel

/-- The sample configuration has no default environment: without `$CHOS` and
a file of the user's there is no path to write. -/
theorem no_default_no_path :
    getChosInfo (plain (ascii "# comment\n%SHELLS\nlocal:/\n\n%ENV\n") none) =
        none ∧
      (plain (ascii "# comment\n%SHELLS\nlocal:/\n\n%ENV\n") none).name
        initPamChosConfig = defaultEnvName ∧
      (plain (ascii "# comment\n%SHELLS\nlocal:/\n\n%ENV\n") none).path
        initPamChosConfig = ascii "/" := by
  decide +kernel

end Child

end Chos.User
