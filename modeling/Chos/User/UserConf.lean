import Mathlib.Tactic.Ring
import Chos.User.Selection

/-!
# Which file is consulted

`parse_pam_chos_args` as the last value of each option, and the path that
`read_chos_file` opens.  The precisions in the format of the path cut both of
its parts before the length is tested, so that the test never fails.
-/

namespace Chos.User

open Chos.Library
open Chos.Kernel (Text cString)

/-- The value of an argument of the form `option=value`. -/
def valueOf (option arg : Text) : Option Text :=
  if arg.take option.length = option then some (arg.drop option.length)
  else none

/-- The same for a value that is not empty. -/
def givenValue (option arg : Text) : Option Text :=
  (valueOf option arg).filter (· ≠ [])

def valuesOf (option : Text) (argv : List CString) : List Text :=
  argv.filterMap fun arg => valueOf option arg.text

def givenValues (option : Text) (argv : List CString) : List Text :=
  argv.filterMap fun arg => givenValue option arg.text

/-- The first character decides, as the `switch` has it. -/
def switchValue (value : Text) : Option Nat :=
  match value with
  | [] => none
  | val :: _ =>
      if val = '0'.toUInt8 then some 0
      else if val = '1'.toUInt8 then some 1
      else none

/-- What one argument that is accepted does to the configuration. -/
def PamChosConfig.update (cfg : PamChosConfig) (arg : CString) :
    PamChosConfig where
  user_conf_file :=
    ((givenValue userConfFileOption arg.text).map
      (·.take maxLen)).getD cfg.user_conf_file
  fail_to_default :=
    ((givenValue failToDefaultOption arg.text).bind
      switchValue).getD cfg.fail_to_default

/-- The option is absent, or its value begins with one of the two digits. -/
def Accepted (arg : CString) : Prop :=
  ∀ value, givenValue failToDefaultOption arg.text = some value →
    switchValue value ≠ none

theorem givenValue_eq_some_iff {option arg value : Text} :
    givenValue option arg = some value ↔
      value ≠ [] ∧ arg = option ++ value := by
  rw [givenValue, Option.filter_eq_some_iff, valueOf, decide_eq_true_eq]
  constructor
  · rintro ⟨found, nonempty⟩
    split at found
    · rename_i starts
      cases found
      refine ⟨nonempty, ?_⟩
      conv_lhs => rw [← List.take_append_drop option.length arg, starts]
    · cases found
  · rintro ⟨nonempty, rfl⟩
    refine ⟨?_, nonempty⟩
    rw [List.take_left, if_pos rfl, List.drop_left]

theorem argmatch_eq (arg option : Text) :
    Pam.argmatch arg option = (givenValue option arg).isSome := by
  unfold Pam.argmatch givenValue valueOf
  by_cases starts : arg.take option.length = option
  · by_cases short : arg.length < option.length + 1
    · have nothing : arg.drop option.length = [] :=
        List.drop_eq_nil_of_le (Nat.le_of_lt_succ short)
      simp [short, starts, nothing]
    · have something : arg.drop option.length ≠ [] := by
        rw [Ne, List.drop_eq_nil_iff]
        omega
      simp [short, starts, something]
  · simp [starts]

theorem parseArg_eq_some_iff {cfg next : PamChosConfig} {arg : CString} :
    parseArg cfg arg.text = some next ↔
      Accepted arg ∧ next = cfg.update arg := by
  unfold parseArg Accepted PamChosConfig.update
  simp only [argmatch_eq]
  have file : (if (givenValue userConfFileOption arg.text).isSome = true then
        { cfg with user_conf_file :=
            (arg.text.drop userConfFileOption.length).take maxLen }
      else cfg) =
      { cfg with user_conf_file :=
          ((givenValue userConfFileOption arg.text).map
            (·.take maxLen)).getD cfg.user_conf_file } := by
    cases found : givenValue userConfFileOption arg.text with
    | none => rfl
    | some value =>
        obtain ⟨_, same⟩ := givenValue_eq_some_iff.mp found
        simp [same]
  rw [file]
  cases found : givenValue failToDefaultOption arg.text with
  | none => simp [eq_comm]
  | some value =>
      obtain ⟨nonempty, same⟩ := givenValue_eq_some_iff.mp found
      obtain ⟨val, rest, rfl⟩ := List.exists_cons_of_ne_nil nonempty
      have first : arg.text.getD failToDefaultOption.length 0 = val := by
        rw [same, List.getD_eq_getElem?_getD,
          List.getElem?_append_right (Nat.le_refl _), Nat.sub_self]
        rfl
      simp only [Option.isSome_some, if_true, first, Option.bind_some,
        switchValue, Option.some.injEq, forall_eq']
      by_cases zero : val = '0'.toUInt8
      · simp [zero, eq_comm]
      · by_cases one : val = '1'.toUInt8
        · subst one
          have distinct : '1'.toUInt8 ≠ '0'.toUInt8 := by decide
          simp [distinct, eq_comm]
        · simp [zero, one]

theorem parsePamChosArgs_eq_some_iff {cfg final : PamChosConfig}
    {argv : List CString} :
    parsePamChosArgs cfg argv = some final ↔
      (∀ arg ∈ argv, Accepted arg) ∧
        final = argv.foldl PamChosConfig.update cfg := by
  induction argv generalizing cfg with
  | nil => simp [parsePamChosArgs, eq_comm]
  | cons arg argv induction =>
      rw [parsePamChosArgs, List.forall_mem_cons, List.foldl_cons]
      cases first : parseArg cfg arg.text with
      | none =>
          have refused : ¬ Accepted arg := by
            intro accepted
            have parsed :=
              (@parseArg_eq_some_iff cfg _ arg).mpr ⟨accepted, rfl⟩
            rw [first] at parsed
            cases parsed
          simp [refused]
      | some middle =>
          obtain ⟨accepted, rfl⟩ := parseArg_eq_some_iff.mp first
          simp only [induction, accepted, true_and]

/-- Where an item has a value it replaces the one before, so that the last
value stays. -/
theorem foldl_getD_eq_getLast? {α β : Type*} (given : β → Option α)
    (items : List β) (start : α) :
    items.foldl (fun value item => (given item).getD value) start =
      (items.filterMap given).getLast?.getD start := by
  induction items generalizing start with
  | nil => rfl
  | cons item items induction =>
      rw [List.foldl_cons, induction]
      cases found : given item with
      | none => rw [List.filterMap_cons_none found, Option.getD_none]
      | some value =>
          rw [List.filterMap_cons_some found, List.getLast?_cons,
            Option.getD_some, Option.getD_some]

theorem user_conf_file_foldl (cfg : PamChosConfig) (argv : List CString) :
    (argv.foldl PamChosConfig.update cfg).user_conf_file =
      ((givenValues userConfFileOption argv).getLast?.map
        (·.take maxLen)).getD cfg.user_conf_file := by
  have step : ∀ cfg : PamChosConfig,
      (argv.foldl PamChosConfig.update cfg).user_conf_file =
        argv.foldl (fun file arg =>
          ((givenValue userConfFileOption arg.text).map
            (·.take maxLen)).getD file) cfg.user_conf_file := by
    induction argv with
    | nil => exact fun _ => rfl
    | cons arg argv induction => exact fun cfg => induction (cfg.update arg)
  rw [step, foldl_getD_eq_getLast?, givenValues, ← List.getLast?_map,
    List.map_filterMap]

theorem fail_to_default_foldl (cfg : PamChosConfig) (argv : List CString) :
    (argv.foldl PamChosConfig.update cfg).fail_to_default =
      ((givenValues failToDefaultOption argv).filterMap
        switchValue).getLast?.getD cfg.fail_to_default := by
  have step : ∀ cfg : PamChosConfig,
      (argv.foldl PamChosConfig.update cfg).fail_to_default =
        argv.foldl (fun number arg =>
          ((givenValue failToDefaultOption arg.text).bind
            switchValue).getD number) cfg.fail_to_default := by
    induction argv with
    | nil => exact fun _ => rfl
    | cons arg argv induction => exact fun cfg => induction (cfg.update arg)
  rw [step, foldl_getD_eq_getLast?, givenValues, List.filterMap_filterMap]

def decimal (value : Text) : Option Nat :=
  if value ≠ [] ∧ value.all fun c => '0'.toUInt8 ≤ c ∧ c ≤ '9'.toUInt8 then
    some (value.foldl (fun number c => 10 * number + (c.toNat - 48)) 0)
  else none

/-- The numerals that have the number of their first digit: the numeral of
one, and those of zero. -/
def Understood (value : Text) : Prop :=
  value = ascii "1" ∨ (value ≠ [] ∧ ∀ c ∈ value, c = '0'.toUInt8)

instance (value : Text) : Decidable (Understood value) :=
  inferInstanceAs (Decidable (_ ∨ _))

theorem foldl_digits_ge (digits : Text) (start : Nat) :
    start * 10 ^ digits.length ≤
      digits.foldl (fun number c => 10 * number + (c.toNat - 48)) start := by
  induction digits generalizing start with
  | nil => simp
  | cons c digits induction =>
      rw [List.length_cons, List.foldl_cons, Nat.pow_succ]
      calc start * (10 ^ digits.length * 10)
          = 10 * start * 10 ^ digits.length := by ring
        _ ≤ (10 * start + (c.toNat - 48)) * 10 ^ digits.length :=
            Nat.mul_le_mul_right _ (Nat.le_add_right _ _)
        _ ≤ _ := induction _

theorem foldl_digits_eq_zero_iff (digits : Text) (start : Nat) :
    digits.foldl (fun number c => 10 * number + (c.toNat - 48)) start = 0 ↔
      start = 0 ∧ ∀ c ∈ digits, c.toNat ≤ 48 := by
  induction digits generalizing start with
  | nil => simp
  | cons c digits induction =>
      rw [List.foldl_cons, induction, List.forall_mem_cons]
      constructor
      · rintro ⟨first, rest⟩
        refine ⟨?_, ?_, rest⟩ <;> omega
      · rintro ⟨zero, first, rest⟩
        refine ⟨?_, rest⟩
        omega

theorem decimal_zeros_iff (digits : Text) :
    decimal ('0'.toUInt8 :: digits) = some 0 ↔
      ∀ c ∈ digits, c = '0'.toUInt8 := by
  have exact : ∀ c : UInt8,
      ('0'.toUInt8 ≤ c ∧ c ≤ '9'.toUInt8) ∧ c.toNat ≤ 48 ↔
        c = '0'.toUInt8 := by
    intro c
    have zero : '0'.toUInt8.toNat = 48 := rfl
    have nine : '9'.toUInt8.toNat = 57 := rfl
    rw [← UInt8.toNat_inj, UInt8.le_iff_toNat_le, UInt8.le_iff_toNat_le]
    omega
  have first : '0'.toUInt8 ≤ '0'.toUInt8 ∧ '0'.toUInt8 ≤ '9'.toUInt8 := by
    decide
  simp only [decimal, List.all_eq_true, decide_eq_true_eq,
    List.forall_mem_cons, first, true_and, ne_eq, List.cons_ne_nil,
    not_false_eq_true, ite_eq_iff, Option.some.injEq, List.foldl_cons,
    foldl_digits_eq_zero_iff, reduceCtorEq, and_false, or_false]
  constructor
  · rintro ⟨digit, _, low⟩ c inside
    exact (exact c).mp ⟨digit c inside, low c inside⟩
  · intro zeros
    refine ⟨?_, rfl, ?_⟩
    · exact fun c inside => ((exact c).mpr (zeros c inside)).1
    · exact fun c inside => ((exact c).mpr (zeros c inside)).2

theorem decimal_one_iff (digits : Text) :
    decimal ('1'.toUInt8 :: digits) = some 1 ↔ digits = [] := by
  constructor
  · intro one
    have number := foldl_digits_ge digits 1
    unfold decimal at one
    split at one
    · rw [List.foldl_cons, Option.some.injEq] at one
      have same : 10 * 0 + ('1'.toUInt8.toNat - 48) = 1 := rfl
      rw [same] at one
      rw [one, Nat.one_mul] at number
      apply List.eq_nil_of_length_eq_zero
      by_contra long
      have large := Nat.one_lt_pow long (by decide : 1 < 10)
      omega
    · cases one
  · rintro rfl
    decide +kernel

theorem decimal_eq_switchValue_iff {value : Text} {number : Nat}
    (switched : switchValue value = some number) :
    decimal value = some number ↔ Understood value := by
  cases value with
  | nil => cases switched
  | cons val rest =>
      have distinct : '0'.toUInt8 ≠ '1'.toUInt8 := by decide
      have numeral : ascii "1" = ['1'.toUInt8] := by decide
      simp only [switchValue] at switched
      unfold Understood
      rw [numeral]
      split at switched
      · rename_i zero
        cases switched
        rw [zero, decimal_zeros_iff]
        simp [distinct]
      · split at switched
        · rename_i zero one
          cases switched
          rw [one, decimal_one_iff]
          simp [distinct.symm]
        · cases switched

/-- The path `read_chos_file` passes to `open`, unless it returns before. -/
def openedPath (user_conf_file dir : Text) : Option Text :=
  let userfile := userFilePath dir user_conf_file
  if userfile.length < 1 then none
  else if userfile.length > maxLen + 1 then none
  else some userfile

theorem openedPath_eq (user_conf_file dir : Text) :
    openedPath user_conf_file dir =
      some (userFilePath dir user_conf_file) := by
  obtain ⟨notShort, notLong⟩ := userFilePath_passes dir user_conf_file
  simp only [openedPath, notShort, notLong, if_false]

theorem readChosFile_eq_of_openedPath (files : Text → UserFile)
    (user_conf_file dir osenv : Text) :
    readChosFile files user_conf_file dir osenv =
      match openedPath user_conf_file dir with
      | none => (-1, osenv)
      | some userfile => readOpened (files userfile) osenv := by
  unfold readChosFile openedPath readOpened
  dsimp only
  split
  · rfl
  · split
    · rfl
    · rfl

def wholePath (user_conf_file dir : Text) : Text :=
  dir ++ '/'.toUInt8 :: user_conf_file

theorem userFilePath_eq_wholePath_iff (dir user_conf_file : Text) :
    userFilePath dir user_conf_file = wholePath user_conf_file dir ↔
      dir.length ≤ 100 ∧ user_conf_file.length ≤ 20 := by
  constructor
  · intro same
    have lengths := congrArg List.length same
    rw [length_userFilePath, wholePath, List.length_append,
      List.length_cons] at lengths
    omega
  · rintro ⟨shortDir, shortFile⟩
    rw [userFilePath, List.take_of_length_le shortDir,
      List.take_of_length_le shortFile, wholePath]

def configuredFile (argv : List CString) : Text :=
  (givenValues userConfFileOption argv).getLast?.getD userConfFileDefault

/-- The number that the last `fail_to_default` has, or the default. -/
def configuredFail (argv : List CString) : Option Nat :=
  match (valuesOf failToDefaultOption argv).getLast? with
  | none => some failToDefault
  | some value => decimal value

/-- The configuration is the one in the arguments, and the file opened is
the one in the configuration. -/
structure Consults (argv : List CString) (dir : Text)
    (cfg : PamChosConfig) : Prop where
  file : (configuredFile argv).length ≤ maxLen →
    cfg.user_conf_file = configuredFile argv
  fail : configuredFail argv = some cfg.fail_to_default
  opened : openedPath cfg.user_conf_file dir =
      some (wholePath cfg.user_conf_file dir) ∨
    (openedPath cfg.user_conf_file dir = none ∧
      maxLen < (wholePath cfg.user_conf_file dir).length)

/-- The last value of `fail_to_default`, if there is one, is a numeral that
is understood. -/
def FailUnderstood (argv : List CString) : Prop :=
  ∀ value, (valuesOf failToDefaultOption argv).getLast? = some value →
    Understood value

theorem givenValues_eq_filter (option : Text) (argv : List CString) :
    givenValues option argv = (valuesOf option argv).filter (· ≠ []) := by
  rw [givenValues, valuesOf, List.filter_filterMap]
  rfl

section Parsed

variable {argv : List CString} {cfg : PamChosConfig}
  (parsed : parsePamChosArgs initPamChosConfig argv = some cfg)

include parsed

theorem user_conf_file_eq_take :
    cfg.user_conf_file = (configuredFile argv).take maxLen := by
  obtain ⟨_, rfl⟩ := parsePamChosArgs_eq_some_iff.mp parsed
  rw [user_conf_file_foldl, configuredFile]
  cases (givenValues userConfFileOption argv).getLast? with
  | none => rfl
  | some value => rfl

theorem switchValue_last {value : Text} (nonempty : value ≠ [])
    (last : (valuesOf failToDefaultOption argv).getLast? = some value) :
    switchValue value = some cfg.fail_to_default := by
  obtain ⟨accepted, rfl⟩ := parsePamChosArgs_eq_some_iff.mp parsed
  obtain ⟨before, split⟩ := List.getLast?_eq_some_iff.mp last
  have given : givenValues failToDefaultOption argv =
      before.filter (· ≠ []) ++ [value] := by
    rw [givenValues_eq_filter, split, List.filter_append]
    simp [nonempty]
  have member : value ∈ givenValues failToDefaultOption argv := by
    rw [given]
    exact List.mem_append_right _ (List.mem_singleton_self value)
  obtain ⟨arg, inside, found⟩ := List.mem_filterMap.mp member
  cases switched : switchValue value with
  | none => exact absurd switched (accepted arg inside value found)
  | some number =>
      rw [fail_to_default_foldl, given, List.filterMap_append,
        List.filterMap_cons_some switched, List.filterMap_nil,
        List.getLast?_append_of_ne_nil _ (List.cons_ne_nil _ _)]
      rfl

theorem configuredFail_eq_iff :
    configuredFail argv = some cfg.fail_to_default ↔
      FailUnderstood argv := by
  unfold configuredFail FailUnderstood
  cases last : (valuesOf failToDefaultOption argv).getLast? with
  | none =>
      have given : givenValues failToDefaultOption argv = [] := by
        rw [givenValues_eq_filter, List.getLast?_eq_none_iff.mp last]
        rfl
      obtain ⟨_, rfl⟩ := parsePamChosArgs_eq_some_iff.mp parsed
      simp [fail_to_default_foldl, given, initPamChosConfig]
  | some value =>
      simp only [Option.some.injEq, forall_eq']
      by_cases empty : value = []
      · subst empty
        have nothing : decimal [] = none := rfl
        have unread : ¬ Understood [] := by decide
        simp [nothing, unread]
      · have switched := switchValue_last parsed empty last
        exact decimal_eq_switchValue_iff switched

end Parsed

/-- The file consulted is the configured one if and only if both parts of its
path are within the precisions, and the other option is a numeral that is
understood. -/
theorem consults_configured_iff {argv : List CString} {cfg : PamChosConfig}
    (parsed : parsePamChosArgs initPamChosConfig argv = some cfg)
    (dir : CString) :
    Consults argv dir.text cfg ↔
      dir.text.length ≤ 100 ∧ (configuredFile argv).length ≤ 20 ∧
        FailUnderstood argv := by
  have file := user_conf_file_eq_take parsed
  have cut : cfg.user_conf_file.length ≤ 20 ↔
      (configuredFile argv).length ≤ 20 := by
    rw [file, List.length_take, maxLen]
    omega
  have path := userFilePath_eq_wholePath_iff dir.text cfg.user_conf_file
  constructor
  · intro consults
    have opened : userFilePath dir.text cfg.user_conf_file =
        wholePath cfg.user_conf_file dir.text := by
      rcases consults.opened with opened | ⟨refused, _⟩
      · rw [openedPath_eq] at opened
        exact Option.some.inj opened
      · rw [openedPath_eq] at refused
        cases refused
    obtain ⟨shortDir, shortFile⟩ := path.mp opened
    exact ⟨shortDir, cut.mp shortFile,
      (configuredFail_eq_iff parsed).mp consults.fail⟩
  · rintro ⟨shortDir, shortFile, understood⟩
    refine ⟨?_, (configuredFail_eq_iff parsed).mpr understood, Or.inl ?_⟩
    · intro fits
      rw [file, List.take_of_length_le fits]
    · rw [openedPath_eq, path.mpr ⟨shortDir, cut.mpr shortFile⟩]

theorem consults_configured_iff_short :
    Consults [⟨ascii "user_conf_file=.env", by decide⟩,
        ⟨ascii "fail_to_default=1", by decide⟩] (ascii "/home")
      ⟨ascii ".env", 1⟩ := by
  have parsed : parsePamChosArgs initPamChosConfig
      [⟨ascii "user_conf_file=.env", by decide⟩,
        ⟨ascii "fail_to_default=1", by decide⟩] =
      some ⟨ascii ".env", 1⟩ := by decide +kernel
  have last : (valuesOf failToDefaultOption
      [⟨ascii "user_conf_file=.env", by decide⟩,
        ⟨ascii "fail_to_default=1", by decide⟩]).getLast? =
      some (ascii "1") := by decide +kernel
  apply (consults_configured_iff parsed ⟨ascii "/home", by decide⟩).mpr
  refine ⟨by decide, by decide +kernel, ?_⟩
  intro value found
  cases last.symm.trans found
  exact Or.inl rfl

/-- A name of 22 characters: the file that is opened lacks the last two.  In
`fail_to_default=10` only the first digit is read. -/
theorem long_name_opens_other_file :
    parsePamChosArgs initPamChosConfig
        [⟨ascii "user_conf_file=.chos_environment_name", by decide⟩] =
      some ⟨ascii ".chos_environment_name", 0⟩ ∧
    openedPath (ascii ".chos_environment_name") (ascii "/home") =
      some (ascii "/home/.chos_environment_na") ∧
    parsePamChosArgs initPamChosConfig
        [⟨ascii "fail_to_default=10", by decide⟩] =
      some ⟨ascii ".chos", 1⟩ ∧
    ¬ Consults [⟨ascii "user_conf_file=.chos_environment_name", by decide⟩]
      (ascii "/home") ⟨ascii ".chos_environment_name", 0⟩ ∧
    ¬ Consults [⟨ascii "fail_to_default=10", by decide⟩] (ascii "/home")
      ⟨ascii ".chos", 1⟩ := by
  have opened : openedPath (ascii ".chos_environment_name")
      (ascii "/home") = some (ascii "/home/.chos_environment_na") := by
    decide +kernel
  refine ⟨by decide +kernel, opened, by decide +kernel, ?_, ?_⟩
  · intro consults
    rcases consults.opened with whole | ⟨refused, _⟩
    · have same := opened.symm.trans whole
      revert same
      decide +kernel
    · cases opened.symm.trans refused
  · intro consults
    have number := consults.fail
    revert number
    decide +kernel

end Chos.User
