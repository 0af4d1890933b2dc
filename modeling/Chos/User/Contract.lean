import Chos.User.Alphabet
import Chos.User.UserConf

/-!
# The contract of `read_chos_file`

What its header promises, for every user's file: first with all accesses to
`osenv` checked, then for what is left in it and what is returned.  One count
stands for the bytes read, for the bytes scanned and for the return value.
-/

namespace Chos.User

open Chos.Library
open Chos.Kernel (Text cString)

namespace Checked

open Buffer

/-- The loop that looks for a newline or NUL. -/
def scan (osenv : Text) : Nat → Nat → Except Nat Nat
  | 0, i => .ok i
  | remaining + 1, i => do
      let c ← load osenv i
      if c = newline ∨ c = 0 then .ok i else scan osenv remaining (i + 1)

/-- `strlen` of a buffer without a NUL goes on after its end. -/
def strlen (s : Text) : Except Nat Nat :=
  if 0 ∈ s then .ok (cString s).length else .error s.length

def finishName (count : Nat) (osenv : Text) : Except Nat (Int × Text) := do
  let (count, osenv) ←
    if count = 0 then
      let osenv ← storeAll osenv 0 (defaultEnvName ++ [0])
      .ok (defaultEnvName.length + 1, osenv)
    else .ok (count, osenv)
  let i ← scan osenv count 0
  let osenv ← store osenv i 0
  let length ← strlen osenv
  let (_, osenv) ← sanitizeStr osenv length false
  .ok (count, osenv)

/-- `read_chos_file` with every access to `osenv` checked. -/
def readChosFile (files : Text → UserFile) (user_conf_file dir osenv : Text) :
    Except Nat (Int × Text) :=
  match openedPath user_conf_file dir with
  | none => .ok (-1, osenv)
  | some userfile =>
      let conf := files userfile
      match conf.content with
      | none => finishName 0 osenv
      | some content => do
          let read := if conf.reads then content.take maxLine else []
          let osenv ← storeAll osenv 0 read
          let osenv ← store osenv read.length 0
          if conf.closes then finishName read.length osenv
          else .ok (-1, osenv)

theorem scan_of_fits {osenv : Text} {remaining i : Nat}
    (fits : i + remaining ≤ osenv.length) :
    scan osenv remaining i = .ok (Kernel.scan osenv remaining i) := by
  induction remaining generalizing i with
  | zero => rfl
  | succ remaining induction =>
      have inside : i < osenv.length := by omega
      have here : osenv.getD i 0 = osenv[i] := by
        rw [List.getD_eq_getElem?_getD, List.getElem?_eq_getElem inside,
          Option.getD_some]
      rw [scan, load_of_lt inside, Kernel.scan, here]
      simp only [bind, Except.bind]
      by_cases stops : osenv[i] = newline ∨ osenv[i] = 0
      · have ends : ¬ (osenv[i] ≠ newline ∧ osenv[i] ≠ 0) := by
          rintro ⟨plain, nonzero⟩
          exact stops.elim plain nonzero
        exact (if_pos stops).trans (congrArg Except.ok (if_neg ends).symm)
      · have goes : osenv[i] ≠ newline ∧ osenv[i] ≠ 0 := not_or.mp stops
        rw [if_neg stops, induction (by omega)]
        exact congrArg Except.ok (if_pos goes).symm

theorem scan_le (osenv : Text) (remaining i : Nat) :
    Kernel.scan osenv remaining i ≤ i + remaining := by
  rw [Kernel.scan_eq_length_trim]
  apply Nat.add_le_add_left
  exact Nat.le_trans (List.takeWhile_sublist _).length_le
    (List.length_take_le _ _)

theorem strlen_of_mem {s : Text} (terminated : 0 ∈ s) :
    strlen s = .ok (cString s).length :=
  if_pos terminated

theorem scan_lt {osenv : Text} {count : Nat} (inside : count < osenv.length) :
    Kernel.scan osenv count 0 < osenv.length := by
  have bound := scan_le osenv count 0
  omega

theorem mem_ended {osenv : Text} {count : Nat}
    (inside : count < osenv.length) :
    0 ∈ osenv.set (Kernel.scan osenv count 0) 0 :=
  List.mem_set (scan_lt inside) 0

theorem endName_of_lt {osenv : Text} {count : Nat}
    (inside : count < osenv.length) :
    (do
      let i ← scan osenv count 0
      let osenv ← store osenv i 0
      let length ← strlen osenv
      let (_, osenv) ← sanitizeStr osenv length false
      .ok ((count : Int), osenv)) =
    Except.ok ((count : Int), endName count osenv) := by
  have sanitize := sanitizeStr_of_le (length_cString_le
    (osenv.set (Kernel.scan osenv count 0) 0)) false
  rw [scan_of_fits (by omega)]
  simp only [bind, Except.bind, store_of_lt (scan_lt inside),
    strlen_of_mem (mem_ended inside), sanitize, endName, sanitizeName]

theorem finishName_of_lt {osenv : Text} {count : Nat}
    (inside : count < osenv.length) (large : maxLine < osenv.length) :
    finishName count osenv = .ok (User.finishName count osenv) := by
  have within := withDefault_lt inside large
  rw [finishName_eq]
  unfold finishName
  by_cases none : count = 0
  · simp only [withDefault, none, if_true] at within ⊢
    have eight : (defaultEnvName ++ [0]).length = 8 := by decide
    have stored : storeAll osenv 0 (defaultEnvName ++ [0]) =
        .ok (storeString osenv defaultEnvName) := by
      simp only [maxLine] at large
      rw [storeAll_zero (by omega), storeString, List.length_append,
        List.append_assoc]
      rfl
    simp only [stored, bind, Except.bind]
    exact endName_of_lt within
  · simp only [withDefault, none, if_false, bind, Except.bind]
    exact endName_of_lt inside

/-- All accesses of `read_chos_file` are within the `MAXLINE+1` bytes. -/
theorem readChosFile_eq (files : Text → UserFile) (user_conf_file dir : Text)
    (buffer : LineBuffer) :
    readChosFile files user_conf_file dir buffer.bytes =
      .ok (User.readChosFile files user_conf_file dir buffer.bytes) := by
  have size := buffer.size
  rw [User.readChosFile_eq, readChosFile, openedPath_eq]
  dsimp only
  generalize files (userFilePath dir user_conf_file) = file
  cases opened : file.content with
  | none =>
      rw [readOpened, opened]
      exact finishName_of_lt (by omega) (by omega)
  | some content =>
      have few := file.length_read
      have same : (if file.reads = true then content.take maxLine else []) =
          file.read := by
        rw [UserFile.read, opened, Option.getD_some]
      have length := length_stored file buffer
      have within : file.read.length <
          (file.read ++ buffer.bytes.drop file.read.length).length := by
        rw [List.length_set] at length
        omega
      rw [readOpened_of_some opened]
      dsimp only
      rw [same, storeAll_zero (by omega)]
      simp only [bind, Except.bind, store_of_lt within]
      split
      · exact finishName_of_lt (by omega) (by omega)
      · rfl

end Checked

/-- The entry of the user's file: what stands before the first newline or NUL
of the bytes read. -/
def UserFile.entry (file : UserFile) : Text :=
  file.read.takeWhile fun c => c ≠ newline ∧ c ≠ 0

def nameChar (c : UInt8) : UInt8 :=
  if Documented false c then c else '_'.toUInt8

/-- What `pam_chos.h` promises of the return value and of `osenv`. -/
structure Contract (file : UserFile) (ret : Int) (osenv : Text) :
    Prop where
  size : osenv.length = maxLine + 1
  terminated : 0 ∈ osenv
  failed : ret = -1 ↔ file.Fails
  named : ret ≠ -1 → file.entry ≠ [] →
    cString osenv = file.entry.map nameChar
  default : ret ≠ -1 → file.entry = [] → cString osenv = defaultEnvName
  counted : ret ≠ -1 → ret = (cString osenv).length + 1

/-- Nothing is read, or a name with its newline or NUL and nothing after
it. -/
def UserFile.OneName (file : UserFile) : Prop :=
  file.read = [] ∨
    (file.entry ≠ [] ∧ file.read.length = file.entry.length + 1)

instance (file : UserFile) : Decidable file.OneName :=
  inferInstanceAs (Decidable (_ ∨ _))

theorem sanitizeChar_eq_nameChar {c : UInt8} (plain : c ≠ newline)
    (nonzero : c ≠ 0) : sanitizeChar false c = nameChar c := by
  by_cases documented : Documented false c
  · rw [nameChar, if_pos documented]
    exact sanitizeChar_of_allowed (Or.inr documented)
  · rw [nameChar, if_neg documented]
    apply sanitizeChar_of_other plain
    · rintro (zero | allowed)
      · exact nonzero zero
      · exact documented allowed
    · rintro ⟨path, _⟩
      cases path

namespace UserFile

theorem plain_of_mem_entry {file : UserFile} {c : UInt8}
    (inside : c ∈ file.entry) : c ≠ newline ∧ c ≠ 0 := by
  have plain := List.mem_takeWhile_imp inside
  rwa [decide_eq_true_eq] at plain

theorem sanitized_read (file : UserFile) :
    sanitized false file.read = file.entry.map nameChar := by
  rw [← sanitized_takeWhile]
  calc sanitized false file.entry
      = file.entry.map (sanitizeChar false) := by
        apply sanitized_of_plain
        · exact fun inside => (plain_of_mem_entry inside).2 rfl
        · exact fun inside => (plain_of_mem_entry inside).1 rfl
    _ = file.entry.map nameChar := by
        apply List.map_congr_left
        intro c inside
        obtain ⟨plain, nonzero⟩ := plain_of_mem_entry inside
        exact sanitizeChar_eq_nameChar plain nonzero

theorem entry_nil {file : UserFile} (nothing : file.read = []) :
    file.entry = [] := by
  rw [entry, nothing, List.takeWhile_nil]

end UserFile

theorem mem_sanitizeName {osenv : Text} (terminated : 0 ∈ osenv) :
    0 ∈ (sanitizeName osenv (cString osenv).length).2 := by
  rcases eq_cString_append osenv with whole | ⟨rest, split⟩
  · rw [whole] at terminated
    exact absurd terminated (terminated_cString osenv)
  · rw [sanitizeName, sanitizeStr_eq]
    apply List.mem_append_right
    generalize cString osenv = string at split ⊢
    rw [split, List.drop_left]
    exact List.mem_cons_self

/-- `osenv` ends with a NUL, whatever the name is. -/
theorem mem_finishName {osenv : Text} {count : Nat}
    (inside : count < osenv.length) (large : maxLine < osenv.length) :
    0 ∈ (finishName count osenv).2 := by
  rw [finishName_eq]
  apply mem_sanitizeName
  exact Checked.mem_ended (withDefault_lt inside large)

theorem length_finishName {osenv : Text} (count : Nat)
    (large : maxLine < osenv.length) :
    (finishName count osenv).2.length = osenv.length := by
  rw [finishName_eq, endName, sanitizeName, length_sanitizeStr,
    List.length_set, length_withDefault count large]

theorem readOpened_buffer (file : UserFile) (buffer : LineBuffer) :
    (readOpened file buffer.bytes).2.length = maxLine + 1 ∧
      0 ∈ (readOpened file buffer.bytes).2 := by
  have few := file.length_read
  by_cases fails : file.Fails
  · obtain ⟨opened, closes⟩ := fails
    obtain ⟨content, opened⟩ := Option.ne_none_iff_exists'.mp opened
    have length := length_stored file buffer
    rw [readOpened_of_some opened, if_neg (by simp [closes])]
    refine ⟨length, List.mem_set ?_ 0⟩
    rw [List.length_set] at length
    omega
  · obtain ⟨osenv, size, _, same⟩ := readOpened_of_succeeds fails buffer
    rw [same]
    refine ⟨?_, mem_finishName (by omega) (by omega)⟩
    exact (length_finishName _ (by omega)).trans size

inductive ReadOutcome (file : UserFile) (ret : Int) (osenv : Text) : Prop
  | failed (fails : file.Fails) (minus : ret = -1)
  | nothing (succeeds : ¬ file.Fails) (none : file.read = [])
      (name : cString osenv = defaultEnvName)
      (count : ret = defaultEnvName.length + 1)
  | something (succeeds : ¬ file.Fails) (some : file.read ≠ [])
      (name : cString osenv = file.entry.map nameChar)
      (count : ret = file.read.length)

theorem readOpened_outcome (file : UserFile) (buffer : LineBuffer) :
    ReadOutcome file (readOpened file buffer.bytes).1
      (readOpened file buffer.bytes).2 := by
  by_cases fails : file.Fails
  · refine .failed fails ?_
    obtain ⟨opened, closes⟩ := fails
    obtain ⟨content, opened⟩ := Option.ne_none_iff_exists'.mp opened
    rw [readOpened_of_some opened, if_neg (by simp [closes])]
  · have name := cString_readOpened fails buffer
    have count := readOpened_count fails buffer
    rw [UserFile.name] at name
    by_cases nothing : file.read = []
    · rw [if_pos nothing] at name count
      exact .nothing fails nothing name count
    · rw [if_neg nothing] at name count
      rw [file.sanitized_read] at name
      exact .something fails nothing name count

theorem ReadOutcome.contract_iff {file : UserFile} {ret : Int}
    {osenv : Text} (outcome : ReadOutcome file ret osenv)
    (size : osenv.length = maxLine + 1) (terminated : 0 ∈ osenv) :
    Contract file ret osenv ↔ file.Fails ∨ file.OneName := by
  cases outcome with
  | failed fails minus =>
      refine iff_of_true ?_ (Or.inl fails)
      exact
        { size := size
          terminated := terminated
          failed := iff_of_true minus fails
          named := fun done => absurd minus done
          default := fun done => absurd minus done
          counted := fun done => absurd minus done }
  | nothing succeeds none name count =>
      have done : ret ≠ -1 := by omega
      refine iff_of_true ?_ (Or.inr (Or.inl none))
      exact
        { size := size
          terminated := terminated
          failed := iff_of_false done succeeds
          named := fun _ some => absurd (UserFile.entry_nil none) some
          default := fun _ _ => name
          counted := fun _ => by rw [count, name] }
  | something succeeds some name count =>
      have done : ret ≠ -1 := by omega
      constructor
      · intro contract
        have entry : file.entry ≠ [] := by
          intro blank
          have other := contract.default done blank
          rw [name, blank] at other
          revert other
          decide
        have counted := contract.counted done
        rw [count, name, List.length_map] at counted
        refine Or.inr (Or.inr ⟨entry, ?_⟩)
        omega
      · rintro (fails | none | ⟨entry, length⟩)
        · exact absurd fails succeeds
        · exact absurd none some
        · exact
            { size := size
              terminated := terminated
              failed := iff_of_false done succeeds
              named := fun _ _ => name
              default := fun _ blank => absurd blank entry
              counted := fun _ => by
                rw [count, name, length, List.length_map]
                rfl }

/-- The header's promises hold if and only if the file cannot be closed, or
nothing is read from it, or one name with its terminator and no more. -/
theorem read_chos_file_meets_contract_iff (files : Text → UserFile)
    (user_conf_file dir : Text) (buffer : LineBuffer) :
    (∃ ret osenv,
        Checked.readChosFile files user_conf_file dir buffer.bytes =
          .ok (ret, osenv) ∧
        Contract (files (userFilePath dir user_conf_file)) ret osenv) ↔
      (files (userFilePath dir user_conf_file)).Fails ∨
        (files (userFilePath dir user_conf_file)).OneName := by
  rw [Checked.readChosFile_eq, readChosFile_eq]
  generalize files (userFilePath dir user_conf_file) = file
  obtain ⟨size, terminated⟩ := readOpened_buffer file buffer
  have contract_iff :=
    (readOpened_outcome file buffer).contract_iff size terminated
  generalize readOpened file buffer.bytes = result at contract_iff
  obtain ⟨ret, osenv⟩ := result
  constructor
  · rintro ⟨_, _, ⟨⟩, contract⟩
    exact contract_iff.mp contract
  · intro condition
    exact ⟨ret, osenv, rfl, contract_iff.mpr condition⟩

/-- The file has an empty first line, then a name: the name found is empty,
and the count is that of the bytes read. -/
theorem empty_line_breaks_contract :
    Checked.readChosFile (fun _ => ⟨some (ascii "\nold\n"), true, true⟩)
        (ascii ".chos") (ascii "/home") (List.replicate 81 0) =
      .ok (5, 0 :: ascii "old\n" ++ List.replicate 76 0) ∧
    ¬ ∃ ret osenv,
      Checked.readChosFile (fun _ => ⟨some (ascii "\nold\n"), true, true⟩)
          (ascii ".chos") (ascii "/home") (List.replicate 81 0) =
        .ok (ret, osenv) ∧
      Contract ⟨some (ascii "\nold\n"), true, true⟩ ret osenv := by
  have read : Checked.readChosFile
      (fun _ => ⟨some (ascii "\nold\n"), true, true⟩)
      (ascii ".chos") (ascii "/home") (List.replicate 81 0) =
      .ok (5, 0 :: ascii "old\n" ++ List.replicate 76 0) := by
    rfl
  refine ⟨read, ?_⟩
  rintro ⟨ret, osenv, same, contract⟩
  cases read.symm.trans same
  have other := contract.default (by decide) (by decide)
  revert other
  decide

end Chos.User
