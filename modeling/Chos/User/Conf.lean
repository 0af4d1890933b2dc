import Chos.User.Strings

/-!
# Reading `/etc/chos`

The two versions of `check_chos` differ in the size of their line buffer
only.  Over the loop stands what it is for: the entries of the `%SHELLS`
section, among which an alias is looked up.
-/

namespace Chos.User

open Chos.Library
open Chos.Kernel (Text cString)

def shellHead : Text := ascii "%SHELLS"

/-- `/etc/chos` as `check_chos` meets it. -/
structure ConfFile where
  opened : Bool
  stated : Bool
  st_uid : Nat
  content : Text

def ConfFile.Usable (file : ConfFile) : Prop :=
  file.opened = true ∧ file.stated = true ∧ file.st_uid = 0

instance (file : ConfFile) : Decidable file.Usable :=
  inferInstanceAs (Decidable (_ ∧ _ ∧ _))

/-- The string in the line buffer once the newline is removed. -/
def lineText (buffer : Text) : Text :=
  buffer.takeWhile fun c => c ≠ 0 ∧ c ≠ newline

/-- The parts before and after the first `:`, if there is one. -/
def splitColon (line : Text) : Option (Text × Text) :=
  match line.dropWhile (· ≠ ':'.toUInt8) with
  | [] => none
  | _ :: path => some (line.takeWhile (· ≠ ':'.toUInt8), path)

/-- The loop of `check_chos` over the successive contents of its buffer. -/
def scanShells (name : Text) (start : Bool) : List Text → Option Text
  | [] => none
  | buffer :: rest =>
      if buffer.getD 0 0 = '#'.toUInt8 ∨ buffer.getD 0 0 = newline then
        scanShells name start rest
      else
        let line := lineText buffer
        if start then
          if line.getD 0 0 = '%'.toUInt8 then none
          else
            match splitColon line with
            | none => scanShells name start rest
            | some (key, path) =>
                if key = name then some path
                else scanShells name start rest
        else if line = shellHead then scanShells name true rest
        else scanShells name start rest

/-- `check_chos` with a line buffer of the given size; the name is the one
up to its NUL. -/
def checkChosIn (size : Nat) (file : ConfFile) (name : Text) : Option Text :=
  if ¬ file.opened then none
  else if ¬ file.stated then none
  else if file.st_uid ≠ 0 then none
  else scanShells (cString name) false
    (pieces newline (size - 1) file.content)

def Pam.checkChos (file : ConfFile) (name : Text) : Option Text :=
  checkChosIn (maxLine + 1) file name

def Utility.checkChos (file : ConfFile) (name : Text) : Option Text :=
  checkChosIn maxLine file name

/-- A line that is neither empty nor a comment. -/
def counts (line : Text) : Bool :=
  line ≠ [] ∧ line.head? ≠ some '#'.toUInt8

def isHead (line : Text) : Bool :=
  line.head? = some '%'.toUInt8

/-- The lines after the first `%SHELLS` and before the next section. -/
def shellLines (lines : List Text) : List Text :=
  (((lines.filter counts).dropWhile (· ≠ shellHead)).drop 1).takeWhile
    fun line => ¬ isHead line

/-- The aliases of the section with their paths. -/
def shellEntries (lines : List Text) : List (Text × Text) :=
  (shellLines lines).filterMap splitColon

/-- The entries of a file read through a line buffer of the given size. -/
def confEntries (size : Nat) (content : Text) : List (Text × Text) :=
  shellEntries ((pieces newline (size - 1) content).map lineText)

theorem lineText_cons (c : UInt8) (buffer : Text) :
    lineText (c :: buffer) =
      if c = 0 ∨ c = newline then [] else c :: lineText buffer := by
  by_cases zero : c = 0
  · simp [lineText, zero]
  · by_cases ends : c = newline
    · simp [lineText, ends]
    · simp [lineText, zero, ends]

theorem isHead_iff (line : Text) :
    isHead line = true ↔ line.getD 0 0 = '%'.toUInt8 := by
  cases line with
  | nil => decide
  | cons c line => simp [isHead]

theorem passes_of_counts {buffer : Text}
    (taken : counts (lineText buffer) = true) :
    ¬ (buffer.getD 0 0 = '#'.toUInt8 ∨ buffer.getD 0 0 = newline) := by
  cases buffer with
  | nil => cases taken
  | cons c buffer =>
      rw [lineText_cons] at taken
      by_cases ends : c = 0 ∨ c = newline
      · rw [if_pos ends] at taken
        cases taken
      · rw [if_neg ends] at taken
        have comment : c ≠ '#'.toUInt8 := by simpa [counts] using taken
        rintro (hash | line)
        · exact comment hash
        · exact ends (.inr line)

theorem comment_of_not_counts {buffer : Text}
    (skipped : counts (lineText buffer) = false)
    (nonempty : lineText buffer ≠ []) :
    buffer.getD 0 0 = '#'.toUInt8 := by
  cases buffer with
  | nil => exact absurd rfl nonempty
  | cons c buffer =>
      rw [lineText_cons] at skipped nonempty
      by_cases ends : c = 0 ∨ c = newline
      · exact absurd (if_pos ends) nonempty
      · rw [if_neg ends] at skipped
        simpa [counts] using skipped

/-- Lines that do not count leave the loop as it is, whatever it was that
let them through. -/
theorem scanShells_of_not_counts {buffer : Text}
    (skipped : counts (lineText buffer) = false) (name : Text) (start : Bool)
    (rest : List Text) :
    scanShells name start (buffer :: rest) = scanShells name start rest := by
  by_cases empty : lineText buffer = []
  · have noHead : ([] : Text) ≠ shellHead := by decide
    have noPercent : (0 : UInt8) ≠ '%'.toUInt8 := by decide
    cases start <;> simp [scanShells, empty, splitColon, noHead, noPercent]
  · have comment := comment_of_not_counts skipped empty
    rw [scanShells, if_pos (Or.inl comment)]

theorem scanShells_of_counts {buffer : Text}
    (taken : counts (lineText buffer) = true) (name : Text) (start : Bool)
    (rest : List Text) :
    scanShells name start (buffer :: rest) =
      if start then
        if isHead (lineText buffer) then none
        else
          match splitColon (lineText buffer) with
          | none => scanShells name true rest
          | some (key, path) =>
              if key = name then some path else scanShells name true rest
      else if lineText buffer = shellHead then scanShells name true rest
      else scanShells name false rest := by
  rw [scanShells, if_neg (passes_of_counts taken)]
  cases start with
  | true => simp only [isHead_iff, if_true]
  | false => rfl

/-- Inside the section the loop finds the first entry with the alias. -/
theorem scanShells_true (name : Text) (buffers : List Text) :
    scanShells name true buffers =
      ((((buffers.map lineText).filter counts).takeWhile
        fun line => ¬ isHead line).filterMap splitColon).lookup name := by
  induction buffers with
  | nil => rfl
  | cons buffer rest induction =>
      by_cases taken : counts (lineText buffer) = true
      · rw [scanShells_of_counts taken, List.map_cons,
          List.filter_cons_of_pos taken]
        by_cases head : isHead (lineText buffer) = true
        · simp [head]
        · cases entry : splitColon (lineText buffer) with
          | none => simp [head, entry, induction]
          | some pair =>
              obtain ⟨key, path⟩ := pair
              by_cases same : key = name
              · simp [head, entry, same]
              · have other : (name == key) = false := by
                  simpa using Ne.symm same
                simp [head, entry, same, List.lookup_cons, other, induction]
      · rw [scanShells_of_not_counts (by simpa using taken), induction,
          List.map_cons, List.filter_cons_of_neg taken]

/-- Before the section the loop waits for its head. -/
theorem scanShells_false (name : Text) (buffers : List Text) :
    scanShells name false buffers =
      (shellEntries (buffers.map lineText)).lookup name := by
  induction buffers with
  | nil => rfl
  | cons buffer rest induction =>
      unfold shellEntries shellLines at induction ⊢
      by_cases taken : counts (lineText buffer) = true
      · rw [scanShells_of_counts taken, List.map_cons,
          List.filter_cons_of_pos taken]
        by_cases head : lineText buffer = shellHead
        · simp [head, scanShells_true]
        · simp [head, induction]
      · rw [scanShells_of_not_counts (by simpa using taken), induction,
          List.map_cons, List.filter_cons_of_neg taken]

theorem usable_of_checkChosIn {size : Nat} {file : ConfFile}
    {name path : Text} (found : checkChosIn size file name = some path) :
    file.Usable := by
  unfold checkChosIn at found
  split at found
  · cases found
  · split at found
    · cases found
    · split at found
      · cases found
      · rename_i opened stated owned
        exact ⟨not_not.mp opened, not_not.mp stated, not_not.mp owned⟩

theorem checkChosIn_eq {file : ConfFile} (usable : file.Usable) (size : Nat)
    (name : Text) :
    checkChosIn size file name =
      (confEntries size file.content).lookup (cString name) := by
  obtain ⟨opened, stated, owned⟩ := usable
  simp [checkChosIn, opened, stated, owned, scanShells_false, confEntries]

theorem splitColon_cons (c : UInt8) (line : Text) :
    splitColon (c :: line) =
      if c = ':'.toUInt8 then some ([], line)
      else (splitColon line).map fun (key, path) => (c :: key, path) := by
  by_cases colon : c = ':'.toUInt8
  · simp [splitColon, colon]
  · simp only [splitColon, List.dropWhile_cons, List.takeWhile_cons, colon,
      ne_eq, not_false_eq_true, decide_true, if_true, if_false]
    cases line.dropWhile (· ≠ ':'.toUInt8) with
    | nil => simp
    | cons first path => simp

theorem splitColon_eq_some {line key path : Text}
    (entry : splitColon line = some (key, path)) :
    line = key ++ ':'.toUInt8 :: path ∧ ':'.toUInt8 ∉ key := by
  induction line generalizing key with
  | nil => cases entry
  | cons c line induction =>
      rw [splitColon_cons] at entry
      split at entry
      · rename_i colon
        cases entry
        simp [colon]
      · rename_i other
        obtain ⟨⟨key, _⟩, split, same⟩ := Option.map_eq_some_iff.mp entry
        cases same
        obtain ⟨whole, plain⟩ := induction split
        refine ⟨by rw [whole]; rfl, ?_⟩
        simpa [Ne.symm other] using plain

theorem terminated_lineText (buffer : Text) : 0 ∉ lineText buffer := by
  intro inside
  simpa using List.mem_takeWhile_imp inside

theorem plain_lineText (buffer : Text) : newline ∉ lineText buffer := by
  intro inside
  simpa using List.mem_takeWhile_imp inside

/-- What `check_chos` can return for an alias: both come from one line in its
buffer. -/
theorem confEntries_line {size : Nat} {content key path : Text}
    (entry : (key, path) ∈ confEntries size content) :
    ∃ line : Text, line = key ++ ':'.toUInt8 :: path ∧
      line.length ≤ size - 1 ∧ 0 ∉ line ∧ newline ∉ line := by
  obtain ⟨line, listed, split⟩ := List.mem_filterMap.mp entry
  have inDrop := (List.takeWhile_sublist _).subset listed
  have inFilter := (List.dropWhile_sublist _).subset
    ((List.drop_sublist 1 _).subset inDrop)
  obtain ⟨buffer, read, rfl⟩ :=
    List.mem_map.mp (List.mem_filter.mp inFilter).1
  refine ⟨lineText buffer, (splitColon_eq_some split).1, ?_,
    terminated_lineText buffer, plain_lineText buffer⟩
  exact Nat.le_trans (List.takeWhile_sublist _).length_le
    (length_le_of_mem_pieces read)

theorem mem_of_lookup_eq_some {key path : Text}
    {entries : List (Text × Text)}
    (found : entries.lookup key = some path) : (key, path) ∈ entries := by
  induction entries with
  | nil => cases found
  | cons entry entries induction =>
      rw [List.lookup_cons] at found
      split at found
      · rename_i same
        cases found
        have isKey : key = entry.1 := by simpa using same
        rw [isKey]
        exact List.mem_cons_self
      · exact List.mem_cons_of_mem _ (induction found)

theorem checkChosIn_line {size : Nat} {file : ConfFile} {name path : Text}
    (found : checkChosIn size file name = some path) :
    (cString name).length + (path.length + 1) ≤ size - 1 ∧
      newline ∉ path ∧ 0 ∉ path := by
  rw [checkChosIn_eq (usable_of_checkChosIn found)] at found
  obtain ⟨line, rfl, fits, terminated, plain⟩ :=
    confEntries_line (mem_of_lookup_eq_some found)
  simp only [List.mem_append, List.mem_cons, not_or] at terminated plain
  rw [List.length_append, List.length_cons] at fits
  exact ⟨fits, plain.2.2, terminated.2.2⟩

theorem lineText_eq_cString (buffer : Text) :
    lineText buffer = cString (beforeNewline newline buffer) := by
  induction buffer with
  | nil => rfl
  | cons c buffer induction =>
      rw [lineText_cons]
      by_cases ends : c = newline
      · simp [ends, beforeNewline, cString]
      · by_cases zero : c = 0
        · subst zero
          simp [beforeNewline, cString, ends]
        · simp only [zero, ends, or_self, if_false, induction]
          simp [beforeNewline, cString, zero, ends]

theorem shellEntries_filter (lines : List Text) :
    shellEntries ((lines.filter (· ≠ [])).map cString) =
      shellEntries (lines.map cString) := by
  have same : ((lines.filter (· ≠ [])).map cString).filter counts =
      (lines.map cString).filter counts := by
    induction lines with
    | nil => rfl
    | cons line lines induction =>
        by_cases empty : line = []
        · simpa [empty, cString, counts] using induction
        · rw [List.filter_cons_of_pos (by simpa using empty),
            List.map_cons, List.map_cons, List.filter_cons,
            List.filter_cons, induction]
  rw [shellEntries, shellEntries, shellLines, shellLines, same]

theorem confEntries_of_short {size : Nat} {content : Text}
    (room : 1 < size)
    (short : ∀ line ∈ lines newline content, line.length < size) :
    confEntries size content =
      shellEntries ((lines newline content).map cString) := by
  have fits : ∀ line ∈ lines newline content, line.length ≤ size - 1 := by
    intro line inside
    have less := short line inside
    omega
  have same := pieces_eq_lines (by omega : 0 < size - 1) fits
  have texts : lineText = cString ∘ beforeNewline newline :=
    funext lineText_eq_cString
  rw [confEntries, ← shellEntries_filter, ← same, shellEntries_filter,
    List.map_map, texts]

/-- Beyond the longest line the size of the buffer plays no part. -/
theorem confEntries_of_larger {small large : Nat} {content : Text}
    (room : 1 < small) (larger : small ≤ large)
    (short : ∀ line ∈ lines newline content, line.length < small) :
    confEntries large content = confEntries small content := by
  rw [confEntries_of_short room short]
  apply confEntries_of_short (Nat.lt_of_lt_of_le room larger)
  intro line inside
  exact Nat.lt_of_lt_of_le (short line inside) larger

theorem checkChosIn_of_larger {small large : Nat} {file : ConfFile}
    (room : 1 < small) (larger : small ≤ large)
    (short : ∀ line ∈ lines newline file.content, line.length < small)
    (name : Text) :
    checkChosIn large file name = checkChosIn small file name := by
  have same := confEntries_of_larger room larger short
  unfold confEntries at same
  rw [checkChosIn, checkChosIn, scanShells_false, scanShells_false, same]

end Chos.User
