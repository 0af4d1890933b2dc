import Mathlib.Data.List.Destutter
import Mathlib.Data.List.DropRight
import Mathlib.Data.List.Sort
import Chos.User.Conf
import Chos.Kernel.Access

/-!
# Loading the list of valid paths

`loadvalid` of `chos.init` reads `/etc/chos` with an `awk` program of its own
and writes what this prints to `/proc/chos/valid`.  The list of the kernel is
compared with the section `check_chos` searches.
-/

namespace Chos.User

open Chos.Library
open Chos.Kernel

/-- The variables of the program and what it has printed. -/
structure Awk where
  start : Bool
  printed : List Text

/-- `$1`, `$2` and so on, with `-F:`. -/
def field (record : Text) (number : Nat) : Text :=
  (record.splitOnP (· = ':'.toUInt8)).getD (number - 1) []

/-- The program for one record. -/
def awkRecord (awk : Awk) (record : Text) : Awk :=
  if record.head? = some '#'.toUInt8 then awk
  else if record = [] then awk
  else
    let start := if record.head? = some '%'.toUInt8 then false else awk.start
    let printed :=
      if start then awk.printed ++ [field record 2] else awk.printed
    -- `$1="%SHELLS"` is an assignment: a text that is not empty is true
    let assigned := shellHead
    { start := if assigned ≠ [] then true else start
      printed := printed }

def awk (content : Text) : List Text :=
  ((lines newline content).foldl awkRecord ⟨false, []⟩).printed

/-- `sort`, by the values of the bytes. -/
def sort (printed : List Text) : List Text :=
  printed.insertionSort fun left right => left ≤ right

/-- `uniq`: of equal lines that follow each other one stays. -/
def uniq (printed : List Text) : List Text :=
  printed.destutter fun left right => left ≠ right

/-- What a command printed, put in place of the command. -/
def substitution (printed : List Text) : Text :=
  (printed.flatMap fun line => line ++ [newline]).rdropWhile (· = newline)

def isIfs (c : UInt8) : Bool :=
  c = ' '.toUInt8 ∨ c = '\t'.toUInt8 ∨ c = newline

/-- The words a text is split into. -/
def splitWords (text : Text) : List Text :=
  (text.splitOnP isIfs).filter (· ≠ [])

def isEchoOption (arg : Text) : Bool :=
  arg.head? = some '-'.toUInt8 ∧ 1 < arg.length ∧
    arg.tail.all fun c =>
      c = 'n'.toUInt8 ∨ c = 'e'.toUInt8 ∨ c = 'E'.toUInt8

/-- What `echo` prints.  Escape sequences are left as they are: here no
argument follows an option. -/
def echo (args : List Text) : Text :=
  let options := args.takeWhile isEchoOption
  let text := [' '.toUInt8].intercalate (args.dropWhile isEchoOption)
  if options.any fun option => 'n'.toUInt8 ∈ option then text
  else text ++ [newline]

/-- The writes of `loadvalid` to `/proc/chos/valid`.  `expand` is the
expansion of file name patterns, which depends on the files there are. -/
def loadvalid (expand : Text → List Text) (content : Text) : List Text :=
  let list := substitution (uniq (sort (awk content)))
  let words := (splitWords list).flatMap expand
  let outputs := words.map fun line =>
    echo ((splitWords line).flatMap expand)
  -- without output there is no call of `write`
  echo [ascii "-"] :: outputs.filter (· ≠ [])

/-- The list of the kernel after these writes of root's, with memory for
all of them. -/
def writeAll (paths : List ValidPath) (writes : List Text) :
    List ValidPath :=
  writes.foldl
    (fun paths text =>
      (writeValid 0 text text.length ⟨true, true⟩ paths).2) paths

def writtenPaths (expand : Text → List Text) (content : Text) : List Text :=
  (loadvalid expand content).tail.map fun text => trim text text.length

/-- The paths of the section `check_chos` searches with a line buffer of the
given size. -/
def sectionPathsIn (size : Nat) (content : Text) : List Text :=
  ((confEntries size content).map Prod.snd).filter (· ≠ [])

def Utility.sectionPaths (content : Text) : List Text :=
  sectionPathsIn maxLine content

def Pam.sectionPaths (content : Text) : List Text :=
  sectionPathsIn (maxLine + 1) content

/-- The lines that count after the first one, wherever they stand. -/
def laterLines (content : Text) : List Text :=
  (((lines newline content).filter counts).drop 1).filter
    fun line => ¬ isHead line

def laterPaths (content : Text) : List Text :=
  (((laterLines content).filterMap splitColon).map Prod.snd).filter (· ≠ [])

def isBlank (c : UInt8) : Bool :=
  c = ' '.toUInt8 ∨ (9 ≤ c ∧ c ≤ 13)

/-- The characters of file name patterns. -/
def isPattern (c : UInt8) : Bool :=
  c = '*'.toUInt8 ∨ c = '?'.toUInt8 ∨ c = '['.toUInt8

/-- Lines that fit, without blanks, NUL and patterns, and with one `:` at
most. -/
structure PlainConf (content : Text) : Prop where
  short : ∀ line ∈ lines newline content, line.length ≤ 79
  noBlank : ∀ line ∈ lines newline content, ∀ c ∈ line, isBlank c = false
  noZero : ∀ line ∈ lines newline content, 0 ∉ line
  noPattern : ∀ line ∈ lines newline content, ∀ c ∈ line,
    isPattern c = false
  oneColon : ∀ line ∈ lines newline content, line.count ':'.toUInt8 ≤ 1

theorem awkRecord_of_not_counts {record : Text}
    (skipped : counts record = false) (awk : Awk) :
    awkRecord awk record = awk := by
  by_cases empty : record = []
  · simp [awkRecord, empty]
  · have comment : record.head? = some '#'.toUInt8 := by
      simpa [counts, empty] using skipped
    rw [awkRecord, if_pos comment]

theorem awkRecord_of_counts {record : Text} (taken : counts record = true)
    (awk : Awk) :
    awkRecord awk record =
      ⟨true, if awk.start = true ∧ isHead record = false then
        awk.printed ++ [field record 2] else awk.printed⟩ := by
  have parts : record ≠ [] ∧ record.head? ≠ some '#'.toUInt8 := by
    simpa [counts] using taken
  have assigned : shellHead ≠ [] := by decide
  rw [awkRecord, if_neg parts.2, if_neg parts.1]
  by_cases head : record.head? = some '%'.toUInt8
  · simp [isHead, head, assigned]
  · simp [isHead, head, assigned]

theorem foldl_awkRecord (records printed : List Text) :
    (records.foldl awkRecord ⟨true, printed⟩).printed =
      printed ++ ((records.filter counts).filter
        fun line => ¬ isHead line).map (field · 2) := by
  induction records generalizing printed with
  | nil => simp
  | cons record records induction =>
      rw [List.foldl_cons]
      by_cases taken : counts record = true
      · rw [awkRecord_of_counts taken, induction,
          List.filter_cons_of_pos taken]
        by_cases head : isHead record = true
        · simp [head]
        · simp [head]
      · rw [awkRecord_of_not_counts (by simpa using taken), induction,
          List.filter_cons_of_neg taken]

/-- The program prints the second field of every line that counts but the
first, unless it begins a section. -/
theorem awk_eq (content : Text) :
    awk content = (laterLines content).map (field · 2) := by
  unfold awk laterLines
  induction lines newline content with
  | nil => rfl
  | cons record records induction =>
      rw [List.foldl_cons]
      by_cases taken : counts record = true
      · rw [awkRecord_of_counts taken, List.filter_cons_of_pos taken]
        simp [foldl_awkRecord]
      · rw [awkRecord_of_not_counts (by simpa using taken), induction,
          List.filter_cons_of_neg taken]

theorem field_eq {line : Text} (oneColon : line.count ':'.toUInt8 ≤ 1) :
    field line 2 = ((splitColon line).map Prod.snd).getD [] := by
  cases entry : splitColon line with
  | none =>
      have noColon : ∀ c ∈ line, decide (c = ':'.toUInt8) = false := by
        intro c inside
        rw [splitColon] at entry
        split at entry
        · rename_i none
          simpa using List.dropWhile_eq_nil_iff.mp none c inside
        · cases entry
      rw [field, List.splitOnP_eq_singleton noColon]
      rfl
  | some pair =>
      obtain ⟨key, path⟩ := pair
      obtain ⟨rfl, noColon⟩ := splitColon_eq_some entry
      have later : ':'.toUInt8 ∉ path := by
        rw [List.count_append, List.count_cons_self] at oneColon
        apply List.count_eq_zero.mp
        omega
      have plain : ∀ {text : Text}, ':'.toUInt8 ∉ text →
          ∀ c ∈ text, decide (c = ':'.toUInt8) = false := by
        intro text outside c inside
        simp only [decide_eq_false_iff_not]
        rintro rfl
        exact outside inside
      rw [field, List.splitOnP_append_cons _ _ (by simp),
        List.splitOnP_eq_singleton (plain noColon),
        List.splitOnP_eq_singleton (plain later)]
      rfl

theorem mem_uniq {printed : List Text} {line : Text} :
    line ∈ uniq printed ↔ line ∈ printed := by
  have keeps : ∀ (first : Text) (rest : List Text), line ∈ first :: rest →
      line ∈ rest.destutter' (fun left right => left ≠ right) first := by
    intro first rest inside
    induction rest generalizing first with
    | nil => simpa using inside
    | cons second rest induction =>
        by_cases same : first = second
        · subst same
          rw [List.destutter'_cons_neg _ (by simp)]
          apply induction
          simpa using inside
        · rw [List.destutter'_cons_pos _ same]
          rcases List.mem_cons.mp inside with rfl | later
          · exact List.mem_cons_self
          · exact List.mem_cons_of_mem _ (induction _ later)
  constructor
  · exact fun inside => (List.destutter_sublist _ printed).subset inside
  · intro inside
    cases printed with
    | nil => cases inside
    | cons first rest => exact keeps first rest inside

theorem splitWords_append (text rest : Text) :
    splitWords (text ++ newline :: rest) =
      splitWords text ++ splitWords rest := by
  rw [splitWords, List.splitOnP_append_cons _ _ (by decide),
    List.filter_append]
  rfl

theorem splitWords_rdropWhile (text : Text) :
    splitWords (text.rdropWhile (· = newline)) = splitWords text := by
  induction text using List.reverseRecOn with
  | nil => rfl
  | append_singleton text c induction =>
      by_cases ends : c = newline
      · subst ends
        rw [List.rdropWhile_concat_pos _ _ _ (by simp), induction,
          splitWords_append]
        simp [splitWords]
      · rw [List.rdropWhile_concat_neg _ _ _ (by simpa using ends)]

theorem splitWords_of_plain {text : Text}
    (plain : ∀ c ∈ text, isIfs c = false) :
    splitWords text = [text].filter (· ≠ []) := by
  rw [splitWords, List.splitOnP_eq_singleton plain]

theorem splitWords_substitution {printed : List Text}
    (plain : ∀ line ∈ printed, ∀ c ∈ line, isIfs c = false) :
    splitWords (substitution printed) = printed.filter (· ≠ []) := by
  rw [substitution, splitWords_rdropWhile]
  induction printed with
  | nil => rfl
  | cons line printed induction =>
      rw [List.forall_mem_cons] at plain
      rw [List.flatMap_cons, List.append_assoc, List.singleton_append,
        splitWords_append, splitWords_of_plain plain.1, induction plain.2,
        ← List.filter_append]
      rfl

theorem echo_singleton (word : Text) :
    echo [word] =
      if isEchoOption word = true then
        if 'n'.toUInt8 ∈ word then [] else [newline]
      else word ++ [newline] := by
  by_cases option : isEchoOption word = true
  · simp [echo, option, List.intercalate]
  · simp [echo, option, List.intercalate]

namespace PlainConf

variable {content : Text} (plainConf : PlainConf content)

theorem mem_lines_of_later {line : Text}
    (later : line ∈ laterLines content) : line ∈ lines newline content := by
  have counted := (List.mem_filter.mp later).1
  exact (List.mem_filter.mp (List.mem_of_mem_drop counted)).1

theorem line_of_mem_laterPaths {path : Text}
    (later : path ∈ laterPaths content) :
    ∃ line ∈ lines newline content, path ⊆ line := by
  obtain ⟨inside, _⟩ := List.mem_filter.mp later
  obtain ⟨⟨key, _⟩, entry, rfl⟩ := List.mem_map.mp inside
  obtain ⟨line, taken, split⟩ := List.mem_filterMap.mp entry
  refine ⟨line, mem_lines_of_later taken, ?_⟩
  rw [(splitColon_eq_some split).1]
  intro c member
  exact List.mem_append_right _ (List.mem_cons_of_mem _ member)

include plainConf

theorem not_isIfs {line : Text} (inside : line ∈ lines newline content) :
    ∀ c ∈ line, isIfs c = false := by
  intro c member
  have blank := plainConf.noBlank line inside c member
  have notBlank : ∀ {other : UInt8}, isBlank other = true → c ≠ other := by
    rintro other isBlank rfl
    rw [blank] at isBlank
    cases isBlank
  have different : c ≠ ' '.toUInt8 ∧ c ≠ '\t'.toUInt8 ∧ c ≠ newline :=
    ⟨notBlank (by decide), notBlank (by decide), notBlank (by decide)⟩
  simp [isIfs, different]

theorem mem_words {word : Text} :
    word ∈ splitWords (substitution (uniq (sort (awk content)))) ↔
      word ∈ laterPaths content := by
  have fields : awk content = (laterLines content).map
      fun line => ((splitColon line).map Prod.snd).getD [] := by
    rw [awk_eq]
    apply List.map_congr_left
    intro line inside
    exact field_eq (plainConf.oneColon line (mem_lines_of_later inside))
  have members : ∀ {line : Text}, line ∈ uniq (sort (awk content)) ↔
      line ∈ awk content := by
    intro line
    rw [mem_uniq, sort, List.mem_insertionSort]
  have same : ∀ {word : Text}, word ∈ awk content ∧ word ≠ [] ↔
      word ∈ laterPaths content := by
    intro word
    rw [fields, laterPaths, List.mem_filter, decide_eq_true_eq]
    refine and_congr_left fun nonempty => ?_
    simp only [List.mem_map, List.mem_filterMap]
    constructor
    · rintro ⟨line, inside, rfl⟩
      cases entry : splitColon line with
      | none => simp [entry] at nonempty
      | some pair => exact ⟨pair, ⟨line, inside, entry⟩, rfl⟩
    · rintro ⟨pair, ⟨line, inside, entry⟩, rfl⟩
      exact ⟨line, inside, by rw [entry]; rfl⟩
  rw [splitWords_substitution, List.mem_filter, members, decide_eq_true_eq,
    same]
  intro line inside c member
  have nonempty : line ≠ [] := List.ne_nil_of_mem member
  obtain ⟨whole, read, part⟩ := line_of_mem_laterPaths
    (same.mp ⟨members.mp inside, nonempty⟩)
  exact plainConf.not_isIfs read c (part member)

section

variable {expand : Text → List Text}
  (expands : ∀ word : Text, (∀ c ∈ word, isPattern c = false) →
    expand word = [word])

include expands

theorem mem_loadvalid {text : Text} :
    text ∈ (loadvalid expand content).tail ↔
      ∃ path ∈ laterPaths content, echo [path] = text ∧ text ≠ [] := by
  have alone : ∀ {path : Text}, path ∈ laterPaths content →
      expand path = [path] ∧ splitWords path = [path] := by
    intro path later
    obtain ⟨line, inside, part⟩ := line_of_mem_laterPaths later
    refine ⟨expands path fun c member =>
      plainConf.noPattern line inside c (part member), ?_⟩
    rw [splitWords_of_plain fun c member =>
      plainConf.not_isIfs inside c (part member)]
    have nonempty := (List.mem_filter.mp later).2
    exact List.filter_cons_of_pos nonempty
  simp only [loadvalid, List.tail_cons, List.mem_filter, List.mem_map,
    List.mem_flatMap, plainConf.mem_words, decide_eq_true_eq]
  constructor
  · rintro ⟨⟨line, ⟨word, later, expanded⟩, rfl⟩, nonempty⟩
    rw [(alone later).1, List.mem_singleton] at expanded
    subst expanded
    refine ⟨line, later, ?_, nonempty⟩
    rw [(alone later).2]
    simp [(alone later).1]
  · rintro ⟨path, later, rfl, nonempty⟩
    refine ⟨⟨path, ⟨path, later, ?_⟩, ?_⟩, nonempty⟩
    · rw [(alone later).1]
      exact List.mem_singleton_self path
    · rw [(alone later).2]
      simp [(alone later).1]

end

theorem plain_path {path : Text} (later : path ∈ laterPaths content) :
    newline ∉ path ∧ 0 ∉ path := by
  obtain ⟨line, inside, part⟩ := line_of_mem_laterPaths later
  exact ⟨fun member => plain_of_mem_lines inside (part member),
    fun member => plainConf.noZero line inside (part member)⟩

theorem sectionPaths_subset :
    Utility.sectionPaths content ⊆ laterPaths content := by
  have noZero : (lines newline content).map cString =
      lines newline content := by
    have same : (lines newline content).map cString =
        (lines newline content).map id :=
      List.map_congr_left fun line inside =>
        cString_of_terminated (plainConf.noZero line inside)
    rw [same, List.map_id]
  have entries : confEntries maxLine content =
      shellEntries (lines newline content) := by
    have read := @confEntries_of_short maxLine content (by decide)
      fun line inside => Nat.lt_succ_of_le (plainConf.short line inside)
    rw [read, noZero]
  intro path inside
  rw [Utility.sectionPaths, sectionPathsIn, entries, List.mem_filter] at inside
  obtain ⟨⟨key, _⟩, entry, rfl⟩ := List.mem_map.mp inside.1
  obtain ⟨line, listed, split⟩ := List.mem_filterMap.mp entry
  have notHead := List.mem_takeWhile_imp listed
  have counted := (List.takeWhile_sublist _).subset listed
  have later : line ∈ ((lines newline content).filter counts).drop 1 := by
    rw [List.drop_one] at counted ⊢
    exact (List.dropWhile_suffix _).sublist.tail.subset counted
  apply List.mem_filter.mpr
  refine ⟨List.mem_map.mpr ⟨_, List.mem_filterMap.mpr
    ⟨line, List.mem_filter.mpr ⟨later, notHead⟩, split⟩, rfl⟩, inside.2⟩

section

variable {expand : Text → List Text}
  (expands : ∀ word : Text, (∀ c ∈ word, isPattern c = false) →
    expand word = [word])

include expands

/-- The paths written: those that are no options of `echo`, and the empty one
for an option that leaves the newline. -/
theorem mem_writtenPaths {path : Text} :
    path ∈ writtenPaths expand content ↔
      (path ∈ laterPaths content ∧ isEchoOption path = false) ∨
        (path = [] ∧ ∃ option ∈ laterPaths content,
          isEchoOption option = true ∧ 'n'.toUInt8 ∉ option) := by
  rw [writtenPaths, List.mem_map]
  constructor
  · rintro ⟨text, written, rfl⟩
    obtain ⟨word, later, rfl, nonempty⟩ :=
      (plainConf.mem_loadvalid expands).mp written
    rw [echo_singleton] at nonempty ⊢
    split
    · rename_i option
      rw [if_pos option] at nonempty
      split
      · rename_i silent
        simp [silent] at nonempty
      · rename_i loud
        exact .inr ⟨by decide, word, later, option, loud⟩
    · rename_i plain
      have parts := plainConf.plain_path later
      have trimmed : trim (word ++ [newline]) (word ++ [newline]).length =
          word := trim_append_newline parts.1 parts.2 []
      rw [trimmed]
      exact .inl ⟨later, by simpa using plain⟩
  · rintro (⟨later, plain⟩ | ⟨rfl, word, later, option, loud⟩)
    · have parts := plainConf.plain_path later
      refine ⟨path ++ [newline], ?_, trim_append_newline parts.1 parts.2 []⟩
      apply (plainConf.mem_loadvalid expands).mpr
      exact ⟨path, later, by simp [echo_singleton, plain], by simp⟩
    · refine ⟨[newline], ?_, by decide⟩
      apply (plainConf.mem_loadvalid expands).mpr
      exact ⟨word, later, by simp [echo_singleton, option, loud], by simp⟩

end

end PlainConf

def validAfterWrite (valid : List Text) (text : Text) : List Text :=
  if text.head? = some '-'.toUInt8 then []
  else valid ++ [trim text text.length]

theorem lists_writeAll {paths : List ValidPath} {valid writes : List Text}
    (lists : Lists paths valid) (nonempty : ∀ text ∈ writes, text ≠ []) :
    Lists (writeAll paths writes) (writes.foldl validAfterWrite valid) := by
  induction writes generalizing paths valid with
  | nil => exact lists
  | cons text writes induction =>
      rw [List.forall_mem_cons] at nonempty
      have room : 1 ≤ text.length := List.length_pos_of_ne_nil nonempty.1
      have step := @Lists.writeValid paths valid lists 0 text text.length
        ⟨true, true⟩ ⟨room, rfl, rfl⟩
      refine induction ?_ nonempty.2
      simpa [validAfter, validAfterWrite] using step

/-- A reset leaves the list to the writes after it. -/
theorem lists_loadvalid (expand : Text → List Text) (content : Text)
    (paths : List ValidPath) :
    Lists (writeAll paths (loadvalid expand content))
      ((loadvalid expand content).tail.foldl validAfterWrite []) := by
  have reset : writeAll paths (loadvalid expand content) =
      writeAll [] (loadvalid expand content).tail := by
    have cleared : (writeValid 0 (echo [ascii "-"])
        (echo [ascii "-"]).length ⟨true, true⟩ paths).2 = [] :=
      resetvalid_eq_nil paths
    rw [loadvalid, writeAll, List.foldl_cons, cleared]
    rfl
  rw [reset]
  apply lists_writeAll ⟨rfl, by simp⟩
  intro text inside
  simpa using (List.mem_filter.mp inside).2

theorem head_of_mem_foldl {writes valid : List Text}
    (older : ∀ path ∈ valid, path.head? ≠ some '-'.toUInt8) :
    ∀ path ∈ writes.foldl validAfterWrite valid,
      path.head? ≠ some '-'.toUInt8 := by
  induction writes generalizing valid with
  | nil => exact older
  | cons text writes induction =>
      apply induction
      unfold validAfterWrite
      split
      · simp
      · rename_i plain
        intro path inside dash
        rcases List.mem_append.mp inside with old | new
        · exact older path old dash
        · rw [List.mem_singleton.mp new, trim, List.take_length] at dash
          apply plain
          cases text with
          | nil => cases dash
          | cons c text =>
              rw [List.takeWhile_cons] at dash
              split at dash
              · exact dash
              · cases dash

theorem foldl_of_no_dash {writes : List Text} (valid : List Text)
    (noDash : ∀ text ∈ writes, text.head? ≠ some '-'.toUInt8) :
    writes.foldl validAfterWrite valid =
      valid ++ writes.map fun text => trim text text.length := by
  induction writes generalizing valid with
  | nil => simp
  | cons text writes induction =>
      rw [List.forall_mem_cons] at noDash
      rw [List.foldl_cons, validAfterWrite, if_neg noDash.1,
        induction _ noDash.2]
      simp

/-- The script writes the paths of the section, and the kernel then accepts
these and the root environment. -/
def ReadAlike (expand : Text → List Text) (content : Text) : Prop :=
  (∀ path, path ∈ writtenPaths expand content ↔
      path ∈ Utility.sectionPaths content) ∧
    ∀ (paths : List ValidPath) (buf : List UInt8) (count : Nat),
      accepts (writeAll paths (loadvalid expand content))
          (copied buf count) = true ↔
        trim buf count = rootText ∨
          trim buf count ∈ Utility.sectionPaths content

/-- The paths outside the section are in it as well, or `echo` takes them for
options and prints nothing; those of the section are not taken for anything
else. -/
def Separate (content : Text) : Prop :=
  (∀ path ∈ Utility.sectionPaths content, path.head? ≠ some '-'.toUInt8) ∧
    ∀ path ∈ laterPaths content, path ∈ Utility.sectionPaths content ∨
      (isEchoOption path = true ∧ 'n'.toUInt8 ∈ path)

instance (content : Text) : Decidable (Separate content) :=
  inferInstanceAs (Decidable (_ ∧ _))

theorem head_of_isEchoOption {path : Text}
    (option : isEchoOption path = true) :
    path.head? = some '-'.toUInt8 := by
  unfold isEchoOption at option
  exact (of_decide_eq_true option).1

section

variable {content : Text} (plainConf : PlainConf content)
  {expand : Text → List Text}
  (expands : ∀ word : Text, (∀ c ∈ word, isPattern c = false) →
    expand word = [word])

include plainConf expands

theorem separate_of_readAlike (alike : ReadAlike expand content) :
    Separate content := by
  obtain ⟨written, accepted⟩ := alike
  refine ⟨?_, ?_⟩
  · -- a write that begins with `-` is a reset
    intro path listed dash
    have parts := plainConf.plain_path
      (plainConf.sectionPaths_subset listed)
    have whole : trim path path.length = path :=
      trim_of_plain parts.1 parts.2
    have taken := (accepted [] path path.length).mpr
      (.inr (by rw [whole]; exact listed))
    rw [(lists_loadvalid expand content []).accepts, whole] at taken
    rcases taken with root | kept
    · rw [root] at dash
      revert dash
      decide
    · exact head_of_mem_foldl (by simp) path kept dash
  · intro path later
    by_cases option : isEchoOption path = true
    · by_cases silent : 'n'.toUInt8 ∈ path
      · exact .inr ⟨option, silent⟩
      · have empty : [] ∈ writtenPaths expand content :=
          (plainConf.mem_writtenPaths expands).mpr
            (.inr ⟨rfl, path, later, option, silent⟩)
        have listed := (written []).mp empty
        simp [Utility.sectionPaths, sectionPathsIn] at listed
    · have plain : path ∈ writtenPaths expand content :=
        (plainConf.mem_writtenPaths expands).mpr
          (.inl ⟨later, by simpa using option⟩)
      exact .inl ((written path).mp plain)

theorem readAlike_of_separate (separate : Separate content) :
    ReadAlike expand content := by
  obtain ⟨noDash, outside⟩ := separate
  -- an option is no path of the section, so it is printed by none
  have noOption : ∀ path ∈ Utility.sectionPaths content,
      isEchoOption path = false := by
    intro path listed
    by_contra option
    exact noDash path listed (head_of_isEchoOption (by simpa using option))
  have written : ∀ path, path ∈ writtenPaths expand content ↔
      path ∈ Utility.sectionPaths content := by
    intro path
    rw [plainConf.mem_writtenPaths expands]
    constructor
    · rintro (⟨later, plain⟩ | ⟨_, option, later, isOption, loud⟩)
      · rcases outside path later with listed | ⟨option, _⟩
        · exact listed
        · rw [plain] at option
          cases option
      · rcases outside option later with listed | ⟨_, silent⟩
        · rw [noOption option listed] at isOption
          cases isOption
        · exact absurd silent loud
    · intro listed
      exact .inl ⟨plainConf.sectionPaths_subset listed,
        noOption path listed⟩
  refine ⟨written, ?_⟩
  intro paths buf count
  have plainWrites : ∀ text ∈ (loadvalid expand content).tail,
      text.head? ≠ some '-'.toUInt8 := by
    intro text inside
    obtain ⟨path, later, rfl, nonempty⟩ :=
      (plainConf.mem_loadvalid expands).mp inside
    rcases outside path later with listed | ⟨option, silent⟩
    · have head := noDash path listed
      have words : path ≠ [] := by
        simpa using (List.mem_filter.mp later).2
      rw [echo_singleton, if_neg (by simp [noOption path listed]),
        List.head?_append_of_ne_nil _ words]
      exact head
    · rw [echo_singleton, if_pos option, if_pos silent] at nonempty
      exact absurd rfl nonempty
  have kept : (loadvalid expand content).tail.foldl validAfterWrite [] =
      writtenPaths expand content := by
    rw [foldl_of_no_dash [] plainWrites, List.nil_append, writtenPaths]
  rw [(lists_loadvalid expand content paths).accepts, kept, written]

end

/-- Script and programs read a plain file alike, if and only if the lines
outside the section have no path of their own for the script to print, and the
section has none that begins with `-`. -/
theorem loadvalid_reads_alike_iff {content : Text}
    (plainConf : PlainConf content) {expand : Text → List Text}
    (expands : ∀ word : Text, (∀ c ∈ word, isPattern c = false) →
      expand word = [word]) :
    Pam.sectionPaths content = Utility.sectionPaths content ∧
      (ReadAlike expand content ↔ Separate content) := by
  refine ⟨?_, separate_of_readAlike plainConf expands,
    readAlike_of_separate plainConf expands⟩
  have same : confEntries (maxLine + 1) content =
      confEntries maxLine content :=
    confEntries_of_larger (by decide) (Nat.le_succ _) fun line inside =>
      Nat.lt_succ_of_le (plainConf.short line inside)
  rw [Pam.sectionPaths, Utility.sectionPaths, sectionPathsIn,
    sectionPathsIn, same]

theorem loadvalid_reads_alike_iff_sample :
    ReadAlike (fun word => [word])
      (ascii "%SHELLS\nlocal:/\n\n%ENV\n") := by
  have plainConf : PlainConf (ascii "%SHELLS\nlocal:/\n\n%ENV\n") := by
    constructor <;> decide +kernel
  exact (loadvalid_reads_alike_iff plainConf fun _ _ => rfl).2.mpr
    (by decide +kernel)

/-- A line of another section: the programs do not find its path, the script
writes it, and the kernel accepts it. -/
theorem other_section_is_loaded :
    PlainConf (ascii "%SHELLS\nlocal:/\n%ENV\nLIB:/lib\n") ∧
      writtenPaths (fun word => [word])
          (ascii "%SHELLS\nlocal:/\n%ENV\nLIB:/lib\n") =
        [ascii "/", ascii "/lib"] ∧
      Utility.sectionPaths (ascii "%SHELLS\nlocal:/\n%ENV\nLIB:/lib\n") =
        [ascii "/"] ∧
      accepts (writeAll [] (loadvalid (fun word => [word])
          (ascii "%SHELLS\nlocal:/\n%ENV\nLIB:/lib\n")))
        (ascii "/lib") = true := by
  refine ⟨?_, ?_, ?_, ?_⟩
  · constructor <;> decide +kernel
  · decide +kernel
  · decide +kernel
  · decide +kernel

end Chos.User
