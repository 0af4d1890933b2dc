import Chos.User.Conf

/-!
# The sections of the configuration files

`check_chos`, `set_beh` and both passes of `set_env` walk over a file in the
same way: they wait for the head of their section, skip comments and empty
lines, and stop at the next head.  Here the walk is a fold over the lines of
the section, whatever is done with them.
-/

namespace Chos.User

open Chos.Library
open Chos.Kernel (Text cString)

/-- The lines after the first `head` and before the next section, without
comments and empty lines. -/
def sectionLines (head : Text) (lines : List Text) : List Text :=
  (((lines.filter counts).dropWhile (· ≠ head)).drop 1).takeWhile
    fun line => ¬ isHead line

def sectionCloses (head : Text) (lines : List Text) : Bool :=
  (((lines.filter counts).dropWhile (· ≠ head)).drop 1).any isHead

theorem shellLines_eq : shellLines = sectionLines shellHead := rfl

/-- The loop over the successive contents of the line buffer.  `body` is what
is done with a line of the section, `ending` what is done before the `break`
at the next head. -/
def scanSection {σ : Type} (head : Text) (body : σ → Text → σ)
    (ending : σ → σ) : Bool → σ → List Text → σ
  | _, state, [] => state
  | start, state, buffer :: rest =>
      if buffer.getD 0 0 = '#'.toUInt8 ∨ buffer.getD 0 0 = newline then
        scanSection head body ending start state rest
      else
        let line := lineText buffer
        if start then
          if line.getD 0 0 = '%'.toUInt8 then ending state
          else scanSection head body ending true (body state line) rest
        else if line = head then
          scanSection head body ending true state rest
        else scanSection head body ending false state rest

/-- What the loop is for: a fold over the lines of a section, and the ending
if another section follows. -/
def foldSection {σ : Type} (body : σ → Text → σ) (ending : σ → σ)
    (state : σ) (lines : List Text) : σ :=
  let folded := (lines.takeWhile fun line => ¬ isHead line).foldl body state
  if lines.any isHead then ending folded else folded

section Walk

variable {σ : Type} (head : Text) (body : σ → Text → σ) (ending : σ → σ)

@[simp] theorem foldSection_cons_head {line : Text} (isNext : isHead line)
    (state : σ) (lines : List Text) :
    foldSection body ending state (line :: lines) = ending state := by
  simp [foldSection, isNext]

@[simp] theorem foldSection_cons {line : Text} (inside : ¬ isHead line)
    (state : σ) (lines : List Text) :
    foldSection body ending state (line :: lines) =
      foldSection body ending (body state line) lines := by
  simp [foldSection, inside]

theorem scanSection_of_not_counts {buffer : Text}
    (nonzero : buffer.getD 0 0 ≠ 0) (skipped : counts (lineText buffer) = false)
    (start : Bool) (state : σ) (rest : List Text) :
    scanSection head body ending start state (buffer :: rest) =
      scanSection head body ending start state rest := by
  rw [scanSection]
  apply if_pos
  by_cases empty : lineText buffer = []
  · right
    cases buffer with
    | nil => exact absurd rfl nonzero
    | cons c buffer =>
        have nonzero : c ≠ 0 := nonzero
        rw [lineText_cons] at empty
        simpa [nonzero] using empty
  · exact Or.inl (comment_of_not_counts skipped empty)

theorem scanSection_of_counts {buffer : Text}
    (taken : counts (lineText buffer) = true) (start : Bool) (state : σ)
    (rest : List Text) :
    scanSection head body ending start state (buffer :: rest) =
      if start then
        if isHead (lineText buffer) then ending state
        else
          scanSection head body ending true (body state (lineText buffer))
            rest
      else if lineText buffer = head then
        scanSection head body ending true state rest
      else scanSection head body ending false state rest := by
  rw [scanSection, if_neg (passes_of_counts taken)]
  simp only [isHead_iff]

theorem scanSection_true (state : σ) {buffers : List Text}
    (nonzero : ∀ buffer ∈ buffers, buffer.getD 0 0 ≠ 0) :
    scanSection head body ending true state buffers =
      foldSection body ending state
        ((buffers.map lineText).filter counts) := by
  induction buffers generalizing state with
  | nil => rfl
  | cons buffer rest induction =>
      rw [List.forall_mem_cons] at nonzero
      by_cases taken : counts (lineText buffer) = true
      · rw [scanSection_of_counts head body ending taken, List.map_cons,
          List.filter_cons_of_pos taken, if_pos rfl]
        by_cases isNext : isHead (lineText buffer) = true
        · rw [if_pos isNext, foldSection_cons_head body ending isNext]
        · rw [if_neg isNext, foldSection_cons body ending isNext]
          exact induction _ nonzero.2
      · rw [scanSection_of_not_counts head body ending nonzero.1
          (by simpa using taken), induction _ nonzero.2, List.map_cons,
          List.filter_cons_of_neg taken]

/-- The whole walk. -/
theorem scanSection_false (state : σ) {buffers : List Text}
    (nonzero : ∀ buffer ∈ buffers, buffer.getD 0 0 ≠ 0) :
    scanSection head body ending false state buffers =
      foldSection body ending state
        ((((buffers.map lineText).filter counts).dropWhile
          (· ≠ head)).drop 1) := by
  induction buffers with
  | nil => rfl
  | cons buffer rest induction =>
      rw [List.forall_mem_cons] at nonzero
      by_cases taken : counts (lineText buffer) = true
      · rw [scanSection_of_counts head body ending taken, List.map_cons,
          List.filter_cons_of_pos taken]
        by_cases isFirst : lineText buffer = head
        · simp [isFirst, scanSection_true head body ending state nonzero.2]
        · simp [isFirst, induction nonzero.2]
      · rw [scanSection_of_not_counts head body ending nonzero.1
          (by simpa using taken), induction nonzero.2, List.map_cons,
          List.filter_cons_of_neg taken]

end Walk

/-- A file as the programs read it: no NUL in it, and no line longer than the
line buffer of the utility, which has `MAXLINE` bytes. -/
structure ShortLines (content : Text) : Prop where
  terminated : 0 ∉ content
  short : ∀ line ∈ lines newline content, line.length < maxLine

theorem filter_counts_filter (lines : List Text) :
    (lines.filter (· ≠ [])).filter counts = lines.filter counts := by
  rw [List.filter_filter]
  apply List.filter_congr
  intro line _
  cases line with
  | nil => rfl
  | cons c line => simp

theorem sectionLines_filter (head : Text) (lines : List Text) :
    sectionLines head (lines.filter (· ≠ [])) = sectionLines head lines := by
  rw [sectionLines, sectionLines, filter_counts_filter]

namespace ShortLines

variable {content : Text} (well : ShortLines content)

include well

/-- What a buffer of the utility's size or a larger one holds, line by
line. -/
theorem texts_eq {limit : Nat} (large : maxLine - 1 ≤ limit) :
    ((pieces newline limit content).map lineText).filter (· ≠ []) =
      (lines newline content).filter (· ≠ []) := by
  have positive : 0 < limit := by
    unfold maxLine at large
    omega
  have fits : ∀ line ∈ lines newline content, line.length ≤ limit := by
    intro line inside
    have less := well.short line inside
    omega
  rw [← pieces_eq_lines positive fits]
  apply congrArg
  apply List.map_congr_left
  intro piece read
  rw [lineText_eq_cString]
  apply cString_of_terminated
  intro zero
  apply well.terminated
  apply subset_of_mem_pieces read
  exact (List.takeWhile_sublist _).subset zero

theorem nonzero {limit : Nat} (positive : 0 < limit) :
    ∀ buffer ∈ pieces newline limit content, buffer.getD 0 0 ≠ 0 := by
  intro buffer read
  cases buffer with
  | nil => exact absurd rfl (ne_nil_of_mem_pieces positive read)
  | cons c buffer =>
      intro zero
      apply well.terminated
      apply subset_of_mem_pieces read
      rw [← show c = 0 from zero]
      exact List.mem_cons_self

theorem scanSection_eq {σ : Type} (head : Text) (body : σ → Text → σ)
    (ending : σ → σ) (state : σ) :
    scanSection head body ending false state
        (pieces newline (maxLine - 1) content) =
      let folded :=
        (sectionLines head (lines newline content)).foldl body state
      if sectionCloses head (lines newline content) then ending folded
      else folded := by
  rw [scanSection_false head body ending state
    (well.nonzero (by unfold maxLine; omega)), ← filter_counts_filter,
    well.texts_eq (Nat.le_refl (maxLine - 1)), filter_counts_filter]
  rfl

/-- The lines of the section are the same for every buffer that is large
enough. -/
theorem sectionLines_eq (head : Text) {limit : Nat}
    (large : maxLine - 1 ≤ limit) :
    sectionLines head ((pieces newline limit content).map lineText) =
      sectionLines head (lines newline content) := by
  rw [← sectionLines_filter, well.texts_eq large, sectionLines_filter]

end ShortLines

def behHead : Text := ascii "%BEH"

def bashLogin : Text := ascii "BASHLOGIN"

/-- The line of the section sets the flag, every other line leaves it. -/
def behLine (dobashlog : Int) (line : Text) : Int :=
  if line = bashLogin then 1 else dobashlog

/-- `set_beh`; the null pointer it returns when the file cannot be opened is
zero. -/
def setBeh (opened : Bool) (content : Text) : Int :=
  if ¬ opened then 0
  else
    scanSection behHead behLine id false 0
      (pieces newline (maxLine - 1) content)

theorem foldl_behLine_eq_one_iff (lines : List Text) (dobashlog : Int) :
    lines.foldl behLine dobashlog = 1 ↔
      dobashlog = 1 ∨ bashLogin ∈ lines := by
  induction lines generalizing dobashlog with
  | nil => simp
  | cons line lines induction =>
      rw [List.foldl_cons, induction, List.mem_cons]
      by_cases same : line = bashLogin
      · simp [behLine, same]
      · simp [behLine, same, Ne.symm same]

theorem setBeh_eq_one_iff {content : Text} (well : ShortLines content)
    (opened : Bool) :
    setBeh opened content = 1 ↔
      opened = true ∧
        bashLogin ∈ sectionLines behHead (lines newline content) := by
  cases opened with
  | false => simp [setBeh]
  | true =>
      have folded := well.scanSection_eq behHead behLine id 0
      simp only [id_eq, ite_self] at folded
      simp only [setBeh, not_true_eq_false, if_false, true_and]
      rw [folded, foldl_behLine_eq_one_iff]
      exact or_iff_right (by decide)

/-- The text after the first `:` of a line, if the part before it is the
name. -/
def pathFor (name line : Text) : Option Text :=
  match splitColon line with
  | none => none
  | some (key, path) => if key = name then some path else none

theorem lookup_filterMap_splitColon (name : Text) (lines : List Text) :
    (lines.filterMap splitColon).lookup name =
      lines.findSome? (pathFor name) := by
  induction lines with
  | nil => rfl
  | cons line lines induction =>
      rw [List.findSome?_cons, pathFor]
      cases entry : splitColon line with
      | none =>
          rw [List.filterMap_cons_none entry]
          exact induction
      | some pair =>
          obtain ⟨key, path⟩ := pair
          rw [List.filterMap_cons_some entry, List.lookup_cons]
          by_cases same : key = name
          · simp [same]
          · have other : (name == key) = false := by
              simpa using Ne.symm same
            simp [same, other, induction]

theorem checkChosIn_eq_findSome? {file : ConfFile} (usable : file.Usable)
    (well : ShortLines file.content) {size : Nat} (large : maxLine ≤ size)
    (name : CString) :
    checkChosIn size file name.text =
      (sectionLines shellHead (lines newline file.content)).findSome?
        (pathFor name.text) := by
  have same := well.sectionLines_eq shellHead
    (Nat.sub_le_sub_right large 1)
  rw [checkChosIn_eq usable, name.cString_text, confEntries, shellEntries,
    shellLines_eq, same, lookup_filterMap_splitColon]

/-- The section readers accept the grammar of the files: both versions of
`check_chos` find the first entry of the name, and `set_beh` finds its
line. -/
theorem readers_follow_grammar {file : ConfFile} (usable : file.Usable)
    (well : ShortLines file.content) (name : CString)
    {chosenv : Text} (wellEnv : ShortLines chosenv) (opened : Bool) :
    Utility.checkChos file name.text =
        (sectionLines shellHead (lines newline file.content)).findSome?
          (pathFor name.text) ∧
      Pam.checkChos file name.text =
        (sectionLines shellHead (lines newline file.content)).findSome?
          (pathFor name.text) ∧
      (setBeh opened chosenv = 1 ↔ opened = true ∧
        bashLogin ∈ sectionLines behHead (lines newline chosenv)) := by
  refine ⟨?_, ?_, setBeh_eq_one_iff wellEnv opened⟩
  · exact checkChosIn_eq_findSome? usable well (Nat.le_refl maxLine) name
  · exact checkChosIn_eq_findSome? usable well (Nat.le_succ maxLine) name

/-- A comment, an empty line, a path with a `:`, another section, and no
newline at the end. -/
def sampleTrees : ConfFile :=
  ⟨true, true, 0, ascii
    "# trees\n%SHELLS\n\nlocal:/\nold:/x:y\n%ENV\nold:/z"⟩

def sampleEnv : Text :=
  ascii "#\n%ENV\nCHOS\nPATH\n%BEH\nBASHLOGIN\n"

theorem readers_follow_grammar_sample :
    Utility.checkChos sampleTrees (ascii "old") = some (ascii "/x:y") ∧
      Pam.checkChos sampleTrees (ascii "old") = some (ascii "/x:y") ∧
      setBeh true sampleEnv = 1 := by
  have usable : sampleTrees.Usable := by decide
  have well : ShortLines sampleTrees.content :=
    ⟨by decide +kernel, by decide +kernel⟩
  have wellEnv : ShortLines sampleEnv :=
    ⟨by decide +kernel, by decide +kernel⟩
  obtain ⟨utility, pam, beh⟩ := readers_follow_grammar usable well
    ⟨ascii "old", by decide +kernel⟩ wellEnv true
  refine ⟨utility.trans ?_, pam.trans ?_, beh.mpr ?_⟩
  · decide +kernel
  · decide +kernel
  · decide +kernel

end Chos.User
