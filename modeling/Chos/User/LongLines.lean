import Chos.Library.Chunks
import Chos.User.Sections

/-!
# Lines that do not fit

`fgets` gives a line that is longer than the buffer in several parts, and
`check_chos` takes each part for a line.  Here every content of the buffer
knows the line it was cut from, so that it can be said which lines are
misread.
-/

namespace Chos.User

open Chos.Library
open Chos.Kernel (Text cString)

/-- The first content of the buffer that is `%SHELLS`, and what is read
after it. -/
def opening : List (Chunk UInt8) →
    Option (Chunk UInt8 × List (Chunk UInt8))
  | [] => none
  | chunk :: rest =>
      if lineText chunk.text = shellHead then some (chunk, rest)
      else opening rest

/-- In the section the loop ends at the next head and at an entry with the
name. -/
def endsSearch (name : Text) (chunk : Chunk UInt8) : Bool :=
  isHead (lineText chunk.text) ∨
    counts (lineText chunk.text) ∧
      (splitColon (lineText chunk.text)).map Prod.fst = some name

theorem opening_eq_some {reads after : List (Chunk UInt8)}
    {head : Chunk UInt8} (opened : opening reads = some (head, after)) :
    lineText head.text = shellHead ∧
      ∃ skipped, reads = skipped ++ head :: after ∧
        ∀ chunk ∈ skipped, lineText chunk.text ≠ shellHead := by
  induction reads with
  | nil => cases opened
  | cons chunk rest induction =>
      rw [opening] at opened
      split at opened
      · rename_i isShell
        cases opened
        exact ⟨isShell, [], rfl, by simp⟩
      · rename_i other
        obtain ⟨isShell, skipped, rfl, before⟩ := induction opened
        refine ⟨isShell, chunk :: skipped, rfl, ?_⟩
        exact List.forall_mem_cons.mpr ⟨other, before⟩

theorem counts_of_isHead {line : Text} (head : isHead line) :
    counts line := by
  cases line with
  | nil => cases head
  | cons c line =>
      have percent : c = '%'.toUInt8 := by simpa [isHead] using head
      have other : '%'.toUInt8 ≠ '#'.toUInt8 := by decide
      simp [counts, percent, other]

theorem scanShells_true_eq (name : Text) (reads : List (Chunk UInt8)) :
    scanShells name true (reads.map Chunk.text) =
      (reads.find? (endsSearch name)).bind fun last =>
        if isHead (lineText last.text) then none
        else (splitColon (lineText last.text)).map Prod.snd := by
  induction reads with
  | nil => rfl
  | cons chunk rest induction =>
      rw [List.map_cons]
      by_cases taken : counts (lineText chunk.text) = true
      · rw [scanShells_of_counts taken, if_pos rfl]
        by_cases head : isHead (lineText chunk.text) = true
        · have ends : endsSearch name chunk = true := by
            simp [endsSearch, head]
          rw [List.find?_cons_of_pos ends]
          simp [head]
        · cases entry : splitColon (lineText chunk.text) with
          | none =>
              have goesOn : ¬ endsSearch name chunk = true := by
                simp [endsSearch, head, entry]
              rw [List.find?_cons_of_neg goesOn, ← induction]
              simp [head]
          | some pair =>
              obtain ⟨key, path⟩ := pair
              by_cases same : key = name
              · have ends : endsSearch name chunk = true := by
                  simp [endsSearch, taken, entry, same]
                rw [List.find?_cons_of_pos ends]
                simp [head, entry, same]
              · have goesOn : ¬ endsSearch name chunk = true := by
                  simp [endsSearch, head, entry, same]
                rw [List.find?_cons_of_neg goesOn, ← induction]
                simp [head, same]
      · have goesOn : ¬ endsSearch name chunk = true := by
          have noHead : ¬ isHead (lineText chunk.text) = true :=
            fun head => taken (counts_of_isHead head)
          simp [endsSearch, noHead, taken]
        rw [scanShells_of_not_counts (by simpa using taken), induction,
          List.find?_cons_of_neg goesOn]

theorem scanShells_false_eq (name : Text) (reads : List (Chunk UInt8)) :
    scanShells name false (reads.map Chunk.text) =
      (opening reads).bind fun found =>
        scanShells name true (found.2.map Chunk.text) := by
  have isShell : counts shellHead = true := by decide
  induction reads with
  | nil => rfl
  | cons chunk rest induction =>
      rw [List.map_cons, opening]
      by_cases taken : counts (lineText chunk.text) = true
      · rw [scanShells_of_counts taken]
        by_cases head : lineText chunk.text = shellHead
        · simp [head]
        · simp [head, induction]
      · have other : lineText chunk.text ≠ shellHead := by
          intro same
          rw [same] at taken
          exact taken isShell
        rw [scanShells_of_not_counts (by simpa using taken), induction,
          if_neg other]

/-- The loop of `check_chos`: it waits for the head, then for the end. -/
theorem checkChosIn_eq_bind {file : ConfFile} (usable : file.Usable)
    (size : Nat) (name : CString) :
    checkChosIn size file name.text =
      (opening (chunks newline (size - 1) file.content)).bind fun found =>
        (found.2.find? (endsSearch name.text)).bind fun last =>
          if isHead (lineText last.text) then none
          else (splitColon (lineText last.text)).map Prod.snd := by
  obtain ⟨opened, stated, owned⟩ := usable
  simp only [checkChosIn, opened, stated, owned, not_true_eq_false, if_false,
    ne_eq]
  rw [← map_text_chunks, scanShells_false_eq, name.cString_text]
  simp only [scanShells_true_eq]

/-- A version of `check_chos` with room for `limit` characters reads lines
only: what it takes for a head, or for an entry with the name, begins its
line, and a path is all that follows the first `:` of a line that is no
comment. -/
structure NeverMisread (limit : Nat)
    (check : ConfFile → Text → Option Text) (file : ConfFile)
    (name : Text) : Prop where
  head : ∀ {head after},
    opening (chunks newline limit file.content) = some (head, after) →
      head.before = []
  last : ∀ {head after last},
    opening (chunks newline limit file.content) = some (head, after) →
    after.find? (endsSearch name) = some last → last.before = []
  path : ∀ {path}, check file name = some path →
    ∃ head after entry line,
      opening (chunks newline limit file.content) = some (head, after) ∧
      after.find? (endsSearch name) = some entry ∧
      (lines newline file.content)[entry.number]? = some line ∧
      line.head? ≠ some '#'.toUInt8 ∧
      (splitColon line).map Prod.snd = some path

/-- The lines with the head, with the entry and with the next head fit into
the buffer.  An entry has no NUL in its line; a head that is cut may be
longer if its line begins with one. -/
structure FitsBuffer (limit : Nat) (content name : Text) : Prop where
  head : ∀ {head after},
    opening (chunks newline limit content) = some (head, after) →
      head.line.length ≤ limit ∨ shellHead ++ [0] <+: head.line
  next : ∀ {head after last},
    opening (chunks newline limit content) = some (head, after) →
    after.find? (endsSearch name) = some last →
    isHead (lineText last.text) →
      last.line.length ≤ limit ∨
        isHead last.line ∧ last.number ≠ head.number
  entry : ∀ {head after last},
    opening (chunks newline limit content) = some (head, after) →
    after.find? (endsSearch name) = some last →
    ¬ isHead (lineText last.text) →
      last.line.length ≤ limit ∧ 0 ∉ last.line

theorem splitColon_append {line key path : Text}
    (entry : splitColon line = some (key, path)) (rest : Text) :
    splitColon (line ++ rest) = some (key, path ++ rest) := by
  induction line generalizing key with
  | nil => cases entry
  | cons c line induction =>
      rw [splitColon_cons] at entry
      rw [List.cons_append, splitColon_cons]
      split at entry
      · rename_i colon
        cases entry
        rw [if_pos colon]
      · rename_i other
        obtain ⟨⟨key, _⟩, split, same⟩ := Option.map_eq_some_iff.mp entry
        cases same
        rw [if_neg other, induction split]
        rfl

theorem cString_eq_or (text : Text) :
    cString text = text ∨ cString text ++ [0] <+: text := by
  induction text with
  | nil => exact .inl rfl
  | cons c text induction =>
      by_cases zero : c = 0
      · right
        simp [zero, cString]
      · simpa [zero, cString] using induction

section Chunk

variable {limit : Nat} {content : Text} {chunk : Chunk UInt8}
  (cut : chunk.CutFrom newline limit content)

include cut

theorem before_eq_nil_of_fits (fits : chunk.line.length ≤ limit)
    (nonempty : lineText chunk.text ≠ []) : chunk.before = [] := by
  by_contra tail
  have full := cut.later tail
  have within := cut.split.length_le
  rw [List.length_append] at within
  have nothing : beforeNewline newline chunk.text = [] :=
    List.length_eq_zero_iff.mp (by omega)
  rw [lineText_eq_cString, nothing] at nonempty
  exact nonempty rfl

theorem lineText_of_begins (begins : chunk.before = []) :
    lineText chunk.text = cString (chunk.line.take limit) := by
  rw [lineText_eq_cString, cut.first begins]

theorem whole_iff (nonempty : lineText chunk.text ≠ []) :
    chunk.before = [] ∧ lineText chunk.text = chunk.line ↔
      chunk.line.length ≤ limit ∧ 0 ∉ chunk.line := by
  constructor
  · rintro ⟨begins, whole⟩
    constructor
    · rw [← whole, lineText_of_begins cut begins]
      exact Nat.le_trans (List.takeWhile_sublist _).length_le
        (List.length_take_le _ _)
    · rw [← whole]
      exact terminated_lineText chunk.text
  · rintro ⟨fits, terminated⟩
    have begins := before_eq_nil_of_fits cut fits nonempty
    refine ⟨begins, ?_⟩
    rw [lineText_of_begins cut begins, List.take_of_length_le fits,
      cString_of_terminated terminated]

theorem isHead_lineText_iff (positive : 0 < limit)
    (begins : chunk.before = []) :
    isHead (lineText chunk.text) = true ↔ isHead chunk.line = true := by
  rw [lineText_of_begins cut begins]
  obtain ⟨limit, rfl⟩ := Nat.exists_eq_succ_of_ne_zero (Nat.ne_of_gt positive)
  cases chunk.line with
  | nil => rfl
  | cons c line =>
      have percent : (0 : UInt8) ≠ '%'.toUInt8 := by decide
      by_cases zero : c = 0
      · simp [zero, cString, isHead, percent]
      · simp [zero, cString, isHead]

theorem fits_of_shellHead (begins : chunk.before = [])
    (large : shellHead.length < limit)
    (isShell : lineText chunk.text = shellHead) :
    chunk.line.length ≤ limit ∨ shellHead ++ [0] <+: chunk.line := by
  rw [lineText_of_begins cut begins] at isShell
  rcases cString_eq_or (chunk.line.take limit) with whole | ended
  · left
    have length_eq := congrArg List.length (isShell.symm.trans whole)
    rw [List.length_take] at length_eq
    omega
  · right
    rw [isShell] at ended
    exact ended.trans (List.take_prefix limit _)

theorem lineText_of_shellHead (begins : chunk.before = [])
    (large : shellHead.length < limit)
    (ended : shellHead ++ [0] <+: chunk.line) :
    lineText chunk.text = shellHead := by
  have short : (shellHead ++ [0]).length ≤ limit := by
    rw [List.length_append]
    exact large
  obtain ⟨rest, whole⟩ := ended
  have plain : (0 : UInt8) ∉ shellHead := by decide
  rw [lineText_of_begins cut begins, ← whole, List.take_append,
    List.take_of_length_le short, List.append_assoc, List.singleton_append,
    cString_append_zero, cString_of_terminated plain]

theorem path_whole_iff {key path : Text}
    (split : splitColon (lineText chunk.text) = some (key, path)) :
    chunk.before = [] ∧
        (splitColon chunk.line).map Prod.snd = some path ↔
      chunk.line.length ≤ limit ∧ 0 ∉ chunk.line := by
  have nonempty : lineText chunk.text ≠ [] := by
    intro nothing
    rw [nothing] at split
    cases split
  rw [← whole_iff cut nonempty]
  constructor
  · rintro ⟨begins, same⟩
    refine ⟨begins, ?_⟩
    have inLine : lineText chunk.text <+: chunk.line := by
      rw [lineText_of_begins cut begins]
      exact (List.takeWhile_prefix _).trans (List.take_prefix limit _)
    obtain ⟨rest, whole⟩ := inLine
    rw [← whole, splitColon_append split] at same
    have nothing : rest = [] := by simpa using same
    rw [← whole, nothing, List.append_nil]
  · rintro ⟨begins, whole⟩
    rw [← whole, split]
    exact ⟨begins, rfl⟩

end Chunk

theorem exists_path_of_entry {name : Text} {after : List (Chunk UInt8)}
    {last : Chunk UInt8} (found : after.find? (endsSearch name) = some last)
    (entry : ¬ isHead (lineText last.text)) :
    counts (lineText last.text) = true ∧
      ∃ path, splitColon (lineText last.text) = some (name, path) := by
  have ends := List.find?_some found
  simp only [endsSearch, entry, false_or, decide_eq_true_eq,
    Bool.false_eq_true] at ends
  obtain ⟨taken, named⟩ := ends
  obtain ⟨⟨key, path⟩, split, rfl⟩ := Option.map_eq_some_iff.mp named
  exact ⟨taken, path, split⟩

section Search

variable {limit : Nat} {content : Text} {head : Chunk UInt8}
  {after : List (Chunk UInt8)}
  (opened : opening (chunks newline limit content) = some (head, after))

include opened

/-- The head of the section is no tail, if and only if its line fits or has a
NUL after `%SHELLS`. -/
theorem head_begins_iff (large : shellHead.length < limit) :
    head.before = [] ↔
      head.line.length ≤ limit ∨ shellHead ++ [0] <+: head.line := by
  obtain ⟨isShell, skipped, whole, notYet⟩ := opening_eq_some opened
  have positive : 0 < limit := Nat.zero_lt_of_lt large
  have cut := cutFrom_of_chunks_eq whole
  have nonempty : lineText head.text ≠ [] := by
    rw [isShell]
    decide
  constructor
  · intro begins
    exact fits_of_shellHead cut begins large isShell
  · rintro (fits | ended)
    · exact before_eq_nil_of_fits cut fits nonempty
    · -- the line was taken for the head when it was begun
      by_contra tail
      obtain ⟨first, inside, begins, _, sameLine, cutFirst⟩ :=
        exists_first_of_chunks_eq whole positive tail
      apply notYet first inside
      apply lineText_of_shellHead cutFirst begins large
      rw [sameLine]
      exact ended

variable {name : Text} {last : Chunk UInt8}
  (found : after.find? (endsSearch name) = some last)

include found

theorem last_cutFrom : last.CutFrom newline limit content := by
  obtain ⟨_, skipped, whole, _⟩ := opening_eq_some opened
  apply cutFrom_of_mem_chunks
  rw [whole]
  apply List.mem_append_right
  exact List.mem_cons_of_mem _ (List.mem_of_find?_eq_some found)

/-- The next head is no tail, if and only if its line fits or begins with a
`%`, and is not the line of the head of the section. -/
theorem next_begins_iff (positive : 0 < limit)
    (next : isHead (lineText last.text)) :
    last.before = [] ↔
      last.line.length ≤ limit ∨
        isHead last.line ∧ last.number ≠ head.number := by
  obtain ⟨_, skipped, whole, _⟩ := opening_eq_some opened
  obtain ⟨_, passed, rest, between, goesOn⟩ :=
    List.find?_eq_some_iff_append.mp found
  have cut := last_cutFrom opened found
  have whole' : chunks newline limit content =
      (skipped ++ head :: passed) ++ last :: rest := by
    rw [whole, between]
    simp
  constructor
  · intro begins
    right
    refine ⟨(isHead_lineText_iff cut positive begins).mp next, ?_⟩
    have inFront : head ∈ skipped ++ head :: passed := by simp
    have less := (number_le_of_chunks_eq whole' positive inFront).2 begins
    exact Nat.ne_of_gt less
  · rintro (fits | ⟨isNext, other⟩)
    · apply before_eq_nil_of_fits cut fits
      intro nothing
      rw [nothing] at next
      cases next
    · by_contra tail
      obtain ⟨first, inside, begins, same, sameLine, cutFirst⟩ :=
        exists_first_of_chunks_eq whole' positive tail
      rw [List.mem_append, List.mem_cons] at inside
      rcases inside with before | rfl | inPassed
      · -- the head of the section would stand in the same line
        have most := (number_le_of_chunks_eq whole positive before).1
        have least := (number_le_of_chunks_eq whole' positive
          (by simp : head ∈ skipped ++ head :: passed)).1
        apply other
        omega
      · exact other same.symm
      · have stays := goesOn first inPassed
        have isFirst := (isHead_lineText_iff cutFirst positive begins).mpr
          (sameLine ▸ isNext)
        simp [endsSearch, isFirst] at stays

end Search

/-- `check_chos` with a buffer of the given size takes no part of a line for
a line, if and only if the lines it goes by fit into the buffer. -/
theorem neverMisread_iff {file : ConfFile} (usable : file.Usable)
    (name : CString) {size : Nat} (large : shellHead.length < size - 1) :
    NeverMisread (size - 1) (checkChosIn size) file name.text ↔
      FitsBuffer (size - 1) file.content name.text := by
  have positive : 0 < size - 1 := Nat.zero_lt_of_lt large
  constructor
  · intro never
    refine ⟨?_, ?_, ?_⟩
    · intro head after opened
      exact (head_begins_iff opened large).mp (never.head opened)
    · intro head after last opened found next
      exact (next_begins_iff opened found positive next).mp
        (never.last opened found)
    · intro head after last opened found entry
      have cut := last_cutFrom opened found
      obtain ⟨taken, path, split⟩ := exists_path_of_entry found entry
      have returned : checkChosIn size file name.text = some path := by
        rw [checkChosIn_eq_bind usable, opened, Option.bind_some, found,
          Option.bind_some, if_neg entry, split]
        rfl
      obtain ⟨_, _, _, line, opened', found', listed, _, same⟩ :=
        never.path returned
      cases opened.symm.trans opened'
      cases found.symm.trans found'
      cases cut.listed.symm.trans listed
      exact (path_whole_iff cut split).mp ⟨never.last opened found, same⟩
  · intro fits
    refine ⟨?_, ?_, ?_⟩
    · intro head after opened
      exact (head_begins_iff opened large).mpr (fits.head opened)
    · intro head after last opened found
      by_cases next : isHead (lineText last.text) = true
      · exact (next_begins_iff opened found positive next).mpr
          (fits.next opened found next)
      · have cut := last_cutFrom opened found
        obtain ⟨_, path, split⟩ := exists_path_of_entry found next
        exact ((path_whole_iff cut split).mpr
          (fits.entry opened found next)).1
    · intro path returned
      rw [checkChosIn_eq_bind usable] at returned
      obtain ⟨⟨head, after⟩, opened, returned⟩ :=
        Option.bind_eq_some_iff.mp returned
      obtain ⟨last, found, returned⟩ := Option.bind_eq_some_iff.mp returned
      split at returned
      · cases returned
      · rename_i entry
        have cut := last_cutFrom opened found
        obtain ⟨taken, listed, split⟩ := exists_path_of_entry found entry
        rw [split] at returned
        cases returned
        have room := fits.entry opened found entry
        obtain ⟨begins, same⟩ := (path_whole_iff cut split).mpr room
        refine ⟨head, after, last, last.line, opened, found, cut.listed,
          ?_, same⟩
        simp only [counts, decide_eq_true_eq] at taken
        rw [← ((whole_iff cut taken.1).mpr room).2]
        exact taken.2

/-- For both versions of `check_chos`: overlong lines are never misread, if
and only if the lines that the loop goes by fit into its buffer. -/
theorem checkChos_neverMisread_iff {file : ConfFile} (usable : file.Usable)
    (name : CString) :
    (NeverMisread (maxLine - 1) Utility.checkChos file name.text ↔
        FitsBuffer (maxLine - 1) file.content name.text) ∧
      (NeverMisread maxLine Pam.checkChos file name.text ↔
        FitsBuffer maxLine file.content name.text) :=
  ⟨neverMisread_iff usable name (by decide),
    @neverMisread_iff file usable name (maxLine + 1) (by decide)⟩

theorem ShortLines.fitsBuffer {content : Text} (well : ShortLines content)
    {limit : Nat} (large : maxLine - 1 ≤ limit) (name : Text) :
    FitsBuffer limit content name := by
  have room : ∀ {chunk : Chunk UInt8},
      chunk.CutFrom newline limit content → chunk.line.length ≤ limit := by
    intro chunk cut
    have less := well.short chunk.line (List.mem_of_getElem? cut.listed)
    omega
  refine ⟨?_, ?_, ?_⟩
  · intro head after opened
    obtain ⟨_, skipped, whole, _⟩ := opening_eq_some opened
    exact Or.inl (room (cutFrom_of_chunks_eq whole))
  · intro head after last opened found _
    exact Or.inl (room (last_cutFrom opened found))
  · intro head after last opened found _
    have cut := last_cutFrom opened found
    refine ⟨room cut, fun zero => well.terminated ?_⟩
    exact subset_of_mem_lines (List.mem_of_getElem? cut.listed) zero

theorem checkChos_neverMisread_sample :
    NeverMisread (maxLine - 1) Utility.checkChos sampleTrees
        (ascii "old") ∧
      NeverMisread maxLine Pam.checkChos sampleTrees (ascii "old") := by
  have usable : sampleTrees.Usable := by decide
  have well : ShortLines sampleTrees.content :=
    ⟨by decide +kernel, by decide +kernel⟩
  obtain ⟨utility, pam⟩ := checkChos_neverMisread_iff usable
    ⟨ascii "old", by decide +kernel⟩
  exact ⟨utility.mpr (well.fitsBuffer (Nat.le_refl _) _),
    pam.mpr (well.fitsBuffer (Nat.sub_le _ 1) _)⟩

def longComment : ConfFile :=
  ⟨true, true, 0, ascii "%SHELLS\n#" ++ List.replicate 78 '-'.toUInt8 ++
    ascii "x:/a\n"⟩

/-- The end of the comment is taken for an entry. -/
theorem long_comment_is_misread :
    longComment.Usable ∧
      Utility.checkChos longComment (ascii "x") = some (ascii "/a") ∧
      (∀ line ∈ lines newline longComment.content,
        (splitColon line).map Prod.snd = some (ascii "/a") →
          line.head? = some '#'.toUInt8) ∧
      ¬ NeverMisread (maxLine - 1) Utility.checkChos longComment
        (ascii "x") := by
  have returned : Utility.checkChos longComment (ascii "x") =
      some (ascii "/a") := by decide +kernel
  have onlyComment : ∀ line ∈ lines newline longComment.content,
      (splitColon line).map Prod.snd = some (ascii "/a") →
        line.head? = some '#'.toUInt8 := by decide +kernel
  refine ⟨by decide, returned, onlyComment, ?_⟩
  intro never
  obtain ⟨_, _, _, line, _, _, listed, noComment, same⟩ :=
    never.path returned
  exact noComment
    (onlyComment line (List.mem_of_getElem? listed) same)

end Chos.User
