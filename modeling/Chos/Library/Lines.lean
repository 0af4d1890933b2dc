import Mathlib.Data.List.Basic

/-!
# Reading a stream line by line

A line reader with a limit delivers the next line together with its newline,
or, when the line does not fit, as much of it as does; the rest of the line
comes with the next read.  As long as no line is longer than the limit, the
pieces delivered are the lines, up to pieces without text.
-/

namespace Chos.Library

variable {α : Type*} [DecidableEq α]

/-- One read: at most `limit` symbols, up to and including the first
newline.  The second part is what is left of the stream. -/
def readLine (newline : α) : Nat → List α → List α × List α
  | 0, stream => ([], stream)
  | _ + 1, [] => ([], [])
  | limit + 1, symbol :: stream =>
      if symbol = newline then ([symbol], stream)
      else
        let (line, rest) := readLine newline limit stream
        (symbol :: line, rest)

/-- The first `count` reads, as far as the stream lasts. -/
def readLines (newline : α) (limit : Nat) : Nat → List α → List (List α)
  | 0, _ => []
  | _ + 1, [] => []
  | count + 1, symbol :: stream =>
      let (line, rest) := readLine newline limit (symbol :: stream)
      line :: readLines newline limit count rest

def pieces (newline : α) (limit : Nat) (stream : List α) : List (List α) :=
  readLines newline limit stream.length stream

/-- The lines of a stream, without their newlines.  What stands after the
last newline is a line if there is anything. -/
def lines (newline : α) : List α → List (List α)
  | [] => []
  | symbol :: stream =>
      if symbol = newline then [] :: lines newline stream
      else
        match lines newline stream with
        | [] => [[symbol]]
        | line :: rest => (symbol :: line) :: rest

variable {newline : α} {limit : Nat} {line rest stream : List α}

theorem readLine_append (newline : α) (limit : Nat) (stream : List α) :
    (readLine newline limit stream).1 ++ (readLine newline limit stream).2 =
      stream := by
  induction limit generalizing stream with
  | zero => rfl
  | succ limit induction =>
      cases stream with
      | nil => rfl
      | cons symbol stream =>
          rw [readLine]
          split
          · rfl
          · exact congrArg (symbol :: ·) (induction stream)

theorem length_readLine_le (newline : α) (limit : Nat) (stream : List α) :
    (readLine newline limit stream).1.length ≤ limit := by
  induction limit generalizing stream with
  | zero => exact Nat.le_refl 0
  | succ limit induction =>
      cases stream with
      | nil => exact Nat.zero_le _
      | cons symbol stream =>
          rw [readLine]
          split
          · exact Nat.succ_le_succ (Nat.zero_le limit)
          · exact Nat.succ_le_succ (induction stream)

/-- A line that fits comes with its newline. -/
theorem readLine_of_lt (plain : newline ∉ line) (fits : line.length < limit)
    (rest : List α) :
    readLine newline limit (line ++ newline :: rest) =
      (line ++ [newline], rest) := by
  induction line generalizing limit with
  | nil =>
      cases limit with
      | zero => exact absurd fits (Nat.not_lt_zero _)
      | succ limit => simp [readLine]
  | cons symbol line induction =>
      rw [List.mem_cons, not_or] at plain
      cases limit with
      | zero => exact absurd fits (Nat.not_lt_zero _)
      | succ limit =>
          have shorter := induction plain.2 (Nat.lt_of_succ_lt_succ fits)
          simp [readLine, Ne.symm plain.1, shorter]

/-- A line that does not fit is cut at the limit. -/
theorem readLine_of_le (plain : newline ∉ line) (long : limit ≤ line.length)
    (rest : List α) :
    readLine newline limit (line ++ rest) =
      (line.take limit, line.drop limit ++ rest) := by
  induction line generalizing limit with
  | nil =>
      have none : limit = 0 := Nat.le_zero.mp long
      subst none
      rfl
  | cons symbol line induction =>
      rw [List.mem_cons, not_or] at plain
      cases limit with
      | zero => rfl
      | succ limit =>
          have shorter := induction plain.2 (Nat.le_of_succ_le_succ long)
          simp [readLine, Ne.symm plain.1, shorter]

/-- The end of the stream ends a line as well. -/
theorem readLine_of_end (plain : newline ∉ line)
    (fits : line.length ≤ limit) :
    readLine newline limit line = (line, []) := by
  induction line generalizing limit with
  | nil => cases limit <;> rfl
  | cons symbol line induction =>
      rw [List.mem_cons, not_or] at plain
      cases limit with
      | zero => exact absurd fits (Nat.not_succ_le_zero _)
      | succ limit =>
          have shorter := induction plain.2 (Nat.le_of_succ_le_succ fits)
          simp [readLine, Ne.symm plain.1, shorter]

theorem readLine_ne_nil (positive : 0 < limit) (nonempty : stream ≠ []) :
    (readLine newline limit stream).1 ≠ [] := by
  cases limit with
  | zero => exact absurd positive (Nat.lt_irrefl 0)
  | succ limit =>
      cases stream with
      | nil => exact absurd rfl nonempty
      | cons symbol stream =>
          rw [readLine]
          split <;> simp

theorem length_rest_lt (positive : 0 < limit) (nonempty : stream ≠ []) :
    (readLine newline limit stream).2.length < stream.length := by
  have whole := congrArg List.length (readLine_append newline limit stream)
  have some := List.length_pos_iff.mpr
    (@readLine_ne_nil _ _ newline _ _ positive nonempty)
  rw [List.length_append] at whole
  omega

/-- More reads than symbols find nothing more. -/
theorem readLines_congr (positive : 0 < limit) {count other : Nat}
    (enough : stream.length ≤ count) (enoughOther : stream.length ≤ other) :
    readLines newline limit count stream =
      readLines newline limit other stream := by
  induction count generalizing other stream with
  | zero =>
      have empty := List.length_eq_zero_iff.mp (Nat.le_zero.mp enough)
      subst empty
      cases other <;> rfl
  | succ count induction =>
      cases stream with
      | nil => cases other <;> rfl
      | cons symbol stream =>
          cases other with
          | zero => exact absurd enoughOther (Nat.not_succ_le_zero _)
          | succ other =>
              have less := @length_rest_lt _ _ newline _ _ positive
                (List.cons_ne_nil symbol stream)
              rw [List.length_cons] at less enough enoughOther
              have later := @induction
                (readLine newline limit (symbol :: stream)).2 other
                (by omega) (by omega)
              simp only [readLines, later]

@[simp] theorem pieces_nil : pieces newline limit [] = [] := rfl

theorem pieces_eq_cons (positive : 0 < limit) (nonempty : stream ≠ []) :
    pieces newline limit stream =
      (readLine newline limit stream).1 ::
        pieces newline limit (readLine newline limit stream).2 := by
  obtain ⟨symbol, tail, rfl⟩ := List.exists_cons_of_ne_nil nonempty
  have less := @length_rest_lt _ _ newline _ _ positive nonempty
  rw [List.length_cons] at less
  have later := @readLines_congr _ _ newline _ _ positive tail.length
    _ (Nat.le_of_lt_succ less) (Nat.le_refl _)
  simp only [pieces, List.length_cons, readLines, later]

theorem length_le_of_mem_readLines {count : Nat} {piece : List α}
    (read : piece ∈ readLines newline limit count stream) :
    piece.length ≤ limit := by
  induction count generalizing stream with
  | zero => cases read
  | succ count induction =>
      cases stream with
      | nil => cases read
      | cons symbol stream =>
          rcases List.mem_cons.mp read with first | later
          · rw [first]
            exact length_readLine_le newline limit _
          · exact induction later

theorem length_le_of_mem_pieces {piece : List α}
    (read : piece ∈ pieces newline limit stream) : piece.length ≤ limit :=
  length_le_of_mem_readLines read

theorem subset_of_mem_readLines {count : Nat} {piece : List α}
    (read : piece ∈ readLines newline limit count stream) :
    piece ⊆ stream := by
  induction count generalizing stream with
  | zero => cases read
  | succ count induction =>
      cases stream with
      | nil => cases read
      | cons symbol stream =>
          have whole := readLine_append newline limit (symbol :: stream)
          rcases List.mem_cons.mp read with first | later
          · intro other inside
            rw [← whole, ← first]
            exact List.mem_append_left _ inside
          · intro other inside
            rw [← whole]
            exact List.mem_append_right _ (induction later inside)

theorem subset_of_mem_pieces {piece : List α}
    (read : piece ∈ pieces newline limit stream) : piece ⊆ stream :=
  subset_of_mem_readLines read

theorem ne_nil_of_mem_pieces {piece : List α} (positive : 0 < limit)
    (read : piece ∈ pieces newline limit stream) : piece ≠ [] := by
  induction length : stream.length using Nat.strongRecOn
    generalizing stream with
  | ind count induction =>
      subst length
      by_cases empty : stream = []
      · subst empty
        cases read
      · have less := @length_rest_lt _ _ newline _ _ positive empty
        rw [pieces_eq_cons positive empty] at read
        rcases List.mem_cons.mp read with first | later
        · rw [first]
          exact readLine_ne_nil positive empty
        · exact induction _ less later rfl

theorem lines_append_newline (plain : newline ∉ line) (rest : List α) :
    lines newline (line ++ newline :: rest) = line :: lines newline rest := by
  induction line with
  | nil => simp [lines]
  | cons symbol line induction =>
      rw [List.mem_cons, not_or] at plain
      have shorter := induction plain.2
      simp [lines, Ne.symm plain.1, shorter]

theorem lines_of_end (plain : newline ∉ line) (nonempty : line ≠ []) :
    lines newline line = [line] := by
  induction line with
  | nil => exact absurd rfl nonempty
  | cons symbol line induction =>
      rw [List.mem_cons, not_or] at plain
      cases line with
      | nil => simp [lines, Ne.symm plain.1]
      | cons next line =>
          have shorter := induction plain.2 (List.cons_ne_nil _ _)
          rw [lines, if_neg (Ne.symm plain.1), shorter]

/-- A stream is empty, or one last line, or a line with its newline and a
rest. -/
inductive InLines (newline : α) : List α → Prop where
  | empty : InLines newline []
  | last {line : List α} (plain : newline ∉ line) (nonempty : line ≠ []) :
      InLines newline line
  | next {line rest : List α} (plain : newline ∉ line)
      (later : InLines newline rest) :
      InLines newline (line ++ newline :: rest)

theorem inLines (newline : α) (symbols : List α) :
    InLines newline symbols := by
  induction length : symbols.length using Nat.strongRecOn
    generalizing symbols with
  | ind count induction =>
      subst length
      by_cases ends : newline ∈ symbols
      · obtain ⟨line, rest, rfl, plain⟩ := List.eq_append_cons_of_mem ends
        apply InLines.next plain
        exact induction rest.length (by simp; omega) rest rfl
      · by_cases empty : symbols = []
        · subst empty
          exact .empty
        · exact .last ends empty

theorem plain_of_mem_lines (inside : line ∈ lines newline stream) :
    newline ∉ line := by
  induction inLines newline stream with
  | empty => cases inside
  | @last only plain nonempty =>
      rw [lines_of_end plain nonempty, List.mem_singleton] at inside
      rw [inside]
      exact plain
  | @next first rest plain later induction =>
      rw [lines_append_newline plain] at inside
      rcases List.mem_cons.mp inside with rfl | inRest
      · exact plain
      · exact induction inRest

theorem subset_of_mem_lines (inside : line ∈ lines newline stream) :
    line ⊆ stream := by
  induction inLines newline stream with
  | empty => cases inside
  | @last only plain nonempty =>
      rw [lines_of_end plain nonempty, List.mem_singleton] at inside
      rw [inside]
      exact List.Subset.refl only
  | @next first rest plain later induction =>
      rw [lines_append_newline plain] at inside
      rcases List.mem_cons.mp inside with rfl | inRest
      · exact List.subset_append_left line _
      · intro symbol taken
        apply List.mem_append_right
        exact List.mem_cons_of_mem _ (induction inRest taken)

/-- The text of a piece: what stands before the newline. -/
def beforeNewline (newline : α) (piece : List α) : List α :=
  piece.takeWhile (· ≠ newline)

theorem beforeNewline_of_plain (plain : newline ∉ line) :
    beforeNewline newline line = line := by
  induction line with
  | nil => rfl
  | cons symbol line induction =>
      rw [List.mem_cons, not_or] at plain
      have shorter := induction plain.2
      simpa [beforeNewline, Ne.symm plain.1] using shorter

theorem beforeNewline_append (plain : newline ∉ line) (rest : List α) :
    beforeNewline newline (line ++ newline :: rest) = line := by
  induction line with
  | nil => simp [beforeNewline]
  | cons symbol line induction =>
      rw [List.mem_cons, not_or] at plain
      have shorter := induction plain.2
      simpa [beforeNewline, Ne.symm plain.1] using shorter

/-- With no line above the limit the pieces are the lines, but for pieces
and lines without text. -/
theorem pieces_eq_lines (positive : 0 < limit)
    (short : ∀ line ∈ lines newline stream, line.length ≤ limit) :
    ((pieces newline limit stream).map (beforeNewline newline)).filter
        (· ≠ []) =
      (lines newline stream).filter (· ≠ []) := by
  induction inLines newline stream with
  | empty => rfl
  | @last line plain nonempty =>
      rw [lines_of_end plain nonempty] at short ⊢
      have fits := short line List.mem_cons_self
      rw [pieces_eq_cons positive nonempty, readLine_of_end plain fits]
      simp [beforeNewline_of_plain plain]
  | @next line rest plain later induction =>
      rw [lines_append_newline plain, List.forall_mem_cons] at short
      have shorter := induction short.2
      rw [lines_append_newline plain, pieces_eq_cons positive (by simp)]
      rcases Nat.lt_or_eq_of_le short.1 with fits | full
      · rw [readLine_of_lt plain fits]
        simp only [List.map_cons, beforeNewline_append plain,
          List.filter_cons, shorter]
      · -- the newline of a full line is a piece of its own
        have cut : readLine newline limit (line ++ newline :: rest) =
            (line, newline :: rest) := by
          have taken := readLine_of_le plain (Nat.le_of_eq full.symm)
            (newline :: rest)
          rw [taken, ← full]
          simp
        have alone : readLine newline limit (newline :: rest) =
            ([newline], rest) :=
          @readLine_of_lt _ _ newline limit [] List.not_mem_nil positive rest
        rw [cut, pieces_eq_cons positive (List.cons_ne_nil newline rest),
          alone]
        simp only [List.map_cons, beforeNewline_of_plain plain,
          List.filter_cons, shorter]
        simp [beforeNewline]

end Chos.Library
