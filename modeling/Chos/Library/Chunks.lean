import Chos.Library.Lines

/-!
# Where the pieces of a stream come from

A reader with a limit does not see whether a piece begins a line or is the
tail of one.  Here every piece carries its line along: the number of the line,
what was read of it before, and its whole text.
-/

namespace Chos.Library

variable {α : Type*} [DecidableEq α]

/-- A piece and the line it was cut from. -/
structure Chunk (α : Type*) where
  number : Nat
  before : List α
  text : List α
  line : List α

/-- The reads of `readLines`, with what is known about the lines.  Of the line
in which the stream begins, `soFar` has been read. -/
def chunksFrom (newline : α) (limit : Nat) :
    Nat → Nat → List α → List α → List (Chunk α)
  | 0, _, _, _ => []
  | _ + 1, _, _, [] => []
  | count + 1, number, soFar, symbol :: stream =>
      let (text, rest) := readLine newline limit (symbol :: stream)
      let line := soFar ++ beforeNewline newline (symbol :: stream)
      ⟨number, soFar, text, line⟩ ::
        if newline ∈ text then
          chunksFrom newline limit count (number + 1) [] rest
        else chunksFrom newline limit count number (soFar ++ text) rest

def chunks (newline : α) (limit : Nat) (stream : List α) :
    List (Chunk α) :=
  chunksFrom newline limit stream.length 0 [] stream

variable {newline : α} {limit : Nat} {stream : List α}

theorem map_text_chunksFrom (count number : Nat) (soFar stream : List α) :
    (chunksFrom newline limit count number soFar stream).map Chunk.text =
      readLines newline limit count stream := by
  induction count generalizing number soFar stream with
  | zero => rfl
  | succ count induction =>
      cases stream with
      | nil => rfl
      | cons symbol stream =>
          simp only [chunksFrom, readLines, List.map_cons]
          split
          · rw [induction]
          · rw [induction]

theorem map_text_chunks (newline : α) (limit : Nat) (stream : List α) :
    (chunks newline limit stream).map Chunk.text =
      pieces newline limit stream :=
  map_text_chunksFrom stream.length 0 [] stream

/-- A read ends with the newline, or where the limit or the stream does. -/
theorem readLine_cases (newline : α) (limit : Nat) (stream : List α) :
    (∃ line rest, newline ∉ line ∧ line.length < limit ∧
        stream = line ++ newline :: rest ∧
        readLine newline limit stream = (line ++ [newline], rest)) ∨
      (newline ∉ stream.take limit ∧
        readLine newline limit stream =
          (stream.take limit, stream.drop limit)) := by
  induction inLines newline stream with
  | empty =>
      right
      cases limit <;> simp [readLine]
  | @last line plain nonempty =>
      right
      refine ⟨fun inside => plain (List.mem_of_mem_take inside), ?_⟩
      rcases Nat.le_total limit line.length with long | fits
      · simpa using readLine_of_le plain long []
      · rw [readLine_of_end plain fits, List.take_of_length_le fits,
          List.drop_eq_nil_of_le fits]
  | @next line rest plain later induction =>
      rcases Nat.lt_or_ge line.length limit with fits | long
      · left
        exact ⟨line, rest, plain, fits, rfl, readLine_of_lt plain fits rest⟩
      · right
        rw [readLine_of_le plain long, List.take_append_of_le_length long,
          List.drop_append_of_le_length long]
        exact ⟨fun inside => plain (List.mem_of_mem_take inside), rfl⟩

theorem beforeNewline_readLine (newline : α) (limit : Nat)
    (stream : List α) :
    beforeNewline newline (readLine newline limit stream).1 =
      (beforeNewline newline stream).take limit := by
  rcases readLine_cases newline limit stream with
    ⟨line, rest, plain, fits, rfl, read⟩ | ⟨plain, read⟩
  · rw [read, beforeNewline_append plain, beforeNewline_append plain,
      List.take_of_length_le (Nat.le_of_lt fits)]
  · rw [read, beforeNewline, beforeNewline, List.take_takeWhile]

/-- The chunk is cut from a line of the stream: from its beginning, or after
at least a full read of it. -/
structure Chunk.CutFrom (newline : α) (limit : Nat) (stream : List α)
    (chunk : Chunk α) : Prop where
  listed : (lines newline stream)[chunk.number]? = some chunk.line
  split : chunk.before ++ beforeNewline newline chunk.text <+: chunk.line
  first : chunk.before = [] →
    beforeNewline newline chunk.text = chunk.line.take limit
  later : chunk.before ≠ [] → limit ≤ chunk.before.length

theorem beforeNewline_append_of_plain {line : List α}
    (plain : newline ∉ line) (rest : List α) :
    beforeNewline newline (line ++ rest) =
      line ++ beforeNewline newline rest := by
  apply List.takeWhile_append_of_pos
  intro symbol inside
  apply decide_eq_true
  rintro rfl
  exact plain inside

theorem getElem?_lines_zero (nonempty : stream ≠ []) :
    (lines newline stream)[0]? = some (beforeNewline newline stream) := by
  cases inLines newline stream with
  | empty => exact absurd rfl nonempty
  | last plain nonempty =>
      rw [lines_of_end plain nonempty, beforeNewline_of_plain plain]
      rfl
  | next plain later =>
      rw [lines_append_newline plain, beforeNewline_append plain]
      rfl

theorem cutFrom_of_mem_chunksFrom {count number : Nat}
    {soFar : List α} (plain : newline ∉ soFar)
    (full : soFar ≠ [] → limit ≤ soFar.length) {chunk : Chunk α}
    (read : chunk ∈ chunksFrom newline limit count number soFar stream) :
    ∃ index, chunk.number = number + index ∧
      Chunk.CutFrom newline limit (soFar ++ stream)
        { chunk with number := index } := by
  induction count generalizing number soFar stream with
  | zero => cases read
  | succ count induction =>
      cases stream with
      | nil => cases read
      | cons symbol stream =>
          rcases List.mem_cons.mp read with rfl | inRest
          · refine ⟨0, rfl, ?_, ?_, ?_, full⟩
            · rw [getElem?_lines_zero (by simp),
                beforeNewline_append_of_plain plain]
            · rw [beforeNewline_readLine]
              exact List.prefix_append_right_inj _ |>.mpr
                (List.take_prefix limit _)
            · intro nothing
              have nothing : soFar = [] := nothing
              subst nothing
              exact beforeNewline_readLine newline limit _
          · rcases readLine_cases newline limit (symbol :: stream) with
              ⟨line, rest, plainLine, fits, whole, taken⟩ | ⟨inLine, taken⟩
            · -- the rest begins with the next line
              rw [taken, if_pos (by simp)] at inRest
              obtain ⟨index, number_eq, cut⟩ :=
                induction List.not_mem_nil (absurd rfl) inRest
              refine ⟨index + 1, by omega, ?_, cut.split, cut.first,
                cut.later⟩
              have plainAll : newline ∉ soFar ++ line := by
                simp [plain, plainLine]
              rw [whole, ← List.append_assoc, lines_append_newline plainAll]
              exact cut.listed
            · -- the rest is in the same line
              rw [taken, if_neg inLine] at inRest
              have same : (soFar ++ (symbol :: stream).take limit) ++
                  (symbol :: stream).drop limit = soFar ++ symbol :: stream := by
                rw [List.append_assoc, List.take_append_drop]
              rw [← same]
              apply induction _ _ inRest
              · simp [plain, inLine]
              · intro _
                have left : (symbol :: stream).drop limit ≠ [] := by
                  intro nothing
                  rw [nothing] at inRest
                  cases count <;> cases inRest
                rw [List.length_append, List.length_take_of_le]
                · exact Nat.le_add_left limit _
                · rw [ne_eq, List.drop_eq_nil_iff] at left
                  exact Nat.le_of_not_le left

theorem cutFrom_of_mem_chunks {chunk : Chunk α}
    (read : chunk ∈ chunks newline limit stream) :
    chunk.CutFrom newline limit stream := by
  obtain ⟨index, number_eq, cut⟩ :=
    cutFrom_of_mem_chunksFrom List.not_mem_nil (absurd rfl) read
  rw [Nat.zero_add] at number_eq
  rw [← number_eq] at cut
  exact cut

/-- The rest of a stream belongs to the line that was begun, or to later
ones. -/
theorem number_of_mem_chunksFrom {count number : Nat} {soFar : List α}
    {chunk : Chunk α}
    (read : chunk ∈ chunksFrom newline limit count number soFar stream) :
    number ≤ chunk.number ∧
      (soFar ≠ [] → chunk.before = [] → number < chunk.number) := by
  induction count generalizing number soFar stream with
  | zero => cases read
  | succ count induction =>
      cases stream with
      | nil => cases read
      | cons symbol stream =>
          rcases List.mem_cons.mp read with rfl | inRest
          · exact ⟨Nat.le_refl number, fun begun nothing =>
              absurd nothing begun⟩
          · split at inRest
            · have less := (induction inRest).1
              exact ⟨Nat.le_of_succ_le less, fun _ _ => less⟩
            · obtain ⟨least, less⟩ := induction inRest
              refine ⟨least, fun begun => less ?_⟩
              exact List.append_ne_nil_of_left_ne_nil begun _

/-- Lines are read one after the other, each from its beginning. -/
theorem pairwise_chunksFrom (positive : 0 < limit) (count number : Nat)
    (soFar stream : List α) :
    (chunksFrom newline limit count number soFar stream).Pairwise
      fun earlier later => earlier.number ≤ later.number ∧
        (later.before = [] → earlier.number < later.number) := by
  induction count generalizing number soFar stream with
  | zero => exact .nil
  | succ count induction =>
      cases stream with
      | nil => exact .nil
      | cons symbol stream =>
          apply List.Pairwise.cons
          · intro later inRest
            split at inRest
            · have less := (number_of_mem_chunksFrom inRest).1
              exact ⟨Nat.le_of_succ_le less, fun _ => less⟩
            · obtain ⟨least, less⟩ :=
                number_of_mem_chunksFrom inRest
              refine ⟨least, less ?_⟩
              apply List.append_ne_nil_of_right_ne_nil
              exact readLine_ne_nil positive (List.cons_ne_nil _ _)
          · split
            · exact induction _ _ _
            · exact induction _ _ _

/-- A line that is read was begun before, in this stream or ahead of it. -/
theorem exists_first_of_mem_chunksFrom {count number : Nat}
    {soFar : List α} {chunk : Chunk α}
    (read : chunk ∈ chunksFrom newline limit count number soFar stream) :
    (∃ first ∈ chunksFrom newline limit count number soFar stream,
        first.before = [] ∧ first.number = chunk.number) ∨
      soFar ≠ [] ∧ chunk.number = number := by
  induction count generalizing number soFar stream with
  | zero => cases read
  | succ count induction =>
      cases stream with
      | nil => cases read
      | cons symbol stream =>
          have begins : chunk.number = number →
              (∃ first ∈ chunksFrom newline limit (count + 1) number soFar
                  (symbol :: stream),
                first.before = [] ∧ first.number = chunk.number) ∨
              soFar ≠ [] ∧ chunk.number = number := by
            intro same
            by_cases nothing : soFar = []
            · exact Or.inl
                ⟨_, List.mem_cons_self, nothing, same.symm⟩
            · exact Or.inr ⟨nothing, same⟩
          rcases List.mem_cons.mp read with rfl | inRest
          · exact begins rfl
          · rw [chunksFrom]
            split at inRest
            · rename_i ends
              rcases induction inRest with
                ⟨first, inside, facts⟩ | ⟨begun, _⟩
              · left
                refine ⟨first, List.mem_cons_of_mem _ ?_, facts⟩
                simpa only [ends, if_true] using inside
              · exact absurd rfl begun
            · rename_i inLine
              rcases induction inRest with
                ⟨first, inside, facts⟩ | ⟨_, same⟩
              · left
                refine ⟨first, List.mem_cons_of_mem _ ?_, facts⟩
                simpa only [inLine, if_false] using inside
              · exact begins same

section Order

variable {front back : List (Chunk α)} {chunk : Chunk α}
  (whole : chunks newline limit stream = front ++ chunk :: back)

include whole

theorem number_le_of_chunks_eq (positive : 0 < limit)
    {earlier : Chunk α} (inside : earlier ∈ front) :
    earlier.number ≤ chunk.number ∧
      (chunk.before = [] → earlier.number < chunk.number) := by
  have ordered := @pairwise_chunksFrom _ _ newline _ positive
    stream.length 0 [] stream
  rw [← chunks, whole, List.pairwise_append] at ordered
  exact ordered.2.2 earlier inside chunk List.mem_cons_self

theorem cutFrom_of_chunks_eq : chunk.CutFrom newline limit stream := by
  apply cutFrom_of_mem_chunks
  rw [whole]
  exact List.mem_append_right front List.mem_cons_self

theorem exists_first_of_chunks_eq (positive : 0 < limit)
    (tail : chunk.before ≠ []) :
    ∃ first ∈ front, first.before = [] ∧ first.number = chunk.number ∧
      first.line = chunk.line ∧ first.CutFrom newline limit stream := by
  have read : chunk ∈ chunks newline limit stream := by
    rw [whole]
    exact List.mem_append_right front List.mem_cons_self
  rcases exists_first_of_mem_chunksFrom read with
    ⟨first, inside, begins, same⟩ | ⟨begun, _⟩
  · have cut := cutFrom_of_mem_chunks inside
    have sameLine : first.line = chunk.line := by
      have listed := cut.listed
      rw [same, (cutFrom_of_mem_chunks read).listed] at listed
      exact (Option.some.inj listed).symm
    rw [← chunks, whole, List.mem_append, List.mem_cons] at inside
    refine ⟨first, ?_, begins, same, sameLine, cut⟩
    rcases inside with inFront | rfl | inBack
    · exact inFront
    · exact absurd begins tail
    · have ordered := @pairwise_chunksFrom _ _ newline _ positive
        stream.length 0 [] stream
      rw [← chunks, whole, List.pairwise_append,
        List.pairwise_cons] at ordered
      have less := (ordered.2.1.1 first inBack).2 begins
      exact absurd same (Nat.ne_of_gt less)
  · exact absurd rfl begun

end Order

end Chos.Library
