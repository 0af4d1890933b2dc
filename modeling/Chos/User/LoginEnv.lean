import Chos.User.Sections

/-!
# The environment of the login shell

`set_env` reads the `%ENV` section twice: once to count its lines, and once to
fill an array with that many slots.  The count goes on growing during the
second pass, so what keeps the stores inside the array is that both passes see
the same lines.  `count` is an `int`, and two passes may count too far for it.
The names of the section go to `getenv` as they stand, and one with a `=` in
it can match an entry of the environment that sets another variable.
-/

namespace Chos.User

open Chos.Library
open Chos.Kernel (Text cString)

def envHead : Text := ascii "%ENV"

def defPath : Text := ascii "PATH=/bin:/usr/bin:/usr/local/bin"

def pathName : Text := ascii "PATH"

/-- `getenv`: what stands behind the name and a `=` in the first entry that
begins with them. -/
def getenv (environ : List CString) (name : Text) : Option Text :=
  environ.findSome? fun entry =>
    if (name ++ ['='.toUInt8]).isPrefixOf entry.text then
      some (entry.text.drop (name.length + 1))
    else none

/-- The ways in which `set_env` does not return an environment.  `undefined`
stands for an overflow of `count` and for a store outside `env`. -/
inductive EnvStop where
  | unableToOpen
  | noMemory
  | noEntryMemory
  | unterminated
  | undefined
  deriving DecidableEq, Repr

/-- A pointer in the array `env`. -/
inductive Slot where
  | uninitialised
  | null
  | string (text : Text)
  deriving DecidableEq, Repr

def intMax : Int := 2147483647

def increment (count : Int) : Except EnvStop Int :=
  if count + 1 ≤ intMax then .ok (count + 1) else .error .undefined

def storeSlot (env : List Slot) (index : Nat) (slot : Slot) :
    Except EnvStop (List Slot) :=
  if index < env.length then .ok (env.set index slot)
  else .error .undefined

/-- Whether `fopen` and the `malloc` calls succeed; the last one is asked for
each entry by its name. -/
structure EnvOutcome where
  opened : Bool
  envAlloc : Bool
  varAlloc : Text → Bool

structure EnvOutcome.Succeeds (outcome : EnvOutcome) : Prop where
  opened : outcome.opened = true
  envAlloc : outcome.envAlloc = true
  varAlloc : ∀ name, outcome.varAlloc name = true

/-- The first pass. -/
def countVariables (content : Text) : Except EnvStop Int :=
  scanSection envHead (fun count _ => count >>= increment)
    (fun count => count >>= increment) false (.ok 1)
    (pieces newline (maxLine - 1) content)

/-- The variables of the second pass. -/
structure Filling where
  count : Int
  setc : Nat
  env : List Slot

def Filling.countLine (filling : Filling) : Except EnvStop Filling := do
  let count ← increment filling.count
  return { filling with count := count }

def Filling.put (filling : Filling) (slot : Slot) :
    Except EnvStop Filling := do
  let env ← storeSlot filling.env filling.setc slot
  return { filling with
    setc := filling.setc + 1
    env := env }

/-- The body of the second pass for a line of the section. -/
def fillLine (outcome : EnvOutcome) (environ : List CString)
    (filling : Except EnvStop Filling) (line : Text) :
    Except EnvStop Filling := do
  let before ← filling
  let filling ← before.countLine
  let value := getenv environ line
  if line = pathName then filling.put (.string defPath)
  else
    match value with
    | none => return filling
    | some value =>
        if (filling.setc : Int) < filling.count then
          if outcome.varAlloc line then
            filling.put (.string (line ++ '='.toUInt8 :: value))
          else .error .noEntryMemory
        else return filling

/-- `set_env`: the array it returns. -/
def setEnv (outcome : EnvOutcome) (environ : List CString) (content : Text) :
    Except EnvStop (List Slot) :=
  if ¬ outcome.opened then .error .unableToOpen
  else do
    let count ← countVariables content
    if ¬ outcome.envAlloc then .error .noMemory
    else
      let filling ← scanSection envHead (fillLine outcome environ)
        (fun filling => filling >>= Filling.countLine) false
        (.ok {
          count := count
          setc := 0
          env := List.replicate count.toNat .uninitialised })
        (pieces newline (maxLine - 1) content)
      if (filling.setc : Int) < filling.count then
        storeSlot filling.env filling.setc .null
      else .error .unterminated

/-- The variable that an entry of the environment sets, and its value: what
stands before the first `=` and what stands behind it. -/
def assignment (entry : Text) : Option (Text × Text) :=
  match entry.dropWhile (· ≠ '='.toUInt8) with
  | [] => none
  | _ :: value => some (entry.takeWhile (· ≠ '='.toUInt8), value)

/-- The value of a variable, the first one if it is set more than once. -/
def valueIn (environ : List CString) (name : Text) : Option Text :=
  (environ.filterMap fun entry => assignment entry.text).lookup name

/-- What a line of the section should contribute. -/
def listedEntry (environ : List CString) (line : Text) : Option Text :=
  if line = pathName then some defPath
  else
    (valueIn environ line).map fun value => line ++ '='.toUInt8 :: value

/-- The entries of the environment, in the order of the file. -/
def whitelisted (environ : List CString) (content : Text) : List Text :=
  (sectionLines envHead (lines newline content)).filterMap
    (listedEntry environ)

/-- The lines either pass counts: those of the section and the head of the
next one. -/
def countedLines (content : Text) : Nat :=
  (sectionLines envHead (lines newline content)).length +
    if sectionCloses envHead (lines newline content) then 1 else 0

/-- The environment is built as documented: the whitelisted entries, a null
pointer, and the slots that were not needed.  In particular each string sets
a variable that a line of the section names, `PATH` to its fixed value and
every other one to its value in the caller's environment. -/
structure BuildsWhitelist (outcome : EnvOutcome) (environ : List CString)
    (content : Text) : Prop where
  built : setEnv outcome environ content =
    .ok ((whitelisted environ content).map .string ++ .null ::
      List.replicate
        (countedLines content - (whitelisted environ content).length)
        .uninitialised)
  listed : ∀ env, setEnv outcome environ content = .ok env →
    ∀ text, Slot.string text ∈ env →
      ∃ name value, assignment text = some (name, value) ∧
        name ∈ sectionLines envHead (lines newline content) ∧
        (text = defPath ∨ valueIn environ name = some value)

/-- A line with `=` in it that `getenv` finds at the beginning of an entry,
whose variable is another one. -/
def Misleads (environ : List CString) (line : Text) : Prop :=
  '='.toUInt8 ∈ line ∧
    ∃ entry ∈ environ, line ++ ['='.toUInt8] <+: entry.text

instance (environ : List CString) (line : Text) :
    Decidable (Misleads environ line) :=
  inferInstanceAs (Decidable (_ ∧ _))

theorem assignment_cons (c : UInt8) (entry : Text) :
    assignment (c :: entry) =
      if c = '='.toUInt8 then some ([], entry)
      else
        (assignment entry).map fun (name, value) => (c :: name, value) := by
  by_cases ends : c = '='.toUInt8
  · simp [assignment, ends]
  · simp only [assignment, List.dropWhile_cons, List.takeWhile_cons, ends,
      ne_eq, not_false_eq_true, decide_true, if_true, if_false]
    cases entry.dropWhile (· ≠ '='.toUInt8) with
    | nil => simp
    | cons first value => simp

theorem assignment_append {name : Text} (plain : '='.toUInt8 ∉ name)
    (value : Text) :
    assignment (name ++ '='.toUInt8 :: value) = some (name, value) := by
  induction name with
  | nil => simp [assignment_cons]
  | cons c name induction =>
      rw [List.mem_cons, not_or] at plain
      rw [List.cons_append, assignment_cons, if_neg (Ne.symm plain.1),
        induction plain.2]
      rfl

theorem assignment_eq_some {entry name value : Text}
    (sets : assignment entry = some (name, value)) :
    entry = name ++ '='.toUInt8 :: value ∧ '='.toUInt8 ∉ name := by
  induction entry generalizing name with
  | nil => cases sets
  | cons c entry induction =>
      rw [assignment_cons] at sets
      split at sets
      · rename_i ends
        cases sets
        simp [ends]
      · rename_i other
        obtain ⟨⟨name, _⟩, inner, same⟩ := Option.map_eq_some_iff.mp sets
        cases same
        obtain ⟨whole, plain⟩ := induction inner
        refine ⟨by rw [whole]; rfl, ?_⟩
        simpa [Ne.symm other] using plain

theorem valueIn_cons (entry : CString) (environ : List CString)
    (name : Text) :
    valueIn (entry :: environ) name =
      match assignment entry.text with
      | none => valueIn environ name
      | some (other, value) =>
          if name = other then some value else valueIn environ name := by
  rw [valueIn, List.filterMap_cons]
  cases sets : assignment entry.text with
  | none => rfl
  | some pair =>
      obtain ⟨other, value⟩ := pair
      by_cases same : name = other
      · simp [same]
      · have differs : (name == other) = false := by simpa using same
        simp [List.lookup_cons, differs, same, valueIn]

theorem plain_of_valueIn {environ : List CString} {name value : Text}
    (set : valueIn environ name = some value) : '='.toUInt8 ∉ name := by
  induction environ with
  | nil => cases set
  | cons entry environ induction =>
      rw [valueIn_cons] at set
      cases sets : assignment entry.text with
      | none =>
          rw [sets] at set
          exact induction set
      | some pair =>
          obtain ⟨other, value⟩ := pair
          simp only [sets] at set
          split at set
          · rename_i same
            rw [same]
            exact (assignment_eq_some sets).2
          · exact induction set

theorem isPrefixOf_iff_assignment {name : Text}
    (plain : '='.toUInt8 ∉ name) (entry : Text) :
    (name ++ ['='.toUInt8]).isPrefixOf entry = true ↔
      assignment entry = some (name, entry.drop (name.length + 1)) := by
  rw [List.isPrefixOf_iff_prefix]
  constructor
  · rintro ⟨value, rfl⟩
    rw [List.append_assoc, List.singleton_append, assignment_append plain]
    simp
  · intro sets
    obtain ⟨whole, _⟩ := assignment_eq_some sets
    refine ⟨entry.drop (name.length + 1), ?_⟩
    rw [List.append_assoc, List.singleton_append]
    exact whole.symm

theorem getenv_eq_valueIn {name : Text} (plain : '='.toUInt8 ∉ name)
    (environ : List CString) :
    getenv environ name = valueIn environ name := by
  induction environ with
  | nil => rfl
  | cons entry environ induction =>
      have test := isPrefixOf_iff_assignment plain entry.text
      rw [getenv, List.findSome?_cons, ← getenv, valueIn_cons, induction]
      by_cases matching :
          (name ++ ['='.toUInt8]).isPrefixOf entry.text = true
      · simp [matching, test.mp matching]
      · rw [if_neg matching]
        cases sets : assignment entry.text with
        | none => rfl
        | some pair =>
            obtain ⟨other, value⟩ := pair
            have different : name ≠ other := by
              intro same
              subst same
              apply matching
              rw [test, sets]
              have whole := (assignment_eq_some sets).1
              simp [whole]
            simp [different]

theorem getenv_eq_none_iff {environ : List CString} {name : Text} :
    getenv environ name = none ↔
      ¬ ∃ entry ∈ environ, name ++ ['='.toUInt8] <+: entry.text := by
  simp [getenv, List.findSome?_eq_none_iff]

/-- What a line of the section contributes in the code. -/
def envEntry (environ : List CString) (line : Text) : Option Text :=
  if line = pathName then some defPath
  else
    (getenv environ line).map fun value => line ++ '='.toUInt8 :: value

/-- The code passes what it should, unless the line misleads it into passing
something. -/
theorem listedEntry_eq (environ : List CString) (line : Text) :
    listedEntry environ line =
      if Misleads environ line then none else envEntry environ line := by
  by_cases plain : '='.toUInt8 ∈ line
  · have notPath : line ≠ pathName := by
      intro same
      rw [same] at plain
      exact absurd plain (by decide)
    have unset : valueIn environ line = none := by
      apply Option.eq_none_iff_forall_ne_some.mpr
      intro value set
      exact plain_of_valueIn set plain
    rw [listedEntry, if_neg notPath, unset, envEntry, if_neg notPath]
    by_cases misleads : Misleads environ line
    · rw [if_pos misleads]
      rfl
    · rw [if_neg misleads, getenv_eq_none_iff.mpr
        fun found => misleads ⟨plain, found⟩]
  · rw [if_neg fun misleads => plain misleads.1, listedEntry, envEntry,
      getenv_eq_valueIn plain]

theorem envEntry_of_misleads {environ : List CString} {line : Text}
    (misleads : Misleads environ line) : envEntry environ line ≠ none := by
  intro nothing
  rw [envEntry] at nothing
  split at nothing
  · cases nothing
  · rw [Option.map_eq_none_iff, getenv_eq_none_iff] at nothing
    exact nothing misleads.2

def passed (environ : List CString) (content : Text) : List Text :=
  (sectionLines envHead (lines newline content)).filterMap
    (envEntry environ)

theorem length_le_and_filterMap_eq_iff (environ : List CString)
    (lines : List Text) :
    (lines.filterMap (listedEntry environ)).length ≤
        (lines.filterMap (envEntry environ)).length ∧
      (lines.filterMap (envEntry environ) =
          lines.filterMap (listedEntry environ) ↔
        ∀ line ∈ lines, ¬ Misleads environ line) := by
  induction lines with
  | nil => simp
  | cons line lines induction =>
      obtain ⟨fewer, same⟩ := induction
      have listed := listedEntry_eq environ line
      rw [List.forall_mem_cons, ← same]
      by_cases misleads : Misleads environ line
      · rw [if_pos misleads] at listed
        obtain ⟨text, passes⟩ :=
          Option.ne_none_iff_exists'.mp (envEntry_of_misleads misleads)
        rw [List.filterMap_cons_none listed,
          List.filterMap_cons_some passes, List.length_cons]
        refine ⟨by omega, ?_⟩
        constructor
        · intro equal
          have longer := congrArg List.length equal
          rw [List.length_cons] at longer
          omega
        · intro both
          exact absurd misleads both.1
      · rw [if_neg misleads] at listed
        cases passes : envEntry environ line with
        | none =>
            rw [passes] at listed
            rw [List.filterMap_cons_none listed,
              List.filterMap_cons_none passes]
            exact ⟨fewer, by simp [misleads]⟩
        | some text =>
            rw [passes] at listed
            rw [List.filterMap_cons_some listed,
              List.filterMap_cons_some passes]
            exact ⟨Nat.succ_le_succ fewer, by simp [misleads]⟩

/-- No variable of the caller gets into the environment unless a line of the
section names it. -/
theorem listed_of_mem_whitelisted {environ : List CString}
    {content text : Text} (inside : text ∈ whitelisted environ content) :
    ∃ name value, assignment text = some (name, value) ∧
      name ∈ sectionLines envHead (lines newline content) ∧
      (text = defPath ∨ valueIn environ name = some value) := by
  obtain ⟨name, listed, built⟩ := List.mem_filterMap.mp inside
  rw [listedEntry] at built
  split at built
  · rename_i path
    rw [path] at listed
    cases built
    exact ⟨pathName, ascii "/bin:/usr/bin:/usr/local/bin", by decide +kernel,
      listed, Or.inl rfl⟩
  · obtain ⟨value, found, same⟩ := Option.map_eq_some_iff.mp built
    rw [← same, assignment_append (plain_of_valueIn found)]
    exact ⟨name, value, rfl, listed, Or.inr found⟩

theorem foldl_error {σ : Type}
    {body : Except EnvStop σ → Text → Except EnvStop σ}
    (stays : ∀ stop line, body (.error stop) line = .error stop)
    (stop : EnvStop) (lines : List Text) :
    lines.foldl body (.error stop) = .error stop := by
  induction lines with
  | nil => rfl
  | cons line lines induction =>
      rw [List.foldl_cons, stays]
      exact induction

theorem ok_bind_increment (count : Int) :
    ((.ok count : Except EnvStop Int) >>= increment) = increment count := rfl

theorem foldl_increment (lines : List Text) {count : Int}
    (small : count ≤ intMax) :
    lines.foldl (fun count _ => count >>= increment)
        (.ok count : Except EnvStop Int) =
      if count + lines.length ≤ intMax then .ok (count + lines.length)
      else .error .undefined := by
  induction lines generalizing count with
  | nil => simp [small]
  | cons line lines induction =>
      rw [List.foldl_cons, List.length_cons]
      by_cases next : count + 1 ≤ intMax
      · rw [ok_bind_increment, increment, if_pos next, induction next,
          Int.natCast_succ, Int.add_assoc, Int.add_comm 1]
      · rw [ok_bind_increment, increment, if_neg next,
          if_neg (by push_cast; omega)]
        exact foldl_error (fun _ _ => rfl) _ lines

theorem countVariables_eq {content : Text} (well : ShortLines content) :
    countVariables content =
      if (1 : Int) + countedLines content ≤ intMax then
        .ok (1 + countedLines content)
      else .error .undefined := by
  have folded := well.scanSection_eq envHead
    (fun (count : Except EnvStop Int) _ => count >>= increment)
    (fun count => count >>= increment) (.ok 1)
  rw [countVariables, folded, countedLines]
  simp only
  rw [foldl_increment _ (by decide)]
  cases sectionCloses envHead (lines newline content) with
  | false => simp
  | true =>
      simp only [if_true, Int.natCast_succ, ← Int.add_assoc]
      by_cases fits : (1 : Int) +
          (sectionLines envHead (lines newline content)).length ≤ intMax
      · rw [if_pos fits, ok_bind_increment, increment]
      · rw [if_neg fits, if_neg (by omega)]
        rfl

def filled (done : List Text) (free : Nat) (count : Int) : Filling where
  count := count
  setc := done.length
  env := done.map .string ++ List.replicate free .uninitialised

theorem countLine_filled (done : List Text) (free : Nat) (count : Int) :
    (filled done free count).countLine =
      if count + 1 ≤ intMax then .ok (filled done free (count + 1))
      else .error .undefined := by
  rw [Filling.countLine, increment]
  by_cases next : count + 1 ≤ intMax
  · rw [if_pos next, show (filled done free count).count = count from rfl,
      if_pos next]
    rfl
  · rw [if_neg next, show (filled done free count).count = count from rfl,
      if_neg next]
    rfl

theorem ok_bind_countLine (filling : Filling) :
    ((.ok filling : Except EnvStop Filling) >>= Filling.countLine) =
      filling.countLine := rfl

theorem storeSlot_filled (done : List Text) (free : Nat) (slot : Slot) :
    storeSlot (done.map .string ++ List.replicate (free + 1) .uninitialised)
        done.length slot =
      .ok (done.map .string ++ slot ::
        List.replicate free .uninitialised) := by
  have inside : done.length <
      (done.map Slot.string ++
        List.replicate (free + 1) Slot.uninitialised).length := by
    simp
  rw [storeSlot, if_pos inside, List.replicate_succ]
  have here : (done.map Slot.string).length = done.length :=
    List.length_map _
  rw [← here, List.set_append_right _ _ (Nat.le_refl _), Nat.sub_self]
  rfl

theorem put_filled (done : List Text) (free : Nat) (count : Int)
    (text : Text) :
    (filled done (free + 1) count).put (.string text) =
      .ok (filled (done ++ [text]) free count) := by
  have stored := storeSlot_filled done free (.string text)
  simp only [Filling.put, filled, stored, bind, Except.bind, pure,
    Except.pure, List.length_append, List.length_singleton, List.map_append,
    List.append_assoc]
  rfl

section

variable {outcome : EnvOutcome} (allocated : ∀ name, outcome.varAlloc name)
  (environ : List CString)

include allocated

/-- One line of the section: the bound on `setc` never stops a store. -/
theorem fillLine_filled (done : List Text) (free : Nat) {count : Int}
    (bound : (done.length : Int) < count) (line : Text) :
    fillLine outcome environ (.ok (filled done (free + 1) count)) line =
      if count + 1 ≤ intMax then
        .ok (match envEntry environ line with
          | none => filled done (free + 1) (count + 1)
          | some text => filled (done ++ [text]) free (count + 1))
      else .error .undefined := by
  rw [fillLine, envEntry]
  simp only [bind, Except.bind, countLine_filled]
  by_cases next : count + 1 ≤ intMax
  · have below : ((filled done (free + 1) (count + 1)).setc : Int) <
        (filled done (free + 1) (count + 1)).count := by
      simp only [filled]
      omega
    simp only [if_pos next]
    by_cases path : line = pathName
    · simp only [if_pos path]
      exact put_filled done free (count + 1) defPath
    · simp only [if_neg path]
      cases getenv environ line with
      | none => rfl
      | some value =>
          simp only [below, allocated line, if_true, Option.map_some]
          exact put_filled done free (count + 1) _
  · simp only [if_neg next]

theorem foldl_fillLine (lines : List Text) {done : List Text} {free : Nat}
    {count : Int} (room : lines.length < free)
    (bound : (done.length : Int) < count) (small : count ≤ intMax) :
    lines.foldl (fillLine outcome environ) (.ok (filled done free count)) =
      if count + lines.length ≤ intMax then
        .ok (filled (done ++ lines.filterMap (envEntry environ))
          (free - (lines.filterMap (envEntry environ)).length)
          (count + lines.length))
      else .error .undefined := by
  induction lines generalizing done free count with
  | nil => simp [small]
  | cons line lines induction =>
      obtain ⟨free, rfl⟩ : ∃ less, free = less + 1 :=
        ⟨free - 1, by omega⟩
      rw [List.length_cons] at room
      rw [List.foldl_cons, fillLine_filled allocated environ done free bound,
        List.length_cons]
      by_cases next : count + 1 ≤ intMax
      · rw [if_pos next, Int.natCast_succ, Int.add_comm (lines.length : Int),
          ← Int.add_assoc]
        cases entry : envEntry environ line with
        | none =>
            rw [List.filterMap_cons_none entry]
            exact induction (by omega) (by omega) next
        | some text =>
            rw [List.filterMap_cons_some entry, List.length_cons,
              Nat.add_sub_add_right]
            have later := @induction (done ++ [text]) free (count + 1)
              (by omega) (by simp; omega) next
            rw [List.append_assoc] at later
            exact later
      · rw [if_neg next, if_neg (by push_cast; omega)]
        exact foldl_error (fun _ _ => rfl) _ lines

theorem scanSection_fillLine {content : Text} (well : ShortLines content)
    (small : (1 : Int) + countedLines content ≤ intMax) :
    scanSection envHead (fillLine outcome environ)
        (fun filling => filling >>= Filling.countLine) false
        (.ok (filled [] (countedLines content + 1)
          (1 + countedLines content)))
        (pieces newline (maxLine - 1) content) =
      if (1 : Int) + 2 * countedLines content ≤ intMax then
        .ok (filled (passed environ content)
          (countedLines content + 1 - (passed environ content).length)
          (1 + 2 * countedLines content))
      else .error .undefined := by
  have folded := well.scanSection_eq envHead (fillLine outcome environ)
    (fun filling => filling >>= Filling.countLine)
    (.ok (filled [] (countedLines content + 1) (1 + countedLines content)))
  have room : (sectionLines envHead (lines newline content)).length ≤
      countedLines content := Nat.le_add_right _ _
  have pass := @foldl_fillLine outcome allocated environ
    (sectionLines envHead (lines newline content)) [] _ _
    (Nat.lt_succ_of_le room) (by simp; omega) small
  rw [folded]
  simp only
  rw [pass, List.nil_append, ← passed]
  have total : (countedLines content : Int) =
      (sectionLines envHead (lines newline content)).length +
        if sectionCloses envHead (lines newline content) then 1 else 0 := by
    rw [countedLines]
    split <;> simp
  cases closes : sectionCloses envHead (lines newline content) with
  | false =>
      rw [closes] at total
      simp only [Bool.false_eq_true, if_false, Int.add_zero] at total ⊢
      rw [← total, Int.add_assoc, ← Int.two_mul]
  | true =>
      rw [closes] at total
      simp only [if_true] at total ⊢
      by_cases fits : (1 : Int) + countedLines content +
          (sectionLines envHead (lines newline content)).length ≤ intMax
      · rw [if_pos fits, ok_bind_countLine, countLine_filled, Int.add_assoc,
          Int.add_assoc, ← total, ← Int.two_mul]
      · rw [if_neg fits, if_neg (by omega)]
        rfl

end

theorem length_passed_le (environ : List CString) (content : Text) :
    (passed environ content).length ≤ countedLines content :=
  Nat.le_trans (List.length_filterMap_le _ _) (Nat.le_add_right _ _)

theorem setEnv_eq {outcome : EnvOutcome} (succeeds : outcome.Succeeds)
    (environ : List CString) {content : Text} (well : ShortLines content) :
    setEnv outcome environ content =
      if (1 : Int) + 2 * countedLines content ≤ intMax then
        .ok ((passed environ content).map .string ++ .null ::
          List.replicate
            (countedLines content - (passed environ content).length)
            .uninitialised)
      else .error .undefined := by
  rw [setEnv, if_neg (not_not_intro succeeds.opened), countVariables_eq well]
  by_cases small : (1 : Int) + countedLines content ≤ intMax
  · have slots : ((1 : Int) + countedLines content).toNat =
        countedLines content + 1 := by omega
    have initial : (⟨1 + countedLines content, 0,
        List.replicate (countedLines content + 1) .uninitialised⟩ :
          Filling) =
        filled [] (countedLines content + 1) (1 + countedLines content) :=
      rfl
    simp only [if_pos small, bind, Except.bind,
      if_neg (not_not_intro succeeds.envAlloc), slots, initial]
    have pass := scanSection_fillLine succeeds.varAlloc environ well small
    simp only [bind, Except.bind] at pass
    rw [pass]
    by_cases fits : (1 : Int) + 2 * countedLines content ≤ intMax
    · have entries := length_passed_le environ content
      have free : countedLines content + 1 -
          (passed environ content).length =
          countedLines content - (passed environ content).length +
            1 := by omega
      simp only [if_pos fits, filled, free]
      rw [if_pos (by omega)]
      exact storeSlot_filled _ _ _
    · simp only [if_neg fits]
  · rw [if_neg small, if_neg (by omega)]
    rfl

theorem map_string_inj {left right : List Text} {first second : List Slot}
    (same : left.map Slot.string ++ .null :: first =
      right.map Slot.string ++ .null :: second) : left = right := by
  induction left generalizing right with
  | nil =>
      cases right with
      | nil => rfl
      | cons text right => cases same
  | cons text left induction =>
      cases right with
      | nil => cases same
      | cons other right =>
          obtain ⟨head, tail⟩ := List.cons.inj same
          cases head
          rw [induction tail]

/-- `set_env` builds the whitelisted environment, and no store leaves the
array, exactly when two passes over the section do not overflow `count`, and
no line of the section misleads `getenv`. -/
theorem setEnv_buildsWhitelist_iff {outcome : EnvOutcome}
    (succeeds : outcome.Succeeds) (environ : List CString) {content : Text}
    (well : ShortLines content) :
    BuildsWhitelist outcome environ content ↔
      (1 : Int) + 2 * countedLines content ≤ intMax ∧
        ∀ line ∈ sectionLines envHead (lines newline content),
          ¬ Misleads environ line := by
  have returned := setEnv_eq succeeds environ well
  have same : passed environ content = whitelisted environ content ↔ _ :=
    (length_le_and_filterMap_eq_iff environ
      (sectionLines envHead (lines newline content))).2
  rw [← same]
  by_cases fits : (1 : Int) + 2 * countedLines content ≤ intMax
  · rw [if_pos fits] at returned
    constructor
    · intro builds
      have equal := returned.symm.trans builds.built
      exact ⟨fits, map_string_inj (Except.ok.inj equal)⟩
    · rintro ⟨_, equal⟩
      rw [equal] at returned
      refine ⟨returned, ?_⟩
      intro env other text inside
      rw [returned] at other
      cases other
      apply listed_of_mem_whitelisted
      simpa using inside
  · rw [if_neg fits] at returned
    constructor
    · intro builds
      have impossible := returned.symm.trans builds.built
      cases impossible
    · intro both
      exact absurd both.1 fits

def allSucceed : EnvOutcome := ⟨true, true, fun _ => true⟩

theorem allSucceed_succeeds : allSucceed.Succeeds :=
  ⟨rfl, rfl, fun _ => rfl⟩

/-- `PATH` is replaced, `USER` is set, `MAIL` is not, and `LD_PRELOAD` is not
on the list. -/
theorem setEnv_buildsWhitelist_iff_sample :
    setEnv allSucceed
        [⟨ascii "USER=a=b", by decide +kernel⟩,
          ⟨ascii "LD_PRELOAD=/x", by decide +kernel⟩,
          ⟨ascii "PATH=/y", by decide +kernel⟩]
        (ascii "#\n%ENV\nUSER\nMAIL\n\nPATH\n%BEH\nBASHLOGIN\n") =
      .ok [.string (ascii "USER=a=b"), .string defPath, .null,
        .uninitialised, .uninitialised] := by
  have builds := (setEnv_buildsWhitelist_iff allSucceed_succeeds
    [⟨ascii "USER=a=b", by decide +kernel⟩,
      ⟨ascii "LD_PRELOAD=/x", by decide +kernel⟩,
      ⟨ascii "PATH=/y", by decide +kernel⟩]
    (⟨by decide +kernel, by decide +kernel⟩ : ShortLines
      (ascii "#\n%ENV\nUSER\nMAIL\n\nPATH\n%BEH\nBASHLOGIN\n"))).mpr
    ⟨by decide +kernel, by decide +kernel⟩
  apply builds.built.trans
  decide +kernel

/-- The line is no name, and the variable that gets through is not listed. -/
example :
    setEnv allSucceed
        [⟨ascii "LD_PRELOAD=/a=/x", by decide +kernel⟩]
        (ascii "%ENV\nLD_PRELOAD=/a\n") =
      .ok [.string (ascii "LD_PRELOAD=/a=/x"), .null] := by
  decide +kernel

def manyVariables (count : Nat) : Text :=
  envHead ++ newline ::
    (List.replicate count [65, newline]).flatten

theorem lines_manyVariables (count : Nat) :
    lines newline (manyVariables count) =
      envHead :: List.replicate count [65] := by
  rw [manyVariables, lines_append_newline (by decide)]
  apply congrArg
  induction count with
  | zero => rfl
  | succ count induction =>
      rw [List.replicate_succ, List.replicate_succ, List.flatten_cons,
        ← induction]
      exact @lines_append_newline _ _ newline [65] (by decide) _

theorem sectionLines_manyVariables (count : Nat) :
    sectionLines envHead (lines newline (manyVariables count)) =
        List.replicate count [65] ∧
      sectionCloses envHead (lines newline (manyVariables count)) =
        false := by
  have kept : (envHead :: List.replicate count [65]).filter counts =
      envHead :: List.replicate count [65] := by
    apply List.filter_eq_self.mpr
    intro line inside
    rcases List.mem_cons.mp inside with rfl | repeated
    · decide
    · rw [List.eq_of_mem_replicate repeated]
      decide
  have plain : ∀ line ∈ List.replicate count ([65] : Text),
      isHead line = false := by
    intro line repeated
    rw [List.eq_of_mem_replicate repeated]
    decide
  rw [lines_manyVariables, sectionLines, sectionCloses, kept]
  constructor
  · simpa using plain
  · simpa using plain

theorem shortLines_manyVariables (count : Nat) :
    ShortLines (manyVariables count) := by
  constructor
  · intro zero
    rcases List.mem_append.mp zero with inHead | inRest
    · exact absurd inHead (by decide)
    · rcases List.mem_cons.mp inRest with ends | inLines
      · exact absurd ends (by decide)
      · obtain ⟨line, repeated, inside⟩ := List.mem_flatten.mp inLines
        rw [List.eq_of_mem_replicate repeated] at inside
        exact absurd inside (by decide)
  · intro line inside
    rw [lines_manyVariables] at inside
    rcases List.mem_cons.mp inside with rfl | repeated
    · decide
    · rw [List.eq_of_mem_replicate repeated]
      decide

theorem countedLines_manyVariables (count : Nat) :
    countedLines (manyVariables count) = count := by
  obtain ⟨inSection, closes⟩ := sectionLines_manyVariables count
  rw [countedLines, inSection, closes, List.length_replicate]
  rfl

/-- Two to the thirtieth lines, counted twice, are too many for an `int`. -/
theorem many_variables_overflow_count :
    ShortLines (manyVariables (2 ^ 30)) ∧
      setEnv allSucceed [] (manyVariables (2 ^ 30)) = .error .undefined ∧
      ¬ BuildsWhitelist allSucceed [] (manyVariables (2 ^ 30)) := by
  have well := shortLines_manyVariables (2 ^ 30)
  have tooMany : ¬ (1 : Int) +
      2 * countedLines (manyVariables (2 ^ 30)) ≤ intMax := by
    rw [countedLines_manyVariables]
    decide
  have overflow := setEnv_eq allSucceed_succeeds [] well
  rw [if_neg tooMany] at overflow
  refine ⟨well, overflow, ?_⟩
  intro builds
  have impossible := overflow.symm.trans builds.built
  cases impossible

end Chos.User
