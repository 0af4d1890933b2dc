import Mathlib.Data.List.TakeWhile
import Chos.Library.Lines
import Chos.Kernel.Handlers

/-!
# Strings and buffers of the programs

A buffer is the list of its bytes, and the string in it ends before the first
NUL.  The sanitizers of `pam_chos_util.c` work on buffers of any content.
-/

namespace Chos.User

open Chos.Library
open Chos.Kernel (Text cString)

def maxLine : Nat := 80

def maxLen : Nat := 256

def newline : UInt8 := '\n'.toUInt8

/-- The bytes of a string literal. -/
def ascii (literal : String) : Text :=
  literal.toList.map Char.toUInt8

/-- What comes from outside as a C string: an environment variable, an
argument, a directory. -/
structure CString where
  text : Text
  terminated : 0 ∉ text

instance : DecidableEq CString := fun left right =>
  decidable_of_iff (left.text = right.text) (by
    cases left
    cases right
    simp)

/-- Storing a string and its NUL at the start of a buffer. -/
def storeString (buffer text : Text) : Text :=
  text ++ 0 :: buffer.drop (text.length + 1)

theorem cString_of_terminated {text : Text} (terminated : 0 ∉ text) :
    cString text = text := by
  apply List.takeWhile_eq_self_iff.mpr
  intro byte inside
  simp only [decide_eq_true_eq]
  rintro rfl
  exact terminated inside

@[simp] theorem CString.cString_text (string : CString) :
    cString string.text = string.text :=
  cString_of_terminated string.terminated

theorem terminated_cString (text : Text) : 0 ∉ cString text := by
  intro inside
  have nonzero := List.mem_takeWhile_imp inside
  simp at nonzero

theorem length_cString_le (text : Text) :
    (cString text).length ≤ text.length :=
  (List.takeWhile_sublist _).length_le

theorem cString_append_zero (text rest : Text) :
    cString (text ++ 0 :: rest) = cString text := by
  induction text with
  | nil => simp [cString]
  | cons byte text induction =>
      by_cases zero : byte = 0
      · simp [cString, zero]
      · simpa [cString, zero] using induction

/-- The value of a `char`, which is signed. -/
def charValue (c : UInt8) : Int :=
  if c.toNat < 128 then c.toNat else c.toNat - 256

def isValidChar (c : UInt8) (is_path : Bool) : Bool :=
  c = 0 ∨ c = '-'.toUInt8 ∨ c = '.'.toUInt8 ∨
    (charValue c ≥ charValue '0'.toUInt8 ∧
      charValue c ≤ charValue '9'.toUInt8) ∨
    (charValue c ≥ charValue '/'.toUInt8 ∧ is_path) ∨
    (charValue c ≥ charValue 'a'.toUInt8 ∧
      charValue c ≤ charValue 'z'.toUInt8) ∨
    c = '_'.toUInt8 ∨
    (charValue c ≥ charValue 'A'.toUInt8 ∧
      charValue c ≤ charValue 'Z'.toUInt8)

/-- The body of the loop of `sanitize_str`: the byte it leaves. -/
def sanitizeChar (is_path : Bool) (c : UInt8) : UInt8 :=
  let c := if c = newline then 0 else c
  if isValidChar c is_path then c else '_'.toUInt8

/-- `sanitize_str`: whether the buffer was clean, and the buffer. -/
def sanitizeStr : Text → Nat → Bool → Bool × Text
  | s, 0, _ => (true, s)
  | [], _ + 1, _ => (true, [])
  | c :: s, length + 1, is_path =>
      let (was_clean, rest) := sanitizeStr s length is_path
      (was_clean ∧ isValidChar (if c = newline then 0 else c) is_path,
        sanitizeChar is_path c :: rest)

def sanitizeName (s : Text) (length : Nat) : Bool × Text :=
  sanitizeStr s length false

def sanitizePath (s : Text) (length : Nat) : Bool × Text :=
  sanitizeStr s length true

theorem sanitizeStr_eq (s : Text) (length : Nat) (is_path : Bool) :
    (sanitizeStr s length is_path).2 =
      (s.take length).map (sanitizeChar is_path) ++ s.drop length := by
  induction length generalizing s with
  | zero => simp [sanitizeStr]
  | succ length induction =>
      cases s with
      | nil => rfl
      | cons c s => simp [sanitizeStr, induction]

/-- The string that the bytes of a clean text or a dirty one come to. -/
def sanitized (is_path : Bool) (text : Text) : Text :=
  cString (text.map (sanitizeChar is_path))

def Clean (is_path : Bool) (text : Text) : Prop :=
  ∀ c ∈ text, c ≠ 0 ∧ sanitizeChar is_path c = c

instance (is_path : Bool) (text : Text) : Decidable (Clean is_path text) :=
  inferInstanceAs (Decidable (∀ c ∈ text, _))

theorem isValidChar_underscore (is_path : Bool) :
    isValidChar '_'.toUInt8 is_path = true := by
  cases is_path <;> decide

theorem isValidChar_mono {c : UInt8} (valid : isValidChar c false = true) :
    isValidChar c true = true := by
  simp only [isValidChar, decide_eq_true_eq, and_true] at valid ⊢
  simp only [Bool.false_eq_true, and_false, false_or] at valid
  rcases valid with h | h | h | h | h | h | h
  · exact .inl h
  · exact .inr (.inl h)
  · exact .inr (.inr (.inl h))
  · exact .inr (.inr (.inr (.inl h)))
  · exact .inr (.inr (.inr (.inr (.inr (.inl h)))))
  · exact .inr (.inr (.inr (.inr (.inr (.inr (.inl h))))))
  · exact .inr (.inr (.inr (.inr (.inr (.inr (.inr h))))))

theorem sanitizeChar_newline (is_path : Bool) :
    sanitizeChar is_path newline = 0 := by
  cases is_path <;> decide

theorem sanitizeChar_zero (is_path : Bool) : sanitizeChar is_path 0 = 0 := by
  cases is_path <;> decide

theorem sanitizeChar_ne_zero {c : UInt8} (plain : c ≠ newline)
    (nonzero : c ≠ 0) (is_path : Bool) : sanitizeChar is_path c ≠ 0 := by
  simp only [sanitizeChar, plain, if_false]
  split
  · exact nonzero
  · decide

theorem sanitizeChar_of_valid {c : UInt8} {is_path : Bool}
    (plain : c ≠ newline) (valid : isValidChar c is_path = true) :
    sanitizeChar is_path c = c := by
  simp [sanitizeChar, plain, valid]

/-- What a sanitizer leaves is a valid character, and no newline. -/
theorem isValidChar_sanitizeChar (is_path : Bool) (c : UInt8) :
    isValidChar (sanitizeChar is_path c) is_path = true := by
  unfold sanitizeChar
  generalize (if c = newline then 0 else c) = kept
  by_cases valid : isValidChar kept is_path = true
  · simp [valid]
  · simp [valid, isValidChar_underscore]

theorem sanitizeChar_ne_newline (is_path : Bool) (c : UInt8) :
    sanitizeChar is_path c ≠ newline := by
  intro same
  have valid := isValidChar_sanitizeChar is_path c
  rw [same] at valid
  revert valid
  cases is_path <;> decide

theorem sanitizeChar_idem (is_path : Bool) (c : UInt8) :
    sanitizeChar is_path (sanitizeChar is_path c) =
      sanitizeChar is_path c :=
  sanitizeChar_of_valid (sanitizeChar_ne_newline is_path c)
    (isValidChar_sanitizeChar is_path c)

theorem Clean.terminated {is_path : Bool} {text : Text}
    (clean : Clean is_path text) : 0 ∉ text :=
  fun inside => (clean 0 inside).1 rfl

theorem Clean.plain {is_path : Bool} {text : Text}
    (clean : Clean is_path text) : newline ∉ text := by
  intro inside
  have kept := (clean newline inside).2
  exact sanitizeChar_ne_newline is_path newline kept

theorem Clean.sanitized {is_path : Bool} {text : Text}
    (clean : Clean is_path text) : sanitized is_path text = text := by
  have same : text.map (sanitizeChar is_path) = text := by
    have kept : text.map (sanitizeChar is_path) = text.map id :=
      List.map_congr_left fun c inside => (clean c inside).2
    rw [kept, List.map_id]
  rw [User.sanitized, same]
  exact cString_of_terminated clean.terminated

theorem Clean.toPath {text : Text} (clean : Clean false text) :
    Clean true text := by
  intro c inside
  obtain ⟨nonzero, kept⟩ := clean c inside
  refine ⟨nonzero, sanitizeChar_of_valid ?_ (isValidChar_mono ?_)⟩
  · rw [← kept]
    exact sanitizeChar_ne_newline false c
  · rw [← kept]
    exact isValidChar_sanitizeChar false c

theorem clean_sanitized (is_path : Bool) (text : Text) :
    Clean is_path (sanitized is_path text) := by
  intro c inside
  refine ⟨?_, ?_⟩
  · rintro rfl
    exact terminated_cString _ inside
  · obtain ⟨byte, _, rfl⟩ :=
      List.mem_map.mp ((List.takeWhile_sublist _).subset inside)
    exact sanitizeChar_idem is_path byte

/-- What stands after a NUL or a newline plays no part. -/
theorem sanitized_append_zero (is_path : Bool) (text rest : Text) :
    sanitized is_path (text ++ 0 :: rest) = sanitized is_path text := by
  rw [sanitized, List.map_append, List.map_cons, sanitizeChar_zero,
    cString_append_zero]
  rfl

theorem sanitized_append_newline (is_path : Bool) (text rest : Text) :
    sanitized is_path (text ++ newline :: rest) = sanitized is_path text := by
  rw [sanitized, List.map_append, List.map_cons, sanitizeChar_newline,
    cString_append_zero]
  rfl

theorem sanitized_of_plain {text : Text} (terminated : 0 ∉ text)
    (plain : newline ∉ text) (is_path : Bool) :
    sanitized is_path text = text.map (sanitizeChar is_path) := by
  apply cString_of_terminated
  intro inside
  obtain ⟨byte, member, zero⟩ := List.mem_map.mp inside
  refine sanitizeChar_ne_zero ?_ ?_ is_path zero
  · rintro rfl
    exact plain member
  · rintro rfl
    exact terminated member

/-- Only what stands before the first NUL or newline counts. -/
theorem sanitized_takeWhile (is_path : Bool) (text : Text) :
    sanitized is_path (text.takeWhile fun c => c ≠ newline ∧ c ≠ 0) =
      sanitized is_path text := by
  induction text with
  | nil => rfl
  | cons c text induction =>
      by_cases stops : c = newline ∨ c = 0
      · have zero : sanitizeChar is_path c = 0 := by
          rcases stops with rfl | rfl
          · exact sanitizeChar_newline is_path
          · exact sanitizeChar_zero is_path
        have cut : ¬ (c ≠ newline ∧ c ≠ 0) := by
          rintro ⟨plain, nonzero⟩
          exact stops.elim plain nonzero
        simp [sanitized, cString, zero, cut]
      · rw [not_or] at stops
        have kept := sanitizeChar_ne_zero stops.1 stops.2 is_path
        unfold sanitized cString at induction ⊢
        rw [List.takeWhile_cons_of_pos (by simpa using stops)]
        simpa [kept] using induction

theorem length_sanitized_le (is_path : Bool) (text : Text) :
    (sanitized is_path text).length ≤ text.length := by
  have shorter := length_cString_le (text.map (sanitizeChar is_path))
  rwa [List.length_map] at shorter

theorem eq_cString_append (buffer : Text) :
    buffer = cString buffer ∨
      ∃ rest, buffer = cString buffer ++ 0 :: rest := by
  induction buffer with
  | nil => exact .inl rfl
  | cons byte buffer induction =>
      by_cases zero : byte = 0
      · exact .inr ⟨buffer, by simp [cString, zero]⟩
      · have kept : cString (byte :: buffer) = byte :: cString buffer := by
          simp [cString, zero]
        rw [kept]
        rcases induction with whole | ⟨rest, split⟩
        · exact .inl (congrArg (byte :: ·) whole)
        · exact .inr ⟨rest, congrArg (byte :: ·) split⟩

/-- `sanitize_name(s, strlen(s))` and its sibling for paths. -/
theorem cString_sanitizeStr_length (buffer : Text) (is_path : Bool) :
    cString (sanitizeStr buffer (cString buffer).length is_path).2 =
      sanitized is_path (cString buffer) := by
  rw [sanitizeStr_eq]
  generalize string : cString buffer = text
  rcases eq_cString_append buffer with whole | ⟨rest, split⟩
  · rw [string] at whole
    subst whole
    simp [sanitized]
  · rw [string] at split
    subst split
    simp [sanitized, cString_append_zero]

/-- The same over all bytes of a buffer. -/
theorem cString_sanitizeStr_whole {buffer : Text} {length : Nat}
    (whole : buffer.length ≤ length) (is_path : Bool) :
    cString (sanitizeStr buffer length is_path).2 =
      sanitized is_path buffer := by
  rw [sanitizeStr_eq, List.take_of_length_le whole,
    List.drop_eq_nil_of_le whole, List.append_nil]
  rfl

end Chos.User
