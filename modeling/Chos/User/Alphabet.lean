import Chos.User.Strings
import Chos.Library.Buffers

/-!
# The alphabet of the sanitizers

What the comment in `is_valid_char` allows, and what the function lets pass.
Paths may have any character after `/`, since `is_valid_char` compares with
`>=` where the comment has the one character.
-/

namespace Chos.User

open Chos.Library
open Chos.Kernel (Text cString)

/-- `[0-9a-zA-Z-._]`, and `/` in a path. -/
def Documented (is_path : Bool) (c : UInt8) : Prop :=
  ('0'.toUInt8 ≤ c ∧ c ≤ '9'.toUInt8) ∨
    ('a'.toUInt8 ≤ c ∧ c ≤ 'z'.toUInt8) ∨
    ('A'.toUInt8 ≤ c ∧ c ≤ 'Z'.toUInt8) ∨
    c = '.'.toUInt8 ∨ c = '_'.toUInt8 ∨ c = '-'.toUInt8 ∨
    (is_path = true ∧ c = '/'.toUInt8)

instance (is_path : Bool) (c : UInt8) : Decidable (Documented is_path c) :=
  inferInstanceAs (Decidable (_ ∨ _))

/-- What a path may have beyond the alphabet: the characters after `/` that
are neither letters nor digits nor the underscore. -/
def Overlooked (c : UInt8) : Prop :=
  '/'.toUInt8 < c ∧ c < 128 ∧ ¬ Documented true c

instance (c : UInt8) : Decidable (Overlooked c) :=
  inferInstanceAs (Decidable (_ ∧ _))

theorem charValue_ge_iff {c low : UInt8} (plain : low.toNat < 128) :
    charValue c ≥ charValue low ↔ low ≤ c ∧ c < 128 := by
  have range := c.toNat_lt
  have bound : (128 : UInt8).toNat = 128 := rfl
  simp only [charValue, plain, if_true, UInt8.le_iff_toNat_le,
    UInt8.lt_iff_toNat_lt]
  split <;> omega

theorem charValue_le_iff {c high : UInt8} (plain : high.toNat < 128) :
    charValue c ≤ charValue high ↔ c ≤ high ∨ 128 ≤ c := by
  have range := c.toNat_lt
  have bound : (128 : UInt8).toNat = 128 := rfl
  simp only [charValue, plain, if_true, UInt8.le_iff_toNat_le]
  split <;> omega

theorem charValue_range_iff {c low high : UInt8} (above : low.toNat < 128)
    (below : high.toNat < 128) :
    charValue c ≥ charValue low ∧ charValue c ≤ charValue high ↔
      low ≤ c ∧ c ≤ high := by
  have bound : (128 : UInt8).toNat = 128 := rfl
  rw [charValue_ge_iff above, charValue_le_iff below]
  simp only [UInt8.le_iff_toNat_le, UInt8.lt_iff_toNat_lt]
  omega

theorem isValidChar_iff (c : UInt8) (is_path : Bool) :
    isValidChar c is_path = true ↔
      c = 0 ∨ Documented is_path c ∨ (is_path = true ∧ Overlooked c) := by
  have digit := @charValue_range_iff c '0'.toUInt8 '9'.toUInt8
    (by decide) (by decide)
  have lower := @charValue_range_iff c 'a'.toUInt8 'z'.toUInt8
    (by decide) (by decide)
  have upper := @charValue_range_iff c 'A'.toUInt8 'Z'.toUInt8
    (by decide) (by decide)
  have slash := @charValue_ge_iff c '/'.toUInt8 (by decide)
  rw [isValidChar, decide_eq_true_eq, digit, lower, upper, slash]
  constructor
  · rintro (zero | dash | dot | digit | ⟨⟨least, plain⟩, path⟩ | lower |
      score | upper)
    · exact .inl zero
    · exact .inr (.inl (by simp [Documented, dash]))
    · exact .inr (.inl (by simp [Documented, dot]))
    · exact .inr (.inl (.inl digit))
    · -- the slash itself is documented, what stands after it mostly not
      by_cases documented : Documented is_path c
      · exact .inr (.inl documented)
      · refine .inr (.inr ⟨path, ?_, plain, ?_⟩)
        · apply UInt8.lt_of_le_of_ne least
          rintro rfl
          exact documented (by simp [Documented, path])
        · rwa [path] at documented
    · exact .inr (.inl (.inr (.inl lower)))
    · exact .inr (.inl (by simp [Documented, score]))
    · exact .inr (.inl (.inr (.inr (.inl upper))))
  · rintro (zero | documented | ⟨path, least, plain, _⟩)
    · exact .inl zero
    · rcases documented with digit | lower | upper | dot | score | dash |
        ⟨path, slash⟩
      · simp only [digit, true_or, or_true, and_self]
      · simp only [lower, true_or, or_true, and_self]
      · simp only [upper, or_true, and_self]
      · simp only [dot, true_or, or_true]
      · simp only [score, true_or, or_true]
      · simp only [dash, true_or, or_true]
      · subst slash
        exact .inr (.inr (.inr (.inr (.inl ⟨by decide, path⟩))))
    · exact .inr (.inr (.inr (.inr (.inl
        ⟨⟨UInt8.le_of_lt least, plain⟩, path⟩))))

theorem Documented.ne_zero {is_path : Bool} {c : UInt8}
    (documented : Documented is_path c) : c ≠ 0 := by
  rintro rfl
  revert documented
  cases is_path <;> decide

theorem Documented.ne_newline {is_path : Bool} {c : UInt8}
    (documented : Documented is_path c) : c ≠ newline := by
  rintro rfl
  revert documented
  cases is_path <;> decide

theorem Overlooked.ne_newline {c : UInt8} (overlooked : Overlooked c) :
    c ≠ newline := by
  rintro rfl
  exact absurd overlooked (by decide)

theorem Overlooked.ne_zero {c : UInt8} (overlooked : Overlooked c) :
    c ≠ 0 := by
  rintro rfl
  exact absurd overlooked (by decide)

theorem sanitizeChar_of_allowed {is_path : Bool} {c : UInt8}
    (allowed : c = 0 ∨ Documented is_path c) :
    sanitizeChar is_path c = c := by
  rcases allowed with rfl | documented
  · exact sanitizeChar_zero is_path
  · exact sanitizeChar_of_valid documented.ne_newline
      ((isValidChar_iff c is_path).mpr (.inr (.inl documented)))

theorem sanitizeChar_of_other {is_path : Bool} {c : UInt8}
    (plain : c ≠ newline) (other : ¬ (c = 0 ∨ Documented is_path c))
    (seen : ¬ (is_path = true ∧ Overlooked c)) :
    sanitizeChar is_path c = '_'.toUInt8 := by
  have invalid : ¬ isValidChar c is_path = true := by
    rw [isValidChar_iff]
    rintro (zero | documented | overlooked)
    · exact other (.inl zero)
    · exact other (.inr documented)
    · exact seen overlooked
  simp [sanitizeChar, plain, invalid]

theorem sanitizeChar_of_overlooked {c : UInt8} (overlooked : Overlooked c) :
    sanitizeChar true c = c :=
  sanitizeChar_of_valid overlooked.ne_newline
    ((isValidChar_iff c true).mpr (.inr (.inr ⟨rfl, overlooked⟩)))

/-- A character that is not overlooked ends in the alphabet. -/
theorem sanitizeChar_allowed {is_path : Bool} {c : UInt8}
    (seen : ¬ (is_path = true ∧ Overlooked c)) :
    sanitizeChar is_path c = 0 ∨
      Documented is_path (sanitizeChar is_path c) := by
  by_cases plain : c = newline
  · subst plain
    exact .inl (sanitizeChar_newline is_path)
  · by_cases allowed : c = 0 ∨ Documented is_path c
    · rwa [sanitizeChar_of_allowed allowed]
    · rw [sanitizeChar_of_other plain allowed seen]
      exact .inr (by cases is_path <;> decide)

/-- The test of the loop is whether the character becomes an underscore that
it was not. -/
theorem kept_iff_isValidChar (is_path : Bool) (c : UInt8) :
    (sanitizeChar is_path c = '_'.toUInt8 → c = '_'.toUInt8) ↔
      isValidChar (if c = newline then 0 else c) is_path = true := by
  by_cases plain : c = newline
  · subst plain
    rw [sanitizeChar_newline]
    cases is_path <;> decide
  · simp only [sanitizeChar, plain, if_false]
    by_cases valid : isValidChar c is_path = true
    · simp [valid]
    · have other : c ≠ '_'.toUInt8 := by
        rintro rfl
        exact valid (isValidChar_underscore is_path)
      simp [valid, other]

theorem getElem?_sanitizeStr {s : Text} {length i : Nat} {is_path : Bool}
    (inside : i < length) :
    (sanitizeStr s length is_path).2[i]? =
      s[i]?.map (sanitizeChar is_path) := by
  induction length generalizing s i with
  | zero => exact absurd inside (Nat.not_lt_zero i)
  | succ length induction =>
      cases s with
      | nil => rfl
      | cons c s =>
          cases i with
          | zero => rfl
          | succ i => exact induction (Nat.lt_of_succ_lt_succ inside)

theorem getElem?_sanitizeStr_of_le {s : Text} {length i : Nat}
    {is_path : Bool} (outside : length ≤ i) :
    (sanitizeStr s length is_path).2[i]? = s[i]? := by
  induction length generalizing s i with
  | zero => simp [sanitizeStr]
  | succ length induction =>
      cases s with
      | nil => rfl
      | cons c s =>
          cases i with
          | zero => exact absurd outside (Nat.not_succ_le_zero length)
          | succ i => exact induction (Nat.le_of_succ_le_succ outside)

@[simp] theorem length_sanitizeStr (s : Text) (length : Nat)
    (is_path : Bool) : (sanitizeStr s length is_path).2.length = s.length := by
  rw [sanitizeStr_eq, List.length_append, List.length_map,
    ← List.length_append, List.take_append_drop]

theorem sanitizeStr_clean_iff (s : Text) (length : Nat) (is_path : Bool) :
    (sanitizeStr s length is_path).1 = true ↔
      ∀ i < length, ∀ c, s[i]? = some c →
        isValidChar (if c = newline then 0 else c) is_path = true := by
  induction length generalizing s with
  | zero => simp [sanitizeStr]
  | succ length induction =>
      cases s with
      | nil => simp [sanitizeStr]
      | cons c s =>
          simp only [sanitizeStr, decide_eq_true_eq, induction]
          constructor
          · rintro ⟨rest, first⟩ i inside d found
            cases i with
            | zero =>
                cases found
                exact first
            | succ i =>
                exact rest i (Nat.lt_of_succ_lt_succ inside) d found
          · intro all
            refine ⟨?_, all 0 (Nat.succ_pos length) c rfl⟩
            intro i inside d found
            exact all (i + 1) (Nat.succ_lt_succ inside) d found

/-- The documented effect of a sanitizer on the first bytes of a buffer. -/
structure Enforces (is_path : Bool) (sanitize : Text → Nat → Bool × Text)
    (s : Text) (length : Nat) : Prop where
  alphabet : ∀ i < length, ∀ c, (sanitize s length).2[i]? = some c →
    c = 0 ∨ Documented is_path c
  kept : ∀ i < length, ∀ c, s[i]? = some c → c = 0 ∨ Documented is_path c →
    (sanitize s length).2[i]? = some c
  newlines : ∀ i < length, s[i]? = some newline →
    (sanitize s length).2[i]? = some 0
  replaced : ∀ i < length, ∀ c, s[i]? = some c → c ≠ newline →
    ¬ (c = 0 ∨ Documented is_path c) →
    (sanitize s length).2[i]? = some '_'.toUInt8
  untouched : ∀ i, length ≤ i → (sanitize s length).2[i]? = s[i]?
  clean : (sanitize s length).1 = true ↔
    ∀ i < length, ∀ c, s[i]? = some c →
      (sanitize s length).2[i]? = some '_'.toUInt8 → c = '_'.toUInt8
  again : (sanitize (sanitize s length).2 length).2 = (sanitize s length).2

theorem sanitizeStr_idem (s : Text) (length : Nat) (is_path : Bool) :
    (sanitizeStr (sanitizeStr s length is_path).2 length is_path).2 =
      (sanitizeStr s length is_path).2 := by
  apply List.ext_getElem?
  intro i
  by_cases inside : i < length
  · rw [getElem?_sanitizeStr inside, getElem?_sanitizeStr inside,
      Option.map_map]
    congr 1
    funext c
    exact sanitizeChar_idem is_path c
  · rw [getElem?_sanitizeStr_of_le (Nat.le_of_not_lt inside)]

/-- An overlooked character passes, and is not in the alphabet. -/
theorem Enforces.seen {s : Text} {length : Nat}
    (enforces : Enforces true
      (fun s length => sanitizeStr s length true) s length) :
    ∀ c ∈ s.take length, ¬ Overlooked c := by
  intro c inside overlooked
  obtain ⟨i, found⟩ := List.mem_iff_getElem?.mp inside
  have within : i < length := by
    apply Nat.lt_of_not_le
    intro outside
    rw [List.getElem?_take_eq_none outside] at found
    cases found
  rw [List.getElem?_take_of_lt within] at found
  have passed : (sanitizeStr s length true).2[i]? = some c := by
    rw [getElem?_sanitizeStr within, found, Option.map_some,
      sanitizeChar_of_overlooked overlooked]
  rcases enforces.alphabet i within c passed with zero | documented
  · exact overlooked.ne_zero zero
  · exact overlooked.2.2 documented

theorem enforces_of_seen {is_path : Bool} {s : Text} {length : Nat}
    (seen : ∀ c ∈ s.take length, ¬ (is_path = true ∧ Overlooked c)) :
    Enforces is_path (fun s length => sanitizeStr s length is_path) s
      length := by
  have seenAt : ∀ i < length, ∀ c, s[i]? = some c →
      ¬ (is_path = true ∧ Overlooked c) := by
    intro i within c found
    apply seen c
    apply List.mem_iff_getElem?.mpr
    exact ⟨i, by rw [List.getElem?_take_of_lt within, found]⟩
  have changed : ∀ i < length, ∀ c, s[i]? = some c →
      (sanitizeStr s length is_path).2[i]? =
        some (sanitizeChar is_path c) := by
    intro i within c found
    rw [getElem?_sanitizeStr within, found, Option.map_some]
  refine ⟨?_, ?_, ?_, ?_, ?_, ?_, ?_⟩
  · intro i within c found
    rw [getElem?_sanitizeStr within] at found
    obtain ⟨byte, before, rfl⟩ := Option.map_eq_some_iff.mp found
    exact sanitizeChar_allowed (seenAt i within byte before)
  · intro i within c found allowed
    rw [changed i within c found, sanitizeChar_of_allowed allowed]
  · intro i within found
    rw [changed i within newline found, sanitizeChar_newline]
  · intro i within c found plain other
    rw [changed i within c found,
      sanitizeChar_of_other plain other (seenAt i within c found)]
  · intro i outside
    exact getElem?_sanitizeStr_of_le outside
  · apply Iff.trans (sanitizeStr_clean_iff s length is_path)
    apply forall₄_congr
    intro i within c found
    rw [changed i within c found, Option.some.injEq, kept_iff_isValidChar]
  · exact sanitizeStr_idem s length is_path

/-- `sanitize_name` enforces the alphabet; `sanitize_path` does if and only
if none of the bytes is an overlooked one. -/
theorem sanitizers_enforce_iff (s : Text) (length : Nat) :
    Enforces false sanitizeName s length ∧
      (Enforces true sanitizePath s length ↔
        ∀ c ∈ s.take length, ¬ Overlooked c) := by
  refine ⟨?_, ?_⟩
  · apply enforces_of_seen
    rintro c _ ⟨path, _⟩
    cases path
  · constructor
    · exact Enforces.seen
    · intro seen
      apply enforces_of_seen
      intro c inside overlooked
      exact seen c inside overlooked.2

/-- A path with a semicolon comes back as it is, and counts as clean. -/
theorem semicolon_stays_in_path :
    sanitizePath (ascii "/a;b") 4 = (true, ascii "/a;b") ∧
      ¬ Documented true ';'.toUInt8 ∧
      ¬ Enforces true sanitizePath (ascii "/a;b") 4 := by
  refine ⟨by decide, by decide, ?_⟩
  intro enforces
  have stays := enforces.alphabet 2 (by decide) ';'.toUInt8 (by decide)
  exact absurd stays (by decide)

namespace Checked

open Buffer

/-- One round of the loop of `sanitize_str`, in place. -/
def sanitizeRound (is_path was_clean : Bool) (s : Text) (i : Nat) :
    Except Nat (Bool × Text) := do
  let c ← load s i
  let s ← if c = newline then store s i 0 else .ok s
  let c ← load s i
  if isValidChar c is_path then .ok (was_clean, s)
  else
    let s ← store s i '_'.toUInt8
    .ok (false, s)

def sanitizeLoop (is_path : Bool) :
    Nat → Nat → Bool → Text → Except Nat (Bool × Text)
  | 0, _, was_clean, s => .ok (was_clean, s)
  | rounds + 1, i, was_clean, s => do
      let (was_clean, s) ← sanitizeRound is_path was_clean s i
      sanitizeLoop is_path rounds (i + 1) was_clean s

/-- `sanitize_str` with the buffer as an array. -/
def sanitizeStr (s : Text) (length : Nat) (is_path : Bool) :
    Except Nat (Bool × Text) :=
  sanitizeLoop is_path length 0 true s

theorem sanitizeRound_of_lt {s : Text} {i : Nat} (inside : i < s.length)
    (is_path was_clean : Bool) :
    sanitizeRound is_path was_clean s i =
      .ok (was_clean &&
          isValidChar (if s[i] = newline then 0 else s[i]) is_path,
        s.set i (sanitizeChar is_path s[i])) := by
  have first : load s i = .ok s[i] := load_of_lt inside
  by_cases line : s[i] = newline
  · have changed : load (s.set i 0) i = .ok 0 := by
      have within : i < (s.set i 0).length := by
        rwa [List.length_set]
      rw [load_of_lt within, List.getElem_set_self]
    have valid : isValidChar 0 is_path = true := by
      cases is_path <;> decide
    simp only [sanitizeRound, first, line, if_true, store_of_lt inside,
      changed, valid, bind, Except.bind, Bool.and_true,
      sanitizeChar_newline]
  · by_cases valid : isValidChar s[i] is_path = true
    · simp only [sanitizeRound, first, line, if_false, valid, if_true, bind,
        Except.bind, Bool.and_true, sanitizeChar_of_valid line valid,
        List.set_getElem_self]
    · have char : sanitizeChar is_path s[i] = '_'.toUInt8 := by
        simp [sanitizeChar, line, valid]
      simp [sanitizeRound, first, line, valid, store_of_lt inside, char,
        bind, Except.bind]

/-- What the loop leaves behind it is sanitized, what is before it is as it
was. -/
theorem sanitizeLoop_of_fits {s : Text} {rounds i : Nat}
    (fits : i + rounds ≤ s.length) (is_path was_clean : Bool) :
    sanitizeLoop is_path rounds i was_clean s =
      .ok (was_clean &&
          (User.sanitizeStr (s.drop i) rounds is_path).1,
        s.take i ++ (User.sanitizeStr (s.drop i) rounds is_path).2) := by
  induction rounds generalizing i was_clean s with
  | zero => simp [sanitizeLoop, User.sanitizeStr]
  | succ rounds induction =>
      have inside : i < s.length := by omega
      have rest : i + 1 + rounds ≤
          (s.set i (sanitizeChar is_path s[i])).length := by
        rw [List.length_set]
        omega
      have later : (s.set i (sanitizeChar is_path s[i])).drop (i + 1) =
          s.drop (i + 1) := List.drop_set_of_lt (Nat.lt_succ_self i)
      have here : s.drop i = s[i] :: s.drop (i + 1) :=
        List.drop_eq_getElem_cons inside
      rw [sanitizeLoop, sanitizeRound_of_lt inside]
      simp only [bind, Except.bind]
      rw [induction rest, take_set_succ inside, later, here,
        User.sanitizeStr, List.append_assoc]
      simp only [Except.ok.injEq, Prod.mk.injEq, List.cons_append,
        List.nil_append, and_true]
      generalize isValidChar _ is_path = valid
      generalize (User.sanitizeStr (s.drop (i + 1)) rounds is_path).1 = clean
      cases was_clean <;> cases valid <;> cases clean <;> rfl

theorem sanitizeStr_of_le {s : Text} {length : Nat}
    (fits : length ≤ s.length) (is_path : Bool) :
    sanitizeStr s length is_path =
      .ok (User.sanitizeStr s length is_path) := by
  have swept := @sanitizeLoop_of_fits s length 0 (by omega) is_path true
  rwa [Bool.true_and, List.take_zero, List.drop_zero, List.nil_append]
    at swept

end Checked

end Chos.User
