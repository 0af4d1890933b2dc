import Chos.User.Selection

/-!
# The pipe between parent and child

The child writes path and name, each with a newline; `retrieve_from_child`
reads them back with `fgets` and a size that is smaller than the buffers on
either side.  A line that does not fit pushes what follows it into the wrong
buffer.
-/

namespace Chos.User

open Chos.Library
open Chos.Kernel (Text cString)

/-- `fgets(dest, size, stream)`: the buffer and the rest of the stream, or
the null pointer at its end. -/
def fgets (dest : Text) (size : Nat) (stream : Text) : Option (Text × Text) :=
  match stream with
  | [] => none
  | first :: later =>
      let (line, rest) := readLine newline (size - 1) (first :: later)
      some (storeString dest line, rest)

def readLineFromFile (stream dest : Text) : Option (Text × Text) :=
  fgets dest maxLine stream

/-- `retrieve_from_child`: the value it returns, `env_path` and `osenv`. -/
def retrieveFromChild (fdopen fclose : Bool) (env_path osenv stream : Text) :
    Int × Text × Text :=
  if ¬ fdopen then (-1, env_path, osenv)
  else
    match readLineFromFile stream env_path with
    | none => (-1, env_path, osenv)
    | some (env_path, stream) =>
        match readLineFromFile stream osenv with
        | none => (-1, env_path, osenv)
        | some (osenv, _) =>
            (if fclose then 1 else -1, env_path, osenv)

/-- A path and a name that `get_chos_info` can write: the path comes from its
line buffer or is the name, the name is sanitized. -/
structure Message where
  os : Text
  osenv : Text
  os_length : os.length ≤ maxLine
  os_plain : newline ∉ os
  os_terminated : 0 ∉ os
  osenv_length : osenv.length ≤ maxLine
  osenv_clean : Clean false osenv

def Message.encode (message : Message) : Text :=
  message.os ++ newline :: (message.osenv ++ [newline])

/-- What the parent makes of the bytes: the return value and the two strings
once they are sanitized. -/
def decode (env_path osenv : LineBuffer) (stream : Text) :
    Int × Text × Text :=
  let (ret, env_path, osenv) :=
    retrieveFromChild true true env_path.bytes osenv.bytes stream
  (ret, cString (sanitizePath env_path (maxLine + 1)).2,
    cString (sanitizeName osenv (maxLine + 1)).2)

theorem fgets_of_ne_nil {stream : Text} (nonempty : stream ≠ [])
    (dest : Text) (size : Nat) :
    fgets dest size stream =
      some (storeString dest (readLine newline (size - 1) stream).1,
        (readLine newline (size - 1) stream).2) := by
  cases stream with
  | nil => exact absurd rfl nonempty
  | cons first later => rfl

theorem length_storeString {buffer line : Text}
    (fits : line.length < buffer.length) :
    (storeString buffer line).length = buffer.length := by
  simp only [storeString, List.length_append, List.length_cons,
    List.length_drop]
  omega

theorem cString_sanitize_read (buffer : LineBuffer) (stream : Text)
    (is_path : Bool) :
    cString (sanitizeStr (storeString buffer.bytes
        (readLine newline (maxLine - 1) stream).1) (maxLine + 1)
        is_path).2 =
      sanitized is_path (readLine newline (maxLine - 1) stream).1 := by
  have size := buffer.size
  have fits := length_readLine_le newline (maxLine - 1) stream
  have length := @length_storeString buffer.bytes
    (readLine newline (maxLine - 1) stream).1 (by
      simp only [maxLine] at size fits ⊢
      omega)
  rw [cString_sanitizeStr_whole (by rw [length, size]), storeString,
    sanitized_append_zero]

theorem decode_eq {stream : Text} (first : stream ≠ [])
    (second : (readLine newline (maxLine - 1) stream).2 ≠ [])
    (env_path osenv : LineBuffer) :
    decode env_path osenv stream =
      (1, sanitized true (readLine newline (maxLine - 1) stream).1,
        sanitized false (readLine newline (maxLine - 1)
          (readLine newline (maxLine - 1) stream).2).1) := by
  simp only [decode, retrieveFromChild, readLineFromFile,
    fgets_of_ne_nil first, fgets_of_ne_nil second, not_true_eq_false,
    if_false, if_true, sanitizePath, sanitizeName, cString_sanitize_read]

namespace Message

variable (message : Message)

theorem encode_ne_nil : message.encode ≠ [] := by
  simp [encode]

/-- A path that fits is read whole, and the name follows. -/
theorem readLine_encode_of_short (short : message.os.length < maxLine - 1) :
    readLine newline (maxLine - 1) message.encode =
      (message.os ++ [newline], message.osenv ++ [newline]) :=
  readLine_of_lt message.os_plain short _

/-- A path that does not fit leaves its end for the name. -/
theorem readLine_encode_of_long (long : maxLine - 1 ≤ message.os.length) :
    readLine newline (maxLine - 1) message.encode =
      (message.os.take (maxLine - 1), message.os.drop (maxLine - 1) ++
        newline :: (message.osenv ++ [newline])) :=
  readLine_of_le message.os_plain long _

theorem sanitized_name :
    sanitized false (readLine newline (maxLine - 1)
      (message.osenv ++ [newline])).1 =
      message.osenv.take (maxLine - 1) := by
  have clean := message.osenv_clean
  rcases Nat.lt_or_ge message.osenv.length (maxLine - 1) with short | long
  · rw [readLine_of_lt clean.plain short, sanitized_append_newline,
      clean.sanitized, List.take_of_length_le (Nat.le_of_lt short)]
  · rw [readLine_of_le clean.plain long]
    have part : Clean false (message.osenv.take (maxLine - 1)) :=
      fun c inside => clean c (List.mem_of_mem_take inside)
    exact part.sanitized

theorem decode_of_short (short : message.os.length < maxLine - 1)
    (env_path osenv : LineBuffer) :
    decode env_path osenv message.encode =
      (1, sanitized true message.os, message.osenv.take (maxLine - 1)) := by
  have split := message.readLine_encode_of_short short
  rw [decode_eq message.encode_ne_nil (by rw [split]; simp), split,
    message.sanitized_name, sanitized_append_newline]

theorem decode_of_long (long : maxLine - 1 ≤ message.os.length)
    (env_path osenv : LineBuffer) :
    decode env_path osenv message.encode =
      (1, sanitized true (message.os.take (maxLine - 1)),
        sanitized false (readLine newline (maxLine - 1)
          (message.os.drop (maxLine - 1) ++
            newline :: (message.osenv ++ [newline]))).1) := by
  have split := message.readLine_encode_of_long long
  rw [decode_eq message.encode_ne_nil (by rw [split]; simp), split]

/-- Decoding undoes encoding if and only if both lines fit, or the path just
fails to fit and the name, which comes out empty, is empty. -/
theorem decode_encode_iff (env_path osenv : LineBuffer) :
    decode env_path osenv message.encode =
        (1, sanitized true message.os, message.osenv) ↔
      (message.os.length ≤ 78 ∧ message.osenv.length ≤ 79) ∨
        (message.os.length = 79 ∧ message.osenv = []) := by
  rcases Nat.lt_or_ge message.os.length (maxLine - 1) with short | long
  · rw [message.decode_of_short short]
    have limit : message.os.length ≤ 78 := Nat.le_of_lt_succ short
    have notFull : message.os.length ≠ 79 := by omega
    have cut : message.osenv.take (maxLine - 1) = message.osenv ↔
        message.osenv.length ≤ 79 := List.take_eq_self_iff _
    simp only [Prod.mk.injEq, true_and, cut, limit, notFull, false_and,
      or_false]
  · rw [message.decode_of_long long]
    have tooLong : ¬ message.os.length ≤ 78 := Nat.not_le_of_lt long
    rcases Nat.lt_or_eq_of_le message.os_length with shorter | full
    · have exact79 : message.os.length = 79 := by
        simp only [maxLine] at shorter long
        omega
      have whole : message.os.take (maxLine - 1) = message.os :=
        List.take_of_length_le (Nat.le_of_eq exact79)
      have nothing : message.os.drop (maxLine - 1) = [] :=
        List.drop_eq_nil_of_le (Nat.le_of_eq exact79)
      have alone : readLine newline (maxLine - 1)
          (newline :: (message.osenv ++ [newline])) =
            ([newline], message.osenv ++ [newline]) :=
        @readLine_of_lt _ _ newline (maxLine - 1) [] List.not_mem_nil
          (by decide) _
      have empty : sanitized false [newline] = [] := by decide
      rw [whole, nothing, List.nil_append, alone, empty]
      simp [exact79, eq_comm]
    · -- the path itself is cut
      have cutPath : sanitized true (message.os.take (maxLine - 1)) ≠
          sanitized true message.os := by
        intro same
        have part := @sanitized_of_plain (message.os.take (maxLine - 1))
          (fun inside => message.os_terminated (List.mem_of_mem_take inside))
          (fun inside => message.os_plain (List.mem_of_mem_take inside))
          true
        rw [part, sanitized_of_plain message.os_terminated message.os_plain]
          at same
        have lengths := congrArg List.length same
        simp [full, maxLine] at lengths
      have not79 : message.os.length ≠ 79 := by
        rw [full]
        decide
      simp [cutPath, tooLong, not79]

end Message

namespace Child

def message {child : Child} {cfg : PamChosConfig}
    (works : child.Works cfg) : Message :=
  { os := child.path cfg
    osenv := child.name cfg
    os_length := (path_plain works).2.2
    os_plain := (path_plain works).1
    os_terminated := (path_plain works).2.1
    osenv_length := length_name works
    osenv_clean := clean_name works }

theorem getChosInfo_eq_encode {child : Child} {cfg : PamChosConfig}
    (works : child.Works cfg) (found : ¬ child.Stranded cfg) :
    getChosInfo child = some (1, (message works).encode) := by
  rw [getChosInfo_of_works works, if_neg found]
  rfl

/-- `$CHOS` of 80 characters that no alias matches: path and name are the
same string, the path arrives one character short, and that character is what
arrives as the name. -/
theorem long_name_splits :
    ∃ message : Message,
      getChosInfo (plain (ascii "%SHELLS\nlocal:/\n")
          (some ⟨List.replicate 80 97, by decide⟩)) =
        some (1, message.encode) ∧
      message.osenv = List.replicate 80 97 ∧
      decode ⟨List.replicate 81 0, by decide⟩
          ⟨List.replicate 81 0, by decide⟩ message.encode =
        (1, List.replicate 79 97, [97]) ∧
      decode ⟨List.replicate 81 0, by decide⟩
          ⟨List.replicate 81 0, by decide⟩ message.encode ≠
        (1, sanitized true message.os, message.osenv) := by
  refine ⟨message (plain_works (ascii "%SHELLS\nlocal:/\n")
    (some ⟨List.replicate 80 97, by decide⟩)), ?_, ?_, ?_, ?_⟩
  · exact getChosInfo_eq_encode _ (by decide +kernel)
  · decide +kernel
  · decide +kernel
  · decide +kernel

end Child

end Chos.User
