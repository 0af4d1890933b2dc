import Chos.Kernel.Lookup

/-!
# The proc handlers

`write_setchos`, `write_resetchos`, `write_valid`, `print_valid` and the
link operations.  Calls that can fail take their outcome as an argument:
the `kmalloc` calls of each handler and the `sys_chroot` of `my_chroot`.
-/

namespace Chos.Kernel

open Chos.Library

inductive Errno where
  | EPERM
  | ENOENT
  | ENOMEM
  deriving DecidableEq, Repr

def rootText : Text := ['/'.toUInt8]

/-- The loop both write handlers share: advance while `i < count` and the
byte is neither a newline nor NUL. -/
def scan (buf : List UInt8) : Nat → Nat → Nat
  | 0, i => i
  | remaining + 1, i =>
      if buf.getD i 0 ≠ '\n'.toUInt8 ∧ buf.getD i 0 ≠ 0 then
        scan buf remaining (i + 1)
      else i

/-- The bytes copied from the user buffer; the kernel copy is followed by a
NUL. -/
def copied (buf : List UInt8) (count : Nat) : Text :=
  buf.take (scan buf count 0)

/-- A NUL-terminated buffer read as a C string. -/
def cString (buffer : Text) : Text :=
  buffer.takeWhile (· ≠ 0)

def isRootPath (text : Text) : Bool :=
  text.getD 0 0 = '/'.toUInt8 ∧ text.getD 1 0 = 0

structure ValidPath where
  path : Text
  length : Nat
  deriving DecidableEq, Repr

structure ValidOutcome where
  pathAlloc : Bool
  nodeAlloc : Bool
  deriving DecidableEq, Repr

def addValidPath (path : Text) (length : Nat) (allocated : Bool)
    (paths : List ValidPath) : List ValidPath :=
  if allocated then paths ++ [{ path := path, length := length }] else paths

/-- Each round unlinks the node under the cursor, which is the first one. -/
def resetvalid : List ValidPath → List ValidPath
  | [] => []
  | _ :: rest => resetvalid rest

def writeValid (euid : Nat) (buf : List UInt8) (count : Nat)
    (outcome : ValidOutcome) (paths : List ValidPath) :
    Except Errno Nat × List ValidPath :=
  if euid ≠ 0 then (.error .EPERM, paths)
  else if buf.getD 0 0 = '-'.toUInt8 then (.ok count, resetvalid paths)
  else if outcome.pathAlloc then
    (.ok count, addValidPath (copied buf count) (scan buf count 0)
      outcome.nodeAlloc paths)
  else (.ok 0, paths)

/-- The output of reading `/proc/chos/valid`: `"%s\n"` for each path. -/
def printValid : List ValidPath → Text
  | [] => []
  | valid :: rest =>
      cString valid.path ++ ['\n'.toUInt8] ++ printValid rest

def isValidPath (path : Text) : List ValidPath → Bool
  | [] => false
  | valid :: rest =>
      if cString path = cString valid.path then true
      else isValidPath path rest

/-- `chosIn` is the root that `sys_chroot("/chos")` leaves a caller whose root
is not the real one: any directory, the real root and CHOSROOT included. -/
structure SetchosOutcome where
  textAlloc : Bool
  linkAlloc : Bool
  chroot : Bool
  chosIn : Root
  deriving DecidableEq, Repr

def isChrooted (root : Root) : Bool := root = .named

/-- `my_chroot(CHOSROOT)`: the path is resolved below the caller's root. -/
def myChroot (outcome : SetchosOutcome) (root : Root) : Root :=
  if outcome.chroot then
    match root with
    | .nochroot => .named
    | .named => outcome.chosIn
    | .other _ => outcome.chosIn
  else root

/-- `s_find_task_by_pid_ns(i, current->nsproxy->pid_ns)`. -/
def seenBy (tree : ProcTree) (current : Task) (nr : Nat) : Option Task :=
  findTaskByPidNs tree.tasks nr current.pid_ns

/-- The steps both branches of `write_setchos` take once the text is
accepted. -/
def installLink (tree : ProcTree) (current : Task) (text : TextId)
    (allocated : Bool) (table : Table) : Except Stop Table :=
  let table := cleanupLinks (seenBy tree current) table
  let (link, table) := createLink text allocated table
  setLink link current table

/-- Returns the value of the system call, the caller's root directory and
the table. -/
def writeSetchos (tree : ProcTree) (paths : List ValidPath) (current : Task)
    (buf : List UInt8) (count : Nat) (outcome : SetchosOutcome)
    (table : Table) : Except Stop (Except Errno Nat × Root × Table) :=
  if outcome.textAlloc then
    let content := copied buf count
    let (text, table) := table.allocText content
    if isRootPath content then do
      let table ← installLink tree current text outcome.linkAlloc table
      return (.ok count, .nochroot, table)
    else if isValidPath content paths then do
      let table ← installLink tree current text outcome.linkAlloc table
      let root :=
        if isChrooted current.root then current.root
        else myChroot outcome current.root
      return (.ok count, root, table)
    else return (.error .ENOENT, current.root, table)
  else return (.error .ENOMEM, current.root, table)

def writeResetchos (tree : ProcTree) (current : Task) (count : Nat)
    (table : Table) : Except Stop (Nat × Table) :=
  if current.pid > table.pid_max then .error .bugOn
  else do
    let _ ← table.proc current.pid
    let table := resetLink current.pid table
    return (count, cleanupLinks (seenBy tree current) table)

/-- The common part of `link_readlink` and `link_follow_link`. -/
def linkText (tree : ProcTree) (current : Task) (table : Table) :
    Except Stop (Text × Table) := do
  let (link, table) ← tree.lookup current.pid table
  match link with
  | none => return (rootText, table)
  | some link =>
      let (text, table) := table.loadText link
      return table.readText text

/-- `vfs_readlink` copies at most `buflen` bytes of the text. -/
def linkReadlink (tree : ProcTree) (current : Task) (buflen : Nat)
    (table : Table) : Except Stop (Text × Table) := do
  let (text, table) ← linkText tree current table
  return (text.take buflen, table)

def linkFollowLink (tree : ProcTree) (current : Task) (table : Table) :
    Except Stop (Text × Table) :=
  linkText tree current table

end Chos.Kernel
