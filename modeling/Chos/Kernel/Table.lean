import Mathlib.Algebra.Group.Nat.Defs
import Chos.Library.Heap
import Chos.Kernel.Task

/-!
# The link table

`struct chos_link`, `struct chos_proc` and the part of `struct chos` the
handlers work on, with the kernel memory its pointers lead to.  A link and
its text are separate `kmalloc` blocks.  `misuse` belongs to no C structure:
it counts accesses to blocks that were freed before, and no modelled
function reads it.
-/

namespace Chos.Kernel

open Chos.Library

abbrev Text := List UInt8

abbrev LinkId := Nat

abbrev TextId := Nat

/-- `struct chos_link`; `count` is the `atomic_t`, a signed integer. -/
structure ChosLink where
  text : TextId
  count : Int
  deriving Inhabited, DecidableEq, Repr

/-- `struct chos_proc` without its lock; `start_time` is the `u64`. -/
structure ChosProc where
  link : Option LinkId
  start_time : Nat
  deriving DecidableEq, Repr

/-- What `init_chos` writes: no link, start time `-1`. -/
def ChosProc.initial : ChosProc :=
  { link := none
    start_time := 2 ^ 64 - 1 }

/-- What `reset_link` writes. -/
def ChosProc.cleared : ChosProc :=
  { link := none
    start_time := 0 }

/-- What `set_link` writes for a task. -/
def ChosProc.assigned (link : Option LinkId) (task : Task) : ChosProc :=
  { link := link
    start_time := task.start_time.tv_sec }

/-- The test of `lookup_link`: the entry is cached for this very task. -/
def ChosProc.validFor (entry : ChosProc) (task : Task) : Option LinkId :=
  if entry.start_time = task.start_time.tv_sec then entry.link else none

/-- Why an operation does not return: a `BUG_ON` fired, an index left
`ch->procs`, or the recursion used up the fuel it was given. -/
inductive Stop where
  | bugOn
  | outOfRange (index : Nat)
  | outOfFuel
  deriving DecidableEq, Repr

structure Table where
  pid_max : Nat
  procs : Nat → ChosProc
  links : Heap ChosLink
  texts : Heap Text
  misuse : Nat

namespace Table

def init (pid_max : Nat) : Table :=
  { pid_max := pid_max
    procs := fun _ => .initial
    links := .empty
    texts := .empty
    misuse := 0 }

def proc (table : Table) (index : Nat) : Except Stop ChosProc :=
  if index < table.pid_max then .ok (table.procs index)
  else .error (.outOfRange index)

/-- The region under one write lock that overwrites an entry. -/
def store (table : Table) (index : Nat) (entry : ChosProc) : Table :=
  { table with procs := Function.update table.procs index entry }

/-- An access to the link block, charged if the block was freed before. -/
def touchLink (table : Table) (link : LinkId) : Table :=
  { table with misuse := table.misuse + table.links.frees link }

def atomicInc (table : Table) (link : LinkId) : Table :=
  { table.touchLink link with
    links := table.links.modify link fun cell =>
      { cell with count := cell.count + 1 } }

def atomicDec (table : Table) (link : LinkId) : Table :=
  { table.touchLink link with
    links := table.links.modify link fun cell =>
      { cell with count := cell.count - 1 } }

def atomicRead (table : Table) (link : LinkId) : Int × Table :=
  ((table.links.block link).count, table.touchLink link)

def loadText (table : Table) (link : LinkId) : TextId × Table :=
  ((table.links.block link).text, table.touchLink link)

def readText (table : Table) (text : TextId) : Text × Table :=
  (table.texts.block text,
    { table with misuse := table.misuse + table.texts.frees text })

def kfreeText (table : Table) (text : TextId) : Table :=
  { table with
    texts := table.texts.free text
    misuse := table.misuse + table.texts.frees text }

def kfreeLink (table : Table) (link : LinkId) : Table :=
  { table.touchLink link with links := table.links.free link }

def allocText (table : Table) (content : Text) : TextId × Table :=
  (table.texts.next, { table with texts := table.texts.alloc content })

def textOf (table : Table) (link : LinkId) : Text :=
  table.texts.block (table.links.block link).text

def count (table : Table) (link : LinkId) : Int :=
  (table.links.block link).count

def linkAt (table : Table) (index : Nat) : Option LinkId :=
  (table.procs index).link

end Table

/-- `create_link`; the flag says whether `kmalloc` succeeds. -/
def createLink (text : TextId) (allocated : Bool) (table : Table) :
    Option LinkId × Table :=
  if allocated then
    (some table.links.next,
      { table with links := table.links.alloc { text := text, count := 0 } })
  else (none, table)

def destroyLink (link : LinkId) (table : Table) : Table :=
  let (count, table) := table.atomicRead link
  if count = 0 then
    let (text, table) := table.loadText link
    (table.kfreeText text).kfreeLink link
  else table

/-- The second half of `reset_link`: drop one reference, and destroy the link
when the counter reads zero. -/
def releaseLink (link : LinkId) (table : Table) : Table :=
  let table := table.atomicDec link
  let (count, table) := table.atomicRead link
  if count = 0 then destroyLink link table else table

/-- `reset_link` on the entry `p = &(ch->procs[index])`. -/
def resetLink (index : Nat) (table : Table) : Table :=
  let link := table.linkAt index
  let table := table.store index .cleared
  match link with
  | none => table
  | some link => releaseLink link table

/-- The first half of `set_link`: drop the reference the entry still holds. -/
def vacateLink (index : Nat) (table : Table) : Table :=
  if table.linkAt index ≠ none then resetLink index table else table

/-- `set_link` from the point where `p` is known to be an entry. -/
def assignLink (link : Option LinkId) (task : Task) (table : Table) : Table :=
  let table := vacateLink task.pid table
  let table :=
    match link with
    | none => table
    | some link => table.atomicInc link
  table.store task.pid (.assigned link task)

def setLink (link : Option LinkId) (task : Task) (table : Table) :
    Except Stop Table :=
  if task.pid > table.pid_max then .error .bugOn
  else do
    let _ ← table.proc task.pid
    return assignLink link task table

/-- The test of `cleanup_links` for an entry and the task found at its
index. -/
def stale (seen : Option Task) (entry : ChosProc) : Bool :=
  match seen with
  | none => entry.link ≠ none
  | some task =>
      entry.link ≠ none ∧ entry.start_time ≠ task.start_time.tv_sec

/-- One round of the loop of `cleanup_links`; `seen` is
`s_find_task_by_pid_ns` in the caller's namespace. -/
def cleanupStep (seen : Nat → Option Task) (table : Table) (index : Nat) :
    Table :=
  if stale (seen index) (table.procs index) then resetLink index table
  else table

def cleanupLinks (seen : Nat → Option Task) (table : Table) : Table :=
  (List.range table.pid_max).foldl (cleanupStep seen) table

/-- `lookup_link`; the first argument bounds the depth of the recursion. -/
def lookupLink (tree : ProcTree) :
    Nat → Option Task → Table → Except Stop (Option LinkId × Table)
  | 0, _, _ => .error .outOfFuel
  | _ + 1, none, table => .ok (none, table)
  | fuel + 1, some task, table =>
      if task.pid = 0 ∨ task.pid = 1 then .ok (none, table)
      else if task.pid > table.pid_max then .error .bugOn
      else do
        let entry ← table.proc task.pid
        if entry.link = none ∨
            entry.start_time ≠ task.start_time.tv_sec then
          let (link, table) ←
            lookupLink tree fuel (tree.find task.parent) table
          match link with
          | some found =>
              let table ← setLink (some found) task table
              return (some found, table)
          | none => return (none, resetLink task.pid table)
        else return (entry.link, table)

end Chos.Kernel
