import Chos.Kernel.Patch
import Chos.Kernel.Table
import Chos.Library.Runs

/-!
# Loading and unloading the module

`init_module`, `cleanup_module` and `write_savestate`, in the build that
wraps `do_fork`.  The global `struct chos` outlives an unload when the state
is saved; the static data of the module (`jumper`, `save_state`, `ch`) does
not, and every load begins with it zeroed.
-/

namespace Chos.Kernel

open Chos.Library

/-- `struct chos` without the two directories; `procs` is the number of the
`vmalloc` block. -/
structure ChosGlobal where
  magic : Int
  version : Int
  pid_max : Nat
  procs : Nat
  fork_wrapped : Int
  deriving DecidableEq, Repr

instance : Inhabited ChosGlobal := ⟨⟨0, 0, 0, 0, 0⟩⟩

instance : Inhabited (Nat → ChosProc) := ⟨fun _ => .cleared⟩

/-- The directory and the entries the module creates in `/proc`. -/
inductive ProcEntry where
  | chos
  | setchos
  | resetchos
  | savestate
  | version
  | valid
  | link
  deriving DecidableEq, Repr

/-- The kernel around the module.  `saved` holds the addresses that
`cleanup_module` has printed to the log. -/
structure Host where
  machine : Machine
  structs : Heap ChosGlobal
  arrays : Heap (Nat → ChosProc)
  entries : List ProcEntry
  saved : List Nat

structure Module where
  image : Image
  ch : Nat
  jumper : Memory
  save_state : Int

/-- How the calls of `init_module` end that can fail. -/
structure LoadOutcome where
  chosAlloc : Bool
  procsAlloc : Bool
  mkdir : Bool
  created : ProcEntry → Bool

def pidMaxDefault : Nat := 0x8000

def cdsv : Int := 1

/-- `init_chos` up to `init_do_fork`: the code it has returned, or zero when
it goes on, `ch` and the kernel.  Without a struct `ch` is not looked at. -/
def buildChos (max : Int) (outcome : LoadOutcome) (host : Host) :
    Int × Nat × Host :=
  if ¬ outcome.chosAlloc then (-1, 0, host)
  else
    let ch := host.structs.next
    let pid_max := if max > 0 then max.toNat else pidMaxDefault
    let chos : ChosGlobal :=
      { (default : ChosGlobal) with pid_max := pid_max }
    let host := { host with structs := host.structs.alloc chos }
    if ¬ outcome.procsAlloc then
      (-1, ch, { host with structs := host.structs.free ch })
    else
      let procs := host.arrays.next
      let host :=
        { host with arrays := host.arrays.alloc fun _ => .initial }
      let chos : ChosGlobal :=
        { chos with
          procs := procs, magic := 0x1234, version := 1, fork_wrapped := 0 }
      (0, ch, { host with structs := host.structs.modify ch fun _ => chos })

/-- What `init_chos` does with the code `init_do_fork` returns. -/
def Host.recordFork (host : Host) (ch : Nat) (code : Int)
    (machine : Machine) : Host :=
  { host with
    machine := machine
    structs :=
      if code = 0 then
        host.structs.modify ch fun chos => { chos with fork_wrapped := 1 }
      else host.structs }

/-- `init_chos`: the code it returns, `ch`, `jumper` and the kernel. -/
def initChos (config : Config) (image : Image) (max : Int)
    (outcome : LoadOutcome) (jumper : Memory) (host : Host) :
    Option (Int × Nat × Memory × Host) :=
  let (code, ch, host) := buildChos max outcome host
  if code ≠ 0 then some (code, ch, jumper, host)
  else
    (initDoFork config image jumper host.machine).map
      fun (code, jumper, machine) =>
        (0, ch, jumper, host.recordFork ch code machine)

/-- `recover_chos`; the struct at the address, once the test is passed, is
the one the module goes on with. -/
def recoverChos (table : Nat) (host : Host) : Int :=
  if (host.structs.block table).magic ≠ 0x1234 then -1
  else if (host.structs.block table).version = cdsv then 0
  else -1

def removeProcEntry (entry : ProcEntry) (host : Host) : Host :=
  { host with entries := host.entries.filter (· ≠ entry) }

def handleProcEntryFailure (host : Host) : Host :=
  removeProcEntry .chos host

def makeProcEntry (outcome : LoadOutcome) (host : Host) (entry : ProcEntry) :
    Host :=
  if outcome.created entry then
    { host with entries := entry :: host.entries }
  else handleProcEntryFailure host

/-- The end of `init_module`, from `proc_mkdir` on.  Without the link entry
the assignment of its operations goes through a null pointer, and
`init_module` does not return. -/
def makeProcEntries (outcome : LoadOutcome) (host : Host) :
    Option (Int × Host) :=
  if ¬ outcome.mkdir then some (-1, host)
  else
    let host := { host with entries := .chos :: host.entries }
    let host := [ProcEntry.setchos, .resetchos, .savestate, .version,
      .valid].foldl (makeProcEntry outcome) host
    let host := makeProcEntry outcome host .link
    if outcome.created .link then some (0, host) else none

/-- The beginning of `init_module`: recover the struct `table` points to, or
build a new one.  `table` is the module parameter, `none` for zero. -/
def obtainChos (config : Config) (image : Image) (table : Option Nat)
    (max : Int) (outcome : LoadOutcome) (jumper : Memory) (host : Host) :
    Option (Int × Nat × Memory × Host) :=
  match table with
  | some table => some (recoverChos table host, table, jumper, host)
  | none => initChos config image max outcome jumper host

/-- A load does not return when a store of `init_do_fork` faults, or the
operations of the link entry are stored through a null pointer. -/
def initModule (config : Config) (image : Image) (table : Option Nat)
    (max : Int) (outcome : LoadOutcome) (host : Host) :
    Option (Int × Module × Host) := do
  let (code, ch, jumper, host) ←
    obtainChos config image table max outcome (fun _ => 0) host
  let loaded : Module :=
    { image := image, ch := ch, jumper := jumper, save_state := 0 }
  if code ≠ 0 then return (-1, loaded, host)
  else
    (makeProcEntries outcome host).map fun (code, host) =>
      (code, loaded, host)

def writeSavestate (buf : List UInt8) (loaded : Module) : Module :=
  if buf.length > 1 then
    if buf.getD 0 0 = '1'.toUInt8 then { loaded with save_state := 1 }
    else { loaded with save_state := 0 }
  else loaded

/-- An unload does not return when a store of `cleanup_do_fork` faults. -/
def cleanupModule (config : Config) (loaded : Module) (host : Host) :
    Option Host :=
  let chos := host.structs.block loaded.ch
  let unpatched :=
    if chos.fork_wrapped ≠ 0 then
      cleanupDoFork config loaded.jumper host.machine
    else some host.machine
  unpatched.map fun machine =>
    let host := { host with machine := machine }
    let host := [ProcEntry.setchos, .resetchos, .version, .savestate, .link,
      .valid, .chos].foldl (fun host entry => removeProcEntry entry host) host
    if loaded.save_state = 0 then
      { host with
        arrays := host.arrays.free chos.procs
        structs := host.structs.free loaded.ch }
    else { host with saved := loaded.ch :: host.saved }

structure Life where
  host : Host
  loaded : Option Module

inductive LifeEvent where
  | load (image : Image) (table : Option Nat) (max : Int)
      (outcome : LoadOutcome)
  | savestate (buf : List UInt8)
  | unload

/-- The value of `table` an administrator can pass: zero, or the address of a
struct that an unload has saved and none has freed since. -/
def Host.Offers (host : Host) : Option Nat → Prop
  | none => True
  | some table => table ∈ host.saved ∧ host.structs.Live table

instance (host : Host) : ∀ table, Decidable (host.Offers table)
  | none => .isTrue trivial
  | some _ => inferInstanceAs (Decidable (_ ∧ _))

def Life.step (config : Config) (life : Life) : LifeEvent → Option Life
  | .load image table max outcome =>
      match life.loaded with
      | some _ => none
      | none =>
          if life.host.Offers table then
            (initModule config image table max outcome life.host).map
              fun (code, loaded, host) =>
                { host := host
                  loaded := if code = 0 then some loaded else none }
          else none
  | .savestate buf =>
      life.loaded.map fun loaded =>
        { life with loaded := some (writeSavestate buf loaded) }
  | .unload => do
      let loaded ← life.loaded
      let host ← cleanupModule config loaded life.host
      return { host := host, loaded := none }

end Chos.Kernel
