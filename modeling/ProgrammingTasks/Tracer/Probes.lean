import Mathlib.Algebra.GroupWithZero.Nat
import Mathlib.Logic.Function.Basic
import Mathlib.Data.Int.Basic
import ProgrammingTasks.Foundations.TransitionSystem

/-
  The tracer module of the kernel (`tracer.c`).

  Two lists are kept, one row for each traced process, and one
  entry for each allocation that has not been freed.  A step
  is a probe that fires, or an ioctl; each runs atomically.
  The `kfree` calls of the ioctls themselves are probe events
  of the caller like any others.

  Main declarations:
    * `Counter`, `ProcData`, `MemData`, `Lists`
    * `incrementFuncCall`, `saveMemData`, `getMemData`
    * `addProcess`, `removeProcess`, `so2MdevIoctl`
    * `Event`, `handle`, `tracerSystem`
-/

------------------------------------------------------------
-- The Lists
------------------------------------------------------------

namespace ProgrammingTasks

namespace Tracer

/- The conversion to a 32-bit `int`. -/
def toInt (v : Int) : Int :=
  v.bmod (2 ^ 32)

/- The counters of a process. -/
inductive Counter
| kmalloc
| kfree
| kmallocMem
| kfreeMem
| sched
| up
| down
| lock
| unlock
deriving DecidableEq, Repr

/- A row of the list of processes. -/
structure ProcData where
  pid : Int
  counter : Counter → Int

/- An entry of the list of allocations. -/
structure MemData where
  pid : Int
  address : Nat
  memSize : Int
deriving DecidableEq, Repr

structure Lists where
  procDataHead : List ProcData
  memDataHead : List MemData

/- The comparisons of the operation with the counters. -/
def counterOf (opName : List Char) : Option Counter :=
  if "kmalloc_counter".toList.isPrefixOf opName then
    some .kmalloc
  else if "kfree_counter".toList.isPrefixOf opName then
    some .kfree
  else if "kmalloc_mem_counter".toList.isPrefixOf opName then
    some .kmallocMem
  else if "kfree_mem_counter".toList.isPrefixOf opName then
    some .kfreeMem
  else if "sched_counter".toList.isPrefixOf opName then
    some .sched
  else if "up_counter".toList.isPrefixOf opName then
    some .up
  else if "down_counter".toList.isPrefixOf opName then
    some .down
  else if "lock_counter".toList.isPrefixOf opName then
    some .lock
  else if "unlock_counter".toList.isPrefixOf opName then
    some .unlock
  else
    none

/- `atomic_add` on the counter, if the operation names one. -/
def ProcData.add
    (pdl : ProcData) (increment : Int)
    (counter : Option Counter) : ProcData :=
  match counter with
  | none => pdl
  | some c =>
      { pdl with
        counter :=
          Function.update pdl.counter c
            (toInt (pdl.counter c + increment)) }

/- The first row of the process is changed. -/
def incrementRow
    (pid increment : Int) (counter : Option Counter) :
    List ProcData → List ProcData
| [] => []
| pdl :: rest =>
    if pdl.pid = pid then
      pdl.add increment counter :: rest
    else
      pdl :: incrementRow pid increment counter rest

def incrementFuncCall
    (pid increment : Int) (opName : List Char)
    (s : Lists) : Lists :=
  { s with
    procDataHead :=
      incrementRow pid increment (counterOf opName)
        s.procDataHead }

/- `allocated` is whether its own `kmalloc` succeeds. -/
def saveMemData
    (pid : Int) (address : Nat) (memSize : Int)
    (allocated : Bool) (s : Lists) : Lists :=
  if allocated then
    { s with
      memDataHead := ⟨pid, address, memSize⟩ :: s.memDataHead }
  else
    s

/- The first entry for the address, and the list without it. -/
def takeMemData (pid : Int) (address : Nat) :
    List MemData → Int × List MemData
| [] => (0, [])
| mdl :: rest =>
    if mdl.address = address ∧ mdl.pid = pid then
      (mdl.memSize, rest)
    else
      let found := takeMemData pid address rest
      (found.1, mdl :: found.2)

def getMemData
    (pid : Int) (address : Nat) (s : Lists) : Int × Lists :=
  let found := takeMemData pid address s.memDataHead
  (found.1, { s with memDataHead := found.2 })

def removeByPidFromMemList (pid : Int) (s : Lists) : Lists :=
  { s with
    memDataHead := s.memDataHead.filter (fun mdl => mdl.pid ≠ pid) }

------------------------------------------------------------
-- The Ioctls
------------------------------------------------------------

def enomem : Int := 12

def einval : Int := 22

/- `allocated` is whether `kmalloc` succeeds. -/
def addProcess
    (pid : Int) (allocated : Bool) (s : Lists) : Int × Lists :=
  if allocated then
    (0, { s with
      procDataHead := ⟨pid, fun _ => 0⟩ :: s.procDataHead })
  else
    (-enomem, s)

/- The first row of the process is removed, and its entries. -/
def removeProcess (pid : Int) (s : Lists) : Int × Lists :=
  if s.procDataHead.any (fun pdl => pdl.pid = pid) then
    (0, removeByPidFromMemList pid
      { s with
        procDataHead :=
          s.procDataHead.eraseP (fun pdl => pdl.pid = pid) })
  else
    (-einval, s)

inductive Command
| addProcess
| removeProcess
| other
deriving DecidableEq, Repr

/- The argument is converted to a `pid_t`. -/
def so2MdevIoctl
    (cmd : Command) (arg : Nat) (allocated : Bool)
    (s : Lists) : Int × Lists :=
  match cmd with
  | .addProcess => addProcess (toInt arg) allocated s
  | .removeProcess => removeProcess (toInt arg) s
  | .other => (-einval, s)

------------------------------------------------------------
-- The Probes
------------------------------------------------------------

def kmallocEntryHandler (pid : Int) (s : Lists) : Lists :=
  incrementFuncCall pid 1 "kmalloc_counter".toList s

/- `size` is what the entry handler of the call has read. -/
def kmallocHandler
    (pid : Int) (address size : Nat) (allocated : Bool)
    (s : Lists) : Lists :=
  saveMemData pid address (toInt size) allocated
    (incrementFuncCall pid (toInt size)
      "kmalloc_mem_counter".toList s)

def kfreeHandlerPre
    (pid : Int) (address : Nat) (s : Lists) : Lists :=
  let found := getMemData pid address s
  let s :=
    if found.1 ≠ 0 then
      incrementFuncCall pid found.1 "kfree_mem_counter".toList
        found.2
    else
      found.2
  incrementFuncCall pid 1 "kfree_counter".toList s

def schedHandlerPre (pid : Int) (s : Lists) : Lists :=
  incrementFuncCall pid 1 "sched_counter".toList s

def upHandlerPre (pid : Int) (s : Lists) : Lists :=
  incrementFuncCall pid 1 "up_counter".toList s

def downHandlerPre (pid : Int) (s : Lists) : Lists :=
  incrementFuncCall pid 1 "down_counter".toList s

def lockHandlerPre (pid : Int) (s : Lists) : Lists :=
  incrementFuncCall pid 1 "lock_counter".toList s

def unlockHandlerPre (pid : Int) (s : Lists) : Lists :=
  incrementFuncCall pid 1 "unlock_counter".toList s

------------------------------------------------------------
-- The System
------------------------------------------------------------

inductive Event
| kmallocEntry (pid : Int)
| kmallocReturn
    (pid : Int) (address size : Nat) (allocated : Bool)
| kfree (pid : Int) (address : Nat)
| sched (pid : Int)
| up (pid : Int)
| down (pid : Int)
| lock (pid : Int)
| unlock (pid : Int)
| ioctl (cmd : Command) (arg : Nat) (allocated : Bool)
deriving DecidableEq, Repr

def handle (s : Lists) : Event → Lists
| .kmallocEntry pid => kmallocEntryHandler pid s
| .kmallocReturn pid address size allocated =>
    kmallocHandler pid address size allocated s
| .kfree pid address => kfreeHandlerPre pid address s
| .sched pid => schedHandlerPre pid s
| .up pid => upHandlerPre pid s
| .down pid => downHandlerPre pid s
| .lock pid => lockHandlerPre pid s
| .unlock pid => unlockHandlerPre pid s
| .ioctl cmd arg allocated =>
    (so2MdevIoctl cmd arg allocated s).2

/- What the ioctl returns in a state. -/
def result (s : Lists) : Event → Option Int
| .ioctl cmd arg allocated =>
    some (so2MdevIoctl cmd arg allocated s).1
| _ => none

/- Both lists are empty when the module is loaded. -/
def start : Lists where
  procDataHead := []
  memDataHead := []

def step (s : Lists) (e : Event) : Option Lists :=
  some (handle s e)

def tracerSystem : TransitionSystem Lists Event :=
  TransitionSystem.ofFunction (fun s => s = start) step

abbrev Transition := TransitionSystem.Transition Lists Event

abbrev Trace := List Transition

------------------------------------------------------------
-- What the Handlers Do to the Lists
------------------------------------------------------------

/- The process has a row. -/
def IsTraced (s : Lists) (pid : Int) : Prop :=
  ∃ pdl ∈ s.procDataHead, pdl.pid = pid

@[simp]
theorem add_pid
    (pdl : ProcData)
    (increment : Int)
    (counter : Option Counter) :
    (pdl.add increment counter).pid = pdl.pid := by
  cases counter with
  | none => rfl
  | some c => rfl

@[simp]
theorem map_pid_incrementRow
    (pid increment : Int)
    (counter : Option Counter) :
    ∀ rows : List ProcData,
      (incrementRow pid increment counter rows).map
          ProcData.pid =
        rows.map ProcData.pid
| [] => rfl
| pdl :: rest => by
    rw [incrementRow]
    split
    · rw [List.map_cons, List.map_cons, add_pid]
    · rw [List.map_cons, List.map_cons,
        map_pid_incrementRow pid increment counter rest]

@[simp]
theorem map_pid_incrementFuncCall
    (pid increment : Int)
    (opName : List Char)
    (s : Lists) :
    (incrementFuncCall pid increment opName
        s).procDataHead.map ProcData.pid =
      s.procDataHead.map ProcData.pid :=
  map_pid_incrementRow _ _ _ _

instance (s : Lists) (pid : Int) : Decidable (IsTraced s pid) :=
  inferInstanceAs
    (Decidable (∃ pdl ∈ s.procDataHead, pdl.pid = pid))

theorem isTraced_iff
    {s : Lists} {pid : Int} :
    IsTraced s pid ↔ pid ∈ s.procDataHead.map ProcData.pid := by
  rw [List.mem_map]
  rfl

theorem isTraced_congr
    {s s' : Lists} {pid : Int}
    (hRows :
      s'.procDataHead.map ProcData.pid =
        s.procDataHead.map ProcData.pid) :
    IsTraced s' pid ↔ IsTraced s pid := by
  rw [isTraced_iff, isTraced_iff, hRows]

theorem takeMemData_sublist
    (pid : Int)
    (address : Nat) :
    ∀ entries : List MemData,
      (takeMemData pid address entries).2.Sublist entries
| [] => .slnil
| mdl :: rest => by
    rw [takeMemData]
    split
    · exact List.sublist_cons_self _ _
    · exact (takeMemData_sublist pid address rest).cons_cons mdl

end Tracer

end ProgrammingTasks
