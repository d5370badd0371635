import ProgrammingTasks.Scheduler.PriorityTable
import ProgrammingTasks.Foundations.TransitionSystem

/-
  The thread scheduler (`so_scheduler.c`) as a transition
  system.

  Every scheduler operation is one step of the current
  thread; when no thread is current, the main thread may take
  a `so_fork` step.  A step runs to the point where the
  thread that is then current reaches its next operation, so
  the semaphores of the source appear only as the control
  transfers they cause.

  Main declarations:
    * `State`
    * `comparePriorities`, `checkScheduler`
    * `soInit`, `soFork`, `soWait`, `soSignal`, `soExec`
    * `schedulerSystem`
-/

------------------------------------------------------------
-- Scheduler State
------------------------------------------------------------

namespace ProgrammingTasks

namespace Scheduler

/- The maximum number of events. -/
def soMaxNumEvents : UInt32 := 256

/- Thread states during the schedule. -/
inductive ThreadState
| new
| ready
| running
| waiting
| terminated
deriving DecidableEq, Repr

/- The scheduling fields of `thread_t`. -/
structure Thread where
  ioDevice : UInt32
  priority : UInt32
  quantumLeft : UInt32
  thState : ThreadState
deriving DecidableEq, Repr

/- The value `-1` of `io_device`: no device is waited for. -/
def noDevice : UInt32 := -1

/- An allocated `thread_t`, named by its allocation order. -/
abbrev ThreadPtr := Nat

/- The address of a handler; `0` is the NULL pointer. -/
abbrev SoHandler := Nat

/-
  The global variables of the scheduler after `so_init`, with
  the heap of `thread_t` records behind its pointers.
-/
structure State where
  tp : TP ThreadPtr
  threads : List ThreadPtr
  ioDev : UInt32
  initialMaxQuantum : UInt32
  nrThreads : UInt32
  currentThread : Option ThreadPtr
  heap : ThreadPtr → Thread
  nextPtr : ThreadPtr

namespace State

/- The priority of a thread as an index of the table. -/
def prio (s : State) (t : ThreadPtr) : Nat :=
  (s.heap t).priority.toNat

/- Write the fields of one thread. -/
def setThread
    (s : State)
    (t : ThreadPtr)
    (thread : Thread) : State :=
  { s with heap := Function.update s.heap t thread }

end State

------------------------------------------------------------
-- Choosing the Current Thread
------------------------------------------------------------

/- Make the head of the table current, if there is one. -/
def getThreadFromQueue (s : State) : State :=
  match s.tp.getHead with
  | none => { s with currentThread := none }
  | some th =>
      { s with
        tp := s.tp.priorityTableRemove (s.prio th)
        currentThread := some th }

/-
  The test of `compare_priorities`: the head `th` takes over
  from the current thread.
-/
def takesOver
    (expired : Bool)
    (th current : Thread) : Prop :=
  ((th.priority > current.priority ∧ expired = false) ∨
      (th.priority ≥ current.priority ∧ expired = true)) ∧
    current.thState = .running

instance (expired : Bool) (th current : Thread) :
    Decidable (takesOver expired th current) := by
  unfold takesOver
  infer_instance

/-
  Preempt the current thread if the head of the table takes
  over: the old thread gets a fresh quantum and goes to the
  end of the list of its priority.
-/
def comparePriorities
    (expired : Bool)
    (s : State) : State :=
  match s.tp.getHead, s.currentThread with
  | some th, some prevCurrThread =>
      if takesOver expired (s.heap th)
          (s.heap prevCurrThread) then
        let reset := s.setThread prevCurrThread
          { s.heap prevCurrThread with
            quantumLeft := s.initialMaxQuantum }
        { reset with
          currentThread := some th
          tp :=
            (reset.tp.priorityTableRemove
              (reset.prio th)).priorityTableInsert
                prevCurrThread (reset.prio prevCurrThread) }
      else
        s
  | _, _ => s

/-
  Charge the current thread one tick and see whether it is
  preempted.  Nothing happens while no other thread waits in
  the table.
-/
def checkScheduler (s : State) : State :=
  match s.currentThread with
  | none => s
  | some t =>
      if s.tp.getHead.isSome ∧ s.nrThreads > 1 then
        let charged := s.setThread t
          { s.heap t with
            quantumLeft := (s.heap t).quantumLeft - 1 }
        if (charged.heap t).quantumLeft > 0 then
          comparePriorities false charged
        else
          comparePriorities true charged
      else
        s

------------------------------------------------------------
-- Thread Handler
------------------------------------------------------------

/-
  `th_handler` up to the call of the user handler.  The first
  thread of the system becomes current at once; any other one
  waits in the table to be scheduled.
-/
def thHandlerStart
    (t : ThreadPtr)
    (s : State) : State :=
  let filed : State :=
    { s with
      tp := s.tp.priorityTableInsert t (s.prio t)
      threads := s.threads ++ [t] }
  let ready := filed.setThread t
    { filed.heap t with thState := .ready }
  match ready.currentThread, ready.tp.getHead with
  | none, some th =>
      let running : State :=
        { ready with
          currentThread := some t
          tp := ready.tp.priorityTableRemove
            (ready.prio th) }
      running.setThread t
        { running.heap t with thState := .running }
  | _, _ => ready

/- `th_handler` after the user handler has returned. -/
def thHandlerEnd
    (t : ThreadPtr)
    (s : State) : State :=
  let next := getThreadFromQueue s
  next.setThread t
    { next.heap t with thState := .terminated }

/-
  The thread that has just become current goes on.  In
  `th_handler` it marks itself RUNNING when it is scheduled
  for the first time; in `so_wait` and `compare_priorities`
  it returns without touching its state.
-/
def resume (s : State) : State :=
  match s.currentThread with
  | none => s
  | some t =>
      if (s.heap t).thState = .ready then
        s.setThread t { s.heap t with thState := .running }
      else
        s

------------------------------------------------------------
-- Scheduler Interface
------------------------------------------------------------

/- The scheduler right after a successful `so_init`. -/
def initialState (timeQuantum io : UInt32) : State where
  tp := .priorityTableCreate
  threads := []
  ioDev := io
  initialMaxQuantum := timeQuantum
  nrThreads := 0
  currentThread := none
  heap := fun _ => ⟨noDevice, 0, 0, .new⟩
  nextPtr := 0

/- Initialise the scheduler; `none` stands for `-1`. -/
def soInit
    (initOnce : Bool)
    (timeQuantum io : UInt32) : Option State :=
  if io > soMaxNumEvents ∨ timeQuantum = 0 ∨
      initOnce = true then
    none
  else
    some (initialState timeQuantum io)

/- Allocate and initialise the record of a new thread. -/
def allocThread
    (priority : UInt32)
    (s : State) : State :=
  { s.setThread s.nextPtr
      ⟨noDevice, priority, s.initialMaxQuantum, .new⟩ with
    nextPtr := s.nextPtr + 1
    nrThreads := s.nrThreads + 1 }

/-
  Start a thread.  The parent waits until the child is READY,
  and is itself checked against it; the result is the new
  thread, or `none` for `INVALID_TID`.
-/
def soFork
    (func : SoHandler)
    (priority : UInt32)
    (s : State) : Option ThreadPtr × State :=
  if priority.toNat > soMaxPrio then
    (none, s)
  else if func = 0 then
    (none, s)
  else
    let thread := s.nextPtr
    let started := thHandlerStart thread
      (allocThread priority s)
    let checked :=
      if (started.heap thread).thState = .ready then
        checkScheduler started
      else
        started
    (some thread, checked)

/-
  Block the current thread on a device.  `none` stands for
  the NULL dereference when no thread is current.
-/
def soWait
    (io : UInt32)
    (s : State) : Option (Int × State) :=
  if io > s.ioDev - 1 then
    some (-1, s)
  else
    match s.currentThread with
    | none => none
    | some t =>
        some (0, getThreadFromQueue
          (s.setThread t
            { s.heap t with
              ioDevice := io
              quantumLeft := s.initialMaxQuantum
              thState := .waiting }))

/- The thread waits on the given device. -/
def waitsOn (io : UInt32) (thread : Thread) : Prop :=
  thread.ioDevice = io ∧ thread.thState = .waiting

instance (io : UInt32) (thread : Thread) :
    Decidable (waitsOn io thread) := by
  unfold waitsOn
  infer_instance

/-
  The loop of `so_signal` over the list of all threads, with
  the number of threads woken so far.
-/
def wakeWaiting
    (io : UInt32) :
    List ThreadPtr → Int → State → Int × State
| [], unblockedThreads, s => (unblockedThreads, s)
| thread :: urm, unblockedThreads, s =>
    if waitsOn io (s.heap thread) then
      let woken := s.setThread thread
        { s.heap thread with ioDevice := noDevice }
      wakeWaiting io urm (unblockedThreads + 1)
        { woken with
          tp := woken.tp.priorityTableInsert thread
            (woken.prio thread) }
    else
      wakeWaiting io urm unblockedThreads s

/- Wake every thread that waits on a device. -/
def soSignal
    (io : UInt32)
    (s : State) : Option (Int × State) :=
  if io > s.ioDev - 1 then
    some (-1, s)
  else
    let result := wakeWaiting io s.threads 0 s
    match result.2.currentThread with
    | none => none
    | some t =>
        if (result.2.heap t).quantumLeft > 0 then
          some (result.1, comparePriorities false result.2)
        else
          some (result.1, comparePriorities true result.2)

/- Consume processor time. -/
def soExec (s : State) : State :=
  checkScheduler s

------------------------------------------------------------
-- The Scheduler as a Transition System
------------------------------------------------------------

/- What a thread can ask of the scheduler. -/
inductive Operation
| soFork (func : SoHandler) (priority : UInt32)
| soExec
| soWait (io : UInt32)
| soSignal (io : UInt32)
| handlerEnd
deriving DecidableEq, Repr

/-
  One operation of the current thread, or a `so_fork` of the
  main thread when no thread is current.
-/
def step
    (s : State)
    (operation : Operation) : Option State :=
  match operation, s.currentThread with
  | .soFork func priority, _ =>
      some (resume (soFork func priority s).2)
  | .soExec, some _ => some (resume (soExec s))
  | .soWait io, some _ =>
      (soWait io s).map (fun r => resume r.2)
  | .soSignal io, some _ =>
      (soSignal io s).map (fun r => resume r.2)
  | .handlerEnd, some t =>
      some (resume (thHandlerEnd t s))
  | _, none => none

/- The scheduler initialised with a quantum and devices. -/
def schedulerSystem
    (timeQuantum io : UInt32) :
    TransitionSystem State Operation :=
  .ofFunction
    (fun s => soInit false timeQuantum io = some s) step

/- The history of a scheduler run, the latest step first. -/
abbrev History :=
  List (TransitionSystem.Transition State Operation)

/- Executing operations after `so_init` exhibits a run. -/
theorem exists_run_of_operations
    {timeQuantum io : UInt32}
    (hInit :
      soInit false timeQuantum io =
        some (initialState timeQuantum io))
    (operations : List Operation)
    (P : History → State → Bool)
    (hExecute :
      (TransitionSystem.execute step []
        (initialState timeQuantum io) operations).any
          (fun r => P r.1 r.2) = true) :
    ∃ history s,
      (schedulerSystem timeQuantum io).Run history s ∧
        P history s = true :=
  TransitionSystem.exists_run_of_execute
    (fun s => soInit false timeQuantum io = some s) step
    hInit operations P hExecute

end Scheduler

end ProgrammingTasks
