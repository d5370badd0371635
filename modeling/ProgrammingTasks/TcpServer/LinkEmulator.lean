import Mathlib.Data.BitVec
import ProgrammingTasks.Foundations.TransitionSystem
import ProgrammingTasks.TcpServer.Queue

/-
  The link emulator (`link.c`): one thread that receives
  messages into the buffer, and one that puts them in flight
  and sends them when they are due.

  A step is a critical section of a thread or what lies
  between two of them, or time that passes between any two
  steps.  The clock never goes back, and `rand` may return any
  number.  A step that fails an assertion, exits, or reads
  through a null pointer ends the run in a state that has
  `failed`.

  Main declarations:
    * `State`, `Event`
    * `sendNext`, `forwarderStep`, `schedulerStep`, `passTime`
    * `linkSystem`
    * `enqueued`, `sent`, `Launch`, `flown`
-/

------------------------------------------------------------
-- States
------------------------------------------------------------

namespace ProgrammingTasks

namespace TcpServer

namespace LinkEmulator

/- `msg`. -/
structure Msg where
  len : Int
  payload : List (BitVec 8)
deriving DecidableEq, Repr

/- `msg_in_flight`; the finish time is converted when read. -/
structure MsgInFlight where
  m : Msg
  finishTime : Int
deriving DecidableEq, Repr

/- The settings of the link, which `main` sets at the start. -/
structure Settings where
  serializationDelay : Int
  delay : Int
  loss : Int
  corrupt : Int

/- `BUFFER_SIZE`. -/
def bufferSize : Int := 1000

/- Where `link_scheduler` is, with its local variables. -/
inductive SchedulerPc
| reading
| sending
| testing
| deciding (stuff : Bool)
| taking
| flying (m : Option Msg)
| waiting
| asserting
| blocked
deriving DecidableEq, Repr

/- Where `run_forwarding` is, with its local variables. -/
inductive ForwarderPc
| receiving
| checking (m : Msg)
| choosing (m : Msg) (overflow : Bool)
| adding (m : Msg)
deriving DecidableEq, Repr

/-
  The clock is what `now` would return; `crt_time` is what it
  did return at the start of the iteration.
-/
structure State where
  clock : Nat
  buffer : Queue Msg
  inFlight : Queue MsgInFlight
  idleTime : Int
  crtTime : Nat
  scheduler : SchedulerPc
  forwarder : ForwarderPc
  failed : Bool

/- The state in which both threads start. -/
def start : State where
  clock := 0
  buffer := Queue.createQueue
  inFlight := Queue.createQueue
  idleTime := 0
  crtTime := 0
  scheduler := .reading
  forwarder := .receiving
  failed := false

def fail (s : State) : State :=
  { s with failed := true }

------------------------------------------------------------
-- The Scheduler
------------------------------------------------------------

/-
  `crt_time < last->finish_time`.  The comparison is unsigned,
  so that a negative finish time is above every clock.
-/
def isEarly (crtTime : Nat) (finishTime : Int) : Bool :=
  finishTime < 0 || crtTime < finishTime

/-
  The loop that sends, up to its next test: the state, and the
  message that is passed to `send_message2`, if any.
-/
def sendNext (s : State) : State × Option Msg :=
  if s.inFlight.size > 0 then
    match s.inFlight.lastEntry with
    | none => (fail s, none)
    | some last =>
        if isEarly s.crtTime last.finishTime then
          ({ s with scheduler := .testing }, none)
        else
          match s.inFlight.dequeue with
          | some (some mif, inFlight) =>
              ({ s with inFlight := inFlight }, some mif.m)
          | _ => (fail s, none)
  else
    ({ s with scheduler := .testing }, none)

/- `stuff = buffer->size > 0`. -/
def testStuff (s : State) : State :=
  { s with scheduler := .deciding (s.buffer.size > 0) }

/- The test whether to put a message in flight. -/
def decideStuff
    (settings : Settings) (stuff : Bool) (s : State) : State :=
  if stuff && s.crtTime ≥ s.idleTime then
    { s with
      idleTime := s.crtTime + settings.serializationDelay
      scheduler := .taking }
  else
    { s with scheduler := .waiting }

/- `dequeue(buffer)`. -/
def takeStuff (s : State) : State :=
  match s.buffer.dequeue with
  | none => fail s
  | some (m, buffer) =>
      { s with buffer := buffer, scheduler := .flying m }

/- Put a message in flight, which must not be null. -/
def putInFlight
    (settings : Settings) (m : Option Msg) (s : State) :
    State :=
  match m with
  | none => fail s
  | some m =>
      match
        s.inFlight.enqueue
          ⟨m, s.crtTime + settings.serializationDelay +
            settings.delay⟩ with
      | none => fail s
      | some inFlight =>
          { s with inFlight := inFlight, scheduler := .waiting }

/- `wait_time_send`. -/
def waitTimeSend (s : State) : Option Int :=
  if s.inFlight.size > 0 then
    s.inFlight.lastEntry.map
      (fun last => last.finishTime - s.crtTime)
  else
    some 0

/- Sleep, or go to wait for a message. -/
def decideWait (s : State) : State :=
  match waitTimeSend s with
  | none => fail s
  | some waitTimeSend =>
      if s.idleTime - s.crtTime > 0 ∨ waitTimeSend > 0 then
        { s with scheduler := .reading }
      else
        { s with scheduler := .asserting }

/- `assert(!buffer->size)`, and wait on the condition. -/
def assertEmpty (s : State) : State :=
  if s.buffer.size ≠ 0 then
    fail s
  else
    { s with scheduler := .blocked }

------------------------------------------------------------
-- The Forwarder
------------------------------------------------------------

/- `overflow = buffer->size >= BUFFER_SIZE`. -/
def checkSpace (m : Msg) (s : State) : State :=
  { s with forwarder := .choosing m (s.buffer.size ≥ bufferSize) }

/-
  Flip a bit of the payload: nothing if the remainder by the
  length is not defined.
-/
def flipBit (m : Msg) (r r' : Nat) : Option Msg :=
  if m.len = 0 then
    none
  else
    some
      { m with
        payload :=
          m.payload.modify (Int.tmod r m.len).toNat
            (fun byte => byte ^^^ (1 <<< (r' % 8))) }

/- Drop the message, or corrupt it, or leave it. -/
def chooseFate
    (settings : Settings) (m : Msg) (overflow : Bool)
    (drop corrupt index bit : Nat) (s : State) : State :=
  if overflow || ((drop % 100 : Nat) : Int) < settings.loss then
    { s with forwarder := .receiving }
  else if ((corrupt % 100 : Nat) : Int) < settings.corrupt then
    match flipBit m index bit with
    | none => fail s
    | some m => { s with forwarder := .adding m }
  else
    { s with forwarder := .adding m }

/- `enqueue(buffer, m)`. -/
def addMessage (m : Msg) (s : State) : State :=
  match s.buffer.enqueue m with
  | none => fail s
  | some buffer =>
      { s with buffer := buffer, forwarder := .receiving }

------------------------------------------------------------
-- The System
------------------------------------------------------------

/- The steps of both threads, and the passing of time. -/
inductive Event
| tick (clock : Nat)
| read
| send
| test
| decide
| take
| put
| wait
| assertEmpty
| wake
| receive (m : Msg)
| check
| choose (drop corrupt index bit : Nat)
| add
deriving DecidableEq, Repr

/- Between two steps any time may pass. -/
def passTime (clock : Nat) (s : State) : Option State :=
  if s.clock ≤ clock then
    some { s with clock := clock }
  else
    none

/- `crt_time = now()`. -/
def readClock (s : State) : State :=
  { s with crtTime := s.clock, scheduler := .sending }

def schedulerStep
    (settings : Settings) (s : State) :
    SchedulerPc → Event → Option State
| .reading, .read => some (readClock s)
| .sending, .send => some (sendNext s).1
| .testing, .test => some (testStuff s)
| .deciding stuff, .decide => some (decideStuff settings stuff s)
| .taking, .take => some (takeStuff s)
| .flying m, .put => some (putInFlight settings m s)
| .waiting, .wait => some (decideWait s)
| .asserting, .assertEmpty => some (assertEmpty s)
| .blocked, .wake => some { s with scheduler := .reading }
| _, _ => none

def forwarderStep
    (settings : Settings) (s : State) :
    ForwarderPc → Event → Option State
| .receiving, .receive m =>
    some { s with forwarder := .checking m }
| .checking m, .check => some (checkSpace m s)
| .choosing m overflow, .choose drop corrupt index bit =>
    some (chooseFate settings m overflow drop corrupt index bit s)
| .adding m, .add => some (addMessage m s)
| _, _ => none

/- The thread that takes a step. -/
def Event.ofForwarder : Event → Bool
| .receive _ | .check | .choose .. | .add => true
| _ => false

/- A step of the thread that the event belongs to, or time. -/
def step (settings : Settings) (s : State) (e : Event) :
    Option State :=
  if s.failed then
    none
  else
    match e with
    | .tick clock => passTime clock s
    | e =>
        if e.ofForwarder then
          forwarderStep settings s s.forwarder e
        else
          schedulerStep settings s s.scheduler e

def linkSystem (settings : Settings) :
    TransitionSystem State Event :=
  TransitionSystem.ofFunction (fun s => s = start)
    (step settings)

------------------------------------------------------------
-- Histories
------------------------------------------------------------

abbrev Trace := List (TransitionSystem.Transition State Event)

/- What the transitions of a run yield, oldest first. -/
def history
    {A : Type}
    (yields : TransitionSystem.Transition State Event → List A)
    (trace : Trace) : List A :=
  trace.reverse.flatMap yields

theorem history_cons
    {A : Type}
    (yields : TransitionSystem.Transition State Event → List A)
    (t : TransitionSystem.Transition State Event)
    (trace : Trace) :
    history yields (t :: trace) =
      history yields trace ++ yields t := by
  simp [history]

/- The messages that `run_forwarding` has enqueued. -/
def enqueued (trace : Trace) : List Msg :=
  history
    (fun t =>
      match t.event, t.source.forwarder with
      | .add, .adding m => [m]
      | _, _ => [])
    trace

/- The messages passed to `send_message2`, with the clock. -/
def sent (trace : Trace) : List (Nat × Msg) :=
  history
    (fun t =>
      match t.event with
      | .send =>
          (sendNext t.source).2.toList.map
            (fun m => (t.source.clock, m))
      | _ => [])
    trace

/- A message put in flight, with `crt_time` and the clock. -/
structure Launch where
  crtTime : Nat
  clock : Nat
  m : Msg
deriving DecidableEq, Repr

/- The messages that are put in flight. -/
def flown (trace : Trace) : List Launch :=
  history
    (fun t =>
      match t.event, t.source.scheduler with
      | .put, .flying (some m) =>
          [⟨t.source.crtTime, t.source.clock, m⟩]
      | _, _ => [])
    trace

end LinkEmulator

end TcpServer

end ProgrammingTasks
