import ProgrammingTasks.TcpServer.LinkEmulator
import Mathlib.Data.List.Forall2

/-
  The link emulator is a bounded first-in first-out link.

  The messages that have been enqueued are, in this order,
  those that were sent, those in flight, the one that the
  scheduler carries, and those in the buffer.

  A message is late enough on the wire if its delays count
  from `crt_time`, the one reading of the clock in its
  iteration; by the clock itself it may be put in flight later
  than that, and is then sent too early.

  Main declarations:
    * `LinkLaw`
    * `Steps`, `steps_of_step`
    * `Flow`, `Flow.next`
    * `linkLaw_of_run`
    * `not_linkLaw_clock`
-/

------------------------------------------------------------
-- The Law
------------------------------------------------------------

namespace ProgrammingTasks

namespace TcpServer

namespace LinkEmulator

open TransitionSystem

/- It is sent after its launch, and after both delays. -/
structure Late
    (settings : Settings) (time : Launch → Nat)
    (x : Nat × Msg) (y : Launch) : Prop where
  same : x.2 = y.m
  after : y.clock ≤ x.1
  delays :
    time y + settings.serializationDelay + settings.delay ≤ x.1

/- Two messages are put in flight one after the other. -/
def Apart
    (settings : Settings) (time : Launch → Nat)
    (x y : Launch) : Prop :=
  time x + settings.serializationDelay ≤ time y

/- The messages are sent as they were put in flight, and late. -/
def Delayed
    (settings : Settings) (time : Launch → Nat)
    (trace : Trace) : Prop :=
  ∃ front rest,
    flown trace = front ++ rest ∧
      List.Forall₂ (Late settings time) (sent trace) front

/- No two messages are put in flight too close together. -/
def Spaced
    (settings : Settings) (time : Launch → Nat)
    (trace : Trace) : Prop :=
  (flown trace).Pairwise (Apart settings time)

/-
  A bounded link that keeps the order and the delays; `time`
  says when a message counts as put in flight.
-/
structure LinkLaw
    (settings : Settings) (time : Launch → Nat)
    (trace : Trace) (s : State) :
    Prop where
  bounded : s.buffer.size ≤ bufferSize
  entries :
    ∃ nodes,
      Linked s.buffer.prev s.buffer.last nodes ∧
        s.buffer.size = nodes.length
  inOrder : (sent trace).map Prod.snd <+: enqueued trace
  neverNull :
    ∀ t ∈ trace, t.event = .take →
      ∃ m buffer, t.source.buffer.dequeue = some (some m, buffer)
  counted : ∀ x ∈ flown trace, time x ≤ x.clock
  delayed : Delayed settings time trace
  apart : Spaced settings time trace

------------------------------------------------------------
-- What a Step Can Do
------------------------------------------------------------

/- The steps, with the places from which they are taken. -/
inductive Steps (settings : Settings) (s : State) :
    Event → State → Prop
| tick {clock : Nat} :
    s.clock ≤ clock →
      Steps settings s (.tick clock) { s with clock := clock }
| read :
    s.scheduler = .reading →
      Steps settings s .read (readClock s)
| send :
    s.scheduler = .sending →
      Steps settings s .send (sendNext s).1
| test :
    s.scheduler = .testing → Steps settings s .test (testStuff s)
| decide {stuff : Bool} :
    s.scheduler = .deciding stuff →
      Steps settings s .decide (decideStuff settings stuff s)
| take :
    s.scheduler = .taking → Steps settings s .take (takeStuff s)
| put {m : Option Msg} :
    s.scheduler = .flying m →
      Steps settings s .put (putInFlight settings m s)
| wait :
    s.scheduler = .waiting → Steps settings s .wait (decideWait s)
| assertEmpty :
    s.scheduler = .asserting →
      Steps settings s .assertEmpty (assertEmpty s)
| wake :
    s.scheduler = .blocked →
      Steps settings s .wake { s with scheduler := .reading }
| receive {m : Msg} :
    s.forwarder = .receiving →
      Steps settings s (.receive m)
        { s with forwarder := .checking m }
| check {m : Msg} :
    s.forwarder = .checking m →
      Steps settings s .check (checkSpace m s)
| choose
    {m : Msg} {overflow : Bool} {drop corrupt index bit : Nat} :
    s.forwarder = .choosing m overflow →
      Steps settings s (.choose drop corrupt index bit)
        (chooseFate settings m overflow drop corrupt index bit s)
| add {m : Msg} :
    s.forwarder = .adding m →
      Steps settings s .add (addMessage m s)

theorem steps_of_forwarderStep
    {settings : Settings} {s s' : State} {e : Event}
    (hStep : forwarderStep settings s s.forwarder e = some s') :
    Steps settings s e s' := by
  unfold forwarderStep at hStep
  split at hStep
  · rename_i hPc
    cases hStep
    exact .receive hPc
  · rename_i hPc
    cases hStep
    exact .check hPc
  · rename_i hPc
    cases hStep
    exact .choose hPc
  · rename_i hPc
    cases hStep
    exact .add hPc
  · cases hStep

theorem steps_of_schedulerStep
    {settings : Settings} {s s' : State} {e : Event}
    (hStep : schedulerStep settings s s.scheduler e = some s') :
    Steps settings s e s' := by
  unfold schedulerStep at hStep
  split at hStep
  · rename_i hPc
    cases hStep
    exact .read hPc
  · rename_i hPc
    cases hStep
    exact .send hPc
  · rename_i hPc
    cases hStep
    exact .test hPc
  · rename_i hPc
    cases hStep
    exact .decide hPc
  · rename_i hPc
    cases hStep
    exact .take hPc
  · rename_i hPc
    cases hStep
    exact .put hPc
  · rename_i hPc
    cases hStep
    exact .wait hPc
  · rename_i hPc
    cases hStep
    exact .assertEmpty hPc
  · rename_i hPc
    cases hStep
    exact .wake hPc
  · cases hStep

theorem steps_of_step
    {settings : Settings} {s s' : State} {e : Event}
    (hStep : step settings s e = some s') :
    Steps settings s e s' := by
  unfold step at hStep
  split at hStep
  · cases hStep
  · split at hStep
    · unfold passTime at hStep
      split at hStep
      · rename_i hClock
        cases hStep
        exact .tick hClock
      · cases hStep
    · split at hStep
      · exact steps_of_forwarderStep hStep
      · exact steps_of_schedulerStep hStep

------------------------------------------------------------
-- The Invariant
------------------------------------------------------------

/- The message between the buffer and the messages in flight. -/
def carried : SchedulerPc → List Msg
| .flying (some m) => [m]
| _ => []

/- The scheduler puts a message in flight in this iteration. -/
def isLaunching : SchedulerPc → Prop
| .taking | .flying _ => True
| _ => False

/- What is in the queues. -/
structure Queues
    (s : State) (inBuffer : List Msg)
    (onWire : List MsgInFlight) : Prop where
  buffer : s.buffer.Represents inBuffer
  inFlight : s.inFlight.Represents onWire

/- The room in the buffer, and what was seen of it. -/
structure Bounded (s : State) (inBuffer : List Msg) : Prop where
  size : (inBuffer.length : Int) ≤ bufferSize
  space :
    ∀ m,
      s.forwarder = .choosing m false ∨ s.forwarder = .adding m →
        (inBuffer.length : Int) < bufferSize
  stuff :
    s.scheduler = .deciding true ∨ s.scheduler = .taking →
      inBuffer ≠ []
  message : s.scheduler ≠ .flying none

/- The times of the messages in flight and sent. -/
structure Timed
    (settings : Settings) (s : State)
    (flown : List Launch) (sent : List (Nat × Msg))
    (onWire : List MsgInFlight) : Prop where
  delayed :
    ∃ front rest,
      flown = front ++ rest ∧
        List.Forall₂ (Late settings Launch.crtTime) sent front ∧
        onWire =
          rest.map
            (fun x =>
              ⟨x.m, x.crtTime + settings.serializationDelay +
                settings.delay⟩)
  apart : flown.Pairwise (Apart settings Launch.crtTime)
  now : s.crtTime ≤ s.clock
  counted : ∀ x ∈ flown, x.crtTime ≤ x.clock
  past : ∀ x ∈ flown, x.crtTime ≤ s.crtTime ∧ x.clock ≤ s.clock
  idle :
    ∀ x ∈ flown,
      x.crtTime + settings.serializationDelay ≤ s.idleTime
  launching :
    isLaunching s.scheduler →
      s.idleTime = s.crtTime + settings.serializationDelay ∧
        ∀ x ∈ flown,
          x.crtTime + settings.serializationDelay ≤ s.crtTime

/- All that is kept along a run. -/
structure Flow
    (settings : Settings) (trace : Trace) (s : State)
    (inBuffer : List Msg) (onWire : List MsgInFlight) :
    Prop where
  queues : Queues s inBuffer onWire
  bounded : Bounded s inBuffer
  order :
    enqueued trace =
      (sent trace).map Prod.snd ++ onWire.map MsgInFlight.m ++
        carried s.scheduler ++ inBuffer
  timed : Timed settings s (flown trace) (sent trace) onWire
  neverNull :
    ∀ t ∈ trace, t.event = .take →
      ∃ m buffer, t.source.buffer.dequeue = some (some m, buffer)

section Flow

variable {settings : Settings} {trace : Trace}
variable {s s' : State} {e : Event}
variable {inBuffer : List Msg} {onWire : List MsgInFlight}

/- The events that yield a message. -/
def Event.isSilent : Event → Bool
| .add | .send | .put => false
| _ => true

theorem enqueued_of_ne
    (hAdd : e ≠ .add) :
    enqueued (⟨s, e, s'⟩ :: trace) = enqueued trace := by
  rw [enqueued, history_cons]
  cases e with
  | add => exact absurd rfl hAdd
  | _ => simp [enqueued]

theorem sent_of_ne
    (hSend : e ≠ .send) :
    sent (⟨s, e, s'⟩ :: trace) = sent trace := by
  rw [sent, history_cons]
  cases e with
  | send => exact absurd rfl hSend
  | _ => simp [sent]

theorem flown_of_ne
    (hPut : e ≠ .put) :
    flown (⟨s, e, s'⟩ :: trace) = flown trace := by
  rw [flown, history_cons]
  cases e with
  | put => exact absurd rfl hPut
  | _ => simp [flown]

theorem Event.ne_of_isSilent
    (hSilent : e.isSilent = true) :
    e ≠ .add ∧ e ≠ .send ∧ e ≠ .put := by
  cases e with
  | add => cases hSilent
  | send => cases hSilent
  | put => cases hSilent
  | _ => simp

/- Another event than a take reads no null message. -/
theorem Flow.neverNull_cons
    (hFlow : Flow settings trace s inBuffer onWire)
    (hTake : e ≠ .take) :
    ∀ t ∈ (⟨s, e, s'⟩ : TransitionSystem.Transition State Event) ::
        trace,
      t.event = .take →
        ∃ m buffer,
          t.source.buffer.dequeue = some (some m, buffer) := by
  intro t hMem hEvent
  rcases List.mem_cons.mp hMem with rfl | hOld
  · exact absurd hEvent hTake
  · exact hFlow.neverNull t hOld hEvent

/- A step that moves no message. -/
theorem Flow.quiet
    (hFlow : Flow settings trace s inBuffer onWire)
    (hSilent : e.isSilent = true)
    (hTake : e ≠ .take)
    (hBuffer : s'.buffer = s.buffer)
    (hInFlight : s'.inFlight = s.inFlight)
    (hCarried : carried s'.scheduler = carried s.scheduler)
    (hBounded : Bounded s' inBuffer)
    (hTimed :
      Timed settings s' (flown trace) (sent trace) onWire) :
    Flow settings (⟨s, e, s'⟩ :: trace) s' inBuffer onWire := by
  rcases Event.ne_of_isSilent hSilent with ⟨hAdd, hSend, hPut⟩
  refine ⟨?_, hBounded, ?_, ?_, hFlow.neverNull_cons hTake⟩
  · constructor
    · rw [hBuffer]
      exact hFlow.queues.buffer
    · rw [hInFlight]
      exact hFlow.queues.inFlight
  · rw [enqueued_of_ne hAdd, sent_of_ne hSend, hCarried]
    exact hFlow.order
  · rw [flown_of_ne hPut, sent_of_ne hSend]
    exact hTimed

/- Only the times and the scheduler's place matter. -/
theorem Timed.congr
    {flown : List Launch} {sent : List (Nat × Msg)}
    (hTimed : Timed settings s flown sent onWire)
    (hClock : s.clock ≤ s'.clock)
    (hCrt : s'.crtTime = s.crtTime)
    (hIdle : s'.idleTime = s.idleTime)
    (hLaunching :
      isLaunching s'.scheduler → isLaunching s.scheduler) :
    Timed settings s' flown sent onWire := by
  refine ⟨hTimed.delayed, hTimed.apart, ?_, hTimed.counted, ?_,
    ?_, ?_⟩
  · rw [hCrt]
    exact Nat.le_trans hTimed.now hClock
  · rw [hCrt]
    intro x hMem
    have hPast := hTimed.past x hMem
    exact ⟨hPast.1, Nat.le_trans hPast.2 hClock⟩
  · rw [hIdle]
    exact hTimed.idle
  · rw [hCrt, hIdle]
    exact fun hPc => hTimed.launching (hLaunching hPc)

/- A failing step changes nothing else. -/
theorem Flow.fail
    (hFlow : Flow settings trace s inBuffer onWire)
    (hSilent : e.isSilent = true)
    (hTake : e ≠ .take) :
    Flow settings (⟨s, e, LinkEmulator.fail s⟩ :: trace)
      (LinkEmulator.fail s) inBuffer onWire :=
  hFlow.quiet hSilent hTake rfl rfl rfl
    ⟨hFlow.bounded.size, hFlow.bounded.space,
      hFlow.bounded.stuff, hFlow.bounded.message⟩
    (hFlow.timed.congr (Nat.le_refl _) rfl rfl (fun hPc => hPc))

/- The scheduler goes on without a message. -/
theorem Flow.goOn
    (hFlow : Flow settings trace s inBuffer onWire)
    (hSilent : e.isSilent = true)
    (hTake : e ≠ .take)
    (hCarried : carried s.scheduler = [])
    {pc : SchedulerPc}
    (hPc : carried pc = [])
    (hLaunching : ¬ isLaunching pc)
    (hStuff : pc = .deciding true → inBuffer ≠ []) :
    Flow settings (⟨s, e, { s with scheduler := pc }⟩ :: trace)
      { s with scheduler := pc } inBuffer onWire := by
  refine hFlow.quiet hSilent hTake rfl rfl ?_ ?_ ?_
  · rw [hCarried]
    exact hPc
  · refine ⟨hFlow.bounded.size, hFlow.bounded.space, ?_, ?_⟩
    · rintro (hDeciding | rfl)
      · exact hStuff hDeciding
      · exact absurd trivial hLaunching
    · rintro rfl
      exact hLaunching trivial
  · exact hFlow.timed.congr (Nat.le_refl _) rfl rfl
      (fun hNow => absurd hNow hLaunching)

/- The forwarder goes on without a message. -/
theorem Flow.forward
    (hFlow : Flow settings trace s inBuffer onWire)
    (hSilent : e.isSilent = true)
    (hTake : e ≠ .take)
    {pc : ForwarderPc}
    (hSpace :
      ∀ m, pc = .choosing m false ∨ pc = .adding m →
        (inBuffer.length : Int) < bufferSize) :
    Flow settings (⟨s, e, { s with forwarder := pc }⟩ :: trace)
      { s with forwarder := pc } inBuffer onWire :=
  hFlow.quiet hSilent hTake rfl rfl rfl
    ⟨hFlow.bounded.size, hSpace, hFlow.bounded.stuff,
      hFlow.bounded.message⟩
    (hFlow.timed.congr (Nat.le_refl _) rfl rfl (fun hPc => hPc))

/- Time passes. -/
theorem Flow.tick
    (hFlow : Flow settings trace s inBuffer onWire)
    {clock : Nat}
    (hClock : s.clock ≤ clock) :
    Flow settings
      (⟨s, .tick clock, { s with clock := clock }⟩ :: trace)
      { s with clock := clock } inBuffer onWire :=
  hFlow.quiet rfl (by simp) rfl rfl rfl
    ⟨hFlow.bounded.size, hFlow.bounded.space,
      hFlow.bounded.stuff, hFlow.bounded.message⟩
    (hFlow.timed.congr hClock rfl rfl (fun hPc => hPc))

/- Reading the clock. -/
theorem Flow.read
    (hFlow : Flow settings trace s inBuffer onWire)
    (hPc : s.scheduler = .reading) :
    Flow settings (⟨s, .read, readClock s⟩ :: trace)
      (readClock s) inBuffer onWire := by
  refine hFlow.quiet rfl (by simp) rfl rfl ?_ ?_ ?_
  · rw [hPc]
    rfl
  · refine ⟨hFlow.bounded.size, hFlow.bounded.space, ?_, ?_⟩
    · rintro (hDeciding | hTaking)
      · cases hDeciding
      · cases hTaking
    · intro hFlying
      cases hFlying
  · refine ⟨hFlow.timed.delayed, hFlow.timed.apart,
      Nat.le_refl _, hFlow.timed.counted, ?_, hFlow.timed.idle,
      fun hNow => absurd hNow (fun h => h)⟩
    intro x hMem
    have hPast := hFlow.timed.past x hMem
    exact ⟨Nat.le_trans hPast.1 hFlow.timed.now, hPast.2⟩

/- What the loop that sends does with what is in flight. -/
theorem sendNext_cases
    (hQueues : Queues s inBuffer onWire) :
    (sendNext s = ({ s with scheduler := .testing }, none) ∧
        ∀ mif, onWire.head? = some mif →
          isEarly s.crtTime mif.finishTime = true) ∨
      ∃ mif rest inFlight,
        onWire = mif :: rest ∧
          isEarly s.crtTime mif.finishTime = false ∧
          inFlight.Represents rest ∧
          sendNext s =
            ({ s with inFlight := inFlight }, some mif.m) := by
  have hSize := hQueues.inFlight.size_eq
  have hLast := hQueues.inFlight.lastEntry_eq
  cases onWire with
  | nil =>
      refine Or.inl ⟨?_, ?_⟩
      · rw [sendNext, if_neg (by simp [hSize])]
      · intro mif hHead
        cases hHead
  | cons mif rest =>
      rw [List.length_cons] at hSize
      have hPositive : s.inFlight.size > 0 := by omega
      have hEntry : s.inFlight.lastEntry = some mif := hLast
      cases hEarly : isEarly s.crtTime mif.finishTime with
      | true =>
          refine Or.inl ⟨?_, ?_⟩
          · simp [sendNext, hPositive, hEntry, hEarly]
          · intro mif' hHead
            cases hHead
            exact hEarly
      | false =>
          rcases Queue.dequeue_represents hQueues.inFlight with
            ⟨inFlight, hDequeue, hRest⟩
          refine Or.inr ⟨mif, rest, inFlight, rfl, hEarly, hRest, ?_⟩
          simp [sendNext, hPositive, hEntry, hEarly, hDequeue]

/- Sending the messages that are due. -/
theorem Flow.send
    (hFlow : Flow settings trace s inBuffer onWire)
    (hPc : s.scheduler = .sending) :
    ∃ onWire',
      Flow settings (⟨s, .send, (sendNext s).1⟩ :: trace)
        (sendNext s).1 inBuffer onWire' := by
  have hSent :
      sent (⟨s, .send, (sendNext s).1⟩ :: trace) =
        sent trace ++
          (sendNext s).2.toList.map (fun m => (s.clock, m)) := by
    rw [sent, history_cons]
    rfl
  have hAdd : Event.send ≠ .add := by simp
  have hPut : Event.send ≠ .put := by simp
  have hTake : Event.send ≠ .take := by simp
  have hBounded := hFlow.bounded
  have hTimed := hFlow.timed
  have hOrder := hFlow.order
  rw [hPc] at hOrder
  rcases sendNext_cases hFlow.queues with
    ⟨hSame, _⟩ | ⟨mif, rest, inFlight, rfl, hDue, hRest, hNext⟩
  · rw [hSame] at hSent ⊢
    have hSent' :
        sent (⟨s, .send, { s with scheduler := .testing }⟩ ::
          trace) = sent trace :=
      hSent.trans (List.append_nil _)
    refine ⟨onWire, ⟨hFlow.queues.buffer, hFlow.queues.inFlight⟩,
      ?_, ?_, ?_, hFlow.neverNull_cons hTake⟩
    · refine ⟨hBounded.size, hBounded.space, ?_, ?_⟩
      · rintro (hDeciding | hTaking)
        · cases hDeciding
        · cases hTaking
      · intro hFlying
        cases hFlying
    · rw [enqueued_of_ne hAdd, hSent', hOrder]
      rfl
    · rw [flown_of_ne hPut, hSent']
      exact hTimed.congr (Nat.le_refl _) rfl rfl
        (fun hPc' => absurd hPc' (fun h => h))
  · rw [hNext] at hSent ⊢
    refine ⟨rest, ⟨hFlow.queues.buffer, hRest⟩,
      ⟨hBounded.size, hBounded.space, hBounded.stuff,
        hBounded.message⟩, ?_, ?_, hFlow.neverNull_cons hTake⟩
    · rw [enqueued_of_ne hAdd, hSent, hOrder]
      simp [carried, hPc]
    · rw [flown_of_ne hPut, hSent]
      rcases hTimed.delayed with
        ⟨front, waiting, hSplit, hDelayed, hWire⟩
      cases waiting with
      | nil => cases hWire
      | cons y waiting =>
          rcases List.cons.inj hWire with ⟨hMif, hWire'⟩
          refine ⟨⟨front ++ [y], waiting, ?_, ?_, hWire'⟩,
            hTimed.apart, hTimed.now, hTimed.counted,
            hTimed.past, hTimed.idle, hTimed.launching⟩
          · rw [hSplit]
            simp
          · apply List.rel_append hDelayed
            refine List.Forall₂.cons ?_ .nil
            have hNow := hTimed.now
            have hPast :=
              (hTimed.past y (by rw [hSplit]; simp)).2
            rw [hMif] at hDue ⊢
            simp only [isEarly, Bool.or_eq_false_iff,
              decide_eq_false_iff_not] at hDue
            refine ⟨rfl, hPast, ?_⟩
            simp only
            omega

/- Deciding to put a message in flight. -/
theorem Flow.decide
    (hFlow : Flow settings trace s inBuffer onWire)
    {stuff : Bool}
    (hPc : s.scheduler = .deciding stuff) :
    Flow settings
      (⟨s, .decide, decideStuff settings stuff s⟩ :: trace)
      (decideStuff settings stuff s) inBuffer onWire := by
  unfold decideStuff
  split
  · rename_i hGo
    rw [Bool.and_eq_true, decide_eq_true_eq] at hGo
    have hIdle : s.idleTime ≤ s.crtTime := hGo.2
    refine hFlow.quiet rfl (by simp) rfl rfl ?_ ?_ ?_
    · rw [hPc]
      rfl
    · refine ⟨hFlow.bounded.size, hFlow.bounded.space, ?_, ?_⟩
      · intro _
        apply hFlow.bounded.stuff
        rw [hPc, hGo.1]
        exact Or.inl rfl
      · intro hFlying
        cases hFlying
    · refine ⟨hFlow.timed.delayed, hFlow.timed.apart,
        hFlow.timed.now, hFlow.timed.counted,
        hFlow.timed.past, ?_, fun _ => ⟨rfl, ?_⟩⟩
      · intro x hMem
        have hPast := (hFlow.timed.past x hMem).1
        simp only
        omega
      · intro x hMem
        have hBefore := hFlow.timed.idle x hMem
        simp only
        omega
  · apply hFlow.goOn rfl (by simp)
    · rw [hPc]
      rfl
    · rfl
    · exact fun h => h
    · intro hDeciding
      cases hDeciding

/- What is taken is the oldest message of the buffer. -/
theorem Flow.takeStuff_eq
    (hFlow : Flow settings trace s inBuffer onWire)
    (hPc : s.scheduler = .taking) :
    ∃ m rest buffer,
      inBuffer = m :: rest ∧
        s.buffer.dequeue = some (some m, buffer) ∧
        Queue.Represents buffer rest ∧
        takeStuff s =
          { s with
            buffer := buffer
            scheduler := .flying (some m) } := by
  have hNonempty := hFlow.bounded.stuff (Or.inr hPc)
  cases inBuffer with
  | nil => exact absurd rfl hNonempty
  | cons m rest =>
      rcases Queue.dequeue_represents hFlow.queues.buffer with
        ⟨buffer, hDequeue, hBuffer⟩
      refine ⟨m, rest, buffer, rfl, hDequeue, hBuffer, ?_⟩
      simp only [takeStuff, hDequeue]

/- Taking a message from the buffer. -/
theorem Flow.take
    (hFlow : Flow settings trace s inBuffer onWire)
    (hPc : s.scheduler = .taking) :
    ∃ inBuffer',
      Flow settings (⟨s, .take, takeStuff s⟩ :: trace)
        (takeStuff s) inBuffer' onWire := by
  rcases hFlow.takeStuff_eq hPc with
    ⟨m, inBuffer, buffer, rfl, hDequeue, hBuffer, hTake⟩
  have hSize := hFlow.bounded.size
  rw [List.length_cons] at hSize
  refine ⟨inBuffer, ?_⟩
  rw [hTake]
  refine ⟨⟨hBuffer, hFlow.queues.inFlight⟩, ?_, ?_, ?_, ?_⟩
  · refine ⟨?_, ?_, ?_, ?_⟩
    · omega
    · intro m' hAdding
      have hSpace := hFlow.bounded.space m' hAdding
      rw [List.length_cons] at hSpace
      omega
    · rintro (hDeciding | hTaking)
      · cases hDeciding
      · cases hTaking
    · intro hFlying
      cases hFlying
  · have hOrder := hFlow.order
    rw [hPc] at hOrder
    rw [enqueued_of_ne (by simp), sent_of_ne (by simp), hOrder]
    simp [carried]
  · rw [flown_of_ne (by simp), sent_of_ne (by simp)]
    exact hFlow.timed.congr (Nat.le_refl _) rfl rfl (fun _ => by
      rw [hPc]
      trivial)
  · intro t hMem hEvent
    rcases List.mem_cons.mp hMem with rfl | hOld
    · exact ⟨m, buffer, hDequeue⟩
    · exact hFlow.neverNull t hOld hEvent

/- What is put on the wire, behind what is there. -/
theorem Flow.putInFlight_eq
    (hFlow : Flow settings trace s inBuffer onWire)
    {m : Option Msg}
    (hPc : s.scheduler = .flying m) :
    ∃ sent mif inFlight,
      m = some sent ∧
        mif =
          (⟨sent, s.crtTime + settings.serializationDelay +
            settings.delay⟩ : MsgInFlight) ∧
        Queue.Represents inFlight (onWire ++ [mif]) ∧
        putInFlight settings m s =
          { s with
            inFlight := inFlight
            scheduler := .waiting } := by
  cases m with
  | none => exact absurd hPc hFlow.bounded.message
  | some sent =>
      rcases Queue.enqueue_represents hFlow.queues.inFlight
          ⟨sent, s.crtTime + settings.serializationDelay +
            settings.delay⟩ with
        ⟨inFlight, hEnqueue, hInFlight⟩
      refine ⟨sent, _, inFlight, rfl, rfl, hInFlight, ?_⟩
      simp only [putInFlight, hEnqueue]

/- Putting a message in flight. -/
theorem Flow.put
    (hFlow : Flow settings trace s inBuffer onWire)
    {m : Option Msg}
    (hPc : s.scheduler = .flying m) :
    ∃ onWire',
      Flow settings (⟨s, .put, putInFlight settings m s⟩ :: trace)
        (putInFlight settings m s) inBuffer onWire' := by
  rcases hFlow.putInFlight_eq hPc with
    ⟨m, mif, inFlight, rfl, hMif, hInFlight, hPut⟩
  have hFlown :
      flown
          (⟨s, .put, putInFlight settings (some m) s⟩ ::
            trace) =
        flown trace ++ [⟨s.crtTime, s.clock, m⟩] := by
    rw [flown, history_cons]
    simp [hPc, flown]
  have hTimed := hFlow.timed
  have hOrder := hFlow.order
  rw [hPc] at hOrder
  have hLaunching := hTimed.launching (by rw [hPc]; trivial)
  refine ⟨onWire ++ [mif], ?_⟩
  rw [hPut] at hFlown ⊢
  refine ⟨⟨hFlow.queues.buffer, hInFlight⟩, ?_, ?_, ?_,
    hFlow.neverNull_cons (by simp)⟩
  · refine ⟨hFlow.bounded.size, hFlow.bounded.space, ?_, ?_⟩
    · rintro (hDeciding | hTaking)
      · cases hDeciding
      · cases hTaking
    · intro hFlying
      cases hFlying
  · rw [enqueued_of_ne (by simp), sent_of_ne (by simp), hOrder,
      hMif]
    simp [carried]
  · rw [hFlown, sent_of_ne (by simp)]
    rcases hTimed.delayed with
      ⟨front, rest, hSplit, hDelayed, hWire⟩
    refine ⟨⟨front, rest ++ [⟨s.crtTime, s.clock, m⟩], ?_,
        hDelayed, ?_⟩,
      ?_, hTimed.now, ?_, ?_, ?_,
      fun hNow => absurd hNow (fun h => h)⟩
    · rw [hSplit, List.append_assoc]
    · rw [hWire, hMif, List.map_append]
      rfl
    · rw [List.pairwise_append]
      refine ⟨hTimed.apart, List.pairwise_singleton _ _, ?_⟩
      intro x hMem y hLast
      rw [List.mem_singleton.mp hLast]
      exact hLaunching.2 x hMem
    · intro x hMem
      rcases List.mem_append.mp hMem with hOld | hLast
      · exact hTimed.counted x hOld
      · rw [List.mem_singleton.mp hLast]
        exact hTimed.now
    · intro x hMem
      rcases List.mem_append.mp hMem with hOld | hLast
      · exact hTimed.past x hOld
      · rw [List.mem_singleton.mp hLast]
        exact ⟨Nat.le_refl _, Nat.le_refl _⟩
    · intro x hMem
      rcases List.mem_append.mp hMem with hOld | hLast
      · exact hTimed.idle x hOld
      · rw [List.mem_singleton.mp hLast]
        exact Int.le_of_eq hLaunching.1.symm

/- Adding a message to the buffer. -/
theorem Flow.add
    (hFlow : Flow settings trace s inBuffer onWire)
    {m : Msg}
    (hPc : s.forwarder = .adding m) :
    ∃ inBuffer',
      Flow settings (⟨s, .add, addMessage m s⟩ :: trace)
        (addMessage m s) inBuffer' onWire := by
  rcases Queue.enqueue_represents hFlow.queues.buffer m with
    ⟨buffer, hEnqueue, hBuffer⟩
  have hAdd :
      addMessage m s =
        { s with buffer := buffer, forwarder := .receiving } := by
    simp only [addMessage, hEnqueue]
  have hEnqueued :
      enqueued (⟨s, .add, addMessage m s⟩ :: trace) =
        enqueued trace ++ [m] := by
    rw [enqueued, history_cons]
    simp [hPc, enqueued]
  have hSpace := hFlow.bounded.space m (Or.inr hPc)
  refine ⟨inBuffer ++ [m], ?_⟩
  rw [hAdd] at hEnqueued ⊢
  refine ⟨⟨hBuffer, hFlow.queues.inFlight⟩, ?_, ?_, ?_,
    hFlow.neverNull_cons (by simp)⟩
  · refine ⟨?_, ?_, ?_, hFlow.bounded.message⟩
    · rw [List.length_append, List.length_singleton]
      omega
    · rintro m' (hChoosing | hAdding)
      · cases hChoosing
      · cases hAdding
    · intro _
      simp
  · rw [hEnqueued, sent_of_ne (by simp), hFlow.order]
    simp
  · rw [flown_of_ne (by simp), sent_of_ne (by simp)]
    exact hFlow.timed.congr (Nat.le_refl _) rfl rfl (fun hNow => hNow)

/- Every step keeps the invariant. -/
theorem Flow.next
    (hFlow : Flow settings trace s inBuffer onWire)
    (hSteps : Steps settings s e s') :
    ∃ inBuffer' onWire',
      Flow settings (⟨s, e, s'⟩ :: trace) s' inBuffer'
        onWire' := by
  have hSize := hFlow.queues.buffer.size_eq
  cases hSteps with
  | tick hClock => exact ⟨_, _, hFlow.tick hClock⟩
  | read hPc => exact ⟨_, _, hFlow.read hPc⟩
  | send hPc => exact ⟨_, hFlow.send hPc⟩
  | test hPc =>
      refine ⟨_, _, hFlow.goOn rfl (by simp) (by rw [hPc]; rfl)
        rfl (fun h => h) ?_⟩
      intro hStuff
      have hPositive : s.buffer.size > 0 := by
        injection hStuff with hStuff
        exact of_decide_eq_true hStuff
      rintro rfl
      simp [hSize] at hPositive
  | decide hPc => exact ⟨_, _, hFlow.decide hPc⟩
  | take hPc =>
      rcases hFlow.take hPc with ⟨inBuffer', hNext⟩
      exact ⟨inBuffer', _, hNext⟩
  | put hPc => exact ⟨_, hFlow.put hPc⟩
  | wait hPc =>
      have hCarried : carried s.scheduler = [] := by
        rw [hPc]
        rfl
      unfold decideWait
      split
      · exact ⟨_, _, hFlow.fail rfl (by simp)⟩
      · split
        · exact ⟨_, _, hFlow.goOn rfl (by simp) hCarried rfl
            (fun h => h) (fun h => by cases h)⟩
        · exact ⟨_, _, hFlow.goOn rfl (by simp) hCarried rfl
            (fun h => h) (fun h => by cases h)⟩
  | assertEmpty hPc =>
      unfold LinkEmulator.assertEmpty
      split
      · exact ⟨_, _, hFlow.fail rfl (by simp)⟩
      · exact ⟨_, _, hFlow.goOn rfl (by simp) (by rw [hPc]; rfl)
          rfl (fun h => h) (fun h => by cases h)⟩
  | wake hPc =>
      exact ⟨_, _, hFlow.goOn rfl (by simp) (by rw [hPc]; rfl)
        rfl (fun h => h) (fun h => by cases h)⟩
  | receive hPc =>
      refine ⟨_, _, hFlow.forward rfl (by simp) ?_⟩
      rintro m (hChoosing | hAdding)
      · cases hChoosing
      · cases hAdding
  | check hPc =>
      refine ⟨_, _, hFlow.forward rfl (by simp) ?_⟩
      rintro m (hChoosing | hAdding)
      · injection hChoosing with _ hOverflow
        have hSpace : ¬ s.buffer.size ≥ bufferSize :=
          of_decide_eq_false hOverflow
        omega
      · cases hAdding
  | choose hPc =>
      rename_i m overflow drop corrupt index bit
      unfold chooseFate
      split
      · refine ⟨_, _, hFlow.forward rfl (by simp) ?_⟩
        rintro m' (hChoosing | hAdding)
        · cases hChoosing
        · cases hAdding
      · rename_i hKept
        have hOverflow : overflow = false := by
          cases overflow with
          | false => rfl
          | true => exact absurd rfl hKept
        rw [hOverflow] at hPc
        have hSpace := hFlow.bounded.space m (Or.inl hPc)
        split
        · split
          · exact ⟨_, _, hFlow.fail rfl (by simp)⟩
          · exact ⟨_, _, hFlow.forward rfl (by simp)
              (fun _ _ => hSpace)⟩
        · exact ⟨_, _, hFlow.forward rfl (by simp)
            (fun _ _ => hSpace)⟩
  | add hPc =>
      rcases hFlow.add hPc with ⟨inBuffer', hNext⟩
      exact ⟨inBuffer', _, hNext⟩

end Flow

------------------------------------------------------------
-- The Law for Every Run
------------------------------------------------------------

section Runs

variable {settings : Settings} {trace : Trace} {s : State}

theorem flow_start (settings : Settings) :
    Flow settings [] start [] [] := by
  refine ⟨⟨Queue.createQueue_represents,
    Queue.createQueue_represents⟩, ?_, rfl, ?_,
    fun t hMem => by cases hMem⟩
  · refine ⟨by decide, ?_, ?_, by decide⟩
    · rintro m (hChoosing | hAdding)
      · cases hChoosing
      · cases hAdding
    · rintro (hDeciding | hTaking)
      · cases hDeciding
      · cases hTaking
  · refine ⟨⟨[], [], rfl, .nil, rfl⟩, .nil, Nat.le_refl _, ?_, ?_,
      ?_, fun h => h.elim⟩
    · intro x hMem
      cases hMem
    · intro x hMem
      cases hMem
    · intro x hMem
      cases hMem

theorem flow_of_run
    (hRun : (linkSystem settings).Run trace s) :
    ∃ inBuffer onWire, Flow settings trace s inBuffer onWire := by
  refine hRun.history_invariant
    (I := fun trace s =>
      ∃ inBuffer onWire,
        Flow settings trace s inBuffer onWire) ?_ ?_
  · rintro s rfl
    exact ⟨[], [], flow_start settings⟩
  · rintro trace s e s' _ ⟨inBuffer, onWire, hFlow⟩ hStep
    exact hFlow.next (steps_of_step hStep)

/-
  The link emulator is a bounded first-in first-out link whose
  delays count from the clock as an iteration has read it.
-/
theorem linkLaw_of_run
    (hRun : (linkSystem settings).Run trace s) :
    LinkLaw settings Launch.crtTime trace s := by
  rcases flow_of_run hRun with ⟨inBuffer, onWire, hFlow⟩
  have hSize := hFlow.queues.buffer.size_eq
  refine ⟨?_, ?_, ?_, hFlow.neverNull, hFlow.timed.counted, ?_,
    hFlow.timed.apart⟩
  · rw [hSize]
    exact hFlow.bounded.size
  · rcases hFlow.queues.buffer with ⟨nodes, hHolds⟩
    have hLength := congrArg List.length hHolds.carries
    rw [List.length_map, List.length_map] at hLength
    exact ⟨nodes, hHolds.linked, by rw [hSize, hLength]⟩
  · rw [hFlow.order, List.append_assoc, List.append_assoc]
    exact List.prefix_append _ _
  · rcases hFlow.timed.delayed with
      ⟨front, rest, hSplit, hDelayed, _⟩
    exact ⟨front, rest, hSplit, hDelayed⟩

end Runs

/- A message of one byte. -/
def oneByte : Msg := ⟨1, [7]⟩

/- Two messages arrive; a turn of the loop reads the clock late. -/
def lateLaunch : List Event :=
  [.receive oneByte, .check, .choose 50 50 0 0, .add,
    .receive oneByte, .check, .choose 50 50 0 0, .add,
    .tick 10, .read, .send, .test, .decide, .take,
    .tick 4999, .put, .wait,
    .tick 5000, .read, .send, .send, .test, .decide, .take, .put]

/-
  By `crt_time` they are put in flight at 10 and 5000, by the
  clock at 4999 and 5000; the first one is sent at 5000.
-/
theorem run_lateLaunch :
    ∃ trace s,
      (linkSystem ⟨1000, 1000, 0, 0⟩).Run trace s ∧
        flown trace =
          [⟨10, 4999, oneByte⟩, ⟨5000, 5000, oneByte⟩] ∧
        sent trace = [(5000, oneByte)] := by
  rcases TransitionSystem.exists_run_of_execute
      (fun s => s = start) (step ⟨1000, 1000, 0, 0⟩) rfl
      lateLaunch
      (fun trace _ =>
        flown trace =
            [⟨10, 4999, oneByte⟩, ⟨5000, 5000, oneByte⟩] ∧
          sent trace = [(5000, oneByte)])
      (by decide) with ⟨trace, s, hRun, hTimes⟩
  rw [decide_eq_true_eq] at hTimes
  exact ⟨trace, s, hRun, hTimes⟩

theorem linkLaw_lateLaunch :
    ∃ trace s,
      (linkSystem ⟨1000, 1000, 0, 0⟩).Run trace s ∧
        flown trace =
          [⟨10, 4999, oneByte⟩, ⟨5000, 5000, oneByte⟩] ∧
        sent trace = [(5000, oneByte)] ∧
        LinkLaw ⟨1000, 1000, 0, 0⟩ Launch.crtTime trace s := by
  rcases run_lateLaunch with ⟨trace, s, hRun, hFlown, hSent⟩
  exact ⟨trace, s, hRun, hFlown, hSent, linkLaw_of_run hRun⟩

/- By the clock itself neither delay is kept. -/
theorem not_linkLaw_clock :
    ∃ trace s,
      (linkSystem ⟨1000, 1000, 0, 0⟩).Run trace s ∧
        ¬ Delayed ⟨1000, 1000, 0, 0⟩ Launch.clock trace ∧
        ¬ Spaced ⟨1000, 1000, 0, 0⟩ Launch.clock trace ∧
        ¬ LinkLaw ⟨1000, 1000, 0, 0⟩ Launch.clock trace s := by
  rcases run_lateLaunch with ⟨trace, s, hRun, hFlown, hSent⟩
  have hDelayed :
      ¬ Delayed ⟨1000, 1000, 0, 0⟩ Launch.clock trace := by
    rintro ⟨front, rest, hSplit, hLate⟩
    rw [hSent] at hLate
    cases hLate with
    | cons hFirst hNone =>
        rw [hFlown] at hSplit
        injection hSplit with hHead
        rw [← hHead] at hFirst
        have hDelays := hFirst.delays
        simp at hDelays
  refine ⟨trace, s, hRun, hDelayed, ?_,
    fun hLaw => hDelayed hLaw.delayed⟩
  intro hSpaced
  rw [Spaced, hFlown, List.pairwise_pair] at hSpaced
  simp [Apart] at hSpaced

end LinkEmulator

end TcpServer

end ProgrammingTasks
