import ProgrammingTasks.TcpServer.LinkLaw

/-
  The assertion of the scheduler that the buffer is empty.

  The buffer was seen empty in an earlier critical section, or
  a message has been taken from it and both delays are zero.
  In the meantime the forwarder may have added a message, and
  in the second case more than one may have been there.

  Main declarations:
    * `Heading`, `Careful`, `iteration`
    * `Watched`, `Watched.next`
    * `assertsHold_iff_careful`
-/

------------------------------------------------------------
-- The Condition
------------------------------------------------------------

namespace ProgrammingTasks

namespace TcpServer

namespace LinkEmulator

open TransitionSystem

/- The assertion holds whenever it is reached. -/
def AssertsHold (trace : Trace) : Prop :=
  ∀ t ∈ trace, t.event = .assertEmpty → t.source.buffer.size = 0

/- The scheduler is on its way to the assertion. -/
def Heading (settings : Settings) (s : State) : Prop :=
  match s.scheduler with
  | .deciding stuff =>
      stuff = false ∧ s.idleTime ≤ s.crtTime ∧
        s.inFlight.size ≤ 0
  | .flying _ =>
      settings.serializationDelay = 0 ∧ settings.delay = 0 ∧
        s.inFlight.size ≤ 0
  | .waiting =>
      s.idleTime ≤ s.crtTime ∧
        ∀ wait, waitTimeSend s = some wait → wait ≤ 0
  | .asserting => True
  | _ => False

/-
  No message is added while the scheduler is on its way to the
  assertion, and none is left by a step that takes a message
  and puts the scheduler on this way.
-/
def Careful
    (settings : Settings)
    (t : Transition State Event) : Prop :=
  (t.event = .add → ¬ Heading settings t.source) ∧
    (t.event = .take →
      settings.serializationDelay = 0 → settings.delay = 0 →
      t.source.inFlight.size ≤ 0 →
        t.source.buffer.size ≤ 1)

def Event.isRead : Event → Bool
| .read => true
| _ => false

/- The steps since the clock was read last. -/
def iteration (trace : Trace) : Trace :=
  trace.takeWhile (fun t => !t.event.isRead)

/- Each assertion comes after careful steps of its iteration. -/
def CarefulAsserts
    (settings : Settings) (trace : Trace) : Prop :=
  ∀ later t earlier,
    trace = later ++ t :: earlier →
      t.event = .assertEmpty →
        ∀ t' ∈ iteration earlier, Careful settings t'

------------------------------------------------------------
-- The Way to the Assertion
------------------------------------------------------------

section Heading

variable {settings : Settings} {s s' : State}

/- Only the scheduler's own state matters. -/
theorem heading_congr
    (hScheduler : s'.scheduler = s.scheduler)
    (hIdle : s'.idleTime = s.idleTime)
    (hClock : s'.crtTime = s.crtTime)
    (hInFlight : s'.inFlight = s.inFlight) :
    Heading settings s' ↔ Heading settings s := by
  have hWait : waitTimeSend s' = waitTimeSend s := by
    simp only [waitTimeSend, hInFlight, hClock]
  simp only [Heading, hScheduler, hIdle, hClock, hInFlight, hWait]

/- Places after the loop that sends, up to the launch. -/
def isPastSending : SchedulerPc → Prop
| .testing | .deciding _ | .taking | .flying _ => True
| _ => False

/- The oldest message in flight is not due. -/
def Early (s : State) : Prop :=
  ∀ mif, s.inFlight.lastEntry = some mif →
    isEarly s.crtTime mif.finishTime = true

end Heading

section Waiting

variable {settings : Settings} {trace : Trace} {s : State}
variable {inBuffer : List Msg} {onWire : List MsgInFlight}

/- No finish time is negative. -/
theorem Flow.finishTime_nonneg
    (hFlow : Flow settings trace s inBuffer onWire)
    (hSerialization : 0 ≤ settings.serializationDelay)
    (hDelay : 0 ≤ settings.delay) :
    ∀ mif ∈ onWire, 0 ≤ mif.finishTime := by
  rcases hFlow.timed.delayed with ⟨_, rest, _, _, rfl⟩
  intro mif hMem
  rcases List.mem_map.mp hMem with ⟨x, _, rfl⟩
  simp only
  omega

/- With a message in flight that is not due, there is a wait. -/
theorem Flow.waitTimeSend_pos
    (hFlow : Flow settings trace s inBuffer onWire)
    (hSerialization : 0 ≤ settings.serializationDelay)
    (hDelay : 0 ≤ settings.delay)
    (hEarly : Early s)
    (hSize : 0 < s.inFlight.size) :
    ∃ wait, waitTimeSend s = some wait ∧ 0 < wait := by
  have hLength := hFlow.queues.inFlight.size_eq
  have hEntry := hFlow.queues.inFlight.lastEntry_eq
  cases onWire with
  | nil =>
      rw [hLength] at hSize
      simp at hSize
  | cons mif rest =>
      have hLast : s.inFlight.lastEntry = some mif := hEntry
      have hFinish :=
        hFlow.finishTime_nonneg hSerialization hDelay mif
          List.mem_cons_self
      have hNotDue := hEarly mif hLast
      simp only [isEarly, Bool.or_eq_true, decide_eq_true_eq]
        at hNotDue
      refine ⟨mif.finishTime - s.crtTime, ?_, by omega⟩
      rw [waitTimeSend, if_pos hSize, hLast]
      rfl

/- With no message in flight there is none. -/
theorem waitTimeSend_empty
    (hSize : s.inFlight.size ≤ 0) :
    waitTimeSend s = some 0 := by
  rw [waitTimeSend, if_neg (by omega)]

end Waiting

------------------------------------------------------------
-- The Invariant
------------------------------------------------------------

/-
  With careful steps the buffer is empty on the way to the
  assertion; after another step it is not, until it fails.
-/
structure Watched
    (settings : Settings) (trace : Trace) (s : State) :
    Prop where
  careful :
    (∀ t ∈ iteration trace, Careful settings t) →
      Heading settings s → s.buffer.size = 0
  careless :
    (∃ t ∈ iteration trace, ¬ Careful settings t) →
      s.failed = true ∨ Heading settings s ∧ 0 < s.buffer.size
  early : isPastSending s.scheduler → Early s

section Watched

variable {settings : Settings} {trace : Trace}
variable {s s' : State} {e : Event}
variable {inBuffer : List Msg} {onWire : List MsgInFlight}

/- What one step has to keep. -/
theorem Watched.cons
    (hWatched : Watched settings trace s)
    (hFailed : s.failed = false)
    (hRead : e.isRead = false)
    (hCareful :
      Careful settings ⟨s, e, s'⟩ →
        (Heading settings s → s.buffer.size = 0) →
          Heading settings s' → s'.buffer.size = 0)
    (hCareless :
      ¬ Careful settings ⟨s, e, s'⟩ ∨
          Heading settings s ∧ 0 < s.buffer.size →
        s'.failed = true ∨
          Heading settings s' ∧ 0 < s'.buffer.size)
    (hEarly : isPastSending s'.scheduler → Early s') :
    Watched settings (⟨s, e, s'⟩ :: trace) s' := by
  have hIteration :
      iteration (⟨s, e, s'⟩ :: trace) =
        ⟨s, e, s'⟩ :: iteration trace := by
    simp [iteration, hRead]
  refine ⟨?_, ?_, hEarly⟩
  · rw [hIteration]
    intro hAll
    rw [List.forall_mem_cons] at hAll
    exact hCareful hAll.1 (hWatched.careful hAll.2)
  · rw [hIteration]
    rintro ⟨t, hMem, hNot⟩
    apply hCareless
    rcases List.mem_cons.mp hMem with rfl | hOld
    · exact Or.inl hNot
    · rcases hWatched.careless ⟨t, hOld, hNot⟩ with
        hFails | hNow
      · rw [hFailed] at hFails
        cases hFails
      · exact Or.inr hNow

/- Steps that are careful whatever the state is. -/
theorem careful_of_ne
    (hAdd : e ≠ .add) (hTake : e ≠ .take) :
    Careful settings ⟨s, e, s'⟩ :=
  ⟨fun hEvent => absurd hEvent hAdd,
    fun hEvent => absurd hEvent hTake⟩

/- A step to a place that is not on the way, from such a one. -/
theorem Watched.off
    (hWatched : Watched settings trace s)
    (hFailed : s.failed = false)
    (hRead : e.isRead = false)
    (hAdd : e ≠ .add) (hTake : e ≠ .take)
    (hBefore : ¬ Heading settings s)
    (hAfter : Heading settings s' → s'.buffer.size = 0)
    (hEarly : isPastSending s'.scheduler → Early s') :
    Watched settings (⟨s, e, s'⟩ :: trace) s' := by
  apply hWatched.cons hFailed hRead (fun _ _ => hAfter) ?_ hEarly
  rintro (hNot | ⟨hHeading, _⟩)
  · exact absurd (careful_of_ne hAdd hTake) hNot
  · exact absurd hHeading hBefore

/- A step that keeps the buffer and the way. -/
theorem Watched.along
    (hWatched : Watched settings trace s)
    (hFailed : s.failed = false)
    (hRead : e.isRead = false)
    (hAdd : e ≠ .add) (hTake : e ≠ .take)
    (hBuffer : s'.buffer = s.buffer)
    (hHeading : Heading settings s' ↔ Heading settings s)
    (hEarly : isPastSending s'.scheduler → Early s') :
    Watched settings (⟨s, e, s'⟩ :: trace) s' := by
  apply hWatched.cons hFailed hRead ?_ ?_ hEarly
  · intro _ hBefore hAfter
    rw [hBuffer]
    exact hBefore (hHeading.mp hAfter)
  · rintro (hNot | ⟨hBefore, hSize⟩)
    · exact absurd (careful_of_ne hAdd hTake) hNot
    · refine Or.inr ⟨hHeading.mpr hBefore, ?_⟩
      rw [hBuffer]
      exact hSize

theorem not_heading_of
    {pc : SchedulerPc}
    (hPc : s.scheduler = pc)
    (hOther :
      pc = .reading ∨ pc = .sending ∨ pc = .testing ∨
        pc = .taking ∨ pc = .blocked) :
    ¬ Heading settings s := by
  unfold Heading
  rw [hPc]
  rcases hOther with rfl | rfl | rfl | rfl | rfl <;>
  exact fun h => h

theorem Watched.send
    (hWatched : Watched settings trace s)
    (hFailed : s.failed = false)
    (hFlow : Flow settings trace s inBuffer onWire)
    (hPc : s.scheduler = .sending) :
    Watched settings (⟨s, .send, (sendNext s).1⟩ :: trace)
      (sendNext s).1 := by
  have hBefore : ¬ Heading settings s :=
    not_heading_of hPc (by simp)
  rcases sendNext_cases hFlow.queues with
    ⟨hNext, hEarly⟩ | ⟨mif, rest, inFlight, _, _, _, hNext⟩
  · rw [hNext]
    refine hWatched.off hFailed rfl (by simp) (by simp) hBefore
      ?_ ?_
    · exact fun hAfter => absurd hAfter
        (not_heading_of rfl (by simp))
    · intro _ mif hEntry
      apply hEarly
      rw [← hFlow.queues.inFlight.lastEntry_eq]
      exact hEntry
  · rw [hNext]
    refine hWatched.off hFailed rfl (by simp) (by simp) hBefore
      ?_ ?_
    · exact fun hAfter => absurd hAfter
        (not_heading_of hPc (by simp))
    · intro hPast
      simp only [hPc] at hPast
      exact hPast.elim

theorem Watched.test
    (hWatched : Watched settings trace s)
    (hFailed : s.failed = false)
    (hFlow : Flow settings trace s inBuffer onWire)
    (hPc : s.scheduler = .testing) :
    Watched settings (⟨s, .test, testStuff s⟩ :: trace)
      (testStuff s) := by
  have hSize := hFlow.queues.buffer.size_eq
  refine hWatched.off hFailed rfl (by simp) (by simp)
    (not_heading_of hPc (by simp)) ?_ ?_
  · rintro ⟨hStuff, _⟩
    have hEmpty := of_decide_eq_false hStuff
    change s.buffer.size = 0
    omega
  · intro _
    exact hWatched.early (by rw [hPc]; trivial)

theorem Watched.decide
    (hWatched : Watched settings trace s)
    (hFailed : s.failed = false)
    (hFlow : Flow settings trace s inBuffer onWire)
    (hSerialization : 0 ≤ settings.serializationDelay)
    (hDelay : 0 ≤ settings.delay)
    {stuff : Bool}
    (hPc : s.scheduler = .deciding stuff) :
    Watched settings
      (⟨s, .decide, decideStuff settings stuff s⟩ :: trace)
      (decideStuff settings stuff s) := by
  have hEarly : Early s := hWatched.early (by rw [hPc]; trivial)
  have hHeading :
      Heading settings s ↔
        stuff = false ∧ s.idleTime ≤ s.crtTime ∧
          s.inFlight.size ≤ 0 := by
    unfold Heading
    rw [hPc]
  unfold decideStuff
  split
  · rename_i hGo
    rw [Bool.and_eq_true] at hGo
    refine hWatched.off hFailed rfl (by simp) (by simp) ?_ ?_ ?_
    · rw [hHeading, hGo.1]
      rintro ⟨hStuff, _⟩
      cases hStuff
    · exact fun hAfter => hAfter.elim
    · exact fun _ => hEarly
  · rename_i hStay
    refine hWatched.along hFailed rfl (by simp) (by simp) rfl ?_
      (fun hPast => hPast.elim)
    rw [hHeading]
    constructor
    · rintro ⟨hIdle, hWait⟩
      have hIdle' : s.idleTime ≤ s.crtTime := hIdle
      refine ⟨?_, hIdle', ?_⟩
      · cases stuff with
        | false => rfl
        | true =>
            exfalso
            apply hStay
            simpa using hIdle'
      · by_contra hMore
        rcases hFlow.waitTimeSend_pos hSerialization hDelay
            hEarly (by omega) with ⟨wait, hSome, hPositive⟩
        have hNone := hWait wait hSome
        omega
    · rintro ⟨_, hIdle, hSize⟩
      refine ⟨hIdle, ?_⟩
      intro wait hSome
      have hZero :
          waitTimeSend { s with scheduler := .waiting } = some 0 :=
        waitTimeSend_empty hSize
      cases hZero.symm.trans hSome
      exact Int.le_refl 0

theorem Watched.take
    (hWatched : Watched settings trace s)
    (hFailed : s.failed = false)
    (hFlow : Flow settings trace s inBuffer onWire)
    (hPc : s.scheduler = .taking) :
    Watched settings (⟨s, .take, takeStuff s⟩ :: trace)
      (takeStuff s) := by
  have hEarly : Early s := hWatched.early (by rw [hPc]; trivial)
  rcases hFlow.takeStuff_eq hPc with
    ⟨m, inBuffer, buffer, rfl, hDequeue, hBuffer, hTake⟩
  have hBefore := hFlow.queues.buffer.size_eq
  have hAfter := hBuffer.size_eq
  rw [List.length_cons] at hBefore
  rw [hTake]
  refine hWatched.cons hFailed rfl ?_ ?_ (fun _ => hEarly)
  · rintro hCareful _ ⟨hZero, hZero', hSize⟩
    have hFew := hCareful.2 rfl hZero hZero' hSize
    simp only at hFew ⊢
    omega
  · rintro (hNot | ⟨hHeading, _⟩)
    · refine Or.inr ?_
      rw [Careful] at hNot
      simp only [reduceCtorEq, false_implies, true_and,
        forall_const, Classical.not_imp] at hNot
      rcases hNot with ⟨hZero, hZero', hSize, hMany⟩
      refine ⟨⟨hZero, hZero', hSize⟩, ?_⟩
      simp only
      omega
    · exact absurd hHeading (not_heading_of hPc (by simp))

theorem Watched.put
    (hWatched : Watched settings trace s)
    (hFailed : s.failed = false)
    (hFlow : Flow settings trace s inBuffer onWire)
    (hSerialization : 0 ≤ settings.serializationDelay)
    (hDelay : 0 ≤ settings.delay)
    {m : Option Msg}
    (hPc : s.scheduler = .flying m) :
    Watched settings (⟨s, .put, putInFlight settings m s⟩ :: trace)
      (putInFlight settings m s) := by
  have hEarly : Early s := hWatched.early (by rw [hPc]; trivial)
  have hHeading :
      Heading settings s ↔
        settings.serializationDelay = 0 ∧ settings.delay = 0 ∧
          s.inFlight.size ≤ 0 := by
    unfold Heading
    rw [hPc]
  have hIdle := (hFlow.timed.launching (by rw [hPc]; trivial)).1
  rcases hFlow.putInFlight_eq hPc with
    ⟨m, mif, inFlight, rfl, hMif, hInFlight, hPut⟩
  have hSize := hInFlight.size_eq
  have hEntry := hInFlight.lastEntry_eq
  rw [List.length_append, List.length_singleton] at hSize
  have hOldSize := hFlow.queues.inFlight.size_eq
  have hOldEntry := hFlow.queues.inFlight.lastEntry_eq
  have hFinish :=
    hFlow.finishTime_nonneg hSerialization hDelay
  rw [hPut]
  refine hWatched.along hFailed rfl (by simp) (by simp) rfl ?_
    (fun hPast => hPast.elim)
  rw [hHeading]
  -- the wait is that of the oldest message in flight
  have hWait :
      ∀ oldest, (onWire ++ [mif]).head? = some oldest →
        waitTimeSend
            { s with
              inFlight := inFlight
              scheduler := .waiting } =
          some (oldest.finishTime - s.crtTime) := by
    intro oldest hOldest
    simp only [waitTimeSend]
    rw [if_pos (by omega), hEntry, hOldest]
    rfl
  cases onWire with
  | nil =>
      have hOwn := hWait mif rfl
      rw [List.length_nil] at hOldSize
      constructor
      · rintro ⟨hIdle', hNoWait⟩
        have hNone := hNoWait _ hOwn
        simp only [hIdle] at hIdle'
        simp only [hMif] at hNone
        omega
      · rintro ⟨hZero, hZero', _⟩
        refine ⟨?_, ?_⟩
        · simp only [hIdle]
          omega
        · intro wait hSome
          cases hOwn.symm.trans hSome
          simp only [hMif]
          omega
  | cons oldest rest =>
      have hNotDue := hEarly oldest hOldEntry
      have hNonneg := hFinish oldest List.mem_cons_self
      simp only [isEarly, Bool.or_eq_true, decide_eq_true_eq]
        at hNotDue
      rw [List.length_cons] at hOldSize
      constructor
      · rintro ⟨_, hNoWait⟩
        have hNone := hNoWait _ (hWait oldest rfl)
        omega
      · rintro ⟨_, _, hEmpty⟩
        omega

theorem Watched.wait
    (hWatched : Watched settings trace s)
    (hFailed : s.failed = false)
    (hFlow : Flow settings trace s inBuffer onWire)
    (hPc : s.scheduler = .waiting) :
    Watched settings (⟨s, .wait, decideWait s⟩ :: trace)
      (decideWait s) := by
  have hHeading :
      Heading settings s ↔
        s.idleTime ≤ s.crtTime ∧
          ∀ wait, waitTimeSend s = some wait → wait ≤ 0 := by
    unfold Heading
    rw [hPc]
  unfold decideWait
  split
  · rename_i hNone
    exfalso
    have hEntry := hFlow.queues.inFlight.lastEntry_eq
    have hSize := hFlow.queues.inFlight.size_eq
    cases onWire with
    | nil =>
        rw [waitTimeSend_empty (by simp [hSize])] at hNone
        cases hNone
    | cons oldest rest =>
        rw [List.length_cons] at hSize
        rw [waitTimeSend, if_pos (by omega), hEntry] at hNone
        cases hNone
  · rename_i wait hSome
    split
    · rename_i hWaits
      refine hWatched.off hFailed rfl (by simp) (by simp) ?_
        (fun hAfter => hAfter.elim) (fun hPast => hPast.elim)
      rw [hHeading]
      rintro ⟨hIdle, hNoWait⟩
      have hZero := hNoWait wait hSome
      omega
    · rename_i hNoWait
      refine hWatched.along hFailed rfl (by simp) (by simp) rfl ?_
        (fun hPast => hPast.elim)
      rw [hHeading]
      refine iff_of_true trivial ⟨by omega, ?_⟩
      intro wait' hSome'
      cases hSome.symm.trans hSome'
      omega

theorem Watched.assertEmpty
    (hWatched : Watched settings trace s)
    (hFailed : s.failed = false)
    (hPc : s.scheduler = .asserting) :
    Watched settings
      (⟨s, .assertEmpty, LinkEmulator.assertEmpty s⟩ :: trace)
      (LinkEmulator.assertEmpty s) := by
  have hHeading : Heading settings s := by
    unfold Heading
    rw [hPc]
    trivial
  unfold LinkEmulator.assertEmpty
  split
  · rename_i hSize
    refine hWatched.cons hFailed rfl ?_ (fun _ => Or.inl rfl) ?_
    · intro _ hEmpty _
      exact absurd (hEmpty hHeading) hSize
    · intro hPast
      simp only [fail, hPc] at hPast
      exact hPast.elim
  · rename_i hSize
    refine hWatched.cons hFailed rfl (fun _ _ h => h.elim) ?_
      (fun hPast => hPast.elim)
    rintro (hNot | ⟨_, hPositive⟩)
    · exact absurd (careful_of_ne (by simp) (by simp)) hNot
    · omega

/- A step of the forwarder that adds nothing. -/
theorem Watched.forward
    (hWatched : Watched settings trace s)
    (hFailed : s.failed = false)
    (hRead : e.isRead = false)
    (hAdd : e ≠ .add) (hTake : e ≠ .take)
    (pc : ForwarderPc) :
    Watched settings (⟨s, e, { s with forwarder := pc }⟩ :: trace)
      { s with forwarder := pc } :=
  hWatched.along hFailed hRead hAdd hTake rfl
    (heading_congr rfl rfl rfl rfl) hWatched.early

theorem Watched.add
    (hWatched : Watched settings trace s)
    (hFailed : s.failed = false)
    (hFlow : Flow settings trace s inBuffer onWire)
    (m : Msg) :
    Watched settings (⟨s, .add, addMessage m s⟩ :: trace)
      (addMessage m s) := by
  rcases Queue.enqueue_represents hFlow.queues.buffer m with
    ⟨buffer, hEnqueue, hBuffer⟩
  have hAdd :
      addMessage m s =
        { s with buffer := buffer, forwarder := .receiving } := by
    simp only [addMessage, hEnqueue]
  have hSize := hBuffer.size_eq
  rw [List.length_append, List.length_singleton] at hSize
  have hSame :
      Heading settings
          { s with buffer := buffer, forwarder := .receiving } ↔
        Heading settings s :=
    heading_congr rfl rfl rfl rfl
  rw [hAdd]
  refine hWatched.cons hFailed rfl ?_ ?_ hWatched.early
  · intro hCareful _ hAfter
    exact absurd (hSame.mp hAfter) (hCareful.1 rfl)
  · intro hCase
    have hHeading : Heading settings s := by
      rcases hCase with hNot | hNow
      · by_contra hOff
        exact hNot ⟨fun _ => hOff, fun hEvent => by cases hEvent⟩
      · exact hNow.1
    refine Or.inr ⟨hSame.mpr hHeading, ?_⟩
    change 0 < buffer.size
    omega

theorem Watched.next
    (hWatched : Watched settings trace s)
    (hFailed : s.failed = false)
    (hFlow : Flow settings trace s inBuffer onWire)
    (hSerialization : 0 ≤ settings.serializationDelay)
    (hDelay : 0 ≤ settings.delay)
    (hSteps : Steps settings s e s') :
    Watched settings (⟨s, e, s'⟩ :: trace) s' := by
  cases hSteps with
  | tick hClock =>
      exact hWatched.along hFailed rfl (by simp) (by simp) rfl
        (heading_congr rfl rfl rfl rfl) hWatched.early
  | read hPc =>
      refine ⟨fun _ hHeading => hHeading.elim, ?_,
        fun hPast => hPast.elim⟩
      rintro ⟨t, hMem, _⟩
      simp [iteration, Event.isRead] at hMem
  | send hPc => exact hWatched.send hFailed hFlow hPc
  | test hPc => exact hWatched.test hFailed hFlow hPc
  | decide hPc =>
      exact hWatched.decide hFailed hFlow hSerialization hDelay hPc
  | take hPc => exact hWatched.take hFailed hFlow hPc
  | put hPc =>
      exact hWatched.put hFailed hFlow hSerialization hDelay hPc
  | wait hPc => exact hWatched.wait hFailed hFlow hPc
  | assertEmpty hPc => exact hWatched.assertEmpty hFailed hPc
  | wake hPc =>
      exact hWatched.off hFailed rfl (by simp) (by simp)
        (not_heading_of hPc (by simp)) (fun h => h.elim)
        (fun hPast => hPast.elim)
  | receive hPc =>
      exact hWatched.forward hFailed rfl (by simp) (by simp) _
  | check hPc =>
      exact hWatched.forward hFailed rfl (by simp) (by simp) _
  | choose hPc =>
      unfold chooseFate
      split
      · exact hWatched.forward hFailed rfl (by simp) (by simp) _
      · split
        · split
          · exact hWatched.along hFailed rfl (by simp) (by simp)
              rfl (heading_congr rfl rfl rfl rfl) hWatched.early
          · exact hWatched.forward hFailed rfl (by simp)
              (by simp) _
        · exact hWatched.forward hFailed rfl (by simp) (by simp) _
  | add hPc => exact hWatched.add hFailed hFlow _

end Watched

------------------------------------------------------------
-- The Assertion in Every Run
------------------------------------------------------------

theorem not_failed_of_step
    {settings : Settings} {s s' : State} {e : Event}
    (hStep : step settings s e = some s') :
    s.failed = false := by
  unfold step at hStep
  split at hStep
  · cases hStep
  · rename_i hFailed
    simpa using hFailed

theorem watched_of_run
    {settings : Settings} {trace : Trace} {s : State}
    (hSerialization : 0 ≤ settings.serializationDelay)
    (hDelay : 0 ≤ settings.delay)
    (hRun : (linkSystem settings).Run trace s) :
    Watched settings trace s := by
  refine hRun.history_invariant (I := Watched settings) ?_ ?_
  · rintro s rfl
    refine ⟨fun _ hHeading => hHeading.elim, ?_,
      fun hPast => hPast.elim⟩
    rintro ⟨t, hMem, _⟩
    cases hMem
  · intro trace s e s' hPrefix hWatched hStep
    rcases flow_of_run hPrefix with ⟨inBuffer, onWire, hFlow⟩
    exact hWatched.next (not_failed_of_step hStep) hFlow
      hSerialization hDelay (steps_of_step hStep)

/- An assertion holds exactly after careful steps. -/
theorem assertion_iff
    {settings : Settings} {trace : Trace} {s s' : State}
    (hSerialization : 0 ≤ settings.serializationDelay)
    (hDelay : 0 ≤ settings.delay)
    (hRun : (linkSystem settings).Run trace s)
    (hStep : step settings s .assertEmpty = some s') :
    s.buffer.size = 0 ↔
      ∀ t ∈ iteration trace, Careful settings t := by
  have hWatched := watched_of_run hSerialization hDelay hRun
  have hHeading : Heading settings s := by
    cases steps_of_step hStep with
    | assertEmpty hPc =>
        unfold Heading
        rw [hPc]
        trivial
  constructor
  · intro hEmpty
    by_contra hNot
    simp only [not_forall] at hNot
    rcases hNot with ⟨t, hMem, hCareless⟩
    rcases hWatched.careless ⟨t, hMem, hCareless⟩ with
      hFails | ⟨_, hPositive⟩
    · rw [not_failed_of_step hStep] at hFails
      cases hFails
    · omega
  · intro hAll
    exact hWatched.careful hAll hHeading

/-
  In a run the assertion holds whenever it is reached, exactly
  if every time the steps of the iteration were careful.
-/
theorem assertsHold_iff_careful
    {settings : Settings} {trace : Trace} {s : State}
    (hSerialization : 0 ≤ settings.serializationDelay)
    (hDelay : 0 ≤ settings.delay)
    (hRun : (linkSystem settings).Run trace s) :
    AssertsHold trace ↔ CarefulAsserts settings trace := by
  constructor
  · intro hHold later t earlier hSplit hEvent
    have hMem : t ∈ trace := by
      rw [hSplit]
      exact List.mem_append_right _ List.mem_cons_self
    rw [hSplit] at hRun
    rcases hRun.cut with ⟨hEarlier, hStep⟩
    rw [hEvent] at hStep
    have hIff :=
      assertion_iff hSerialization hDelay hEarlier hStep
    exact hIff.mp (hHold t hMem hEvent)
  · intro hCareful t hMem hEvent
    rcases hRun.transition_spec hMem with
      ⟨earlier, later, hSplit, hEarlier, hStep⟩
    rw [hEvent] at hStep
    have hIff :=
      assertion_iff hSerialization hDelay hEarlier hStep
    exact hIff.mpr (hCareful later t earlier hSplit hEvent)

/-
  A run that reaches the assertion with an empty buffer: with
  both delays zero the one message that has arrived is taken
  and put in flight.
-/
def emptiedRun : List Event :=
  [.tick 5, .read, .receive oneByte, .check, .choose 50 50 0 0,
    .add, .send, .test, .decide, .take, .put, .wait, .assertEmpty]

theorem assertsHold_emptiedRun :
    ∃ trace s,
      (linkSystem ⟨0, 0, 0, 0⟩).Run trace s ∧
        enqueued trace = [oneByte] ∧
        trace.head?.map Transition.event = some .assertEmpty ∧
        AssertsHold trace ∧
        CarefulAsserts ⟨0, 0, 0, 0⟩ trace := by
  rcases TransitionSystem.exists_run_of_execute
      (fun s => s = start) (step ⟨0, 0, 0, 0⟩) rfl
      emptiedRun
      (fun trace _ =>
        enqueued trace = [oneByte] ∧
          trace.head?.map Transition.event = some .assertEmpty ∧
          trace.all
            (fun t =>
              t.event ≠ .assertEmpty ∨ t.source.buffer.size = 0))
      (by decide) with ⟨trace, s, hRun, hReached⟩
  rw [decide_eq_true_eq] at hReached
  rcases hReached with ⟨hEnqueued, hLast, hAll⟩
  have hHold : AssertsHold trace := by
    intro t hMem hEvent
    have hEmpty := List.all_eq_true.mp hAll t hMem
    rw [decide_eq_true_eq] at hEmpty
    exact hEmpty.resolve_left (fun hOther => hOther hEvent)
  exact ⟨trace, s, hRun, hEnqueued, hLast, hHold,
    (assertsHold_iff_careful (by decide) (by decide) hRun).mp
      hHold⟩

/- A message slips in after the buffer was seen to be empty. -/
def slippedIn : List Event :=
  [.read, .send, .test, .receive oneByte, .check,
    .choose 50 50 0 0, .add, .decide, .wait, .assertEmpty]

theorem not_assertsHold_always :
    ¬ ∀ (settings : Settings) (trace : Trace) (s : State),
        0 ≤ settings.serializationDelay →
          0 ≤ settings.delay →
            (linkSystem settings).Run trace s →
              AssertsHold trace := by
  intro hAlways
  rcases TransitionSystem.exists_run_of_execute
      (fun s => s = start) (step ⟨1000, 1000, 0, 0⟩) rfl
      slippedIn
      (fun trace _ =>
        trace.any
          (fun t =>
            t.event = .assertEmpty ∧ t.source.buffer.size ≠ 0))
      (by decide) with ⟨trace, s, hRun, hAny⟩
  rcases List.any_eq_true.mp hAny with ⟨t, hMem, hWrong⟩
  rw [decide_eq_true_eq] at hWrong
  exact hWrong.2
    (hAlways ⟨1000, 1000, 0, 0⟩ trace s (by decide) (by decide)
      hRun t hMem hWrong.1)

end LinkEmulator

end TcpServer

end ProgrammingTasks
