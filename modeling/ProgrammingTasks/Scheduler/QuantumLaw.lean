import ProgrammingTasks.Scheduler.Conservation

/-
  The quantum law of the scheduler: no thread has more than
  the time quantum left, and a thread that has used it up is
  switched out at the first tick at which a thread of at
  least its priority is ready.

  `quantum_left` is unsigned, and a thread that expires while
  only lower threads are ready keeps running with the value
  0, so that its next tick wraps around.  `ChargedInTime` is
  the condition on a step that excludes this, and the expiry
  of a thread that `so_wait` has left in the state WAITING.

  Main declarations:
    * `ticks`
    * `ChargedInTime`
    * `quantumLaw_of_run`
    * `not_quantumLaw_of_every_run`
-/

------------------------------------------------------------
-- Ticks and the Law
------------------------------------------------------------

namespace ProgrammingTasks

namespace Scheduler

/-
  The step calls `check_scheduler`, which charges the current
  thread a tick.
-/
def Charges (s : State) (operation : Operation) : Prop :=
  match operation with
  | .soFork func priority =>
      priority.toNat ≤ soMaxPrio ∧ func ≠ 0 ∧
        s.currentThread.isSome ∧ s.nrThreads + 1 > 1
  | .soExec => s.tp.getHead.isSome ∧ s.nrThreads > 1
  | _ => False

instance (s : State) (operation : Operation) :
    Decidable (Charges s operation) := by
  unfold Charges
  split <;> infer_instance

/-
  A thread of priority `p` is in the table when the step
  calls `check_scheduler`.
-/
def ReadyAtCheck
    (s : State)
    (operation : Operation)
    (p : Nat) : Prop :=
  (∃ x, s.tp.Stores x ∧ s.prio x = p) ∨
    match operation with
    | .soFork _ priority => p = priority.toNat
    | _ => False

/- How one step changes the number of ticks. -/
def ticksAfter
    (t : TransitionSystem.Transition State Operation)
    (ticks : Nat) : Nat :=
  if t.target.currentThread ≠ t.source.currentThread then
    0
  else if Charges t.source t.event then
    ticks + 1
  else
    ticks

/-
  The ticks the current thread has been charged since it last
  became current.
-/
def ticks : History → Nat
| [] => 0
| t :: earlier => ticksAfter t (ticks earlier)

/-
  If the step charges the current thread its last tick or a
  later one while a thread of at least its priority is ready,
  it switches the current thread out.
-/
def ExpiryObeyed
    (timeQuantum : UInt32)
    (earlier : Nat)
    (t : TransitionSystem.Transition State Operation) :
    Prop :=
  ∀ c, t.source.currentThread = some c →
    Charges t.source t.event →
      timeQuantum.toNat ≤ earlier + 1 →
        (∃ p, ReadyAtCheck t.source t.event p ∧
          t.source.prio c ≤ p) →
            t.target.currentThread ≠ some c ∧
              t.target.tp.Stores c

/- No thread has more than a whole quantum left. -/
def QuantumBounded
    (timeQuantum : UInt32)
    (s : State) : Prop :=
  ∀ t ∈ s.threads, (s.heap t).quantumLeft ≤ timeQuantum

/- The quantum law in every state and step of a run. -/
def QuantumLaw
    (timeQuantum : UInt32) : History → State → Prop
| [], s => QuantumBounded timeQuantum s
| t :: earlier, s =>
    QuantumBounded timeQuantum s ∧
      ExpiryObeyed timeQuantum (ticks earlier) t ∧
        QuantumLaw timeQuantum earlier t.source

/-
  A tick is charged to a thread that has some quantum left,
  or is preempted by it because a higher thread is ready; and
  if it is the last one while a thread of at least its
  priority is ready, the thread is RUNNING.
-/
def ChargedInTime
    (s : State)
    (operation : Operation) : Prop :=
  ∀ c, s.currentThread = some c →
    Charges s operation →
      ((s.heap c).quantumLeft = 0 →
        (s.heap c).thState = .running ∧
          ∃ p, ReadyAtCheck s operation p ∧
            s.prio c < p) ∧
        ((s.heap c).quantumLeft = 1 →
          (∃ p, ReadyAtCheck s operation p ∧
            s.prio c ≤ p) →
              (s.heap c).thState = .running)

------------------------------------------------------------
-- The Invariant behind the Law
------------------------------------------------------------

/-
  Every thread off the processor that can come back has a
  whole quantum, and the current thread has lost one unit for
  every tick.
-/
structure QuantumInv
    (timeQuantum : UInt32)
    (n : Nat)
    (s : State) : Prop where
  quantum : s.initialMaxQuantum = timeQuantum
  others :
    ∀ t < s.nextPtr, s.currentThread ≠ some t →
      (s.heap t).quantumLeft ≤ timeQuantum ∧
        ((s.heap t).thState ≠ .terminated →
          (s.heap t).quantumLeft = timeQuantum)
  current :
    ∀ c, s.currentThread = some c →
      (s.heap c).quantumLeft.toNat + n = timeQuantum.toNat

/- A thread that resumes keeps its counter. -/
theorem resume_quantumLeft (s : State) (t : ThreadPtr) :
    ((resume s).heap t).quantumLeft =
      (s.heap t).quantumLeft := by
  unfold resume
  split
  · rfl
  · split
    · rw [State.setThread_heap]
      split
      · rename_i h
        rw [h]
      · rfl
    · rfl

namespace QuantumInv

variable {timeQuantum : UInt32} {n : Nat} {s : State}

/- The invariant bounds the counters of all threads. -/
theorem bounded
    (hWf : WellFormed s)
    (hInv : QuantumInv timeQuantum n s) :
    QuantumBounded timeQuantum s := by
  intro t ht
  rw [hWf.mem_threads_iff] at ht
  by_cases hCurrent : s.currentThread = some t
  · have hLeft := hInv.current t hCurrent
    apply UInt32.le_iff_toNat_le.mpr
    omega
  · exact (hInv.others t ht hCurrent).1

/- A stored thread has a whole quantum. -/
theorem stored
    (hWf : WellFormed s)
    (hInv : QuantumInv timeQuantum n s)
    {t : ThreadPtr}
    (hStores : s.tp.Stores t) :
    (s.heap t).quantumLeft = timeQuantum := by
  have hRecord := hWf.stored_record hStores
  exact (hInv.others t (hWf.stored_lt t hStores)
    hRecord.1).2 hRecord.2.2.2

/- The invariant does not read the rest of the records. -/
theorem frame
    {s' : State}
    (hInv : QuantumInv timeQuantum n s)
    (hQuantum :
      s'.initialMaxQuantum = s.initialMaxQuantum)
    (hNextPtr : s'.nextPtr = s.nextPtr)
    (hCurrent : s'.currentThread = s.currentThread)
    (hLeft :
      ∀ t, (s'.heap t).quantumLeft =
        (s.heap t).quantumLeft)
    (hState :
      ∀ t, (s'.heap t).thState ≠ .terminated →
        (s.heap t).thState ≠ .terminated) :
    QuantumInv timeQuantum n s' where
  quantum := hQuantum.trans hInv.quantum
  others := by
    intro t ht hNe
    rw [hNextPtr] at ht
    rw [hCurrent] at hNe
    rw [hLeft]
    have hOthers := hInv.others t ht hNe
    exact ⟨hOthers.1, fun h => hOthers.2 (hState t h)⟩
  current := by
    intro c hc
    rw [hCurrent] at hc
    rw [hLeft]
    exact hInv.current c hc

/- Resuming charges nothing. -/
theorem resume
    (hInv : QuantumInv timeQuantum n s) :
    QuantumInv timeQuantum n (resume s) :=
  hInv.frame (by rw [resume_frame]) (by rw [resume_frame])
    (by rw [resume_frame]) (resume_quantumLeft s)
    (fun t h hTerminated =>
      h ((resume_status s t).terminated.mpr hTerminated))

/-
  The current thread leaves the processor with a legal
  counter: whoever follows it starts with no tick.
-/
theorem leave
    (hWf : WellFormed s)
    (hInv : QuantumInv timeQuantum n s)
    {c : ThreadPtr}
    (hCurrent : s.currentThread = some c)
    {thread : Thread}
    (hPriority : thread.priority = (s.heap c).priority)
    (hLeft :
      thread.quantumLeft ≤ timeQuantum ∧
        (thread.thState ≠ .terminated →
          thread.quantumLeft = timeQuantum)) :
    QuantumInv timeQuantum 0
        (getThreadFromQueue (s.setThread c thread)) ∧
      (getThreadFromQueue
        (s.setThread c thread)).currentThread ≠
          s.currentThread := by
  have hNotStored := hWf.not_stores_current hCurrent
  have hOther : ∀ t < s.nextPtr,
      ((s.setThread c thread).heap t).quantumLeft ≤
          timeQuantum ∧
        (((s.setThread c thread).heap t).thState ≠
            .terminated →
          ((s.setThread c thread).heap t).quantumLeft =
            timeQuantum) := by
    intro t ht
    by_cases htc : t = c
    · subst htc
      simpa using hLeft
    · have hNe : s.currentThread ≠ some t := by
        rw [hCurrent]
        exact fun h => htc (Option.some.inj h).symm
      simpa [htc] using hInv.others t ht hNe
  cases hHead : s.tp.getHead with
  | none =>
      simp only [getThreadFromQueue, State.setThread_tp,
        hHead]
      refine ⟨⟨hInv.quantum, fun t ht _ => hOther t ht,
        by simp⟩, ?_⟩
      rw [hCurrent]
      simp
  | some th =>
      have hStored := hWf.filed.stores_getHead hHead
      have hNe : th ≠ c := by
        rintro rfl
        exact hNotStored hStored
      simp only [getThreadFromQueue, State.setThread_tp,
        hHead]
      refine ⟨⟨hInv.quantum, fun t ht _ => hOther t ht, ?_⟩,
        ?_⟩
      · intro d hd
        cases hd
        have hWhole := hInv.stored hWf hStored
        simp [hNe, hWhole]
      · rw [hCurrent]
        simp [hNe]

/-
  Preemption: either nothing happens, or the old thread goes
  to the table with a whole quantum and the new one starts
  with no tick.  The old thread's own counter does not
  matter, since it is reset.
-/
theorem preempt
    (hWf : WellFormed s)
    (hQuantum : s.initialMaxQuantum = timeQuantum)
    {c : ThreadPtr}
    (hCurrent : s.currentThread = some c)
    (hOthers :
      ∀ t < s.nextPtr, s.currentThread ≠ some t →
        (s.heap t).quantumLeft ≤ timeQuantum ∧
          ((s.heap t).thState ≠ .terminated →
            (s.heap t).quantumLeft = timeQuantum))
    (expired : Bool) :
    (comparePriorities expired s = s ∧
        ∀ th, s.tp.getHead = some th →
          ¬ takesOver expired (s.heap th) (s.heap c)) ∨
      (QuantumInv timeQuantum 0
          (comparePriorities expired s) ∧
        (comparePriorities expired s).currentThread ≠
          some c ∧
        (comparePriorities expired s).tp.Stores c) := by
  rcases comparePriorities_cases expired s with
    ⟨hSame, hNot⟩ | ⟨th, c', hHead, hCurrent', _, hSwap⟩
  · exact Or.inl ⟨hSame,
      fun th hHead => hNot th c hHead hCurrent⟩
  · right
    have hEq : c' = c := by
      rw [hCurrent] at hCurrent'
      exact (Option.some.inj hCurrent').symm
    subst hEq
    have hStored := hWf.filed.stores_getHead hHead
    have hNe : th ≠ c' := by
      rintro rfl
      exact hWf.not_stores_current hCurrent hStored
    have hWhole :
        (s.heap th).quantumLeft = timeQuantum := by
      have hRecord := hWf.stored_record hStored
      exact (hOthers th (hWf.stored_lt th hStored)
        hRecord.1).2 hRecord.2.2.2
    rw [hSwap]
    refine ⟨⟨hQuantum, ?_, ?_⟩, by simp [hNe], ?_⟩
    · intro t ht _
      by_cases htc : t = c'
      · subst htc
        simp [hQuantum]
      · have hOld : s.currentThread ≠ some t := by
          rw [hCurrent]
          exact fun h => htc (Option.some.inj h).symm
        simpa [htc] using hOthers t ht hOld
    · intro d hd
      cases hd
      simp [hNe, hWhole]
    · exact (stores_swap_iff hWf hHead hCurrent c').mpr
        (Or.inr rfl)

/-
  A tick: the current thread stays with one unit less, or it
  is switched out; and it is switched out when it was its
  last unit, it is RUNNING and an equal is ready.
-/
theorem tick
    (hWf : WellFormed s)
    (hInv : QuantumInv timeQuantum n s)
    {c : ThreadPtr}
    (hCurrent : s.currentThread = some c)
    (hTick : s.tp.getHead.isSome ∧ s.nrThreads > 1)
    (hWrap :
      (s.heap c).quantumLeft = 0 →
        (s.heap c).thState = .running ∧
          ∃ x, s.tp.Stores x ∧ s.prio c < s.prio x)
    (hRunning :
      (s.heap c).quantumLeft = 1 →
        (∃ x, s.tp.Stores x ∧ s.prio c ≤ s.prio x) →
          (s.heap c).thState = .running) :
    ((checkScheduler s).currentThread = some c ∧
        QuantumInv timeQuantum (n + 1) (checkScheduler s) ∧
        (timeQuantum.toNat ≤ n + 1 →
          ¬ ∃ x, s.tp.Stores x ∧ s.prio c ≤ s.prio x)) ∨
      ((checkScheduler s).currentThread ≠ some c ∧
        QuantumInv timeQuantum 0 (checkScheduler s) ∧
        (checkScheduler s).tp.Stores c) := by
  rw [checkScheduler_of_tick hCurrent hTick]
  have hWfCharged : WellFormed (charged c s) :=
    hWf.setThread rfl rfl (Or.inl rfl)
  have hOthers : ∀ t < s.nextPtr,
      s.currentThread ≠ some t →
        ((charged c s).heap t).quantumLeft ≤
            timeQuantum ∧
          (((charged c s).heap t).thState ≠
              .terminated →
            ((charged c s).heap t).quantumLeft =
              timeQuantum) := by
    intro t ht hNe
    have htc : t ≠ c := by
      rintro rfl
      exact hNe hCurrent
    simpa [charged, htc] using hInv.others t ht hNe
  have hSum := hInv.current c hCurrent
  rcases preempt hWfCharged hInv.quantum hCurrent hOthers
      (decide ((s.heap c).quantumLeft = 1)) with
    ⟨hSame, hNot⟩ | ⟨hSwapped, hGone, hStored⟩
  · left
    rw [hSame]
    -- a thread that stays has not been charged below zero
    have hLeft : (s.heap c).quantumLeft ≠ 0 := by
      intro hZero
      rcases hWrap hZero with ⟨hState, x, hStores, hAbove⟩
      rcases hWf.filed.exists_head_ge hStores with
        ⟨th, hHead, _, hMax⟩
      apply hNot th hHead
      refine takesOver_of_lt ?_ ?_ _
      · rw [charged_prio]
        omega
      · simpa [charged] using hState
    have hOne :
        ((s.heap c).quantumLeft - 1).toNat + 1 =
          (s.heap c).quantumLeft.toNat := by
      have hPos : 1 ≤ (s.heap c).quantumLeft := by
        grind
      have hPosNat := UInt32.le_iff_toNat_le.mp hPos
      rw [UInt32.toNat_sub_of_le _ _ hPos]
      exact Nat.sub_add_cancel hPosNat
    refine ⟨hCurrent, ⟨hInv.quantum, hOthers, ?_⟩, ?_⟩
    · intro d hd
      have hdc : d = c := by
        rw [show (charged c s).currentThread =
          s.currentThread from rfl, hCurrent] at hd
        exact (Option.some.inj hd).symm
      subst hdc
      simp only [charged, State.setThread_heap, if_true]
      omega
    -- the last unit and an equal thread force the switch
    · rintro hUsed ⟨x, hStores, hAbove⟩
      have hLast : (s.heap c).quantumLeft = 1 := by
        apply UInt32.toNat_inj.mp
        have hNat : (1 : UInt32).toNat = 1 := rfl
        omega
      have hState := hRunning hLast ⟨x, hStores, hAbove⟩
      rcases hWf.filed.exists_head_ge hStores with
        ⟨th, hHead, hStored, hMax⟩
      have hNe : th ≠ c := by
        rintro rfl
        exact hWf.not_stores_current hCurrent hStored
      apply hNot th hHead
      have hGe :
          (s.heap th).priority ≥ (s.heap c).priority :=
        UInt32.le_iff_toNat_le.mpr (le_trans hAbove hMax)
      simpa [takesOver, charged, hNe, hLast, hState]
        using hGe
  · exact Or.inr ⟨hGone, hSwapped, hStored⟩

end QuantumInv

------------------------------------------------------------
-- The Law along a Run
------------------------------------------------------------

/- A table into which an element was put has a head. -/
theorem getHead_insert_isSome
    {α : Type} (atp : TP α) (x : α)
    {priority : Nat}
    (hPriority : priority ≤ soMaxPrio) :
    (atp.priorityTableInsert x priority).getHead.isSome :=
  (TP.getHead_isSome_iff _).mpr ⟨x,
    (atp.stores_priorityTableInsert_iff x
      hPriority x).mpr (Or.inr rfl)⟩

/- A started thread has a whole quantum. -/
theorem QuantumInv.startedBehind
    {timeQuantum : UInt32} {n : Nat} {s : State}
    (hInv : QuantumInv timeQuantum n s)
    (hWf : WellFormed s)
    (priority : UInt32) :
    QuantumInv timeQuantum n
      (startedBehind priority s) where
  quantum := hInv.quantum
  others := by
    intro t ht hNe
    rcases Nat.lt_succ_iff_lt_or_eq.mp ht with hLt | rfl
    · have htn : t ≠ s.nextPtr := Nat.ne_of_lt hLt
      simpa [Scheduler.startedBehind, State.setThread, htn]
        using hInv.others t hLt hNe
    · simp [Scheduler.startedBehind, State.setThread,
        startedRecord, hInv.quantum]
  current := by
    intro d hd
    have hdn : d ≠ s.nextPtr :=
      Nat.ne_of_lt (hWf.current_lt d hd)
    simpa [Scheduler.startedBehind, State.setThread, hdn]
      using hInv.current d hd

/- The first thread starts with a whole quantum. -/
theorem QuantumInv.startedFirst
    {timeQuantum : UInt32} {n : Nat} {s : State}
    (hInv : QuantumInv timeQuantum n s)
    (hIdle : s.currentThread = none)
    (priority : UInt32) :
    QuantumInv timeQuantum 0 (startedFirst priority s) where
  quantum := hInv.quantum
  others := by
    intro t ht hNe
    rcases Nat.lt_succ_iff_lt_or_eq.mp ht with hLt | rfl
    · have htn : t ≠ s.nextPtr := Nat.ne_of_lt hLt
      simpa [Scheduler.startedFirst, State.setThread, htn]
        using hInv.others t hLt (by simp [hIdle])
    · exact absurd rfl hNe
  current := by
    intro d hd
    cases hd
    simp [Scheduler.startedFirst, State.setThread,
      startedRecord, hInv.quantum]

/- Waking threads charges nothing; preemption may follow. -/
theorem QuantumInv.signal
    {timeQuantum : UInt32} {n : Nat} {s : State}
    (hInv : QuantumInv timeQuantum n s)
    (hWf : WellFormed s)
    {c : ThreadPtr}
    (hCurrent : s.currentThread = some c)
    {io : UInt32}
    (hIo : io < s.ioDev)
    (expired : Bool) :
    ((comparePriorities expired
          (wakeWaiting io s.threads 0 s).2).currentThread =
          s.currentThread ∧
        QuantumInv timeQuantum n
          (comparePriorities expired
            (wakeWaiting io s.threads 0 s).2)) ∨
      ((comparePriorities expired
          (wakeWaiting io s.threads 0 s).2).currentThread ≠
          s.currentThread ∧
        QuantumInv timeQuantum 0
          (comparePriorities expired
            (wakeWaiting io s.threads 0 s).2)) := by
  have hWake := hWf.wakeWaiting s.threads 0 hCurrent hIo
    (fun t ht => (hWf.mem_threads_iff t).mp ht)
  have hSameCurrent :=
    wakeWaiting_currentThread io s.threads 0 s
  have hInv' : QuantumInv timeQuantum n
      (wakeWaiting io s.threads 0 s).2 := by
    refine hInv.frame (by rw [wakeWaiting_frame])
      (by rw [wakeWaiting_frame]) hSameCurrent ?_ ?_
    · intro t
      rw [wakeWaiting_heap]
      split <;> rfl
    · intro t
      rw [wakeWaiting_heap]
      split <;> exact id
  rcases QuantumInv.preempt hWake hInv'.quantum
      (hSameCurrent.trans hCurrent) hInv'.others expired with
    ⟨hSame, _⟩ | ⟨hSwapped, hGone, _⟩
  · rw [hSame]
    exact Or.inl ⟨hSameCurrent, hInv'⟩
  · exact Or.inr ⟨by rwa [hCurrent], hSwapped⟩

/-
  A tick out of time breaks the law: the counter wraps, or
  the expired thread stays.
-/
theorem QuantumInv.tick_late
    {timeQuantum : UInt32} {n : Nat} {s : State}
    (hWf : WellFormed s)
    (hInv : QuantumInv timeQuantum n s)
    {c : ThreadPtr}
    (hCurrent : s.currentThread = some c)
    (hTick : s.tp.getHead.isSome ∧ s.nrThreads > 1)
    (hLate :
      ((s.heap c).quantumLeft = 0 ∧
          ¬ ((s.heap c).thState = .running ∧
            ∃ x, s.tp.Stores x ∧ s.prio c < s.prio x)) ∨
        ((s.heap c).quantumLeft = 1 ∧
          (s.heap c).thState ≠ .running)) :
    (checkScheduler s).currentThread = some c ∧
      ((s.heap c).quantumLeft = 0 →
        ((checkScheduler s).heap c).quantumLeft = -1) ∧
        ((s.heap c).quantumLeft = 1 →
          timeQuantum.toNat ≤ n + 1) := by
  rw [checkScheduler_of_tick hCurrent hTick]
  have hStays :
      comparePriorities
          (decide ((s.heap c).quantumLeft = 1))
          (charged c s) =
        charged c s := by
    rcases comparePriorities_cases
        (decide ((s.heap c).quantumLeft = 1))
        (charged c s) with
      ⟨hSame, _⟩ | ⟨th, d, hHead, hd, hTakes, _⟩
    · exact hSame
    · exfalso
      have hdc : d = c := by
        rw [show (charged c s).currentThread =
          s.currentThread from rfl, hCurrent] at hd
        exact (Option.some.inj hd).symm
      subst hdc
      have hState : (s.heap d).thState = .running := by
        simpa [charged] using hTakes.2
      rcases hLate with ⟨hZero, hNot⟩ | ⟨_, hNot⟩
      · have hStored := hWf.filed.stores_getHead hHead
        have hNe : th ≠ d := by
          rintro rfl
          exact hWf.not_stores_current hCurrent hStored
        have hAbove :
            (s.heap th).priority >
              (s.heap d).priority := by
          simpa [takesOver, charged, hNe, hZero, hState]
            using hTakes
        exact hNot ⟨hState, th, hStored,
          UInt32.lt_iff_toNat_lt.mp hAbove⟩
      · exact hNot hState
  rw [hStays]
  refine ⟨hCurrent, ?_, ?_⟩
  · intro hZero
    simp [charged, hZero]
  · intro hLast
    have hSum := hInv.current c hCurrent
    have hNat : (1 : UInt32).toNat = 1 := rfl
    rw [hLast] at hSum
    omega

/-
  A step whose check runs in the state `s₁`, which differs
  from `s` by at most one started thread.
-/
structure ChecksIn
    (s s₁ : State)
    (operation : Operation)
    (c : ThreadPtr) : Prop where
  wellFormed : WellFormed s₁
  current : s.currentThread = some c
  current₁ : s₁.currentThread = some c
  record : s₁.heap c = s.heap c
  charges :
    Charges s operation ↔
      s₁.tp.getHead.isSome ∧ s₁.nrThreads > 1
  ready :
    ∀ p, ReadyAtCheck s operation p ↔
      ∃ x, s₁.tp.Stores x ∧ s₁.prio x = p
  prio : s₁.prio c = s.prio c

namespace ChecksIn

variable {s s₁ : State} {operation : Operation}
variable {c : ThreadPtr}

theorem eq_of_current
    (hChecks : ChecksIn s s₁ operation c)
    {d : ThreadPtr}
    (hd : s.currentThread = some d) :
    d = c := by
  rw [hChecks.current] at hd
  exact (Option.some.inj hd).symm

/- The ready threads are those that the table stores. -/
theorem ready_iff
    (hChecks : ChecksIn s s₁ operation c)
    (P : Nat → Prop) :
    (∃ p, ReadyAtCheck s operation p ∧ P p) ↔
      ∃ x, s₁.tp.Stores x ∧ P (s₁.prio x) := by
  constructor
  · rintro ⟨p, hReady, hP⟩
    rcases (hChecks.ready p).mp hReady with ⟨x, hx, rfl⟩
    exact ⟨x, hx, hP⟩
  · rintro ⟨x, hx, hP⟩
    exact ⟨_, (hChecks.ready _).mpr ⟨x, hx, rfl⟩, hP⟩

/- A thread of at least the current priority is ready. -/
theorem ready_ge_iff
    (hChecks : ChecksIn s s₁ operation c) :
    (∃ p, ReadyAtCheck s operation p ∧ s.prio c ≤ p) ↔
      ∃ x, s₁.tp.Stores x ∧ s₁.prio c ≤ s₁.prio x := by
  rw [hChecks.prio]
  exact hChecks.ready_iff (fun p => s.prio c ≤ p)

/- A thread above the current priority is ready. -/
theorem ready_gt_iff
    (hChecks : ChecksIn s s₁ operation c) :
    (∃ p, ReadyAtCheck s operation p ∧ s.prio c < p) ↔
      ∃ x, s₁.tp.Stores x ∧ s₁.prio c < s₁.prio x := by
  rw [hChecks.prio]
  exact hChecks.ready_iff (fun p => s.prio c < p)

/- A charge in time keeps the invariant and obeys expiry. -/
theorem step
    {timeQuantum : UInt32} {n : Nat}
    (hChecks : ChecksIn s s₁ operation c)
    (hInv₁ : QuantumInv timeQuantum n s₁)
    (hInTime : ChargedInTime s operation) :
    QuantumInv timeQuantum
        (ticksAfter
          ⟨s, operation, resume (checkScheduler s₁)⟩ n)
        (resume (checkScheduler s₁)) ∧
      ExpiryObeyed timeQuantum n
        ⟨s, operation, resume (checkScheduler s₁)⟩ := by
  have hTarget :
      (resume (checkScheduler s₁)).currentThread =
        (checkScheduler s₁).currentThread := by
    rw [resume_frame]
  have hTargetTp :
      (resume (checkScheduler s₁)).tp =
        (checkScheduler s₁).tp := by
    rw [resume_frame]
  by_cases hTick : Charges s operation
  · have hLeft := hInTime c hChecks.current hTick
    rw [← hChecks.record, hChecks.ready_ge_iff,
      hChecks.ready_gt_iff] at hLeft
    rcases hInv₁.tick hChecks.wellFormed hChecks.current₁
        (hChecks.charges.mp hTick) hLeft.1 hLeft.2 with
      ⟨hStays, hInv', hUnused⟩ | ⟨hGone, hInv', hStored⟩
    · have hTicks :
          ticksAfter
            ⟨s, operation, resume (checkScheduler s₁)⟩ n =
              n + 1 := by
        simp [ticksAfter, hTarget, hStays, hChecks.current,
          hTick]
      rw [hTicks]
      refine ⟨hInv'.resume, ?_⟩
      intro d hd _ hUsed hSome
      have hdc := hChecks.eq_of_current hd
      subst hdc
      exact absurd (hChecks.ready_ge_iff.mp hSome)
        (hUnused hUsed)
    · have hTicks :
          ticksAfter
            ⟨s, operation, resume (checkScheduler s₁)⟩ n =
              0 := by
        simp [ticksAfter, hTarget, hGone, hChecks.current]
      rw [hTicks]
      refine ⟨hInv'.resume, ?_⟩
      intro d hd _ _ _
      have hdc := hChecks.eq_of_current hd
      subst hdc
      simp only [hTarget, hTargetTp]
      exact ⟨hGone, hStored⟩
  · have hSame : checkScheduler s₁ = s₁ := by
      rcases checkScheduler_cases s₁ with
        ⟨h, _⟩ | ⟨_, _, hSome, hMany, _⟩
      · exact h
      · exact absurd (hChecks.charges.mpr ⟨hSome, hMany⟩)
          hTick
    have hTicks :
        ticksAfter
          ⟨s, operation, resume (checkScheduler s₁)⟩ n =
            n := by
      rw [hSame, hChecks.current₁, ← hChecks.current]
        at hTarget
      rw [hSame]
      simp [ticksAfter, hTarget, hTick]
    rw [hTicks, hSame]
    exact ⟨hInv₁.resume, fun _ _ h => absurd h hTick⟩

/- A charge out of time breaks the law at once. -/
theorem late
    {timeQuantum : UInt32} {n : Nat}
    (hChecks : ChecksIn s s₁ operation c)
    (hInv₁ : QuantumInv timeQuantum n s₁)
    (hQuantum : timeQuantum ≠ -1)
    (hBounded :
      QuantumBounded timeQuantum
        (resume (checkScheduler s₁)))
    (hObeyed :
      ExpiryObeyed timeQuantum n
        ⟨s, operation, resume (checkScheduler s₁)⟩) :
    ChargedInTime s operation := by
  intro d hd hTick
  have hdc := hChecks.eq_of_current hd
  subst hdc
  have hTarget :
      (resume (checkScheduler s₁)).currentThread =
        (checkScheduler s₁).currentThread := by
    rw [resume_frame]
  have hMem : d ∈ (resume (checkScheduler s₁)).threads := by
    rw [resume_frame, checkScheduler_frame]
    exact (hChecks.wellFormed.mem_threads_iff d).mpr
      (hChecks.wellFormed.current_lt d hChecks.current₁)
  have hNotMinus :
      ((checkScheduler s₁).heap d).quantumLeft ≠ -1 := by
    intro hMinus
    have hLe := hBounded d hMem
    rw [resume_quantumLeft, hMinus] at hLe
    grind
  rw [← hChecks.record, hChecks.ready_ge_iff,
    hChecks.ready_gt_iff]
  constructor
  · intro hZero
    by_contra hNot
    rcases hInv₁.tick_late hChecks.wellFormed
        hChecks.current₁ (hChecks.charges.mp hTick)
        (Or.inl ⟨hZero, hNot⟩) with
      ⟨_, hMinus, _⟩
    exact hNotMinus (hMinus hZero)
  · intro hLast hReady
    by_contra hNot
    rcases hInv₁.tick_late hChecks.wellFormed
        hChecks.current₁ (hChecks.charges.mp hTick)
        (Or.inr ⟨hLast, hNot⟩) with
      ⟨hStays, _, hUsed⟩
    have hGone := hObeyed d hd hTick (hUsed hLast)
      (hChecks.ready_ge_iff.mpr hReady)
    exact hGone.1 (hTarget.trans hStays)

end ChecksIn

/- `so_exec` runs the check in the state it is called in. -/
theorem checksIn_soExec
    {s : State}
    (hWf : WellFormed s)
    {c : ThreadPtr}
    (hCurrent : s.currentThread = some c) :
    ChecksIn s s .soExec c where
  wellFormed := hWf
  current := hCurrent
  current₁ := hCurrent
  record := rfl
  charges := Iff.rfl
  ready := by
    intro p
    simp [ReadyAtCheck]
  prio := rfl

/- `so_fork` runs the check after it has filed the child. -/
theorem checksIn_soFork
    {s : State}
    (hWf : WellFormed s)
    {c : ThreadPtr}
    (hCurrent : s.currentThread = some c)
    {func : SoHandler} {priority : UInt32}
    (hLe : priority.toNat ≤ soMaxPrio)
    (hFunc : func ≠ 0) :
    ChecksIn s (startedBehind priority s)
      (.soFork func priority) c := by
  have hLt := hWf.current_lt c hCurrent
  have hNe : c ≠ s.nextPtr := Nat.ne_of_lt hLt
  have hStores :=
    s.tp.stores_priorityTableInsert_iff s.nextPtr hLe
  have hPrio : ∀ x < s.nextPtr, _ := fun x hx =>
    startedBehind_prio_old priority s hx
  refine ⟨hWf.startedBehind hCurrent hLe, hCurrent, hCurrent,
    ?_, ?_, ?_, hPrio c hLt⟩
  · simp [startedBehind, State.setThread, hNe]
  · simp [Charges, hLe, hFunc, hCurrent, startedBehind,
      getHead_insert_isSome s.tp s.nextPtr hLe]
  · intro p
    constructor
    · rintro (⟨x, h, rfl⟩ | hNew)
      · exact ⟨x, (hStores x).mpr (Or.inl h),
          hPrio x (hWf.stored_lt x h)⟩
      · exact ⟨s.nextPtr, (hStores _).mpr (Or.inr rfl),
          (startedBehind_prio_new priority s).trans
            hNew.symm⟩
    · rintro ⟨x, hx, rfl⟩
      rcases (hStores x).mp hx with h | rfl
      · exact Or.inl ⟨x, h,
          (hPrio x (hWf.stored_lt x h)).symm⟩
      · exact Or.inr (startedBehind_prio_new priority s)

/- Every step either runs one check or charges nothing. -/
theorem step_checks_or_uncharged
    {timeQuantum : UInt32} {n : Nat} {s s' : State}
    {operation : Operation}
    (hWf : WellFormed s)
    (hInv : QuantumInv timeQuantum n s)
    (hStep : step s operation = some s') :
    (∃ s₁ c, ChecksIn s s₁ operation c ∧
        QuantumInv timeQuantum n s₁ ∧
          s' = resume (checkScheduler s₁)) ∨
      (¬ Charges s operation ∧
        ∃ s₁, s' = resume s₁ ∧
          ((s₁.currentThread = s.currentThread ∧
              QuantumInv timeQuantum n s₁) ∨
            (s₁.currentThread ≠ s.currentThread ∧
              QuantumInv timeQuantum 0 s₁))) := by
  rcases step_cases hWf hStep with
    ⟨func, priority, rfl, hTarget⟩ | ⟨c, hCurrent, hCase⟩
  · rcases soFork_cases hWf func priority with
      ⟨hRefused, hFork⟩ | ⟨hLe, _, hIdle, hFork⟩ |
        ⟨hLe, hFunc, ⟨c, hCurrent⟩, hFork⟩
    · rw [hFork] at hTarget
      refine Or.inr ⟨?_, s, hTarget, Or.inl ⟨rfl, hInv⟩⟩
      rintro ⟨hLe, hFunc, _⟩
      rcases hRefused with h | h
      · omega
      · exact hFunc h
    · rw [hFork] at hTarget
      refine Or.inr ⟨?_, _, hTarget, Or.inr ⟨?_, ?_⟩⟩
      · rintro ⟨_, _, hSome, _⟩
        rw [hIdle] at hSome
        cases hSome
      · rw [hIdle]
        simp [startedFirst]
      · exact hInv.startedFirst hIdle priority
    · rw [hFork] at hTarget
      exact Or.inl ⟨_, c,
        checksIn_soFork hWf hCurrent hLe hFunc,
        hInv.startedBehind hWf priority, hTarget⟩
  · rcases hCase with ⟨rfl, hTarget⟩ |
      ⟨io, rfl, hIo, hTarget⟩ | ⟨io, rfl, hIo, hTarget⟩ |
        ⟨io, hCall, hIo, hTarget⟩ | ⟨rfl, hTarget⟩
    · exact Or.inl ⟨s, c, checksIn_soExec hWf hCurrent,
        hInv, hTarget⟩
    · refine Or.inr ⟨fun h => h, _, hTarget, Or.inr ?_⟩
      apply And.symm
      refine hInv.leave hWf hCurrent ?_ ⟨?_, ?_⟩
      · rfl
      · simp [hInv.quantum]
      · simp [hInv.quantum]
    · refine Or.inr ⟨fun h => h, _, hTarget, ?_⟩
      exact hInv.signal hWf hCurrent hIo _
    · refine Or.inr ⟨?_, s, hTarget, Or.inl ⟨rfl, hInv⟩⟩
      rcases hCall with rfl | rfl
      · exact fun h => h
      · exact fun h => h
    · refine Or.inr ⟨fun h => h, _, hTarget, Or.inr ?_⟩
      apply And.symm
      refine hInv.leave hWf hCurrent ?_ ⟨?_, ?_⟩
      · rfl
      · exact hInv.bounded hWf c ((hWf.mem_threads_iff c).mpr
          (hWf.current_lt c hCurrent))
      · simp

/-
  One step in time keeps the invariant for the new number of
  ticks, and obeys the expiry of the current thread.
-/
theorem QuantumInv.step
    {timeQuantum : UInt32} {n : Nat} {s s' : State}
    {operation : Operation}
    (hWf : WellFormed s)
    (hInv : QuantumInv timeQuantum n s)
    (hInTime : ChargedInTime s operation)
    (hStep : step s operation = some s') :
    QuantumInv timeQuantum
        (ticksAfter ⟨s, operation, s'⟩ n) s' ∧
      ExpiryObeyed timeQuantum n ⟨s, operation, s'⟩ := by
  rcases step_checks_or_uncharged hWf hInv hStep with
    ⟨s₁, c, hChecks, hInv₁, rfl⟩ |
      ⟨hNot, s₁, rfl, hEither⟩
  · exact hChecks.step hInv₁ hInTime
  · refine ⟨?_, fun _ _ h => absurd h hNot⟩
    have hResumed :
        (Scheduler.resume s₁).currentThread =
          s₁.currentThread := by
      rw [resume_frame]
    rcases hEither with ⟨hSame, hInv₁⟩ | ⟨hNew, hInv₁⟩
    · rw [show ticksAfter ⟨s, operation,
          Scheduler.resume s₁⟩ n = n by
        simp [ticksAfter, hResumed, hSame, hNot]]
      exact hInv₁.resume
    · rw [show ticksAfter ⟨s, operation,
          Scheduler.resume s₁⟩ n = 0 by
        simp [ticksAfter, hResumed, hNew]]
      exact hInv₁.resume

/- A step that obeys the law has charged in time. -/
theorem QuantumInv.chargedInTime
    {timeQuantum : UInt32} {n : Nat} {s s' : State}
    {operation : Operation}
    (hWf : WellFormed s)
    (hInv : QuantumInv timeQuantum n s)
    (hQuantum : timeQuantum ≠ -1)
    (hStep : Scheduler.step s operation = some s')
    (hBounded : QuantumBounded timeQuantum s')
    (hObeyed :
      ExpiryObeyed timeQuantum n ⟨s, operation, s'⟩) :
    ChargedInTime s operation := by
  rcases step_checks_or_uncharged hWf hInv hStep with
    ⟨s₁, c, hChecks, hInv₁, rfl⟩ | ⟨hNot, _⟩
  · exact hChecks.late hInv₁ hQuantum hBounded hObeyed
  · exact fun _ _ h => absurd h hNot

/- The invariant holds initially. -/
theorem QuantumInv.initialState
    (timeQuantum io : UInt32) :
    QuantumInv timeQuantum 0
      (initialState timeQuantum io) where
  quantum := rfl
  others := fun t ht => absurd ht (Nat.not_lt_zero t)
  current := by
    intro c hc
    cases hc

/-
  Along a run, charging in time is enough for the quantum law
  and keeps the invariant behind it; and for every quantum
  but the biggest 32-bit value the law needs it.
-/
private theorem quantumLaw_and_inv
    {timeQuantum io : UInt32}
    (hDevices : 1 ≤ io)
    {history : History} {s : State}
    (hRun : (schedulerSystem timeQuantum io).Run history s) :
    ((∀ t ∈ history, ChargedInTime t.source t.event) →
        QuantumInv timeQuantum (ticks history) s ∧
          QuantumLaw timeQuantum history s) ∧
      (timeQuantum ≠ -1 →
        QuantumLaw timeQuantum history s →
          ∀ t ∈ history, ChargedInTime t.source t.event) := by
  induction hRun with
  | @start s hInit =>
      rcases (soInit_eq_some_iff _ _ s).mp hInit with
        ⟨_, _, rfl⟩
      refine ⟨fun _ =>
        ⟨QuantumInv.initialState _ _, ?_⟩, by simp⟩
      intro t ht
      cases ht
  | @next history s s' e hEarlier hStep ih =>
      have hWf := wellFormed_of_run hDevices hEarlier
      simp only [List.mem_cons, forall_eq_or_imp]
      constructor
      · rintro ⟨hLast, hInTime⟩
        rcases ih.1 hInTime with ⟨hInv, hLaw⟩
        rcases hInv.step hWf hLast hStep with
          ⟨hInv', hObeyed⟩
        exact ⟨hInv',
          hInv'.bounded (hWf.step hStep), hObeyed, hLaw⟩
      · rintro hQuantum ⟨hBounded, hObeyed, hLaw⟩
        have hInTime := ih.2 hQuantum hLaw
        have hInv := (ih.1 hInTime).1
        exact ⟨hInv.chargedInTime hWf hQuantum hStep
          hBounded hObeyed, hInTime⟩

/-
  The quantum law holds along every run whose steps charge
  the current thread in time, and, for every quantum below
  the biggest 32-bit value, along no other.
-/
theorem quantumLaw_of_run
    {timeQuantum io : UInt32}
    (hDevices : 1 ≤ io)
    {history : History} {s : State}
    (hRun : (schedulerSystem timeQuantum io).Run history s) :
    ((∀ t ∈ history, ChargedInTime t.source t.event) →
        QuantumLaw timeQuantum history s) ∧
      (timeQuantum ≠ -1 →
        QuantumLaw timeQuantum history s →
          ∀ t ∈ history, ChargedInTime t.source t.event) :=
  ⟨fun hInTime =>
      ((quantumLaw_and_inv hDevices hRun).1 hInTime).2,
    (quantumLaw_and_inv hDevices hRun).2⟩

/- Two equal threads share the processor by quanta of 2. -/
theorem quantumLaw_of_roundRobin :
    ∃ (history : History) (s : State),
      s.currentThread = some 0 ∧
        QuantumLaw 2 history s := by
  rcases exists_run_of_operations
      (rfl : soInit false 2 1 = some (initialState 2 1))
      [.soFork 1 3, .soFork 1 3, .soExec, .soExec, .soExec]
      (fun history s => decide (s.currentThread = some 0 ∧
        ∀ t ∈ history, ∀ c ∈ t.source.currentThread,
          Charges t.source t.event →
            (t.source.heap c).quantumLeft ≠ 0 ∧
              (t.source.heap c).thState = .running))
      (by decide) with
    ⟨history, s, hRun, hReached⟩
  rcases of_decide_eq_true hReached with ⟨hCurrent, hTicks⟩
  refine ⟨history, s, hCurrent,
    (quantumLaw_of_run (by decide) hRun).1 ?_⟩
  intro t ht c hc hCharges
  have hBoth := hTicks t ht c hc hCharges
  exact ⟨fun h => absurd h hBoth.1, fun _ _ => hBoth.2⟩

/-
  A thread of priority 3 that only has lower ones behind it
  expires at its first tick and wraps at its second.
-/
theorem not_quantumLaw_of_every_run :
    ¬ ∀ (timeQuantum io : UInt32), 1 ≤ timeQuantum →
      1 ≤ io → ∀ (history : History) (s : State),
        (schedulerSystem timeQuantum io).Run history s →
          QuantumLaw timeQuantum history s := by
  intro hEvery
  rcases exists_run_of_operations
      (rfl : soInit false 1 1 = some (initialState 1 1))
      [.soFork 1 3, .soFork 1 2, .soExec]
      (fun history s => decide (history ≠ [] ∧
        0 ∈ s.threads ∧ ¬ (s.heap 0).quantumLeft ≤ 1))
      (by decide) with
    ⟨history, s, hRun, hReached⟩
  rcases of_decide_eq_true hReached with
    ⟨hNonempty, hListed, hWrapped⟩
  have hLaw := hEvery 1 1 (by decide) (by decide) history s
    hRun
  cases history with
  | nil => exact hNonempty rfl
  | cons t earlier => exact hWrapped (hLaw.1 0 hListed)

end Scheduler

end ProgrammingTasks
