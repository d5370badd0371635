import ProgrammingTasks.Scheduler.WellFormed

/-
  The priority law of the scheduler: the current thread has a
  priority at least that of every thread in the table.

  `compare_priorities` only preempts a thread whose `th_state`
  is RUNNING, and `so_wait` returns without setting it back
  from WAITING.  `Preemptible` is the exact condition on a
  step under which this does no harm.

  Main declarations:
    * `priorityLaw_step_iff`
    * `priorityLaw_along_iff`
    * `not_priorityLaw_of_every_run`
-/

------------------------------------------------------------
-- The Law and Its Condition
------------------------------------------------------------

namespace ProgrammingTasks

namespace Scheduler

/- No stored thread has a bigger priority than the current. -/
def PriorityLaw (s : State) : Prop :=
  ∀ c, s.currentThread = some c →
    ∀ t, s.tp.Stores t → s.prio t ≤ s.prio c

/- The step puts a thread of priority `p` into the table. -/
def MakesReady
    (s : State)
    (operation : Operation)
    (p : Nat) : Prop :=
  match operation with
  | .soFork func priority =>
      priority.toNat ≤ soMaxPrio ∧ func ≠ 0 ∧
        p = priority.toNat
  | .soSignal io =>
      io < s.ioDev ∧
        ∃ t ∈ s.threads,
          waitsOn io (s.heap t) ∧ p = s.prio t
  | _ => False

/-
  The 32-bit count of started threads, which `so_fork`
  increments and `check_scheduler` tests, has not wrapped.
-/
def Counted (s : State) (operation : Operation) : Prop :=
  match operation with
  | .soFork _ _ => s.nrThreads + 1 > 1
  | _ => True

/-
  A step that makes a thread of bigger priority ready is made
  by a thread whose state is RUNNING.
-/
def Preemptible
    (s : State)
    (operation : Operation) : Prop :=
  ∀ c, s.currentThread = some c →
    (∃ p, MakesReady s operation p ∧ s.prio c < p) →
      (s.heap c).thState = .running ∧ Counted s operation

------------------------------------------------------------
-- The Law after Each Function
------------------------------------------------------------

/- The law reads the current thread, table and priorities. -/
theorem PriorityLaw.congr
    {s s' : State}
    (hCurrent : s'.currentThread = s.currentThread)
    (hTp : s'.tp = s.tp)
    (hPrio : s'.prio = s.prio) :
    PriorityLaw s' ↔ PriorityLaw s := by
  unfold PriorityLaw
  rw [hCurrent, hTp, hPrio]

/- A thread that resumes leaves the law as it was. -/
theorem priorityLaw_resume_iff (s : State) :
    PriorityLaw (resume s) ↔ PriorityLaw s := by
  unfold resume
  split
  · rfl
  · split
    · exact PriorityLaw.congr rfl rfl (s.setThread_prio rfl)
    · rfl

/- The head of the table satisfies the law. -/
theorem priorityLaw_getThreadFromQueue
    {s : State}
    (hFiled : s.tp.Filed s.prio) :
    PriorityLaw (getThreadFromQueue s) := by
  intro c hCurrent t hStores
  cases hHead : s.tp.getHead with
  | none =>
      simp [getThreadFromQueue, hHead] at hCurrent
  | some th =>
      simp only [getThreadFromQueue, hHead,
        Option.some.injEq] at hCurrent hStores ⊢
      subst hCurrent
      rw [hFiled.stores_remove_getHead_iff hHead] at hStores
      exact (hFiled.getHead_spec hHead).2 t hStores.1

/-
  `compare_priorities` establishes the law for a running
  thread, and otherwise leaves it as it was.
-/
theorem priorityLaw_comparePriorities_iff
    {s : State}
    (hWf : WellFormed s)
    {c : ThreadPtr}
    (hCurrent : s.currentThread = some c)
    (expired : Bool) :
    PriorityLaw (comparePriorities expired s) ↔
      PriorityLaw s ∨ (s.heap c).thState = .running := by
  rcases comparePriorities_cases expired s with
    ⟨hSame, hNot⟩ | ⟨th, c', hHead, hCurrent', hTakes, hSwap⟩
  · rw [hSame]
    refine ⟨Or.inl, ?_⟩
    rintro (hLaw | hRunning)
    · exact hLaw
    -- a running thread is not replaced only by lower ones
    · intro d hd t hStores
      have hEq : d = c := by
        rw [hCurrent] at hd
        exact (Option.some.inj hd).symm
      subst hEq
      rcases hWf.filed.exists_head_ge hStores with
        ⟨th, hHead, _, hMax⟩
      by_contra hAbove
      exact hNot th d hHead hCurrent
        (takesOver_of_lt (by omega) hRunning expired)
  · have hEq : c' = c := by
      rw [hCurrent] at hCurrent'
      exact (Option.some.inj hCurrent').symm
    subst hEq
    have hPrio :
        (s.setThread c'
          { s.heap c' with
            quantumLeft := s.initialMaxQuantum }).prio =
          s.prio :=
      s.setThread_prio rfl
    refine iff_of_true ?_ (Or.inr hTakes.2)
    rw [hSwap]
    intro d hd t hStores
    cases hd
    change (s.setThread c' _).prio t ≤
      (s.setThread c' _).prio th
    rw [hPrio]
    rcases (stores_swap_iff hWf hHead hCurrent t).mp hStores
      with h | rfl
    · exact (hWf.filed.getHead_spec hHead).2 t h.1
    · apply UInt32.le_iff_toNat_le.mp
      rcases hTakes.1 with h | h
      · exact UInt32.le_of_lt h.1
      · exact h.1

/- `check_scheduler` does the same once threads are counted. -/
theorem priorityLaw_checkScheduler_iff
    {s : State}
    (hWf : WellFormed s)
    {c : ThreadPtr}
    (hCurrent : s.currentThread = some c) :
    PriorityLaw (checkScheduler s) ↔
      PriorityLaw s ∨
        ((s.heap c).thState = .running ∧
          s.nrThreads > 1) := by
  rcases checkScheduler_cases s with
    ⟨hSame, hNot⟩ | ⟨c', hCurrent', _, hMany, hTick⟩
  · rw [hSame]
    refine ⟨Or.inl, ?_⟩
    rintro (hLaw | ⟨_, hMany⟩)
    · exact hLaw
    -- the table is empty when the tick is skipped
    · intro d _ t hStores
      have hSome := s.tp.getHead_isSome_iff.mpr ⟨t, hStores⟩
      exact absurd ⟨hSome, hMany⟩ (hNot c hCurrent)
  · have hEq : c' = c := by
      rw [hCurrent] at hCurrent'
      exact (Option.some.inj hCurrent').symm
    subst hEq
    have hWfCharged : WellFormed (charged c' s) :=
      hWf.setThread rfl rfl (Or.inl rfl)
    have hCharged :
        PriorityLaw (charged c' s) ↔ PriorityLaw s :=
      PriorityLaw.congr rfl rfl (charged_prio c' s)
    have hState :
        ((charged c' s).heap c').thState =
          (s.heap c').thState := by
      simp [charged]
    rw [hTick, priorityLaw_comparePriorities_iff hWfCharged
      hCurrent, hCharged, hState]
    simp only [hMany, and_true]

/- A new thread must not be above the current one. -/
theorem priorityLaw_startedBehind_iff
    {s : State}
    (hWf : WellFormed s)
    {c : ThreadPtr}
    (hCurrent : s.currentThread = some c)
    {priority : UInt32}
    (hPriority : priority.toNat ≤ soMaxPrio) :
    PriorityLaw (startedBehind priority s) ↔
      PriorityLaw s ∧ priority.toNat ≤ s.prio c := by
  have hStores :=
    s.tp.stores_priorityTableInsert_iff s.nextPtr hPriority
  have hNew := startedBehind_prio_new priority s
  have hOld : ∀ t < s.nextPtr, _ := fun t ht =>
    startedBehind_prio_old priority s ht
  have hc := hOld c (hWf.current_lt c hCurrent)
  constructor
  · intro hLaw
    constructor
    · intro d hd t ht
      rw [hCurrent] at hd
      cases hd
      have hAbove := hLaw c hCurrent t
        ((hStores t).mpr (Or.inl ht))
      rwa [hOld t (hWf.stored_lt t ht), hc] at hAbove
    · have hAbove := hLaw c hCurrent s.nextPtr
        ((hStores _).mpr (Or.inr rfl))
      rwa [hNew, hc] at hAbove
  · rintro ⟨hLaw, hBelow⟩ d hd t ht
    have hEq : d = c := by
      rw [show (startedBehind priority s).currentThread =
        s.currentThread from rfl, hCurrent] at hd
      exact (Option.some.inj hd).symm
    subst hEq
    rw [hc]
    rcases (hStores t).mp ht with h | rfl
    · rw [hOld t (hWf.stored_lt t h)]
      exact hLaw d hCurrent t h
    · rw [hNew]
      exact hBelow

/- No woken thread must be above the current one. -/
theorem priorityLaw_wakeWaiting_iff
    {s : State}
    (hWf : WellFormed s)
    {c : ThreadPtr}
    (hCurrent : s.currentThread = some c)
    (io : UInt32) :
    PriorityLaw (wakeWaiting io s.threads 0 s).2 ↔
      PriorityLaw s ∧
        ∀ t ∈ s.threads, waitsOn io (s.heap t) →
          s.prio t ≤ s.prio c := by
  have hStores := hWf.signal_stores_iff io
  unfold PriorityLaw
  rw [wakeWaiting_currentThread, wakeWaiting_prio]
  constructor
  · intro hLaw
    refine ⟨fun d hd t ht =>
      hLaw d hd t ((hStores t).mpr (Or.inl ht)), ?_⟩
    intro t ht hWaits
    exact hLaw c hCurrent t
      ((hStores t).mpr (Or.inr ⟨ht, hWaits⟩))
  · rintro ⟨hLaw, hWoken⟩ d hd t ht
    rw [hCurrent] at hd
    cases hd
    rcases (hStores t).mp ht with h | ⟨h, hWaits⟩
    · exact hLaw c hCurrent t h
    · exact hWoken t h hWaits

------------------------------------------------------------
-- The Law along a Run
------------------------------------------------------------

/- A call that is refused or asks nothing keeps the law. -/
private theorem preemptible_of_not_makesReady
    {s : State} {operation : Operation}
    (hNone : ∀ p, ¬ MakesReady s operation p) :
    Preemptible s operation := by
  rintro c _ ⟨p, hReady, _⟩
  exact absurd hReady (hNone p)

/-
  Forking behind the current thread keeps the law exactly
  when the child is not above it, or the current thread can
  be preempted.
-/
private theorem priorityLaw_fork_iff
    {s : State}
    (hWf : WellFormed s)
    (hLaw : PriorityLaw s)
    {c : ThreadPtr}
    (hCurrent : s.currentThread = some c)
    {func : SoHandler} {priority : UInt32}
    (hLe : priority.toNat ≤ soMaxPrio)
    (hFunc : func ≠ 0) :
    PriorityLaw (checkScheduler
        (startedBehind priority s)) ↔
      Preemptible s (.soFork func priority) := by
  have hNe : c ≠ s.nextPtr :=
    Nat.ne_of_lt (hWf.current_lt c hCurrent)
  have hState :
      ((startedBehind priority s).heap c).thState =
        (s.heap c).thState := by
    simp [startedBehind, State.setThread, hNe]
  rw [priorityLaw_checkScheduler_iff
      (hWf.startedBehind hCurrent hLe) hCurrent,
    priorityLaw_startedBehind_iff hWf hCurrent hLe, hState]
  constructor
  · rintro hEither d hd ⟨p, ⟨_, _, rfl⟩, hAbove⟩
    rw [hCurrent] at hd
    cases hd
    rcases hEither with ⟨_, hBelow⟩ | hRunning
    · omega
    · exact hRunning
  · intro hPreemptible
    by_cases hBelow : priority.toNat ≤ s.prio c
    · exact Or.inl ⟨hLaw, hBelow⟩
    · exact Or.inr (hPreemptible c hCurrent
        ⟨_, ⟨hLe, hFunc, rfl⟩, by omega⟩)

/-
  Signalling keeps the law exactly when no woken thread is
  above the current one, or the current thread can be
  preempted.
-/
private theorem priorityLaw_signal_iff
    {s : State}
    (hWf : WellFormed s)
    (hLaw : PriorityLaw s)
    {c : ThreadPtr}
    (hCurrent : s.currentThread = some c)
    {io : UInt32}
    (hIo : io < s.ioDev)
    (expired : Bool) :
    PriorityLaw (comparePriorities expired
        (wakeWaiting io s.threads 0 s).2) ↔
      Preemptible s (.soSignal io) := by
  have hWoken := hWf.wakeWaiting s.threads 0 hCurrent hIo
    (fun t ht => (hWf.mem_threads_iff t).mp ht)
  have hCurrent' :
      (wakeWaiting io s.threads 0 s).2.currentThread =
        some c :=
    (wakeWaiting_currentThread io _ _ s).trans hCurrent
  rw [priorityLaw_comparePriorities_iff hWoken hCurrent',
    priorityLaw_wakeWaiting_iff hWf hCurrent,
    hWf.signal_heap_current hCurrent hIo]
  constructor
  · rintro hEither d hd
      ⟨p, ⟨_, t, ht, hWaits, rfl⟩, hAbove⟩
    rw [hCurrent] at hd
    cases hd
    rcases hEither with ⟨_, hBelow⟩ | hRunning
    · have hLe := hBelow t ht hWaits
      omega
    · exact ⟨hRunning, trivial⟩
  · intro hPreemptible
    by_cases hBelow :
        ∀ t ∈ s.threads, waitsOn io (s.heap t) →
          s.prio t ≤ s.prio c
    · exact Or.inl ⟨hLaw, hBelow⟩
    · push Not at hBelow
      rcases hBelow with ⟨t, ht, hWaits, hAbove⟩
      exact Or.inr (hPreemptible c hCurrent
        ⟨_, ⟨hIo, t, ht, hWaits, rfl⟩, hAbove⟩).1

/-
  From a state that satisfies the law, a step leads to one
  that does exactly when the step is preemptible.
-/
theorem priorityLaw_step_iff
    {s s' : State} {operation : Operation}
    (hWf : WellFormed s)
    (hLaw : PriorityLaw s)
    (hStep : step s operation = some s') :
    PriorityLaw s' ↔ Preemptible s operation := by
  rcases step_cases hWf hStep with
    ⟨func, priority, rfl, rfl⟩ | ⟨c, hCurrent, hCase⟩
  · rw [priorityLaw_resume_iff]
    rcases soFork_cases hWf func priority with
      ⟨hRefused, hFork⟩ | ⟨hLe, _, hIdle, hFork⟩ |
        ⟨hLe, hFunc, ⟨c, hCurrent⟩, hFork⟩
    · rw [hFork]
      refine iff_of_true hLaw
        (preemptible_of_not_makesReady ?_)
      rintro p ⟨hLe, hFunc, _⟩
      rcases hRefused with h | h
      · omega
      · exact hFunc h
    · rw [hFork]
      refine iff_of_true ?_ ?_
      · intro c _ t hStores
        exact absurd hStores
          (hWf.not_stores_startedFirst hIdle hLe t)
      · intro c hc
        rw [hIdle] at hc
        cases hc
    · rw [hFork]
      exact priorityLaw_fork_iff hWf hLaw hCurrent hLe hFunc
  · rcases hCase with ⟨rfl, rfl⟩ | ⟨io, rfl, hIo, rfl⟩ |
      ⟨io, rfl, hIo, rfl⟩ | ⟨io, hCall, hIo, rfl⟩ |
        ⟨rfl, rfl⟩
    · rw [priorityLaw_resume_iff]
      refine iff_of_true ?_
        (preemptible_of_not_makesReady (fun _ h => h))
      rw [priorityLaw_checkScheduler_iff hWf hCurrent]
      exact Or.inl hLaw
    · rw [priorityLaw_resume_iff]
      refine iff_of_true (priorityLaw_getThreadFromQueue ?_)
        (preemptible_of_not_makesReady (fun _ h => h))
      rw [State.setThread_tp, s.setThread_prio (by rfl)]
      exact hWf.filed
    · rw [priorityLaw_resume_iff]
      exact priorityLaw_signal_iff hWf hLaw hCurrent hIo _
    · rw [priorityLaw_resume_iff]
      refine iff_of_true hLaw
        (preemptible_of_not_makesReady ?_)
      rcases hCall with rfl | rfl
      · exact fun _ h => h
      · exact fun _ h => hIo h.1
    · rw [priorityLaw_resume_iff]
      refine iff_of_true (priorityLaw_getThreadFromQueue ?_)
        (preemptible_of_not_makesReady (fun _ h => h))
      rw [State.setThread_tp, s.setThread_prio (by rfl)]
      exact hWf.filed

/-
  The law holds in every state of a run exactly when every
  step of the run is preemptible.
-/
theorem priorityLaw_along_iff
    {timeQuantum io : UInt32}
    (hDevices : 1 ≤ io)
    {history : History} {s : State}
    (hRun : (schedulerSystem timeQuantum io).Run history s) :
    (PriorityLaw s ∧ ∀ t ∈ history, PriorityLaw t.source) ↔
      ∀ t ∈ history, Preemptible t.source t.event := by
  induction hRun with
  | @start s hInit =>
      rcases (soInit_eq_some_iff _ _ s).mp hInit with
        ⟨_, _, rfl⟩
      refine iff_of_true ⟨?_, by simp⟩ (by simp)
      intro c hc
      cases hc
  | @next history s s' e hEarlier hStep ih =>
      have hWf := wellFormed_of_run hDevices hEarlier
      simp only [List.mem_cons, forall_eq_or_imp]
      constructor
      · rintro ⟨hLaw', hLaw, hSources⟩
        exact ⟨(priorityLaw_step_iff hWf hLaw hStep).mp hLaw',
          ih.mp ⟨hLaw, hSources⟩⟩
      · rintro ⟨hPreemptible, hSteps⟩
        rcases ih.mpr hSteps with ⟨hLaw, hSources⟩
        exact ⟨(priorityLaw_step_iff hWf hLaw hStep).mpr
          hPreemptible, hLaw, hSources⟩

/-
  A thread of priority 2 starts one of priority 1, waits and
  is signalled; it runs on as WAITING when it starts a third
  thread.
-/
def returnFromWait (priority : UInt32) : List Operation :=
  [.soFork 1 2, .soFork 1 1, .soWait 0, .soSignal 0,
    .soFork 1 priority]

/-
  A third thread of the waiter's own priority does no harm: it
  is the only one that a WAITING thread starts.
-/
theorem priorityLaw_along_returnFromWait :
    ∃ (history : History) (s : State),
      (schedulerSystem 5 1).Run history s ∧
        s.currentThread = some 0 ∧
          (s.heap 0).thState = .waiting ∧
            s.tp.Stores 2 ∧
              PriorityLaw s ∧
                ∀ t ∈ history, PriorityLaw t.source := by
  rcases exists_run_of_operations
      (rfl : soInit false 5 1 = some (initialState 5 1))
      (returnFromWait 2)
      (fun history s =>
        decide
          ((s.currentThread = some 0 ∧
            (s.heap 0).thState = .waiting ∧ s.tp.Stores 2) ∧
          ∀ t ∈ history, ∀ c ∈ t.source.currentThread,
            ((t.source.heap c).thState = .running ∧
              t.source.nrThreads + 1 > 1) ∨
            (t.event = .soFork 1 2 ∧ t.source.prio c = 2)))
      (by decide) with
    ⟨history, s, hRun, hReached⟩
  rcases of_decide_eq_true hReached with
    ⟨⟨hCurrent, hWaiting, hStored⟩, hEach⟩
  refine ⟨history, s, hRun, hCurrent, hWaiting, hStored,
    (priorityLaw_along_iff (by decide) hRun).mpr ?_⟩
  intro t hMem c hc hReady
  rcases hEach t hMem c hc with
    ⟨hRunning, hCount⟩ | ⟨hEvent, hPrio⟩
  · refine ⟨hRunning, ?_⟩
    unfold Counted
    split
    · exact hCount
    · trivial
  · rcases hReady with ⟨p, hMakes, hLess⟩
    rw [hEvent] at hMakes
    have hSame : p = 2 := hMakes.2.2
    omega

/- A third thread above the waiter does not preempt it. -/
theorem not_priorityLaw_of_every_run :
    ¬ ∀ (timeQuantum io : UInt32), 1 ≤ timeQuantum →
      1 ≤ io → ∀ (history : History) (s : State),
        (schedulerSystem timeQuantum io).Run history s →
          PriorityLaw s := by
  intro hEvery
  rcases exists_run_of_operations
      (rfl : soInit false 5 1 = some (initialState 5 1))
      (returnFromWait 3)
      (fun _ s => decide (s.currentThread = some 0 ∧
        s.tp.Stores 2 ∧ s.prio 0 < s.prio 2))
      (by decide) with
    ⟨history, s, hRun, hReached⟩
  rcases of_decide_eq_true hReached with
    ⟨hCurrent, hStores, hLt⟩
  have hLaw := hEvery 5 1 (by decide) (by decide) history s
    hRun 0 hCurrent 2 hStores
  omega

end Scheduler

end ProgrammingTasks
