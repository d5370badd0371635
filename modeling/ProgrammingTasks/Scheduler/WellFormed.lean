import ProgrammingTasks.Scheduler.Operations

/-
  The state invariant of the scheduler.

  `Placed` says where one thread is: it is current, it is
  stored in the table, it is blocked on a device, or it has
  ended.  `WellFormed` puts every allocated thread in one of
  these places and keeps the table filed by priority.

  Main declarations:
    * `WellFormed.comparePriorities`
    * `WellFormed.leave`
    * `WellFormed.soFork`
    * `WellFormed.wakeWaiting`
    * `WellFormed.step`
-/

------------------------------------------------------------
-- Places of a Thread
------------------------------------------------------------

namespace ProgrammingTasks

namespace Scheduler

/- The thread has entered the schedule and has not ended. -/
def Live (state : ThreadState) : Prop :=
  state ≠ .new ∧ state ≠ .terminated

/- The one place of an allocated thread. -/
inductive Placed (s : State) (t : ThreadPtr) : Prop
| current :
    s.currentThread = some t → ¬ s.tp.Stores t →
      (s.heap t).ioDevice = noDevice →
        Live (s.heap t).thState → Placed s t
| ready :
    s.currentThread ≠ some t → s.tp.Stores t →
      (s.heap t).ioDevice = noDevice →
        Live (s.heap t).thState → Placed s t
| blocked :
    s.currentThread ≠ some t → ¬ s.tp.Stores t →
      (s.heap t).ioDevice < s.ioDev →
        (s.heap t).thState = .waiting → Placed s t
| ended :
    s.currentThread ≠ some t → ¬ s.tp.Stores t →
      (s.heap t).ioDevice = noDevice →
        (s.heap t).thState = .terminated → Placed s t

/- A thread that has left the processor and the table. -/
theorem Placed.of_left
    {s : State} {t : ThreadPtr}
    (hNotCurrent : s.currentThread ≠ some t)
    (hNotStored : ¬ s.tp.Stores t)
    (hOut :
      ((s.heap t).ioDevice < s.ioDev ∧
          (s.heap t).thState = .waiting) ∨
        ((s.heap t).ioDevice = noDevice ∧
          (s.heap t).thState = .terminated)) :
    Placed s t := by
  rcases hOut with ⟨hDevice, hState⟩ | ⟨hDevice, hState⟩
  · exact .blocked hNotCurrent hNotStored hDevice hState
  · exact .ended hNotCurrent hNotStored hDevice hState

/- A thread that a change does not touch keeps its place. -/
theorem Placed.frame
    {s s' : State} {t : ThreadPtr}
    (hPlaced : Placed s t)
    (hDevices : s'.ioDev = s.ioDev)
    (hDevice :
      (s'.heap t).ioDevice = (s.heap t).ioDevice)
    (hState : (s'.heap t).thState = (s.heap t).thState)
    (hStores : s'.tp.Stores t ↔ s.tp.Stores t)
    (hCurrent :
      s'.currentThread = some t ↔
        s.currentThread = some t) :
    Placed s' t := by
  cases hPlaced with
  | current h₁ h₂ h₃ h₄ =>
      exact .current (hCurrent.mpr h₁)
        (fun h => h₂ (hStores.mp h)) (hDevice.trans h₃)
        (hState ▸ h₄)
  | ready h₁ h₂ h₃ h₄ =>
      exact .ready (fun h => h₁ (hCurrent.mp h))
        (hStores.mpr h₂) (hDevice.trans h₃) (hState ▸ h₄)
  | blocked h₁ h₂ h₃ h₄ =>
      exact .blocked (fun h => h₁ (hCurrent.mp h))
        (fun h => h₂ (hStores.mp h))
        (by rw [hDevice, hDevices]; exact h₃)
        (hState.trans h₄)
  | ended h₁ h₂ h₃ h₄ =>
      exact .ended (fun h => h₁ (hCurrent.mp h))
        (fun h => h₂ (hStores.mp h)) (hDevice.trans h₃)
        (hState.trans h₄)

/- The invariant between two scheduler operations. -/
structure WellFormed (s : State) : Prop where
  devices : 1 ≤ s.ioDev ∧ s.ioDev ≤ soMaxNumEvents
  listed : s.threads = List.range s.nextPtr
  filed : s.tp.Filed s.prio
  priority_le : ∀ t < s.nextPtr, s.prio t ≤ soMaxPrio
  placed : ∀ t < s.nextPtr, Placed s t
  stored_lt : ∀ t, s.tp.Stores t → t < s.nextPtr
  current_lt :
    ∀ t, s.currentThread = some t → t < s.nextPtr
  idle :
    s.currentThread = none → ∀ t, ¬ s.tp.Stores t

------------------------------------------------------------
-- Small Facts about the Operations
------------------------------------------------------------

/- With at least one device, the bound test is `io ≥ io_dev`. -/
theorem not_gt_sub_one_iff
    {io ioDev : UInt32}
    (hDevices : 1 ≤ ioDev) :
    ¬ io > ioDev - 1 ↔ io < ioDev := by
  grind

/- `-1` is no device index. -/
theorem not_noDevice_lt
    {ioDev : UInt32}
    (hDevices : ioDev ≤ soMaxNumEvents) :
    ¬ noDevice < ioDev := by
  unfold noDevice soMaxNumEvents at *
  grind

namespace State

@[simp] theorem setThread_heap
    (s : State) (t t' : ThreadPtr) (thread : Thread) :
    (s.setThread t thread).heap t' =
      if t' = t then thread else s.heap t' := by
  simp only [setThread, Function.update_apply]

@[simp] theorem setThread_tp
    (s : State) (t : ThreadPtr) (thread : Thread) :
    (s.setThread t thread).tp = s.tp := rfl

@[simp] theorem setThread_threads
    (s : State) (t : ThreadPtr) (thread : Thread) :
    (s.setThread t thread).threads = s.threads := rfl

@[simp] theorem setThread_ioDev
    (s : State) (t : ThreadPtr) (thread : Thread) :
    (s.setThread t thread).ioDev = s.ioDev := rfl

@[simp] theorem setThread_initialMaxQuantum
    (s : State) (t : ThreadPtr) (thread : Thread) :
    (s.setThread t thread).initialMaxQuantum =
      s.initialMaxQuantum := rfl

@[simp] theorem setThread_nrThreads
    (s : State) (t : ThreadPtr) (thread : Thread) :
    (s.setThread t thread).nrThreads = s.nrThreads := rfl

@[simp] theorem setThread_currentThread
    (s : State) (t : ThreadPtr) (thread : Thread) :
    (s.setThread t thread).currentThread =
      s.currentThread := rfl

@[simp] theorem setThread_nextPtr
    (s : State) (t : ThreadPtr) (thread : Thread) :
    (s.setThread t thread).nextPtr = s.nextPtr := rfl

/- Writing a thread with its old priority moves no index. -/
theorem setThread_prio
    (s : State) {t : ThreadPtr} {thread : Thread}
    (hPriority :
      thread.priority = (s.heap t).priority) :
    (s.setThread t thread).prio = s.prio := by
  funext t'
  by_cases ht : t' = t
  · subst ht
    simp [prio, hPriority]
  · simp [prio, ht]

end State

namespace WellFormed

variable {s : State}

/- The current thread is not stored in the table. -/
theorem not_stores_current
    (hWf : WellFormed s)
    {c : ThreadPtr}
    (hCurrent : s.currentThread = some c) :
    ¬ s.tp.Stores c := by
  cases hWf.placed c (hWf.current_lt c hCurrent) with
  | current _ hNot _ _ => exact hNot
  | ready hNe _ _ _ => exact absurd hCurrent hNe
  | blocked _ hNot _ _ => exact hNot
  | ended _ hNot _ _ => exact hNot

/- What the current thread's record says. -/
theorem current_record
    (hWf : WellFormed s)
    {c : ThreadPtr}
    (hCurrent : s.currentThread = some c) :
    (s.heap c).ioDevice = noDevice ∧
      Live (s.heap c).thState := by
  cases hWf.placed c (hWf.current_lt c hCurrent) with
  | current _ _ hDevice hLive => exact ⟨hDevice, hLive⟩
  | ready hNe _ _ _ => exact absurd hCurrent hNe
  | blocked hNe _ _ _ => exact absurd hCurrent hNe
  | ended hNe _ _ _ => exact absurd hCurrent hNe

/- What the record of a stored thread says. -/
theorem stored_record
    (hWf : WellFormed s)
    {t : ThreadPtr}
    (hStores : s.tp.Stores t) :
    s.currentThread ≠ some t ∧
      (s.heap t).ioDevice = noDevice ∧
        Live (s.heap t).thState := by
  cases hWf.placed t (hWf.stored_lt t hStores) with
  | current _ hNot _ _ => exact absurd hStores hNot
  | ready hNe _ hDevice hLive => exact ⟨hNe, hDevice, hLive⟩
  | blocked _ hNot _ _ => exact absurd hStores hNot
  | ended _ hNot _ _ => exact absurd hStores hNot

/- Only the counters of a thread may change in place. -/
theorem setThread
    (hWf : WellFormed s)
    {t : ThreadPtr} {thread : Thread}
    (hPriority : thread.priority = (s.heap t).priority)
    (hDevice : thread.ioDevice = (s.heap t).ioDevice)
    (hState :
      thread.thState = (s.heap t).thState ∨
        (Live thread.thState ∧ (s.heap t).thState = .ready)) :
    WellFormed (s.setThread t thread) where
  devices := hWf.devices
  listed := hWf.listed
  filed := by
    rw [s.setThread_prio hPriority]
    exact hWf.filed
  priority_le := by
    rw [s.setThread_prio hPriority]
    exact hWf.priority_le
  placed := by
    intro t' ht'
    by_cases ht : t' = t
    · subst ht
      rcases hState with hState | ⟨hLive, hReady⟩
      · exact (hWf.placed t' ht').frame rfl
          (by simp [hDevice]) (by simp [hState])
          Iff.rfl Iff.rfl
      · cases hWf.placed t' ht' with
        | current h₁ h₂ h₃ h₄ =>
            exact .current h₁ h₂ (by simp [hDevice, h₃])
              (by simpa using hLive)
        | ready h₁ h₂ h₃ h₄ =>
            exact .ready h₁ h₂ (by simp [hDevice, h₃])
              (by simpa using hLive)
        | blocked h₁ h₂ h₃ h₄ => simp [hReady] at h₄
        | ended h₁ h₂ h₃ h₄ => simp [hReady] at h₄
    · exact (hWf.placed t' ht').frame rfl
        (by simp [ht]) (by simp [ht]) Iff.rfl Iff.rfl
  stored_lt := hWf.stored_lt
  current_lt := hWf.current_lt
  idle := hWf.idle

end WellFormed

------------------------------------------------------------
-- Preemption
------------------------------------------------------------

/-
  What `compare_priorities` can do: nothing, or swap the head
  of the table with the current thread.
-/
theorem comparePriorities_cases
    (expired : Bool) (s : State) :
    (comparePriorities expired s = s ∧
        ∀ th c, s.tp.getHead = some th →
          s.currentThread = some c →
            ¬ takesOver expired (s.heap th) (s.heap c)) ∨
      ∃ th c,
        s.tp.getHead = some th ∧
          s.currentThread = some c ∧
            takesOver expired (s.heap th) (s.heap c) ∧
              comparePriorities expired s =
                { s.setThread c
                    { s.heap c with
                      quantumLeft :=
                        s.initialMaxQuantum } with
                  currentThread := some th
                  tp :=
                    (s.tp.priorityTableRemove
                      (s.prio th)).priorityTableInsert c
                        (s.prio c) } := by
  cases hHead : s.tp.getHead with
  | none =>
      left
      exact ⟨by simp [comparePriorities, hHead], by simp⟩
  | some th =>
      cases hCurrent : s.currentThread with
      | none =>
          left
          exact ⟨by
            simp [comparePriorities, hHead, hCurrent],
            by simp⟩
      | some c =>
          by_cases hTakes :
              takesOver expired (s.heap th) (s.heap c)
          · right
            refine ⟨th, c, rfl, rfl, hTakes, ?_⟩
            have hPrio :
                (s.setThread c
                  { s.heap c with
                    quantumLeft :=
                      s.initialMaxQuantum }).prio =
                  s.prio :=
              s.setThread_prio rfl
            simp only [comparePriorities, hHead, hCurrent,
              hTakes, if_true, hPrio, State.setThread_tp]
          · left
            refine ⟨by simp [comparePriorities, hHead,
              hCurrent, hTakes], ?_⟩
            intro th' c' hth' hc'
            cases hth'
            cases hc'
            exact hTakes

/- A head of bigger priority takes over a running thread. -/
theorem takesOver_of_lt
    {s : State} {th c : ThreadPtr}
    (hLt : s.prio c < s.prio th)
    (hRunning : (s.heap c).thState = .running)
    (expired : Bool) :
    takesOver expired (s.heap th) (s.heap c) := by
  have hGt :
      (s.heap th).priority > (s.heap c).priority :=
    UInt32.lt_iff_toNat_lt.mpr hLt
  refine ⟨?_, hRunning⟩
  cases expired with
  | false => exact Or.inl ⟨hGt, rfl⟩
  | true => exact Or.inr ⟨UInt32.le_of_lt hGt, rfl⟩

/- Membership in the table after the swap. -/
theorem stores_swap_iff
    {s : State}
    (hWf : WellFormed s)
    {th c : ThreadPtr}
    (hHead : s.tp.getHead = some th)
    (hCurrent : s.currentThread = some c)
    (t : ThreadPtr) :
    ((s.tp.priorityTableRemove
        (s.prio th)).priorityTableInsert c
          (s.prio c)).Stores t ↔
      (s.tp.Stores t ∧ t ≠ th) ∨ t = c := by
  rw [TP.stores_priorityTableInsert_iff _ _
    (hWf.priority_le c (hWf.current_lt c hCurrent)),
    hWf.filed.stores_remove_getHead_iff hHead]

/- Preemption keeps the scheduler well formed. -/
theorem WellFormed.comparePriorities
    {s : State}
    (hWf : WellFormed s)
    (expired : Bool) :
    WellFormed (comparePriorities expired s) := by
  rcases comparePriorities_cases expired s with
    ⟨hSame, _⟩ | ⟨th, c, hHead, hCurrent, _, hSwap⟩
  · rw [hSame]
    exact hWf
  · have hStored := hWf.filed.stores_getHead hHead
    have hNotStored := hWf.not_stores_current hCurrent
    have hNe : th ≠ c := by
      rintro rfl
      exact hNotStored hStored
    have hStores := stores_swap_iff hWf hHead hCurrent
    have hCurrentLt := hWf.current_lt c hCurrent
    have hPrio :
        (s.setThread c
          { s.heap c with
            quantumLeft := s.initialMaxQuantum }).prio =
          s.prio :=
      s.setThread_prio rfl
    rw [hSwap]
    refine ⟨hWf.devices, hWf.listed, ?_, ?_, ?_, ?_, ?_, ?_⟩
    · change TP.Filed _ (s.setThread c _).prio
      rw [hPrio]
      apply (hWf.filed.remove _).insert
        (hWf.priority_le c hCurrentLt)
      rw [hWf.filed.stores_remove_getHead_iff hHead]
      exact fun h => hNotStored h.1
    · change ∀ t < s.nextPtr, (s.setThread c _).prio t ≤ _
      rw [hPrio]
      exact hWf.priority_le
    · intro t ht
      by_cases htc : t = c
      · subst htc
        have hRecord := hWf.current_record hCurrent
        exact .ready (by simp [hNe])
          ((hStores t).mpr (Or.inr rfl))
          (by simpa using hRecord.1)
          (by simpa using hRecord.2)
      · by_cases hth : t = th
        · subst hth
          have hRecord := hWf.stored_record hStored
          refine .current rfl ?_ (by simpa [htc] using
            hRecord.2.1) (by simpa [htc] using hRecord.2.2)
          intro h
          rcases (hStores t).mp h with h | h
          · exact h.2 rfl
          · exact htc h
        · refine (hWf.placed t ht).frame rfl
            (by simp [htc]) (by simp [htc]) ?_ ?_
          · refine (hStores t).trans ?_
            simp [htc, hth]
          · simp only [hCurrent, Option.some.injEq]
            exact ⟨fun h => absurd h.symm hth,
              fun h => absurd h.symm htc⟩
    · intro t h
      rcases (hStores t).mp h with h | rfl
      · exact hWf.stored_lt t h.1
      · exact hCurrentLt
    · intro t h
      cases h
      exact hWf.stored_lt th hStored
    · intro h
      cases h

/- The current thread pays one tick of its quantum. -/
def charged (c : ThreadPtr) (s : State) : State :=
  s.setThread c
    { s.heap c with
      quantumLeft := (s.heap c).quantumLeft - 1 }

theorem charged_prio (c : ThreadPtr) (s : State) :
    (charged c s).prio = s.prio :=
  s.setThread_prio rfl

/-
  What `check_scheduler` does: nothing, or a tick after which
  the current thread has expired when it was its last one.
-/
theorem checkScheduler_cases (s : State) :
    (checkScheduler s = s ∧
        ∀ c, s.currentThread = some c →
          ¬ (s.tp.getHead.isSome ∧ s.nrThreads > 1)) ∨
      ∃ c, s.currentThread = some c ∧
        s.tp.getHead.isSome ∧ s.nrThreads > 1 ∧
          checkScheduler s =
            comparePriorities
              (decide ((s.heap c).quantumLeft = 1))
              (charged c s) := by
  cases hCurrent : s.currentThread with
  | none =>
      exact Or.inl ⟨by simp [checkScheduler, hCurrent],
        by simp⟩
  | some c =>
      by_cases hTick : s.tp.getHead.isSome ∧ s.nrThreads > 1
      · right
        refine ⟨c, rfl, hTick.1, hTick.2, ?_⟩
        have hLeft :
            (s.heap c).quantumLeft - 1 > 0 ↔
              (s.heap c).quantumLeft ≠ 1 := by
          grind
        simp only [checkScheduler, hCurrent, hTick, and_self,
          if_true, State.setThread_heap, hLeft, charged]
        by_cases hLast : (s.heap c).quantumLeft = 1 <;>
          simp [hLast]
      · left
        refine ⟨by
          simp only [checkScheduler, hCurrent, hTick,
            if_false], ?_⟩
        intro _ _
        exact hTick

/- A tick of the current thread charges it. -/
theorem checkScheduler_of_tick
    {s : State} {c : ThreadPtr}
    (hCurrent : s.currentThread = some c)
    (hTick : s.tp.getHead.isSome ∧ s.nrThreads > 1) :
    checkScheduler s =
      comparePriorities
        (decide ((s.heap c).quantumLeft = 1))
        (charged c s) := by
  rcases checkScheduler_cases s with
    ⟨_, hNot⟩ | ⟨c', hCurrent', _, _, hCharged⟩
  · exact absurd hTick (hNot c hCurrent)
  · rw [hCurrent] at hCurrent'
    cases hCurrent'
    exact hCharged

/- A tick keeps the scheduler well formed. -/
theorem WellFormed.checkScheduler
    {s : State}
    (hWf : WellFormed s) :
    WellFormed (checkScheduler s) := by
  rcases checkScheduler_cases s with
    ⟨hSame, _⟩ | ⟨c, _, _, _, hTick⟩
  · rw [hSame]
    exact hWf
  · rw [hTick]
    have hCharged : WellFormed (charged c s) :=
      hWf.setThread rfl rfl (Or.inl rfl)
    exact hCharged.comparePriorities _

/- A thread that resumes keeps the scheduler well formed. -/
theorem WellFormed.resume
    {s : State}
    (hWf : WellFormed s) :
    WellFormed (resume s) := by
  cases hCurrent : s.currentThread with
  | none =>
      simpa [Scheduler.resume, hCurrent] using hWf
  | some c =>
      simp only [Scheduler.resume, hCurrent]
      split
      · rename_i hReady
        exact hWf.setThread rfl rfl
          (Or.inr ⟨by simp [Live], hReady⟩)
      · exact hWf

------------------------------------------------------------
-- Leaving the Processor
------------------------------------------------------------

/-
  The current thread blocks or ends, and the head of the
  table becomes current.
-/
theorem WellFormed.leave
    {s : State}
    (hWf : WellFormed s)
    {c : ThreadPtr}
    (hCurrent : s.currentThread = some c)
    {thread : Thread}
    (hPriority : thread.priority = (s.heap c).priority)
    (hOut :
      (thread.ioDevice < s.ioDev ∧
          thread.thState = .waiting) ∨
        (thread.ioDevice = noDevice ∧
          thread.thState = .terminated)) :
    WellFormed (getThreadFromQueue
      (s.setThread c thread)) := by
  have hPrio := s.setThread_prio hPriority
  have hNotStored := hWf.not_stores_current hCurrent
  -- every other thread is untouched, except a new current one
  cases hHead : s.tp.getHead with
  | none =>
      have hEmpty := (TP.getHead_eq_none_iff s.tp).mp hHead
      simp only [getThreadFromQueue, State.setThread_tp,
        hHead]
      refine ⟨hWf.devices, hWf.listed, ?_, ?_, ?_,
        hWf.stored_lt, by simp, fun _ => hEmpty⟩
      · change TP.Filed s.tp (s.setThread c thread).prio
        rw [hPrio]
        exact hWf.filed
      · change ∀ t < s.nextPtr,
          (s.setThread c thread).prio t ≤ _
        rw [hPrio]
        exact hWf.priority_le
      · intro t ht
        by_cases htc : t = c
        · subst htc
          exact Placed.of_left (by simp) hNotStored
            (by simpa using hOut)
        · refine (hWf.placed t ht).frame rfl
            (by simp [htc]) (by simp [htc]) Iff.rfl ?_
          simp only [hCurrent, reduceCtorEq,
            Option.some.injEq, false_iff]
          exact fun h => htc h.symm
  | some th =>
      have hStored := hWf.filed.stores_getHead hHead
      have hNe : th ≠ c := by
        rintro rfl
        exact hNotStored hStored
      have hStores :=
        hWf.filed.stores_remove_getHead_iff hHead
      simp only [getThreadFromQueue, State.setThread_tp,
        hHead, hPrio]
      refine ⟨hWf.devices, hWf.listed, ?_, ?_, ?_, ?_, ?_,
        by simp⟩
      · change TP.Filed _ (s.setThread c thread).prio
        rw [hPrio]
        exact hWf.filed.remove _
      · change ∀ t < s.nextPtr,
          (s.setThread c thread).prio t ≤ _
        rw [hPrio]
        exact hWf.priority_le
      · intro t ht
        by_cases htc : t = c
        · subst htc
          have hOutside :
              ¬ (s.tp.priorityTableRemove
                (s.prio th)).Stores t :=
            fun h => hNotStored ((hStores t).mp h).1
          exact Placed.of_left (by simp [hNe]) hOutside
            (by simpa using hOut)
        · by_cases hth : t = th
          · subst hth
            have hRecord := hWf.stored_record hStored
            exact .current rfl
              (fun h => ((hStores t).mp h).2 rfl)
              (by simpa [htc] using hRecord.2.1)
              (by simpa [htc] using hRecord.2.2)
          · refine (hWf.placed t ht).frame rfl
              (by simp [htc]) (by simp [htc]) ?_ ?_
            · refine (hStores t).trans ?_
              simp [hth]
            · simp only [hCurrent, Option.some.injEq]
              exact ⟨fun h => absurd h.symm hth,
                fun h => absurd h.symm htc⟩
      · exact fun t h =>
          hWf.stored_lt t ((hStores t).mp h).1
      · intro t h
        cases h
        exact hWf.stored_lt th hStored

/-
  `th_handler` marks the thread TERMINATED after it has left
  the processor; the order of the two does not show.
-/
theorem thHandlerEnd_eq
    (t : ThreadPtr) (s : State) :
    thHandlerEnd t s =
      getThreadFromQueue (s.setThread t
        { s.heap t with thState := .terminated }) := by
  have hPrio :
      (s.setThread t
        { s.heap t with thState := .terminated }).prio =
          s.prio :=
    s.setThread_prio rfl
  cases hHead : s.tp.getHead with
  | none =>
      simp [thHandlerEnd, getThreadFromQueue, hHead,
        State.setThread]
  | some th =>
      simp only [thHandlerEnd, getThreadFromQueue, hHead,
        State.setThread_tp, hPrio]
      rfl

------------------------------------------------------------
-- Starting a Thread
------------------------------------------------------------

/- The record of a thread that has just been started. -/
def startedRecord
    (s : State)
    (priority : UInt32)
    (thState : ThreadState) : Thread :=
  ⟨noDevice, priority, s.initialMaxQuantum, thState⟩

/-
  With a current thread, a new thread is filed at the end of
  its list and waits there.
-/
def startedBehind
    (priority : UInt32)
    (s : State) : State :=
  { s.setThread s.nextPtr
      (startedRecord s priority .ready) with
    tp := s.tp.priorityTableInsert s.nextPtr
      priority.toNat
    threads := s.threads ++ [s.nextPtr]
    nextPtr := s.nextPtr + 1
    nrThreads := s.nrThreads + 1 }

/- Without a current thread, a new thread runs at once. -/
def startedFirst
    (priority : UInt32)
    (s : State) : State :=
  { s.setThread s.nextPtr
      (startedRecord s priority .running) with
    tp := (s.tp.priorityTableInsert s.nextPtr
      priority.toNat).priorityTableRemove priority.toNat
    threads := s.threads ++ [s.nextPtr]
    nextPtr := s.nextPtr + 1
    nrThreads := s.nrThreads + 1
    currentThread := some s.nextPtr }

/- Starting a thread sets its priority and no other. -/
theorem startedBehind_prio_new
    (priority : UInt32) (s : State) :
    (startedBehind priority s).prio s.nextPtr =
      priority.toNat := by
  simp [startedBehind, State.prio, State.setThread,
    startedRecord]

theorem startedBehind_prio_old
    (priority : UInt32) (s : State)
    {t : ThreadPtr}
    (ht : t < s.nextPtr) :
    (startedBehind priority s).prio t = s.prio t := by
  have hNe : t ≠ s.nextPtr := Nat.ne_of_lt ht
  simp [startedBehind, State.prio, State.setThread, hNe]

theorem startedFirst_prio_new
    (priority : UInt32) (s : State) :
    (startedFirst priority s).prio s.nextPtr =
      priority.toNat := by
  simp [startedFirst, State.prio, State.setThread,
    startedRecord]

theorem startedFirst_prio_old
    (priority : UInt32) (s : State)
    {t : ThreadPtr}
    (ht : t < s.nextPtr) :
    (startedFirst priority s).prio t = s.prio t := by
  have hNe : t ≠ s.nextPtr := Nat.ne_of_lt ht
  simp [startedFirst, State.prio, State.setThread, hNe]

theorem thHandlerStart_of_current
    {s : State} {c : ThreadPtr}
    (hCurrent : s.currentThread = some c)
    (priority : UInt32) :
    thHandlerStart s.nextPtr (allocThread priority s) =
      startedBehind priority s := by
  simp [thHandlerStart, allocThread, startedBehind,
    startedRecord, State.setThread, State.prio, hCurrent]

/- In an empty table the new thread is its own head. -/
theorem getHead_insert_of_empty
    {α : Type} {atp : TP α}
    (hEmpty : ∀ x, ¬ atp.Stores x)
    (x : α) {priority : Nat}
    (hPriority : priority ≤ soMaxPrio) :
    (atp.priorityTableInsert x priority).getHead =
      some x := by
  have hStores :=
    atp.stores_priorityTableInsert_iff x hPriority
  cases hHead :
      (atp.priorityTableInsert x priority).getHead with
  | none =>
      have hNone :=
        (TP.getHead_eq_none_iff _).mp hHead x
      exact absurd ((hStores x).mpr (Or.inr rfl)) hNone
  | some y =>
      rcases TP.getHeadBelow_spec _ _ _ hHead with
        ⟨p, _, ⟨rest, hList⟩, _⟩
      have hy := (hStores y).mp ⟨p, by simp [hList]⟩
      rcases hy with hy | rfl
      · exact absurd hy (hEmpty y)
      · rfl

theorem thHandlerStart_of_idle
    {s : State}
    (hIdle : s.currentThread = none)
    (hEmpty : ∀ t, ¬ s.tp.Stores t)
    {priority : UInt32}
    (hPriority : priority.toNat ≤ soMaxPrio) :
    thHandlerStart s.nextPtr (allocThread priority s) =
      startedFirst priority s := by
  have hHead := getHead_insert_of_empty hEmpty s.nextPtr
    hPriority
  simp [thHandlerStart, allocThread, startedFirst,
    startedRecord, State.setThread, State.prio, hIdle,
    hHead]

namespace WellFormed

variable {s : State}

/- No pointer beyond the allocated ones is in the table. -/
theorem not_stores_nextPtr (hWf : WellFormed s) :
    ¬ s.tp.Stores s.nextPtr := fun h =>
  absurd (hWf.stored_lt _ h) (Nat.lt_irrefl _)

/- The table with the new thread is filed. -/
private theorem filed_insert_new
    (hWf : WellFormed s)
    {priority : UInt32}
    (hPriority : priority.toNat ≤ soMaxPrio)
    {s' : State}
    (hNew : s'.prio s.nextPtr = priority.toNat)
    (hOld : ∀ t < s.nextPtr, s'.prio t = s.prio t) :
    (s.tp.priorityTableInsert s.nextPtr
      priority.toNat).Filed s'.prio := by
  have hFiled : s.tp.Filed s'.prio :=
    hWf.filed.congr
      (fun t ht => hOld t (hWf.stored_lt t ht))
  rw [← hNew]
  exact hFiled.insert (by rw [hNew]; exact hPriority)
    hWf.not_stores_nextPtr

private theorem priority_le_new
    (hWf : WellFormed s)
    {priority : UInt32}
    (hPriority : priority.toNat ≤ soMaxPrio)
    {s' : State}
    (hNew : s'.prio s.nextPtr = priority.toNat)
    (hOld : ∀ t < s.nextPtr, s'.prio t = s.prio t)
    (t : ThreadPtr)
    (ht : t < s.nextPtr + 1) :
    s'.prio t ≤ soMaxPrio := by
  rcases Nat.lt_succ_iff_lt_or_eq.mp ht with hLt | rfl
  · rw [hOld t hLt]
    exact hWf.priority_le t hLt
  · rw [hNew]
    exact hPriority

/- A thread started behind the current one is ready. -/
theorem startedBehind
    (hWf : WellFormed s)
    {c : ThreadPtr}
    (hCurrent : s.currentThread = some c)
    {priority : UInt32}
    (hPriority : priority.toNat ≤ soMaxPrio) :
    WellFormed (startedBehind priority s) := by
  have hNew := startedBehind_prio_new priority s
  have hOld : ∀ t < s.nextPtr, _ := fun t ht =>
    startedBehind_prio_old priority s ht
  have hStores :=
    s.tp.stores_priorityTableInsert_iff s.nextPtr hPriority
  refine ⟨hWf.devices, ?_, ?_, ?_, ?_, ?_, ?_, ?_⟩
  · change s.threads ++ [s.nextPtr] =
      List.range (s.nextPtr + 1)
    rw [hWf.listed, List.range_succ]
  · exact hWf.filed_insert_new hPriority hNew hOld
  · exact hWf.priority_le_new hPriority hNew hOld
  · intro t ht
    rcases Nat.lt_succ_iff_lt_or_eq.mp ht with hLt | rfl
    · have hNe : t ≠ s.nextPtr := Nat.ne_of_lt hLt
      refine (hWf.placed t hLt).frame rfl ?_ ?_ ?_ Iff.rfl
      · simp [Scheduler.startedBehind, State.setThread, hNe]
      · simp [Scheduler.startedBehind, State.setThread, hNe]
      · refine (hStores t).trans ?_
        simp [hNe]
    · refine .ready ?_ ((hStores _).mpr (Or.inr rfl)) ?_ ?_
      · intro h
        exact absurd (hWf.current_lt _ h)
          (Nat.lt_irrefl _)
      · simp [Scheduler.startedBehind, State.setThread,
          startedRecord]
      · simp [Scheduler.startedBehind, State.setThread,
          startedRecord, Live]
  · intro t h
    rcases (hStores t).mp h with h | rfl
    · exact Nat.lt_succ_of_lt (hWf.stored_lt t h)
    · exact Nat.lt_succ_self _
  · exact fun t h =>
      Nat.lt_succ_of_lt (hWf.current_lt t h)
  · intro h
    rw [show (Scheduler.startedBehind priority
      s).currentThread = s.currentThread from rfl,
      hCurrent] at h
    cases h

/- The first thread leaves no other thread in the table. -/
theorem not_stores_startedFirst
    (hWf : WellFormed s)
    (hIdle : s.currentThread = none)
    {priority : UInt32}
    (hPriority : priority.toNat ≤ soMaxPrio)
    (t : ThreadPtr) :
    ¬ (Scheduler.startedFirst priority s).tp.Stores t := by
  have hEmpty := hWf.idle hIdle
  have hHead := getHead_insert_of_empty hEmpty s.nextPtr
    hPriority
  have hFiled := hWf.filed_insert_new hPriority
    (startedFirst_prio_new priority s)
    (fun t ht => startedFirst_prio_old priority s ht)
  have hRemove := hFiled.stores_remove_getHead_iff hHead t
  rw [startedFirst_prio_new] at hRemove
  change ¬ ((s.tp.priorityTableInsert s.nextPtr
    priority.toNat).priorityTableRemove
      priority.toNat).Stores t
  rw [hRemove, s.tp.stores_priorityTableInsert_iff
    s.nextPtr hPriority]
  rintro ⟨h | h, hNe⟩
  · exact hEmpty t h
  · exact hNe h

/- A thread started in an idle system is current. -/
theorem startedFirst
    (hWf : WellFormed s)
    (hIdle : s.currentThread = none)
    {priority : UInt32}
    (hPriority : priority.toNat ≤ soMaxPrio) :
    WellFormed (startedFirst priority s) := by
  have hNew := startedFirst_prio_new priority s
  have hOld : ∀ t < s.nextPtr, _ := fun t ht =>
    startedFirst_prio_old priority s ht
  have hFiled := hWf.filed_insert_new hPriority hNew hOld
  have hEmpty := hWf.idle hIdle
  have hNone := hWf.not_stores_startedFirst hIdle hPriority
  refine ⟨hWf.devices, ?_, ?_, ?_, ?_, ?_, ?_, ?_⟩
  · change s.threads ++ [s.nextPtr] =
      List.range (s.nextPtr + 1)
    rw [hWf.listed, List.range_succ]
  · exact hFiled.remove _
  · exact hWf.priority_le_new hPriority hNew hOld
  · intro t ht
    rcases Nat.lt_succ_iff_lt_or_eq.mp ht with hLt | rfl
    · have hNe : t ≠ s.nextPtr := Nat.ne_of_lt hLt
      refine (hWf.placed t hLt).frame rfl ?_ ?_ ?_ ?_
      · simp [Scheduler.startedFirst, State.setThread, hNe]
      · simp [Scheduler.startedFirst, State.setThread, hNe]
      · exact iff_of_false (hNone t) (hEmpty t)
      · simp only [Scheduler.startedFirst, hIdle,
          Option.some.injEq, reduceCtorEq, iff_false]
        exact fun h => hNe h.symm
    · refine .current rfl (hNone _) ?_ ?_
      · simp [Scheduler.startedFirst, State.setThread,
          startedRecord]
      · simp [Scheduler.startedFirst, State.setThread,
          startedRecord, Live]
  · exact fun t h => absurd h (hNone t)
  · intro t h
    cases h
    exact Nat.lt_succ_self _
  · intro h
    cases h

end WellFormed

/-
  What `so_fork` does: it rejects the call, or it starts the
  first thread, or it starts a thread behind the current one
  and checks the current one.
-/
theorem soFork_cases
    {s : State}
    (hWf : WellFormed s)
    (func : SoHandler) (priority : UInt32) :
    ((priority.toNat > soMaxPrio ∨ func = 0) ∧
        soFork func priority s = (none, s)) ∨
      (priority.toNat ≤ soMaxPrio ∧ func ≠ 0 ∧
        s.currentThread = none ∧
          soFork func priority s =
            (some s.nextPtr, startedFirst priority s)) ∨
        (priority.toNat ≤ soMaxPrio ∧ func ≠ 0 ∧
          (∃ c, s.currentThread = some c) ∧
            soFork func priority s =
              (some s.nextPtr,
                checkScheduler
                  (startedBehind priority s))) := by
  by_cases hPriority : priority.toNat > soMaxPrio
  · exact Or.inl ⟨Or.inl hPriority,
      by simp [soFork, hPriority]⟩
  · by_cases hFunc : func = 0
    · exact Or.inl ⟨Or.inr hFunc,
        by simp [soFork, hPriority, hFunc]⟩
    · right
      have hLe : priority.toNat ≤ soMaxPrio := by omega
      cases hCurrent : s.currentThread with
      | none =>
          left
          refine ⟨hLe, hFunc, rfl, ?_⟩
          simp [soFork, hPriority, hFunc,
            thHandlerStart_of_idle hCurrent
              (hWf.idle hCurrent) hLe, startedFirst,
            startedRecord]
      | some c =>
          right
          refine ⟨hLe, hFunc, ⟨c, rfl⟩, ?_⟩
          simp [soFork, hPriority, hFunc,
            thHandlerStart_of_current hCurrent,
            startedBehind, startedRecord]

theorem WellFormed.soFork
    {s : State}
    (hWf : WellFormed s)
    (func : SoHandler) (priority : UInt32) :
    WellFormed (soFork func priority s).2 := by
  rcases soFork_cases hWf func priority with
    ⟨_, hFork⟩ | ⟨hLe, _, hIdle, hFork⟩ |
      ⟨hLe, _, ⟨c, hCurrent⟩, hFork⟩
  · rw [hFork]
    exact hWf
  · rw [hFork]
    exact hWf.startedFirst hIdle hLe
  · rw [hFork]
    exact (hWf.startedBehind hCurrent hLe).checkScheduler

------------------------------------------------------------
-- Waking Threads
------------------------------------------------------------

/- One thread that waits on a device becomes ready. -/
def wokenThread
    (t : ThreadPtr)
    (s : State) : State :=
  { s.setThread t
      { s.heap t with ioDevice := noDevice } with
    tp := s.tp.priorityTableInsert t (s.prio t) }

/- The loop of `so_signal` wakes one thread after another. -/
theorem wakeWaiting_cons
    (io : UInt32) (t : ThreadPtr)
    (urm : List ThreadPtr) (n : Int) (s : State) :
    wakeWaiting io (t :: urm) n s =
      if waitsOn io (s.heap t) then
        wakeWaiting io urm (n + 1) (wokenThread t s)
      else
        wakeWaiting io urm n s := by
  have hPrio :
      (s.setThread t
        { s.heap t with ioDevice := noDevice }).prio =
          s.prio :=
    s.setThread_prio rfl
  simp only [wakeWaiting, wokenThread, hPrio,
    State.setThread_tp]

/-
  The loop touches only the device of the woken threads and
  the table.
-/
theorem wakeWaiting_frame
    (io : UInt32) :
    ∀ (urm : List ThreadPtr) (n : Int) (s : State),
      (wakeWaiting io urm n s).2 =
        { s with
          heap := (wakeWaiting io urm n s).2.heap
          tp := (wakeWaiting io urm n s).2.tp }
| [], _, _ => rfl
| t :: urm, n, s => by
    rw [wakeWaiting_cons]
    by_cases hWaits : waitsOn io (s.heap t)
    · simp only [hWaits, if_true]
      exact wakeWaiting_frame io urm (n + 1)
        (wokenThread t s)
    · simp only [hWaits, if_false]
      exact wakeWaiting_frame io urm n s

/- The records after the loop. -/
theorem wakeWaiting_heap
    (io : UInt32) :
    ∀ (urm : List ThreadPtr) (n : Int) (s : State)
      (t : ThreadPtr),
      (wakeWaiting io urm n s).2.heap t =
        if t ∈ urm ∧ waitsOn io (s.heap t) then
          { s.heap t with ioDevice := noDevice }
        else
          s.heap t
| [], _, _, _ => by simp [wakeWaiting]
| u :: urm, n, s, t => by
    rw [wakeWaiting_cons]
    by_cases hWaits : waitsOn io (s.heap u)
    · simp only [hWaits, if_true]
      rw [wakeWaiting_heap io urm]
      by_cases htu : t = u
      · subst htu
        simp [hWaits, wokenThread]
      · have hSame :
            (wokenThread u s).heap t = s.heap t := by
          simp [wokenThread, htu]
        simp [hSame, htu]
    · simp only [hWaits, if_false]
      rw [wakeWaiting_heap io urm]
      by_cases htu : t = u
      · subst htu
        simp [hWaits]
      · simp [htu]

/- Waking a thread changes no priority. -/
theorem wakeWaiting_prio
    (io : UInt32)
    (urm : List ThreadPtr) (n : Int) (s : State) :
    (wakeWaiting io urm n s).2.prio = s.prio := by
  funext t
  unfold State.prio
  rw [wakeWaiting_heap io]
  split <;> rfl

/- The table after the loop stores the woken threads too. -/
theorem wakeWaiting_stores_iff
    (io : UInt32) :
    ∀ (urm : List ThreadPtr) (n : Int) (s : State),
      (∀ t ∈ urm, s.prio t ≤ soMaxPrio) →
        ∀ t, (wakeWaiting io urm n s).2.tp.Stores t ↔
          s.tp.Stores t ∨
            (t ∈ urm ∧ waitsOn io (s.heap t))
| [], _, _, _, _ => by simp [wakeWaiting]
| u :: urm, n, s, hPriority, t => by
    have hu := hPriority u List.mem_cons_self
    have hUrm : ∀ t ∈ urm, s.prio t ≤ soMaxPrio :=
      fun t ht => hPriority t (List.mem_cons_of_mem _ ht)
    rw [wakeWaiting_cons]
    by_cases hWaits : waitsOn io (s.heap u)
    · have hPrio : (wokenThread u s).prio = s.prio :=
        s.setThread_prio rfl
      simp only [hWaits, if_true]
      rw [wakeWaiting_stores_iff io urm (n + 1)
        (wokenThread u s) (by rw [hPrio]; exact hUrm) t]
      change (s.tp.priorityTableInsert u
        (s.prio u)).Stores t ∨ _ ↔ _
      rw [s.tp.stores_priorityTableInsert_iff u hu]
      by_cases htu : t = u
      · subst htu
        simp [hWaits]
      · have hSame :
            (wokenThread u s).heap t = s.heap t := by
          simp [wokenThread, htu]
        simp [hSame, htu]
    · simp only [hWaits, if_false]
      rw [wakeWaiting_stores_iff io urm n s hUrm t]
      by_cases htu : t = u
      · subst htu
        simp [hWaits]
      · simp [htu]

/- A thread that waits on a device is blocked. -/
theorem WellFormed.blocked_of_waitsOn
    {s : State}
    (hWf : WellFormed s)
    {io : UInt32}
    (hIo : io < s.ioDev)
    {t : ThreadPtr}
    (ht : t < s.nextPtr)
    (hWaits : waitsOn io (s.heap t)) :
    s.currentThread ≠ some t ∧ ¬ s.tp.Stores t := by
  have hNoDevice := not_noDevice_lt hWf.devices.2
  have hDevice : (s.heap t).ioDevice ≠ noDevice := by
    rw [hWaits.1]
    rintro rfl
    exact hNoDevice hIo
  cases hWf.placed t ht with
  | current _ _ h _ => exact absurd h hDevice
  | ready _ _ h _ => exact absurd h hDevice
  | blocked h₁ h₂ _ _ => exact ⟨h₁, h₂⟩
  | ended _ _ h _ => exact absurd h hDevice

/- A woken thread moves from its device to the table. -/
theorem WellFormed.wokenThread
    {s : State}
    (hWf : WellFormed s)
    {c : ThreadPtr}
    (hCurrent : s.currentThread = some c)
    {io : UInt32}
    (hIo : io < s.ioDev)
    {t : ThreadPtr}
    (ht : t < s.nextPtr)
    (hWaits : waitsOn io (s.heap t)) :
    WellFormed (wokenThread t s) := by
  rcases hWf.blocked_of_waitsOn hIo ht hWaits with
    ⟨hNotCurrent, hNotStored⟩
  have hPrio :
      (s.setThread t
        { s.heap t with ioDevice := noDevice }).prio =
          s.prio :=
    s.setThread_prio rfl
  have hStores := s.tp.stores_priorityTableInsert_iff t
    (hWf.priority_le t ht)
  refine ⟨hWf.devices, hWf.listed, ?_, ?_, ?_, ?_,
    hWf.current_lt, ?_⟩
  · change TP.Filed _ (s.setThread t _).prio
    rw [hPrio]
    exact hWf.filed.insert (hWf.priority_le t ht) hNotStored
  · change ∀ t' < s.nextPtr, (s.setThread t _).prio t' ≤ _
    rw [hPrio]
    exact hWf.priority_le
  · intro t' ht'
    by_cases hEq : t' = t
    · subst hEq
      refine .ready hNotCurrent
        ((hStores t').mpr (Or.inr rfl)) ?_ ?_
      · simp [Scheduler.wokenThread]
      · simp [Scheduler.wokenThread, hWaits.2, Live]
    · refine (hWf.placed t' ht').frame rfl ?_ ?_ ?_ Iff.rfl
      · simp [Scheduler.wokenThread, hEq]
      · simp [Scheduler.wokenThread, hEq]
      · refine (hStores t').trans ?_
        simp [hEq]
  · intro t' h
    rcases (hStores t').mp h with h | rfl
    · exact hWf.stored_lt t' h
    · exact ht
  · intro h
    rw [show (Scheduler.wokenThread t s).currentThread =
      s.currentThread from rfl, hCurrent] at h
    cases h

/- The wake-up loop keeps the scheduler well formed. -/
theorem WellFormed.wakeWaiting
    {io : UInt32} {c : ThreadPtr} :
    ∀ {s : State} (_ : WellFormed s)
      (urm : List ThreadPtr) (n : Int),
      s.currentThread = some c → io < s.ioDev →
        (∀ t ∈ urm, t < s.nextPtr) →
          WellFormed (wakeWaiting io urm n s).2
| _, hWf, [], _, _, _, _ => hWf
| s, hWf, t :: urm, n, hCurrent, hIo, hKnown => by
    have hUrm : ∀ t' ∈ urm, t' < s.nextPtr := fun t' h =>
      hKnown t' (List.mem_cons_of_mem _ h)
    rw [wakeWaiting_cons]
    by_cases hWaits : waitsOn io (s.heap t)
    · simp only [hWaits, if_true]
      exact WellFormed.wakeWaiting
        (hWf.wokenThread hCurrent hIo
          (hKnown t List.mem_cons_self) hWaits)
        urm (n + 1) hCurrent hIo hUrm
    · simp only [hWaits, if_false]
      exact WellFormed.wakeWaiting hWf urm n
        hCurrent hIo hUrm

/- Every listed thread has been allocated. -/
theorem WellFormed.mem_threads_iff
    {s : State}
    (hWf : WellFormed s)
    (t : ThreadPtr) :
    t ∈ s.threads ↔ t < s.nextPtr := by
  rw [hWf.listed, List.mem_range]

/- What waking all waiters of a device does to the table. -/
theorem WellFormed.signal_stores_iff
    {s : State}
    (hWf : WellFormed s)
    (io : UInt32)
    (t : ThreadPtr) :
    (Scheduler.wakeWaiting io s.threads 0 s).2.tp.Stores t ↔
      s.tp.Stores t ∨
        (t ∈ s.threads ∧ waitsOn io (s.heap t)) :=
  wakeWaiting_stores_iff io s.threads 0 s
    (fun t ht =>
      hWf.priority_le t ((hWf.mem_threads_iff t).mp ht)) t

/- The waking thread itself is not touched by the loop. -/
theorem WellFormed.signal_heap_current
    {s : State}
    (hWf : WellFormed s)
    {c : ThreadPtr}
    (hCurrent : s.currentThread = some c)
    {io : UInt32}
    (hIo : io < s.ioDev) :
    (Scheduler.wakeWaiting io s.threads 0 s).2.heap c =
      s.heap c := by
  rw [wakeWaiting_heap]
  have hNot : ¬ waitsOn io (s.heap c) := fun hWaits =>
    (hWf.blocked_of_waitsOn hIo
      (hWf.current_lt c hCurrent) hWaits).1 hCurrent
  simp [hNot]

/- The loop does not change the current thread. -/
theorem wakeWaiting_currentThread
    (io : UInt32) (urm : List ThreadPtr)
    (n : Int) (s : State) :
    (wakeWaiting io urm n s).2.currentThread =
      s.currentThread := by
  rw [wakeWaiting_frame]

------------------------------------------------------------
-- Steps and Reachable States
------------------------------------------------------------

/- What `so_wait` does to a thread that calls it. -/
theorem soWait_of_lt
    {s : State}
    (hWf : WellFormed s)
    {c : ThreadPtr}
    (hCurrent : s.currentThread = some c)
    {io : UInt32}
    (hIo : io < s.ioDev) :
    soWait io s =
      some (0, getThreadFromQueue (s.setThread c
        { s.heap c with
          ioDevice := io
          quantumLeft := s.initialMaxQuantum
          thState := .waiting })) := by
  have hValid :=
    (not_gt_sub_one_iff hWf.devices.1).mpr hIo
  simp [soWait, hValid, hCurrent]

/- What `so_signal` does for the thread that calls it. -/
theorem soSignal_of_lt
    {s : State}
    (hWf : WellFormed s)
    {c : ThreadPtr}
    (hCurrent : s.currentThread = some c)
    {io : UInt32}
    (hIo : io < s.ioDev) :
    soSignal io s =
      some ((wakeWaiting io s.threads 0 s).1,
        comparePriorities
          (decide ((s.heap c).quantumLeft = 0))
          (wakeWaiting io s.threads 0 s).2) := by
  have hValid :=
    (not_gt_sub_one_iff hWf.devices.1).mpr hIo
  have hPos :
      (s.heap c).quantumLeft > 0 ↔
        (s.heap c).quantumLeft ≠ 0 := by
    grind
  simp only [soSignal, hValid, if_false,
    wakeWaiting_currentThread, hCurrent,
    hWf.signal_heap_current hCurrent hIo, hPos]
  by_cases hZero : (s.heap c).quantumLeft = 0 <;>
    simp [hZero]

/- A call with a device out of range changes nothing. -/
theorem soWait_of_not_lt
    {s : State}
    (hWf : WellFormed s)
    {io : UInt32}
    (hIo : ¬ io < s.ioDev) :
    soWait io s = some (-1, s) := by
  have hInvalid : io > s.ioDev - 1 := by
    by_contra h
    exact hIo ((not_gt_sub_one_iff hWf.devices.1).mp h)
  simp [soWait, hInvalid]

theorem soSignal_of_not_lt
    {s : State}
    (hWf : WellFormed s)
    {io : UInt32}
    (hIo : ¬ io < s.ioDev) :
    soSignal io s = some (-1, s) := by
  have hInvalid : io > s.ioDev - 1 := by
    by_contra h
    exact hIo ((not_gt_sub_one_iff hWf.devices.1).mp h)
  simp [soSignal, hInvalid]

/-
  Every step, by its operation: the state in which the thread
  that is then current resumes.
-/
theorem step_cases
    {s s' : State} {operation : Operation}
    (hWf : WellFormed s)
    (hStep : step s operation = some s') :
    (∃ func priority,
        operation = .soFork func priority ∧
          s' = resume (soFork func priority s).2) ∨
      ∃ c, s.currentThread = some c ∧
        ((operation = .soExec ∧
            s' = resume (checkScheduler s)) ∨
          (∃ io, operation = .soWait io ∧ io < s.ioDev ∧
            s' = resume (getThreadFromQueue (s.setThread c
              { s.heap c with
                ioDevice := io
                quantumLeft := s.initialMaxQuantum
                thState := .waiting }))) ∨
          (∃ io, operation = .soSignal io ∧ io < s.ioDev ∧
            s' = resume (comparePriorities
              (decide ((s.heap c).quantumLeft = 0))
              (wakeWaiting io s.threads 0 s).2)) ∨
          (∃ io, (operation = .soWait io ∨
              operation = .soSignal io) ∧
            ¬ io < s.ioDev ∧ s' = resume s) ∨
          (operation = .handlerEnd ∧
            s' = resume (getThreadFromQueue (s.setThread c
              { s.heap c with
                thState := .terminated })))) := by
  cases operation with
  | soFork func priority =>
      left
      exact ⟨func, priority, rfl,
        by simpa [step] using hStep.symm⟩
  | soExec =>
      right
      cases hCurrent : s.currentThread with
      | none => simp [step, hCurrent] at hStep
      | some c =>
          refine ⟨c, rfl, Or.inl ⟨rfl, ?_⟩⟩
          simpa [step, hCurrent, soExec] using hStep.symm
  | soWait io =>
      right
      cases hCurrent : s.currentThread with
      | none => simp [step, hCurrent] at hStep
      | some c =>
          refine ⟨c, rfl, Or.inr ?_⟩
          by_cases hIo : io < s.ioDev
          · refine Or.inl ⟨io, rfl, hIo, ?_⟩
            simpa [step, hCurrent,
              soWait_of_lt hWf hCurrent hIo]
                using hStep.symm
          · refine Or.inr (Or.inr (Or.inl
              ⟨io, Or.inl rfl, hIo, ?_⟩))
            simpa [step, hCurrent,
              soWait_of_not_lt hWf hIo] using hStep.symm
  | soSignal io =>
      right
      cases hCurrent : s.currentThread with
      | none => simp [step, hCurrent] at hStep
      | some c =>
          refine ⟨c, rfl, Or.inr (Or.inr ?_)⟩
          by_cases hIo : io < s.ioDev
          · refine Or.inl ⟨io, rfl, hIo, ?_⟩
            simpa [step, hCurrent,
              soSignal_of_lt hWf hCurrent hIo]
                using hStep.symm
          · refine Or.inr (Or.inl
              ⟨io, Or.inr rfl, hIo, ?_⟩)
            simpa [step, hCurrent,
              soSignal_of_not_lt hWf hIo] using hStep.symm
  | handlerEnd =>
      right
      cases hCurrent : s.currentThread with
      | none => simp [step, hCurrent] at hStep
      | some c =>
          refine ⟨c, rfl, Or.inr (Or.inr (Or.inr
            (Or.inr ⟨rfl, ?_⟩)))⟩
          simpa [step, hCurrent, thHandlerEnd_eq]
            using hStep.symm

/- Every scheduler operation keeps the invariant. -/
theorem WellFormed.step
    {s s' : State} {operation : Operation}
    (hWf : WellFormed s)
    (hStep : step s operation = some s') :
    WellFormed s' := by
  rcases step_cases hWf hStep with
    ⟨func, priority, _, rfl⟩ | ⟨c, hCurrent, hCase⟩
  · exact (hWf.soFork func priority).resume
  · rcases hCase with ⟨_, rfl⟩ | ⟨io, _, hIo, rfl⟩ |
      ⟨io, _, hIo, rfl⟩ | ⟨io, _, _, rfl⟩ | ⟨_, rfl⟩
    · exact hWf.checkScheduler.resume
    · apply WellFormed.resume
      refine hWf.leave hCurrent ?_ (Or.inl ⟨?_, ?_⟩)
      · rfl
      · exact hIo
      · rfl
    · have hWake := hWf.wakeWaiting s.threads 0
        hCurrent hIo (by simp [hWf.listed])
      exact (hWake.comparePriorities _).resume
    · exact hWf.resume
    · apply WellFormed.resume
      refine hWf.leave hCurrent ?_ (Or.inr ⟨?_, ?_⟩)
      · rfl
      · exact (hWf.current_record hCurrent).1
      · rfl

/- A successful `so_init` has passed its checks. -/
theorem soInit_eq_some_iff
    (timeQuantum io : UInt32) (s : State) :
    soInit false timeQuantum io = some s ↔
      io ≤ soMaxNumEvents ∧ timeQuantum ≠ 0 ∧
        s = initialState timeQuantum io := by
  unfold soInit
  split
  · rename_i hChecks
    simp only [reduceCtorEq, Bool.false_eq_true, or_false,
      false_iff] at hChecks ⊢
    rintro ⟨hIo, hQuantum, _⟩
    rcases hChecks with h | h
    · exact absurd hIo (UInt32.not_le.mpr h)
    · exact hQuantum h
  · rename_i hChecks
    simp only [Bool.false_eq_true, or_false, not_or,
      gt_iff_lt, UInt32.not_lt] at hChecks
    simp only [Option.some.injEq, hChecks.1, true_and]
    exact ⟨fun h => ⟨hChecks.2, h.symm⟩, fun h => h.2.symm⟩

/- `so_init` with at least one device starts well formed. -/
theorem WellFormed.initialState
    {timeQuantum io : UInt32}
    (hDevices : 1 ≤ io ∧ io ≤ soMaxNumEvents) :
    WellFormed (initialState timeQuantum io) :=
  ⟨hDevices, rfl, TP.Filed.priorityTableCreate,
    fun _ ht => absurd ht (Nat.not_lt_zero _),
    fun _ ht => absurd ht (Nat.not_lt_zero _),
    fun t ht =>
      absurd ht (TP.not_stores_priorityTableCreate t),
    fun _ h => (by cases h),
    fun _ t => TP.not_stores_priorityTableCreate t⟩

/- Every reachable scheduler state is well formed. -/
theorem wellFormed_of_run
    {timeQuantum io : UInt32}
    (hDevices : 1 ≤ io)
    {history : History} {s : State}
    (hRun : (schedulerSystem timeQuantum io).Run history s) :
    WellFormed s :=
  hRun.invariant
    (fun s hInit => by
      rcases (soInit_eq_some_iff _ _ s).mp hInit with
        ⟨hIo, _, rfl⟩
      exact WellFormed.initialState ⟨hDevices, hIo⟩)
    (fun _ _ _ hWf hStep => hWf.step hStep)

end Scheduler

end ProgrammingTasks
