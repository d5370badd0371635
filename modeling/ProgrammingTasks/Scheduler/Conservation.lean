import ProgrammingTasks.Scheduler.WellFormed

/-
  Conservation of threads: no scheduler operation loses a
  thread or stores it twice.

  The `Ledger` of a run is what its callers know of the
  threads: which calls of `so_fork` returned a thread, which
  handlers have ended, and which calls of `so_wait` have not
  been signalled since.  `Conserved` places every thread of
  the ledger in the state of the scheduler.

  Main declarations:
    * `Ledger.ofHistory`
    * `Agrees.step`
    * `conserved_of_run`
-/

------------------------------------------------------------
-- Frames of the Operations
------------------------------------------------------------

namespace ProgrammingTasks

namespace Scheduler

theorem getThreadFromQueue_frame (s : State) :
    getThreadFromQueue s =
      { s with
        tp := (getThreadFromQueue s).tp
        currentThread :=
          (getThreadFromQueue s).currentThread } := by
  unfold getThreadFromQueue
  split <;> rfl

theorem comparePriorities_frame
    (expired : Bool) (s : State) :
    comparePriorities expired s =
      { s with
        heap := (comparePriorities expired s).heap
        tp := (comparePriorities expired s).tp
        currentThread :=
          (comparePriorities expired s).currentThread } := by
  rcases comparePriorities_cases expired s with
    ⟨hSame, _⟩ | ⟨_, _, _, _, _, hSwap⟩
  · rw [hSame]
  · rw [hSwap]
    rfl

theorem checkScheduler_frame (s : State) :
    checkScheduler s =
      { s with
        heap := (checkScheduler s).heap
        tp := (checkScheduler s).tp
        currentThread :=
          (checkScheduler s).currentThread } := by
  rcases checkScheduler_cases s with
    ⟨hSame, _⟩ | ⟨_, _, _, _, hTick⟩
  · rw [hSame]
  · rw [hTick, comparePriorities_frame]
    rfl

theorem resume_frame (s : State) :
    resume s = { s with heap := (resume s).heap } := by
  unfold resume
  split
  · rfl
  · split <;> rfl

/- Preemption resets counters and touches nothing else. -/
theorem comparePriorities_record
    (expired : Bool) (s : State) (t : ThreadPtr) :
    ∃ q, (comparePriorities expired s).heap t =
      { s.heap t with quantumLeft := q } := by
  rcases comparePriorities_cases expired s with
    ⟨hSame, _⟩ | ⟨_, c, _, _, _, hSwap⟩
  · exact ⟨_, by rw [hSame]⟩
  · rw [hSwap]
    by_cases htc : t = c
    · subst htc
      exact ⟨s.initialMaxQuantum, by simp⟩
    · exact ⟨(s.heap t).quantumLeft, by simp [htc]⟩

/- A tick changes counters and nothing else. -/
theorem checkScheduler_record
    (s : State) (t : ThreadPtr) :
    ∃ q, (checkScheduler s).heap t =
      { s.heap t with quantumLeft := q } := by
  rcases checkScheduler_cases s with
    ⟨hSame, _⟩ | ⟨c, _, _, _, hTick⟩
  · exact ⟨_, by rw [hSame]⟩
  · rw [hTick]
    rcases comparePriorities_record
        (decide ((s.heap c).quantumLeft = 1))
        (charged c s) t with
      ⟨q, hq⟩
    refine ⟨q, ?_⟩
    rw [hq]
    by_cases htc : t = c
    · subst htc
      simp [charged]
    · simp [charged, htc]

------------------------------------------------------------
-- Waiting and Ended Threads
------------------------------------------------------------

/- Two records agree on what a thread waits for and its end. -/
structure SameStatus (a b : Thread) : Prop where
  device : a.ioDevice = b.ioDevice
  waiting : a.thState = .waiting ↔ b.thState = .waiting
  terminated :
    a.thState = .terminated ↔ b.thState = .terminated

theorem SameStatus.of_quantum
    {a b : Thread}
    (hSame : ∃ q, a = { b with quantumLeft := q }) :
    SameStatus a b := by
  rcases hSame with ⟨q, rfl⟩
  exact ⟨rfl, Iff.rfl, Iff.rfl⟩

/- A thread that resumes neither waits nor ends by that. -/
theorem resume_status (s : State) (t : ThreadPtr) :
    SameStatus ((resume s).heap t) (s.heap t) := by
  unfold resume
  split
  · exact ⟨rfl, Iff.rfl, Iff.rfl⟩
  · rename_i c hCurrent
    split
    · rename_i hReady
      by_cases htc : t = c
      · subst htc
        exact ⟨by simp, by simp [hReady], by simp [hReady]⟩
      · simp only [State.setThread_heap, htc, if_false]
        exact ⟨rfl, Iff.rfl, Iff.rfl⟩
    · exact ⟨rfl, Iff.rfl, Iff.rfl⟩

------------------------------------------------------------
-- The Ledger of a Run
------------------------------------------------------------

/- What the callers of the scheduler know of the threads. -/
structure Ledger where
  forked : List ThreadPtr
  ended : ThreadPtr → Prop
  waiting : ThreadPtr → Option UInt32

namespace Ledger

def empty : Ledger where
  forked := []
  ended := fun _ => False
  waiting := fun _ => none

/-
  Enter one operation, made in state `s` of a scheduler that
  was initialised with `devices` devices.
-/
def record
    (devices : UInt32)
    (s : State)
    (operation : Operation)
    (l : Ledger) : Ledger :=
  match operation with
  | .soFork func priority =>
      match (soFork func priority s).1 with
      | some t => { l with forked := l.forked ++ [t] }
      | none => l
  | .soExec => l
  | .soWait io =>
      { l with
        waiting := fun t =>
          if s.currentThread = some t ∧ io < devices then
            some io
          else
            l.waiting t }
  | .soSignal io =>
      { l with
        waiting := fun t =>
          if l.waiting t = some io then
            none
          else
            l.waiting t }
  | .handlerEnd =>
      { l with
        ended := fun t =>
          s.currentThread = some t ∨ l.ended t }

/- The ledger after a run. -/
def ofHistory (devices : UInt32) : History → Ledger
| [] => empty
| t :: earlier =>
    (ofHistory devices earlier).record devices
      t.source t.event

end Ledger

/-
  The records of the scheduler agree with the ledger.
-/
structure Agrees
    (devices : UInt32)
    (l : Ledger)
    (s : State) : Prop where
  ioDev : s.ioDev = devices
  forked : l.forked = List.range s.nextPtr
  ended :
    ∀ t, l.ended t ↔
      t < s.nextPtr ∧ (s.heap t).thState = .terminated
  waiting :
    ∀ t io, l.waiting t = some io ↔
      t < s.nextPtr ∧ io < devices ∧ waitsOn io (s.heap t)

/- Agreement is about the status of the threads only. -/
theorem Agrees.frame
    {devices : UInt32} {l : Ledger} {s s' : State}
    (hAgrees : Agrees devices l s)
    (hIoDev : s'.ioDev = s.ioDev)
    (hNextPtr : s'.nextPtr = s.nextPtr)
    (hStatus :
      ∀ t, SameStatus (s'.heap t) (s.heap t)) :
    Agrees devices l s' where
  ioDev := hIoDev.trans hAgrees.ioDev
  forked := by
    rw [hNextPtr]
    exact hAgrees.forked
  ended := by
    intro t
    rw [hNextPtr, (hStatus t).terminated]
    exact hAgrees.ended t
  waiting := by
    intro t io
    unfold waitsOn
    rw [hNextPtr, (hStatus t).waiting, (hStatus t).device]
    exact hAgrees.waiting t io

theorem Agrees.resume
    {devices : UInt32} {l : Ledger} {s : State}
    (hAgrees : Agrees devices l s) :
    Agrees devices l (resume s) :=
  hAgrees.frame (by rw [resume_frame])
    (by rw [resume_frame]) (resume_status s)

theorem Agrees.comparePriorities
    {devices : UInt32} {l : Ledger} {s : State}
    (hAgrees : Agrees devices l s)
    (expired : Bool) :
    Agrees devices l (comparePriorities expired s) :=
  hAgrees.frame (by rw [comparePriorities_frame])
    (by rw [comparePriorities_frame])
    (fun t => .of_quantum
      (comparePriorities_record expired s t))

theorem Agrees.checkScheduler
    {devices : UInt32} {l : Ledger} {s : State}
    (hAgrees : Agrees devices l s) :
    Agrees devices l (checkScheduler s) :=
  hAgrees.frame (by rw [checkScheduler_frame])
    (by rw [checkScheduler_frame])
    (fun t => .of_quantum (checkScheduler_record s t))

theorem Agrees.getThreadFromQueue
    {devices : UInt32} {l : Ledger} {s : State}
    (hAgrees : Agrees devices l s) :
    Agrees devices l (getThreadFromQueue s) :=
  hAgrees.frame (by rw [getThreadFromQueue_frame])
    (by rw [getThreadFromQueue_frame])
    (fun t => .of_quantum ⟨(s.heap t).quantumLeft,
      by rw [getThreadFromQueue_frame]⟩)

/-
  A started thread enters the ledger as neither waiting nor
  ended; `s'` is the scheduler that has started it.
-/
private theorem agrees_started
    {devices : UInt32} {l : Ledger} {s s' : State}
    (hAgrees : Agrees devices l s)
    (hIoDev : s'.ioDev = s.ioDev)
    (hNextPtr : s'.nextPtr = s.nextPtr + 1)
    (hNew : Live (s'.heap s.nextPtr).thState)
    (hNotWaiting :
      (s'.heap s.nextPtr).thState ≠ .waiting)
    (hOld : ∀ t, t ≠ s.nextPtr → s'.heap t = s.heap t) :
    Agrees devices
      { l with forked := l.forked ++ [s.nextPtr] } s' where
  ioDev := hIoDev.trans hAgrees.ioDev
  forked := by
    rw [hNextPtr, List.range_succ, ← hAgrees.forked]
  ended := by
    intro t
    rw [hNextPtr]
    by_cases ht : t = s.nextPtr
    · subst ht
      have hEnded := hAgrees.ended s.nextPtr
      simp only [lt_irrefl, false_and, iff_false] at hEnded
      exact iff_of_false hEnded (fun h => hNew.2 h.2)
    · rw [hOld t ht]
      refine (hAgrees.ended t).trans ?_
      have hLt : t < s.nextPtr + 1 ↔ t < s.nextPtr := by
        rw [Nat.lt_succ_iff, Nat.le_iff_lt_or_eq]
        simp [ht]
      rw [hLt]
  waiting := by
    intro t io
    rw [hNextPtr]
    by_cases ht : t = s.nextPtr
    · subst ht
      have hWaiting := hAgrees.waiting s.nextPtr io
      simp only [lt_irrefl, false_and, iff_false]
        at hWaiting
      exact iff_of_false hWaiting
        (fun h => hNotWaiting h.2.2.2)
    · rw [hOld t ht]
      refine (hAgrees.waiting t io).trans ?_
      have hLt : t < s.nextPtr + 1 ↔ t < s.nextPtr := by
        rw [Nat.lt_succ_iff, Nat.le_iff_lt_or_eq]
        simp [ht]
      rw [hLt]

/- A new thread of the ledger is a new thread. -/
theorem Agrees.soFork
    {devices : UInt32} {l : Ledger} {s : State}
    (hWf : WellFormed s)
    (hAgrees : Agrees devices l s)
    (func : SoHandler) (priority : UInt32) :
    Agrees devices
      (l.record devices s (.soFork func priority))
      (soFork func priority s).2 := by
  rcases soFork_cases hWf func priority with
    ⟨_, hFork⟩ | ⟨_, _, _, hFork⟩ | ⟨_, _, _, hFork⟩
  · simpa only [Ledger.record, hFork] using hAgrees
  · simp only [Ledger.record, hFork]
    refine agrees_started hAgrees rfl rfl ?_ ?_ ?_
    · simp [startedFirst, State.setThread, startedRecord,
        Live]
    · simp [startedFirst, State.setThread, startedRecord]
    · intro t ht
      simp [startedFirst, State.setThread, ht]
  · simp only [Ledger.record, hFork]
    apply Agrees.checkScheduler
    refine agrees_started hAgrees rfl rfl ?_ ?_ ?_
    · simp [startedBehind, State.setThread, startedRecord,
        Live]
    · simp [startedBehind, State.setThread, startedRecord]
    · intro t ht
      simp [startedBehind, State.setThread, ht]

/- A thread that calls `so_wait` waits for its device. -/
private theorem agrees_wait
    {devices : UInt32} {l : Ledger} {s : State}
    (hWf : WellFormed s)
    (hAgrees : Agrees devices l s)
    {c : ThreadPtr}
    (hCurrent : s.currentThread = some c)
    {io : UInt32}
    (hIo : io < s.ioDev)
    {thread : Thread}
    (hWaits : waitsOn io thread) :
    Agrees devices (l.record devices s (.soWait io))
      (s.setThread c thread) := by
  have hLt := hWf.current_lt c hCurrent
  have hRecord := hWf.current_record hCurrent
  refine ⟨hAgrees.ioDev, hAgrees.forked, ?_, ?_⟩
  · intro t
    refine (hAgrees.ended t).trans ?_
    by_cases htc : t = c
    · subst htc
      simp [hWaits.2, hRecord.2.2]
    · simp [htc]
  · intro t io'
    have hDevices : io < devices := hAgrees.ioDev ▸ hIo
    by_cases htc : t = c
    · subst htc
      simp only [Ledger.record, hCurrent, hDevices,
        and_self, if_true, Option.some.injEq,
        State.setThread_nextPtr, State.setThread_heap, hLt,
        true_and]
      constructor
      · rintro rfl
        exact ⟨hDevices, hWaits⟩
      · exact fun h => hWaits.1.symm.trans h.2.1
    · have hNe : s.currentThread ≠ some t := by
        rw [hCurrent]
        exact fun h => htc (Option.some.inj h).symm
      simp only [Ledger.record, hNe, false_and, if_false,
        State.setThread_nextPtr, State.setThread_heap, htc]
      exact hAgrees.waiting t io'

/- Signalling a device clears its waiters. -/
private theorem agrees_signal
    {devices : UInt32} {l : Ledger} {s : State}
    (hWf : WellFormed s)
    (hAgrees : Agrees devices l s)
    {io : UInt32}
    (hIo : io < s.ioDev) :
    Agrees devices (l.record devices s (.soSignal io))
      (wakeWaiting io s.threads 0 s).2 := by
  have hNoDevice : ∀ io' < devices, noDevice ≠ io' := by
    rintro _ hLt rfl
    rw [← hAgrees.ioDev] at hLt
    exact not_noDevice_lt hWf.devices.2 hLt
  have hNextPtr :
      (wakeWaiting io s.threads 0 s).2.nextPtr =
        s.nextPtr := by
    rw [wakeWaiting_frame]
  refine ⟨?_, ?_, ?_, ?_⟩
  · rw [wakeWaiting_frame]
    exact hAgrees.ioDev
  · rw [hNextPtr]
    exact hAgrees.forked
  · intro t
    rw [hNextPtr, wakeWaiting_heap]
    refine (hAgrees.ended t).trans ?_
    split <;> rfl
  · intro t io'
    rw [hNextPtr, wakeWaiting_heap]
    have hMem := hWf.mem_threads_iff t
    have hSame := hAgrees.waiting t io
    have hOther := hAgrees.waiting t io'
    simp only [Ledger.record]
    by_cases hWaiting : l.waiting t = some io
    · rcases hSame.mp hWaiting with ⟨ht, _, hWaits⟩
      simp only [hWaiting, if_true, reduceCtorEq, false_iff,
        hMem.mpr ht, hWaits, and_self]
      rintro ⟨_, hLt, hDevice, _⟩
      exact hNoDevice io' hLt hDevice
    · have hNot : ¬ (t ∈ s.threads ∧
          waitsOn io (s.heap t)) := by
        rintro ⟨ht, hWaits⟩
        exact hWaiting (hSame.mpr ⟨hMem.mp ht,
          hAgrees.ioDev ▸ hIo, hWaits⟩)
      simp only [hWaiting, if_false, hNot]
      exact hOther

/- A signal to no device wakes nobody in the ledger. -/
private theorem agrees_refused
    {devices : UInt32} {l : Ledger} {s : State}
    (hAgrees : Agrees devices l s)
    {io : UInt32}
    (hIo : ¬ io < s.ioDev)
    {operation : Operation}
    (hCall :
      operation = .soWait io ∨ operation = .soSignal io) :
    Agrees devices (l.record devices s operation) s := by
  have hDevices : ¬ io < devices := hAgrees.ioDev ▸ hIo
  have hSame : l.record devices s operation = l := by
    rcases hCall with rfl | rfl
    · simp [Ledger.record, hDevices]
    · have hNone : ∀ t, l.waiting t ≠ some io := by
        intro t hWaiting
        exact hDevices
          ((hAgrees.waiting t io).mp hWaiting).2.1
      simp [Ledger.record, hNone]
  rw [hSame]
  exact hAgrees

/- A thread whose handler ends is entered as ended. -/
private theorem agrees_end
    {devices : UInt32} {l : Ledger} {s : State}
    (hWf : WellFormed s)
    (hAgrees : Agrees devices l s)
    {c : ThreadPtr}
    (hCurrent : s.currentThread = some c) :
    Agrees devices (l.record devices s .handlerEnd)
      (s.setThread c
        { s.heap c with thState := .terminated }) := by
  have hLt := hWf.current_lt c hCurrent
  refine ⟨hAgrees.ioDev, hAgrees.forked, ?_, ?_⟩
  · intro t
    by_cases htc : t = c
    · subst htc
      simp [Ledger.record, hCurrent, hLt]
    · have hNe : c ≠ t := fun h => htc h.symm
      simpa [Ledger.record, hCurrent, htc, hNe] using
        hAgrees.ended t
  · intro t io
    refine (hAgrees.waiting t io).trans ?_
    by_cases htc : t = c
    · subst htc
      refine iff_of_false ?_ (by simp [waitsOn])
      rintro ⟨_, hIo, hWaits⟩
      rw [← hAgrees.ioDev] at hIo
      exact (hWf.blocked_of_waitsOn hIo hLt hWaits).1
        hCurrent
    · simp [htc]

/- Every operation keeps the ledger in agreement. -/
theorem Agrees.step
    {devices : UInt32} {l : Ledger} {s s' : State}
    {operation : Operation}
    (hWf : WellFormed s)
    (hAgrees : Agrees devices l s)
    (hStep : step s operation = some s') :
    Agrees devices (l.record devices s operation) s' := by
  rcases step_cases hWf hStep with
    ⟨func, priority, rfl, rfl⟩ | ⟨c, hCurrent, hCase⟩
  · exact (Agrees.soFork hWf hAgrees func priority).resume
  · rcases hCase with ⟨rfl, rfl⟩ | ⟨io, rfl, hIo, rfl⟩ |
      ⟨io, rfl, hIo, rfl⟩ | ⟨io, hCall, hIo, rfl⟩ |
        ⟨rfl, rfl⟩
    · exact hAgrees.checkScheduler.resume
    · exact (agrees_wait hWf hAgrees hCurrent hIo
        ⟨rfl, rfl⟩).getThreadFromQueue.resume
    · exact ((agrees_signal hWf hAgrees
        hIo).comparePriorities _).resume
    · exact (agrees_refused hAgrees hIo hCall).resume
    · exact (agrees_end hWf hAgrees
        hCurrent).getThreadFromQueue.resume

------------------------------------------------------------
-- Conservation
------------------------------------------------------------

/-
  The thread occurs once in the table, in the list of its own
  priority.
-/
def OccursOnce (s : State) (t : ThreadPtr) : Prop :=
  ∀ p : Fin (soMaxPrio + 1),
    (s.tp.v p).count t =
      if p.val = s.prio t then 1 else 0

/-
  A thread that has not ended is current, or in the table, or
  blocked on the device it waits for, and in one place only.
-/
def InOnePlace
    (l : Ledger)
    (s : State)
    (t : ThreadPtr) : Prop :=
  (s.currentThread = some t ∧ ¬ s.tp.Stores t ∧
      l.waiting t = none) ∨
    (s.currentThread ≠ some t ∧ OccursOnce s t ∧
      s.tp.Stores t ∧ l.waiting t = none) ∨
      (s.currentThread ≠ some t ∧ ¬ s.tp.Stores t ∧
        ∃ io, l.waiting t = some io ∧
          (s.heap t).ioDevice = io)

/- No thread is lost and none is in two places. -/
structure Conserved (l : Ledger) (s : State) : Prop where
  place :
    ∀ t ∈ l.forked, ¬ l.ended t → InOnePlace l s t
  ended :
    ∀ t, l.ended t →
      s.currentThread ≠ some t ∧ ¬ s.tp.Stores t
  listed : ∀ t ∈ l.forked, s.threads.count t = 1
  idle : s.currentThread = none → ∀ t, ¬ s.tp.Stores t

/- A well-formed state that agrees with a ledger conserves it. -/
theorem Agrees.conserved
    {devices : UInt32} {l : Ledger} {s : State}
    (hWf : WellFormed s)
    (hAgrees : Agrees devices l s) :
    Conserved l s where
  place := by
    intro t ht hEnded
    rw [hAgrees.forked, List.mem_range] at ht
    have hNoDevice : (s.heap t).ioDevice = noDevice →
        l.waiting t = none := by
      intro hDevice
      cases hWaiting : l.waiting t with
      | none => rfl
      | some io =>
          rcases (hAgrees.waiting t io).mp hWaiting with
            ⟨_, hIo, hWaits⟩
          rw [← hAgrees.ioDev, ← hWaits.1, hDevice] at hIo
          exact absurd hIo
            (not_noDevice_lt hWf.devices.2)
    cases hWf.placed t ht with
    | current hCurrent hStores hDevice _ =>
        exact Or.inl ⟨hCurrent, hStores, hNoDevice hDevice⟩
    | ready hCurrent hStores hDevice _ =>
        exact Or.inr (Or.inl ⟨hCurrent,
          fun p => hWf.filed.count_eq hStores p, hStores,
          hNoDevice hDevice⟩)
    | blocked hCurrent hStores hDevice hState =>
        refine Or.inr (Or.inr ⟨hCurrent, hStores,
          (s.heap t).ioDevice, ?_, rfl⟩)
        exact (hAgrees.waiting t _).mpr
          ⟨ht, hAgrees.ioDev ▸ hDevice, rfl, hState⟩
    | ended _ _ _ hState =>
        exact absurd ((hAgrees.ended t).mpr ⟨ht, hState⟩)
          hEnded
  ended := by
    intro t hEnded
    rcases (hAgrees.ended t).mp hEnded with ⟨ht, hState⟩
    cases hWf.placed t ht with
    | current _ _ _ hLive => exact absurd hState hLive.2
    | ready _ _ _ hLive => exact absurd hState hLive.2
    | blocked hCurrent hStores _ _ =>
        exact ⟨hCurrent, hStores⟩
    | ended hCurrent hStores _ _ =>
        exact ⟨hCurrent, hStores⟩
  listed := by
    intro t ht
    rw [hAgrees.forked, ← hWf.listed] at ht
    apply List.count_eq_one_of_mem _ ht
    rw [hWf.listed]
    exact List.nodup_range
  idle := hWf.idle

/- The scheduler agrees with the ledger of its whole run. -/
theorem agrees_of_run
    {timeQuantum io : UInt32}
    (hDevices : 1 ≤ io)
    {history : History} {s : State}
    (hRun : (schedulerSystem timeQuantum io).Run history s) :
    Agrees io (Ledger.ofHistory io history) s := by
  induction hRun with
  | @start s hInit =>
      rcases (soInit_eq_some_iff _ _ s).mp hInit with
        ⟨_, _, rfl⟩
      exact ⟨rfl, rfl,
        by simp [Ledger.ofHistory, Ledger.empty,
          initialState],
        by simp [Ledger.ofHistory, Ledger.empty,
          initialState]⟩
  | next hEarlier hStep ih =>
      exact ih.step (wellFormed_of_run hDevices hEarlier)
        hStep

/- Every run conserves the threads of its ledger. -/
theorem conserved_of_run
    {timeQuantum io : UInt32}
    (hDevices : 1 ≤ io)
    {history : History} {s : State}
    (hRun : (schedulerSystem timeQuantum io).Run history s) :
    Conserved (Ledger.ofHistory io history) s :=
  (agrees_of_run hDevices hRun).conserved
    (wellFormed_of_run hDevices hRun)

/- One thread runs, one is ready and one is blocked. -/
theorem conserved_of_threePlaces :
    ∃ (history : History) (s : State),
      s.currentThread = some 1 ∧
        Conserved (Ledger.ofHistory 1 history) s := by
  rcases exists_run_of_operations
      (rfl : soInit false 5 1 = some (initialState 5 1))
      [.soFork 1 2, .soFork 1 1, .soFork 1 1, .soWait 0]
      (fun _ s => decide (s.currentThread = some 1))
      (by decide) with
    ⟨history, s, hRun, hCurrent⟩
  exact ⟨history, s, of_decide_eq_true hCurrent,
    conserved_of_run (by decide) hRun⟩

end Scheduler

end ProgrammingTasks
