import ProgrammingTasks.Scheduler.Conservation

/-
  The operations on devices.

  `so_signal` wakes exactly the threads that the ledger has as
  waiting for the device, in the order in which they were
  forked.  Both operations refuse the devices that were not
  configured, unless no device was: the bound `io_dev - 1` is
  then the biggest number of its type.

  Main declarations:
    * `Ledger.waiters`, `Wakes`
    * `SignalLaw`, `signalLaw_of_run`
    * `DeviceLaw`, `deviceLaw_iff`
-/

------------------------------------------------------------
-- The Loop over All Threads
------------------------------------------------------------

namespace ProgrammingTasks

namespace Scheduler

/- The threads of a list that wait on the device. -/
def waitingIn
    (io : UInt32) (s : State)
    (urm : List ThreadPtr) : List ThreadPtr :=
  urm.filter (fun t => waitsOn io (s.heap t))

/- Waking a thread leaves the others as they wait. -/
theorem waitingIn_wokenThread
    (io : UInt32) (s : State)
    {t : ThreadPtr} {urm : List ThreadPtr}
    (hNew : t ∉ urm) :
    waitingIn io (wokenThread t s) urm =
      waitingIn io s urm := by
  apply List.filter_congr
  intro u hu
  have hOther : u ≠ t := by
    rintro rfl
    exact hNew hu
  simp [wokenThread, hOther]

/- The loop counts the waiting threads. -/
theorem wakeWaiting_count
    (io : UInt32) :
    ∀ (urm : List ThreadPtr) (n : Int) (s : State),
      urm.Nodup →
        (wakeWaiting io urm n s).1 =
          n + (waitingIn io s urm).length
| [], n, s, _ => by
    simp [wakeWaiting, waitingIn]
| t :: urm, n, s, hNodup => by
    rcases List.nodup_cons.mp hNodup with ⟨hNew, hUrm⟩
    rw [wakeWaiting_cons]
    by_cases hWaits : waitsOn io (s.heap t)
    · rw [if_pos hWaits, wakeWaiting_count io urm _ _ hUrm,
        waitingIn_wokenThread io s hNew]
      simp only [waitingIn, hWaits, decide_true,
        List.filter_cons_of_pos, List.length_cons]
      omega
    · rw [if_neg hWaits, wakeWaiting_count io urm _ _ hUrm]
      simp [waitingIn, hWaits]

/- The loop appends the waiting threads to their lists. -/
theorem wakeWaiting_lists
    (io : UInt32) :
    ∀ (urm : List ThreadPtr) (n : Int) (s : State),
      urm.Nodup →
        (∀ t ∈ urm, s.prio t ≤ soMaxPrio) →
          ∀ p,
            (wakeWaiting io urm n s).2.tp.v p =
              s.tp.v p ++
                (waitingIn io s urm).filter
                  (fun t => s.prio t = p.val)
| [], _, _, _, _, _ => by
    simp [wakeWaiting, waitingIn]
| t :: urm, n, s, hNodup, hPriority, p => by
    rcases List.nodup_cons.mp hNodup with ⟨hNew, hUrm⟩
    have ht := hPriority t List.mem_cons_self
    have hRest : ∀ u ∈ urm, s.prio u ≤ soMaxPrio :=
      fun u hu => hPriority u (List.mem_cons_of_mem _ hu)
    have hPrio : (wokenThread t s).prio = s.prio :=
      s.setThread_prio rfl
    rw [wakeWaiting_cons]
    by_cases hWaits : waitsOn io (s.heap t)
    · rw [if_pos hWaits,
        wakeWaiting_lists io urm _ _ hUrm (hPrio ▸ hRest),
        waitingIn_wokenThread io s hNew, hPrio]
      have hList :
          (wokenThread t s).tp.v p =
            if p.val = s.prio t then s.tp.v p ++ [t]
            else s.tp.v p :=
        s.tp.priorityTableInsert_v t ht p
      have hFirst :
          waitingIn io s (t :: urm) =
            t :: waitingIn io s urm := by
        simp [waitingIn, hWaits]
      rw [hList, hFirst]
      by_cases hp : p.val = s.prio t
      · simp [hp]
      · have hOther : ¬ s.prio t = p.val :=
          fun hSame => hp hSame.symm
        simp [hp, hOther]
    · rw [if_neg hWaits,
        wakeWaiting_lists io urm _ _ hUrm hRest]
      simp [waitingIn, hWaits]

/- The loop does not count down. -/
theorem le_wakeWaiting
    (io : UInt32) :
    ∀ (urm : List ThreadPtr) (n : Int) (s : State),
      n ≤ (wakeWaiting io urm n s).1
| [], _, _ => Int.le_refl _
| t :: urm, n, s => by
    rw [wakeWaiting_cons]
    split
    · have hRest := le_wakeWaiting io urm (n + 1)
        (wokenThread t s)
      omega
    · exact le_wakeWaiting io urm n s

------------------------------------------------------------
-- Signals
------------------------------------------------------------

/-
  The threads that have called `so_wait` for the device and
  have not been signalled since, in the order of their forks.
-/
def Ledger.waiters
    (l : Ledger) (io : UInt32) : List ThreadPtr :=
  l.forked.filter (fun t => l.waiting t = some io)

/-
  The threads join the ends of the lists of their priorities,
  in their order, and wait for no device any more; nothing
  else is touched.
-/
structure Wakes
    (threads : List ThreadPtr) (s woken : State) : Prop where
  lists :
    ∀ p, woken.tp.v p =
      s.tp.v p ++ threads.filter (fun t => s.prio t = p.val)
  records :
    ∀ t, woken.heap t =
      if t ∈ threads then
        { s.heap t with ioDevice := noDevice }
      else
        s.heap t
  frame :
    woken = { s with heap := woken.heap, tp := woken.tp }

/- The event is an accepted signal whose loop wakes `t`. -/
def WokenBy
    (devices : UInt32)
    (signal : TransitionSystem.Transition State Operation)
    (t : ThreadPtr) : Prop :=
  ∃ io,
    signal.event = .soSignal io ∧ io < devices ∧
      t ∈ signal.source.threads ∧
        waitsOn io (signal.source.heap t)

/- The event is an accepted call of `so_wait` by `t`. -/
def WaitedBy
    (devices : UInt32)
    (wait : TransitionSystem.Transition State Operation)
    (t : ThreadPtr) : Prop :=
  ∃ io,
    wait.event = .soWait io ∧ io < devices ∧
      wait.source.currentThread = some t

/-
  A signal wakes the waiters of its device before its caller
  may be preempted, returns their number, and does not touch
  a thread that waits for another device.  Between two signals
  that wake a thread it has called `so_wait`.
-/
structure SignalLaw
    (devices : UInt32) (history : History)
    (s : State) (c : ThreadPtr) (io : UInt32) : Prop where
  wakes :
    ∃ woken,
      Wakes ((Ledger.ofHistory devices history).waiters io) s
          woken ∧
        soSignal io s =
          some
            ((((Ledger.ofHistory devices
                history).waiters io).length : Int),
              comparePriorities
                (decide ((s.heap c).quantumLeft = 0)) woken)
  others :
    ∀ count s', soSignal io s = some (count, s') →
      ∀ t io', io' ≠ io →
        (Ledger.ofHistory devices history).waiting t =
            some io' →
          s'.heap t = s.heap t ∧ ¬ s'.tp.Stores t ∧
            s'.currentThread ≠ some t
  once :
    ∀ later second between first earlier t,
      history =
          later ++ second :: (between ++ first :: earlier) →
        WokenBy devices first t → WokenBy devices second t →
          ∃ wait ∈ between, WaitedBy devices wait t

/- The loop finds the waiters of the ledger. -/
theorem Agrees.waitingIn_eq
    {devices : UInt32} {l : Ledger} {s : State}
    (hWf : WellFormed s)
    (hAgrees : Agrees devices l s)
    {io : UInt32}
    (hIo : io < devices) :
    waitingIn io s s.threads = l.waiters io := by
  unfold waitingIn Ledger.waiters
  rw [hAgrees.forked, hWf.listed]
  apply List.filter_congr
  intro t ht
  rw [List.mem_range] at ht
  rw [decide_eq_decide, hAgrees.waiting]
  simp only [ht, hIo, true_and]

/- The loop of an accepted signal wakes the waiters. -/
theorem Agrees.wakes
    {devices : UInt32} {l : Ledger} {s : State}
    (hWf : WellFormed s)
    (hAgrees : Agrees devices l s)
    {io : UInt32}
    (hIo : io < devices) :
    Wakes (l.waiters io) s
      (wakeWaiting io s.threads 0 s).2 where
  lists := by
    rw [← hAgrees.waitingIn_eq hWf hIo]
    apply wakeWaiting_lists io s.threads 0 s
    · rw [hWf.listed]
      exact List.nodup_range
    · intro t ht
      exact hWf.priority_le t ((hWf.mem_threads_iff t).mp ht)
  records := by
    intro t
    rw [wakeWaiting_heap, ← hAgrees.waitingIn_eq hWf hIo]
    simp only [waitingIn, List.mem_filter,
      decide_eq_true_eq]
  frame := wakeWaiting_frame io s.threads 0 s

/- Preemption touches no thread that is not in its swap. -/
theorem comparePriorities_other
    {s : State} (hWf : WellFormed s)
    (expired : Bool)
    {t : ThreadPtr}
    (hStores : ¬ s.tp.Stores t)
    (hCurrent : s.currentThread ≠ some t) :
    (comparePriorities expired s).heap t = s.heap t ∧
      ¬ (comparePriorities expired s).tp.Stores t ∧
        (comparePriorities expired s).currentThread ≠
          some t := by
  rcases comparePriorities_cases expired s with
    ⟨hSame, _⟩ | ⟨th, c, hHead, hRuns, _, hSwap⟩
  · rw [hSame]
    exact ⟨rfl, hStores, hCurrent⟩
  · have hTh : th ≠ t := by
      rintro rfl
      exact hStores (hWf.filed.stores_getHead hHead)
    have hC : t ≠ c := by
      rintro rfl
      exact hCurrent hRuns
    rw [hSwap]
    refine ⟨by simp [hC], ?_, by simpa using hTh⟩
    rw [stores_swap_iff hWf hHead hRuns]
    simp [hStores, hC]

/- A thread that does not call `so_wait` is not waiting. -/
theorem waiting_of_not_waitedBy
    {devices : UInt32} {t : ThreadPtr} {earlier : History}
    (hNone :
      (Ledger.ofHistory devices earlier).waiting t = none) :
    ∀ between : History,
      (∀ wait ∈ between, ¬ WaitedBy devices wait t) →
        (Ledger.ofHistory devices
          (between ++ earlier)).waiting t = none
| [], _ => hNone
| transition :: between, hNot => by
    have hBefore :=
      waiting_of_not_waitedBy hNone between
        (fun wait hWait =>
          hNot wait (List.mem_cons_of_mem _ hWait))
    have hNow := hNot transition List.mem_cons_self
    simp only [List.cons_append, Ledger.ofHistory]
    cases hEvent : transition.event with
    | soFork func priority =>
        simp only [Ledger.record]
        split <;> exact hBefore
    | soExec => exact hBefore
    | soWait io =>
        have hOther :
            ¬ (transition.source.currentThread = some t ∧
              io < devices) :=
          fun hBoth => hNow ⟨io, hEvent, hBoth.2, hBoth.1⟩
        simp only [Ledger.record, if_neg hOther]
        exact hBefore
    | soSignal io =>
        simp only [Ledger.record, hBefore, ite_self]
    | handlerEnd => exact hBefore

/- A signal does not touch a thread that is blocked elsewhere. -/
theorem soSignal_other
    {s s' : State} {c t : ThreadPtr} {io : UInt32}
    {count : Int}
    (hWf : WellFormed s)
    (hCurrent : s.currentThread = some c)
    (hIo : io < s.ioDev)
    (hStored : ¬ s.tp.Stores t)
    (hNotCurrent : s.currentThread ≠ some t)
    (hNot : ¬ waitsOn io (s.heap t))
    (hSignal : soSignal io s = some (count, s')) :
    s'.heap t = s.heap t ∧ ¬ s'.tp.Stores t ∧
      s'.currentThread ≠ some t := by
  have hWoken :
      WellFormed (wakeWaiting io s.threads 0 s).2 :=
    hWf.wakeWaiting s.threads 0 hCurrent hIo
      (fun u hu => (hWf.mem_threads_iff u).mp hu)
  have hHeap :
      (wakeWaiting io s.threads 0 s).2.heap t = s.heap t := by
    rw [wakeWaiting_heap, if_neg (fun h => hNot h.2)]
  rw [soSignal_of_lt hWf hCurrent hIo] at hSignal
  cases hSignal
  rw [← hHeap]
  apply comparePriorities_other hWoken
  · rw [hWf.signal_stores_iff]
    rintro (hStored' | hWaits)
    · exact hStored hStored'
    · exact hNot hWaits.2
  · rw [wakeWaiting_currentThread]
    exact hNotCurrent

/- A thread that is woken does not wait any more. -/
theorem waiting_of_wokenBy
    {timeQuantum devices : UInt32}
    (hDevices : 1 ≤ devices)
    {first : TransitionSystem.Transition State Operation}
    {earlier : History}
    (hRun :
      (schedulerSystem timeQuantum devices).Run earlier
        first.source)
    {t : ThreadPtr}
    (hWoken : WokenBy devices first t) :
    (∃ io, (Ledger.ofHistory devices earlier).waiting t =
        some io) ∧
      (Ledger.ofHistory devices
        (first :: earlier)).waiting t = none := by
  rcases hWoken with ⟨io, hEvent, hIo, hMem, hWaits⟩
  have hWf := wellFormed_of_run hDevices hRun
  have hWaiting :=
    ((agrees_of_run hDevices hRun).waiting t io).mpr
      ⟨(hWf.mem_threads_iff t).mp hMem, hIo, hWaits⟩
  refine ⟨⟨io, hWaiting⟩, ?_⟩
  simp only [Ledger.ofHistory, hEvent, Ledger.record,
    hWaiting, if_true]

/-
  In every reachable state of a scheduler with devices, a
  signal of the current thread wakes exactly the waiters.
-/
theorem signalLaw_of_run
    {timeQuantum devices : UInt32}
    (hDevices : 1 ≤ devices)
    {history : History} {s : State}
    (hRun :
      (schedulerSystem timeQuantum devices).Run history s)
    {c : ThreadPtr}
    (hCurrent : s.currentThread = some c)
    {io : UInt32}
    (hIo : io < devices) :
    SignalLaw devices history s c io where
  wakes := by
    have hWf := wellFormed_of_run hDevices hRun
    have hAgrees := agrees_of_run hDevices hRun
    have hIoDev : io < s.ioDev := hAgrees.ioDev ▸ hIo
    refine ⟨_, hAgrees.wakes hWf hIo, ?_⟩
    have hNodup : s.threads.Nodup := by
      rw [hWf.listed]
      exact List.nodup_range
    rw [soSignal_of_lt hWf hCurrent hIoDev,
      wakeWaiting_count io _ _ _ hNodup,
      hAgrees.waitingIn_eq hWf hIo, Int.zero_add]
  others := by
    have hWf := wellFormed_of_run hDevices hRun
    have hAgrees := agrees_of_run hDevices hRun
    have hIoDev : io < s.ioDev := hAgrees.ioDev ▸ hIo
    intro count s' hSignal t io' hOther hWaiting
    rcases (hAgrees.waiting t io').mp hWaiting with
      ⟨ht, hIo', hWaits⟩
    rcases hWf.blocked_of_waitsOn (hAgrees.ioDev ▸ hIo') ht
        hWaits with
      ⟨hNotCurrent, hNotStored⟩
    have hNot : ¬ waitsOn io (s.heap t) := fun hBoth =>
      hOther (hWaits.1.symm.trans hBoth.1)
    exact soSignal_other hWf hCurrent hIoDev hNotStored
      hNotCurrent hNot hSignal
  once := by
    rintro later second between first earlier t rfl
      hFirst hSecond
    by_contra hNever
    have hReached := hRun.cut.1
    -- the first signal has cleared the entry of the thread
    have hCleared :=
      (waiting_of_wokenBy hDevices hReached.cut.1 hFirst).2
    have hStill :=
      waiting_of_not_waitedBy hCleared between
        (fun wait hMem hWait => hNever ⟨wait, hMem, hWait⟩)
    rcases (waiting_of_wokenBy hDevices hReached hSecond).1 with
      ⟨io, hAgain⟩
    rw [hStill] at hAgain
    cases hAgain

/- Of three threads two wait for the device. -/
theorem signalLaw_of_twoWaiters :
    ∃ (history : History) (s : State),
      s.currentThread = some 0 ∧
        ((Ledger.ofHistory 1 history).waiters 0).length = 2 ∧
          SignalLaw 1 history s 0 0 := by
  rcases exists_run_of_operations
      (rfl : soInit false 5 1 = some (initialState 5 1))
      [.soFork 1 0, .soFork 1 1, .soWait 0, .soFork 1 2,
        .soWait 0]
      (fun _ s =>
        decide (s.currentThread = some 0) &&
          decide ((waitingIn 0 s s.threads).length = 2))
      (by decide +kernel) with
    ⟨history, s, hRun, hReached⟩
  rw [Bool.and_eq_true, decide_eq_true_eq,
    decide_eq_true_eq] at hReached
  have hOne : (1 : UInt32) ≤ 1 := by decide
  have hZero : (0 : UInt32) < 1 := by decide
  have hWaiters :=
    (agrees_of_run hOne hRun).waitingIn_eq
      (wellFormed_of_run hOne hRun) hZero
  rw [hWaiters] at hReached
  exact ⟨history, s, hReached.1, hReached.2,
    signalLaw_of_run hOne hRun hReached.1 hZero⟩

------------------------------------------------------------
-- Devices That Are Not Configured
------------------------------------------------------------

/-
  Of `n` configured devices, a call of `so_wait` or of
  `so_signal` is refused, with `-1` and an unchanged
  scheduler, exactly if the device is not one of them.
-/
structure DeviceLaw (n io : UInt32) (s : State) : Prop where
  wait : soWait io s = some (-1, s) ↔ n ≤ io
  signal : soSignal io s = some (-1, s) ↔ n ≤ io

/- Starting a thread does not change the devices. -/
theorem thHandlerStart_ioDev (t : ThreadPtr) (s : State) :
    (thHandlerStart t s).ioDev = s.ioDev := by
  unfold thHandlerStart
  dsimp only
  split <;> rfl

theorem soFork_ioDev
    (func : SoHandler) (priority : UInt32) (s : State) :
    (soFork func priority s).2.ioDev = s.ioDev := by
  unfold soFork
  split
  · rfl
  · split
    · rfl
    · dsimp only
      split
      · rw [checkScheduler_frame]
        exact thHandlerStart_ioDev _ _
      · exact thHandlerStart_ioDev _ _

theorem soWait_ioDev
    {io : UInt32} {s : State} {result : Int × State}
    (hWait : soWait io s = some result) :
    result.2.ioDev = s.ioDev := by
  unfold soWait at hWait
  split at hWait
  · cases hWait
    rfl
  · split at hWait
    · cases hWait
    · cases hWait
      rw [getThreadFromQueue_frame]
      rfl

theorem soSignal_ioDev
    {io : UInt32} {s : State} {result : Int × State}
    (hSignal : soSignal io s = some result) :
    result.2.ioDev = s.ioDev := by
  unfold soSignal at hSignal
  split at hSignal
  · cases hSignal
    rfl
  · dsimp only at hSignal
    split at hSignal
    · cases hSignal
    · split at hSignal <;>
      · cases hSignal
        rw [comparePriorities_frame, wakeWaiting_frame]

/- No step changes the number of devices. -/
theorem step_ioDev
    {s s' : State} {operation : Operation}
    (hStep : step s operation = some s') :
    s'.ioDev = s.ioDev := by
  unfold step at hStep
  split at hStep
  · cases hStep
    rw [resume_frame]
    exact soFork_ioDev _ _ s
  · cases hStep
    rw [resume_frame]
    dsimp only
    rw [soExec, checkScheduler_frame]
  · rcases Option.map_eq_some_iff.mp hStep with
      ⟨result, hWait, rfl⟩
    rw [resume_frame]
    exact soWait_ioDev hWait
  · rcases Option.map_eq_some_iff.mp hStep with
      ⟨result, hSignal, rfl⟩
    rw [resume_frame]
    exact soSignal_ioDev hSignal
  · cases hStep
    rw [resume_frame]
    dsimp only [thHandlerEnd]
    rw [State.setThread_ioDev, getThreadFromQueue_frame]
  · cases hStep

/- The devices are those of `so_init` in every run. -/
theorem ioDev_of_run
    {timeQuantum n : UInt32}
    {history : History} {s : State}
    (hRun : (schedulerSystem timeQuantum n).Run history s) :
    s.ioDev = n :=
  hRun.invariant (I := fun s => s.ioDev = n)
    (fun s hInit => by
      rcases (soInit_eq_some_iff _ _ s).mp hInit with
        ⟨_, _, rfl⟩
      rfl)
    (fun _ _ _ hIoDev hStep =>
      (step_ioDev hStep).trans hIoDev)

/- A call that passes the test of its device is not refused. -/
theorem soWait_ne
    {s : State} {io : UInt32}
    (hValid : ¬ io > s.ioDev - 1) :
    soWait io s ≠ some (-1, s) := by
  unfold soWait
  rw [if_neg hValid]
  cases s.currentThread with
  | none => exact fun hSame => nomatch hSame
  | some c =>
      intro hSame
      have hStatus : (0 : Int) = -1 :=
        congrArg Prod.fst (Option.some.inj hSame)
      omega

theorem soSignal_ne
    {s : State} {io : UInt32}
    (hValid : ¬ io > s.ioDev - 1) :
    soSignal io s ≠ some (-1, s) := by
  have hCount := le_wakeWaiting io s.threads 0 s
  unfold soSignal
  rw [if_neg hValid]
  dsimp only
  intro hSame
  split at hSame
  · cases hSame
  · have hStatus : (wakeWaiting io s.threads 0 s).1 = -1 := by
      split at hSame <;>
        exact congrArg Prod.fst (Option.some.inj hSame)
    omega

/- Without devices no number is out of bounds. -/
theorem not_gt_of_no_devices (io : UInt32) :
    ¬ io > (0 : UInt32) - 1 := by
  grind

theorem not_deviceLaw_of_no_devices
    {s : State} (hIoDev : s.ioDev = 0) (io : UInt32) :
    ¬ DeviceLaw 0 io s := by
  intro hLaw
  apply @soWait_ne s io
  · rw [hIoDev]
    exact not_gt_of_no_devices io
  · exact hLaw.wait.mpr UInt32.zero_le

/-
  In every reachable state, with a current thread or without
  one, the devices that are not configured, and no others, are
  refused exactly if there is at least one device.
-/
theorem deviceLaw_iff
    {timeQuantum n : UInt32}
    {history : History} {s : State}
    (hRun : (schedulerSystem timeQuantum n).Run history s)
    (io : UInt32) :
    DeviceLaw n io s ↔ n ≠ 0 := by
  have hIoDev := ioDev_of_run hRun
  constructor
  · rintro hLaw rfl
    exact not_deviceLaw_of_no_devices hIoDev io hLaw
  · intro hSome
    have hDevices : 1 ≤ n := by grind
    have hWf := wellFormed_of_run hDevices hRun
    have hLt : io < s.ioDev ↔ ¬ n ≤ io := by
      rw [hIoDev, UInt32.not_le]
    have hRefused : n ≤ io → ¬ io < s.ioDev :=
      fun hLe hIo => hLt.mp hIo hLe
    constructor
    · refine ⟨fun hWait => ?_,
        fun hLe => soWait_of_not_lt hWf (hRefused hLe)⟩
      by_contra hNot
      exact soWait_ne
        ((not_gt_sub_one_iff hWf.devices.1).mpr
          (hLt.mpr hNot)) hWait
    · refine ⟨fun hSignal => ?_,
        fun hLe => soSignal_of_not_lt hWf (hRefused hLe)⟩
      by_contra hNot
      exact soSignal_ne
        ((not_gt_sub_one_iff hWf.devices.1).mpr
          (hLt.mpr hNot)) hSignal

/-
  One thread runs, and another one waits for the second of two
  devices.
-/
theorem deviceLaw_of_twoDevices :
    ∃ (history : History) (s : State),
      (schedulerSystem 5 2).Run history s ∧
        s.currentThread = some 1 ∧
          (s.heap 0).thState = .waiting ∧
            ∀ io, DeviceLaw 2 io s := by
  rcases exists_run_of_operations
      (rfl : soInit false 5 2 = some (initialState 5 2))
      [.soFork 1 0, .soFork 1 0, .soWait 1]
      (fun _ s =>
        decide
          (s.currentThread = some 1 ∧
            (s.heap 0).thState = .waiting))
      (by decide) with
    ⟨history, s, hRun, hReached⟩
  have hBoth := of_decide_eq_true hReached
  exact ⟨history, s, hRun, hBoth.1, hBoth.2,
    fun io => (deviceLaw_iff hRun io).mpr (by decide)⟩

/- A scheduler without devices lets a thread wait for one. -/
theorem not_deviceLaw_always :
    ¬ ∀ (timeQuantum n : UInt32) (history : History)
        (s : State) (c : ThreadPtr) (io : UInt32),
      (schedulerSystem timeQuantum n).Run history s →
        s.currentThread = some c → DeviceLaw n io s := by
  intro hAlways
  rcases exists_run_of_operations
      (rfl : soInit false 5 0 = some (initialState 5 0))
      [.soFork 1 0]
      (fun _ s => decide (s.currentThread = some 0))
      (by decide) with
    ⟨history, s, hRun, hCurrent⟩
  exact not_deviceLaw_of_no_devices (ioDev_of_run hRun) 0
    (hAlways 5 0 history s 0 0 hRun
      (of_decide_eq_true hCurrent))

end Scheduler

end ProgrammingTasks
