import ProgrammingTasks.Tracer.Probes

/-
  The allocation records of the tracer.

  Counters are kept for traced processes only, but every
  allocation is recorded, whoever makes it.

  Main declarations:
    * `OnlyTraced`, `Attributed`
    * `onlyTraced_next_iff`
    * `recordsLaw_iff`
-/

------------------------------------------------------------
-- The Law
------------------------------------------------------------

namespace ProgrammingTasks

namespace Tracer

open TransitionSystem

/- Every record belongs to a process that has a row. -/
def OnlyTraced (s : Lists) : Prop :=
  ∀ mdl ∈ s.memDataHead, IsTraced s mdl.pid

/-
  Allocations that are recorded are made by traced processes.
-/
def Attributed (t : Transition) : Prop :=
  match t.event with
  | .kmallocReturn pid _ _ allocated =>
      allocated = true → IsTraced t.source pid
  | _ => True

------------------------------------------------------------
-- One Step
------------------------------------------------------------

section Step

variable {s s' : Lists}

/- Fewer records, and the same processes. -/
theorem OnlyTraced.mono
    (hTraced : OnlyTraced s)
    (hRows :
      s'.procDataHead.map ProcData.pid =
        s.procDataHead.map ProcData.pid)
    (hRecords : ∀ mdl ∈ s'.memDataHead, mdl ∈ s.memDataHead) :
    OnlyTraced s' := by
  intro mdl hMem
  rw [isTraced_congr hRows]
  exact hTraced mdl (hRecords mdl hMem)

theorem OnlyTraced.increment
    (hTraced : OnlyTraced s)
    (pid increment : Int)
    (opName : List Char) :
    OnlyTraced (incrementFuncCall pid increment opName s) :=
  hTraced.mono (map_pid_incrementFuncCall _ _ _ _)
    (fun _ hMem => hMem)

theorem OnlyTraced.kfree
    (hTraced : OnlyTraced s)
    (pid : Int)
    (address : Nat) :
    OnlyTraced (kfreeHandlerPre pid address s) := by
  have hTaken : OnlyTraced (getMemData pid address s).2 :=
    hTraced.mono rfl
      (fun _ hMem =>
        (takeMemData_sublist pid address s.memDataHead).subset
          hMem)
  unfold kfreeHandlerPre
  dsimp only
  split
  · exact (hTaken.increment _ _ _).increment _ _ _
  · exact hTaken.increment _ _ _

/- A new record needs its process among the rows. -/
theorem onlyTraced_kmalloc_iff
    (hTraced : OnlyTraced s)
    (pid : Int)
    (address size : Nat)
    (allocated : Bool) :
    OnlyTraced (kmallocHandler pid address size allocated s) ↔
      (allocated = true → IsTraced s pid) := by
  have hCounted :=
    hTraced.increment pid (toInt size)
      "kmalloc_mem_counter".toList
  have hSame :
      IsTraced
          (incrementFuncCall pid (toInt size)
            "kmalloc_mem_counter".toList s) pid ↔
        IsTraced s pid :=
    isTraced_congr (map_pid_incrementFuncCall _ _ _ _)
  unfold kmallocHandler saveMemData
  cases allocated with
  | false => exact iff_of_true hCounted (fun h => by cases h)
  | true =>
      rw [if_pos rfl, ← hSame]
      constructor
      · exact fun hNow _ => hNow _ List.mem_cons_self
      · intro hRow mdl hMem
        rcases List.mem_cons.mp hMem with rfl | hBefore
        · exact hRow rfl
        · exact hCounted mdl hBefore

theorem OnlyTraced.addProcess
    (hTraced : OnlyTraced s)
    (pid : Int)
    (allocated : Bool) :
    OnlyTraced (addProcess pid allocated s).2 := by
  unfold Tracer.addProcess
  cases allocated with
  | false => exact hTraced
  | true =>
      intro mdl hMem
      rcases hTraced mdl hMem with ⟨pdl, hRow, hPid⟩
      exact ⟨pdl, List.mem_cons_of_mem _ hRow, hPid⟩

/- The records of the process go with its row. -/
theorem OnlyTraced.removeProcess
    (hTraced : OnlyTraced s)
    (pid : Int) :
    OnlyTraced (removeProcess pid s).2 := by
  unfold Tracer.removeProcess
  split
  · intro mdl hMem
    simp only [removeByPidFromMemList, List.mem_filter,
      decide_eq_true_eq, ne_eq] at hMem
    rcases hTraced mdl hMem.1 with ⟨pdl, hRow, hPid⟩
    refine ⟨pdl, ?_, hPid⟩
    have hKept : ¬ pdl.pid = pid := by
      rw [hPid]
      exact hMem.2
    exact (List.mem_eraseP_of_neg (by simpa using hKept)).mpr
      hRow
  · exact hTraced

/- A step keeps the law exactly if its record is attributed. -/
theorem onlyTraced_next_iff
    (hTraced : OnlyTraced s)
    (e : Event) :
    OnlyTraced (handle s e) ↔ Attributed ⟨s, e, handle s e⟩ := by
  cases e with
  | kmallocReturn pid address size allocated =>
      exact onlyTraced_kmalloc_iff hTraced pid address size
        allocated
  | kfree pid address =>
      exact iff_of_true (hTraced.kfree pid address) trivial
  | ioctl cmd arg allocated =>
      refine iff_of_true ?_ trivial
      cases cmd with
      | addProcess =>
          exact hTraced.addProcess (toInt arg) allocated
      | removeProcess => exact hTraced.removeProcess (toInt arg)
      | other => exact hTraced
  | kmallocEntry pid
  | sched pid
  | up pid
  | down pid
  | lock pid
  | unlock pid =>
      exact iff_of_true (hTraced.increment _ _ _) trivial

end Step

------------------------------------------------------------
-- Whole Runs
------------------------------------------------------------

theorem onlyTraced_of_attributed
    {trace : Trace} {s : Lists}
    (hRun : tracerSystem.Run trace s)
    (hEach : AtEach (fun t _ => Attributed t) trace) :
    OnlyTraced s := by
  revert hEach
  refine hRun.history_invariant
    (I := fun trace s =>
      AtEach (fun t _ => Attributed t) trace → OnlyTraced s)
    ?_ ?_
  · rintro s rfl _ mdl hMem
    cases hMem
  · rintro trace s e s' _ hInv hStep ⟨hNow, hBefore⟩
    cases hStep
    exact (onlyTraced_next_iff (hInv hBefore) e).mpr hNow

/-
  All states of a run keep records of traced processes only
  exactly if every recorded allocation is one of theirs.
-/
theorem recordsLaw_iff
    {trace : Trace} {s : Lists}
    (hRun : tracerSystem.Run trace s) :
    AtEach (fun t _ => OnlyTraced t.target) trace ↔
      AtEach (fun t _ => Attributed t) trace := by
  induction hRun with
  | start _ =>
      exact Iff.rfl
  | next hPrefix hStep ih =>
      cases hStep
      constructor
      · rintro ⟨hNow, hBefore⟩
        have hEach := ih.mp hBefore
        have hTraced := onlyTraced_of_attributed hPrefix hEach
        exact ⟨(onlyTraced_next_iff hTraced _).mp hNow, hEach⟩
      · rintro ⟨hNow, hEach⟩
        have hTraced := onlyTraced_of_attributed hPrefix hEach
        exact ⟨(onlyTraced_next_iff hTraced _).mpr hNow,
          ih.mpr hEach⟩

instance (s : Lists) : Decidable (OnlyTraced s) :=
  inferInstanceAs
    (Decidable (∀ mdl ∈ s.memDataHead, IsTraced s mdl.pid))

instance decidableAttributed :
    ∀ t : Transition, Decidable (Attributed t)
| ⟨s, .kmallocReturn pid _ _ allocated, _⟩ =>
    inferInstanceAs
      (Decidable (allocated = true → IsTraced s pid))
| ⟨_, .kmallocEntry _, _⟩ => instDecidableTrue
| ⟨_, .kfree _ _, _⟩ => instDecidableTrue
| ⟨_, .sched _, _⟩ => instDecidableTrue
| ⟨_, .up _, _⟩ => instDecidableTrue
| ⟨_, .down _, _⟩ => instDecidableTrue
| ⟨_, .lock _, _⟩ => instDecidableTrue
| ⟨_, .unlock _, _⟩ => instDecidableTrue
| ⟨_, .ioctl _ _ _, _⟩ => instDecidableTrue

/- A traced process that allocates. -/
def tracedAllocation : List Event :=
  [.ioctl .addProcess 7 true,
    .kmallocEntry 7,
    .kmallocReturn 7 4096 64 true]

theorem recordsLaw_tracedAllocation :
    ∃ trace s,
      tracerSystem.Run trace s ∧
        s.memDataHead ≠ [] ∧
        AtEach (fun t _ => OnlyTraced t.target) trace := by
  rcases exists_run_of_execute (fun s => s = start) step
      (rfl : start = start) tracedAllocation
      (fun trace s =>
        s.memDataHead ≠ [] ∧
          AtEach (fun t _ => Attributed t) trace)
      (by decide) with ⟨trace, s, hRun, hHolds⟩
  rw [decide_eq_true_eq] at hHolds
  exact ⟨trace, s, hRun, hHolds.1,
    (recordsLaw_iff hRun).mpr hHolds.2⟩

/- One allocation before any process is traced. -/
theorem not_recordsLaw_always :
    ¬ ∀ (trace : Trace) (s : Lists),
        tracerSystem.Run trace s →
          AtEach (fun t _ => OnlyTraced t.target) trace := by
  intro hAlways
  rcases exists_run_of_execute (fun s => s = start) step
      (rfl : start = start) [.kmallocReturn 7 4096 64 true]
      (fun trace _ =>
        ¬ AtEach (fun t _ => OnlyTraced t.target) trace)
      (by decide) with ⟨trace, s, hRun, hFails⟩
  rw [decide_eq_true_eq] at hFails
  exact hFails (hAlways trace s hRun)

end Tracer

end ProgrammingTasks
