import ProgrammingTasks.Foundations.StableQueue
import ProgrammingTasks.Scheduler.Operations

/-
  The priority table as a stable priority queue.

  The list of each priority holds the elements of the queue
  that have this priority, in the order of the queue.  The
  scheduler inserts an element at its own priority, and takes
  the head out by a removal at the head's own priority.

  Main declarations:
    * `TP.pop`, `TP.run`
    * `TP.Represents`
    * `TP.run_refines`
-/

------------------------------------------------------------
-- Calls of the Table
------------------------------------------------------------

namespace ProgrammingTasks

namespace Scheduler

open StableQueue (Call)

namespace TP

variable {α : Type}

/- Read the head, and remove at its priority. -/
def pop (priority : α → Nat) (atp : TP α) :
    Option α × TP α :=
  match atp.getHead with
  | none => (none, atp)
  | some node =>
      (some node, atp.priorityTableRemove (priority node))

/- Insertions and pops, with the results of the pops. -/
def run (priority : α → Nat) :
    TP α → List (Call α) → List (Option α) × TP α
| atp, [] => ([], atp)
| atp, .insert info :: calls =>
    run priority
      (atp.priorityTableInsert info (priority info)) calls
| atp, .pop :: calls =>
    let popped := atp.pop priority
    let rest := run priority popped.2 calls
    (popped.1 :: rest.1, rest.2)

/- The table holds the queue, split up by priority. -/
structure Represents
    (priority : α → Nat)
    (atp : TP α) (queue : List α) : Prop where
  lists :
    ∀ p, atp.v p = queue.filter (fun x => priority x = p.val)
  bounded : ∀ x ∈ queue, priority x ≤ soMaxPrio

namespace Represents

variable {priority : α → Nat}
variable {atp : TP α} {queue : List α}

/- A table represents no element only if it has no head. -/
theorem getHead_eq_none_iff
    (hQueue : atp.Represents priority queue) :
    atp.getHead = none ↔ queue = [] := by
  rw [atp.getHead_eq_none_iff]
  constructor
  · intro hNone
    apply List.eq_nil_iff_forall_not_mem.mpr
    intro x hx
    have hIndex := hQueue.bounded x hx
    apply hNone x
    refine ⟨⟨priority x, by omega⟩, ?_⟩
    rw [hQueue.lists]
    exact List.mem_filter.mpr ⟨hx, by simp⟩
  · rintro rfl x ⟨p, hx⟩
    rw [hQueue.lists] at hx
    cases hx

/- An element that is inserted comes last in the queue. -/
theorem insert
    (hQueue : atp.Represents priority queue)
    {info : α}
    (hPriority : priority info ≤ soMaxPrio) :
    (atp.priorityTableInsert info (priority info)).Represents
      priority (queue ++ [info]) where
  lists := by
    intro p
    rw [atp.priorityTableInsert_v info hPriority,
      hQueue.lists, List.filter_append]
    by_cases hp : p.val = priority info
    · simp [hp]
    · have hOther : ¬ priority info = p.val :=
        fun hSame => hp hSame.symm
      simp [hp, hOther]
  bounded := by
    intro x hx
    rcases List.mem_append.mp hx with hOld | hNew
    · exact hQueue.bounded x hOld
    · rw [List.mem_singleton.mp hNew]
      exact hPriority

/- The head is what a stable queue gives first. -/
theorem pop
    (hQueue : atp.Represents priority queue)
    {x : α}
    (hHead : atp.getHead = some x) :
    ∃ rest,
      StableQueue.Takes priority queue x rest ∧
        (atp.priorityTableRemove (priority x)).Represents
          priority rest := by
  rcases atp.getHeadBelow_spec _ _ hHead with
    ⟨p, _, ⟨xs, hList⟩, hEmpty⟩
  have hFirst := hQueue.lists p
  rw [hList] at hFirst
  have hRank : priority x = p.val := by
    have hMem : x ∈ queue.filter
        (fun y => priority y = p.val) := by
      rw [← hFirst]
      exact List.mem_cons_self
    exact of_decide_eq_true (List.mem_filter.mp hMem).2
  have hHighest : ∀ y ∈ queue, priority y ≤ p.val := by
    intro y hy
    by_contra hAbove
    have hIndex : priority y < soMaxPrio + 1 :=
      Nat.lt_succ_of_le (hQueue.bounded y hy)
    -- a list above `p` would not be empty
    have hNil := hEmpty ⟨priority y, hIndex⟩
      (Nat.lt_of_not_le hAbove) hIndex
    rw [hQueue.lists] at hNil
    exact List.filter_eq_nil_iff.mp hNil y hy (by simp)
  rcases StableQueue.takes_of_filter hFirst.symm hHighest with
    ⟨rest, hTakes, hSame, hOthers⟩
  refine ⟨rest, hTakes, ?_, ?_⟩
  · intro p'
    rw [atp.priorityTableRemove_v, hRank]
    by_cases hp : p'.val = p.val
    · have hEqual : p' = p := Fin.ext hp
      subst hEqual
      rw [if_pos rfl, hList, List.tail_cons, hSame]
    · rw [if_neg hp, hQueue.lists, hOthers _ hp]
  · intro y hy
    exact hQueue.bounded y (hTakes.mem hy)

end Represents

/- Calls of a table that represents a queue are its calls. -/
theorem Represents.run
    {priority : α → Nat} :
    ∀ {atp : TP α} {queue : List α}
      (calls : List (Call α)),
      atp.Represents priority queue →
        (∀ x ∈ StableQueue.inserted calls,
          priority x ≤ soMaxPrio) →
          ∃ queue',
            StableQueue.Run priority queue calls
                (atp.run priority calls).1 queue' ∧
              (atp.run priority calls).2.Represents priority
                queue'
| atp, queue, [], hQueue, _ =>
    ⟨queue, .stop, hQueue⟩
| atp, queue, .insert info :: calls, hQueue, hCalls => by
    have hPriority := hCalls info List.mem_cons_self
    rcases Represents.run calls (hQueue.insert hPriority)
        (fun x hx => hCalls x (List.mem_cons_of_mem _ hx)) with
      ⟨queue', hRun, hQueue'⟩
    exact ⟨queue', .insert hRun, hQueue'⟩
| atp, queue, .pop :: calls, hQueue, hCalls => by
    cases hHead : atp.getHead with
    | none =>
        have hNil := hQueue.getHead_eq_none_iff.mp hHead
        subst hNil
        rcases Represents.run calls hQueue hCalls with
          ⟨queue', hRun, hQueue'⟩
        simp only [TP.run, TP.pop, hHead]
        exact ⟨queue', .popEmpty hRun, hQueue'⟩
    | some x =>
        rcases hQueue.pop hHead with ⟨rest, hTakes, hLeft⟩
        rcases Represents.run calls hLeft hCalls with
          ⟨queue', hRun, hQueue'⟩
        simp only [TP.run, TP.pop, hHead]
        exact ⟨queue', .pop hTakes hRun, hQueue'⟩

/-
  Insertions at priorities from 0 to `SO_MAX_PRIO` and pops, of
  a new table, have the results of a stable priority queue.
  The table has no head exactly if the queue is empty, and
  what was inserted has been popped or is in the queue.
-/
theorem run_refines
    (priority : α → Nat)
    (calls : List (Call α))
    (hCalls :
      ∀ x ∈ StableQueue.inserted calls,
        priority x ≤ soMaxPrio) :
    ∃ queue,
      StableQueue.Run priority [] calls
          (priorityTableCreate.run priority calls).1 queue ∧
        (priorityTableCreate.run priority calls).2.Represents
          priority queue ∧
        ((priorityTableCreate.run priority calls).2.getHead =
            none ↔ queue = []) ∧
        (StableQueue.inserted calls).Perm
          ((priorityTableCreate.run priority
            calls).1.reduceOption ++ queue) := by
  have hCreate :
      (priorityTableCreate : TP α).Represents priority [] :=
    ⟨fun p => rfl, fun x hx => nomatch hx⟩
  rcases hCreate.run calls hCalls with
    ⟨queue, hRun, hQueue⟩
  exact ⟨queue, hRun, hQueue, hQueue.getHead_eq_none_iff,
    hRun.perm⟩

/- Two threads of priority 3 and one of priority 1. -/
def threeThreads : List (Call (Nat × Nat)) :=
  [.insert (7, 1), .insert (8, 3), .pop, .insert (9, 3),
    .insert (8, 3), .pop]

theorem run_threeThreads :
    ∃ queue,
      StableQueue.Run Prod.snd [] threeThreads
          [some (8, 3), some (9, 3)] queue ∧
        queue.length = 2 := by
  have hOutputs :
      (priorityTableCreate.run Prod.snd threeThreads).1 =
        [some (8, 3), some (9, 3)] := by
    decide
  rcases run_refines Prod.snd threeThreads (by decide) with
    ⟨queue, hRun, _, _, hPerm⟩
  rw [hOutputs] at hRun hPerm
  have hLength : queue.length = 2 := by
    simpa [threeThreads, StableQueue.inserted] using
      hPerm.length_eq
  exact ⟨queue, hRun, hLength⟩

end TP

------------------------------------------------------------
-- Pops of the Scheduler
------------------------------------------------------------

/- The scheduler makes the thread that it pops current. -/
theorem getThreadFromQueue_eq_pop (s : State) :
    getThreadFromQueue s =
      { s with
        currentThread := (s.tp.pop s.prio).1
        tp := (s.tp.pop s.prio).2 } := by
  unfold getThreadFromQueue TP.pop
  cases s.tp.getHead with
  | none => rfl
  | some th => rfl

end Scheduler

end ProgrammingTasks
