import Mathlib.Data.List.ReduceOption
import Mathlib.Data.List.Perm.Basic

/-
  Stable priority queues.

  The abstract queue is the list of the elements that have
  been put in and not been taken out, in the order in which
  they were put in.  An element is taken out if no other one
  has a higher rank, and none before it the same.

  Main declarations:
    * `StableQueue.Takes`
    * `StableQueue.Run`
    * `StableQueue.takes_of_filter`
    * `StableQueue.Run.perm`
-/

------------------------------------------------------------
-- Queues and Their Runs
------------------------------------------------------------

namespace ProgrammingTasks

namespace StableQueue

variable {α : Type}

/- What is asked of a queue. -/
inductive Call (α : Type)
| insert (x : α)
| pop
deriving DecidableEq

/- The elements that are put in by a list of calls. -/
def inserted : List (Call α) → List α
| [] => []
| .insert x :: calls => x :: inserted calls
| .pop :: calls => inserted calls

/- The first element of the highest rank is taken out. -/
inductive Takes (rank : α → Nat) :
    List α → α → List α → Prop
| intro {before after : List α} {x : α} :
    (∀ y ∈ before, rank y < rank x) →
      (∀ y ∈ after, rank y ≤ rank x) →
        Takes rank (before ++ x :: after) x (before ++ after)

/-
  `Run rank queue calls outputs queue'` says that the calls
  turn the one queue into the other one, with these results
  of their pops.  A pop of the empty queue has no result.
-/
inductive Run (rank : α → Nat) :
    List α → List (Call α) → List (Option α) →
      List α → Prop
| stop {queue : List α} :
    Run rank queue [] [] queue
| insert
    {queue queue' : List α} {x : α}
    {calls : List (Call α)} {outputs : List (Option α)} :
    Run rank (queue ++ [x]) calls outputs queue' →
      Run rank queue (.insert x :: calls) outputs queue'
| pop
    {queue rest queue' : List α} {x : α}
    {calls : List (Call α)} {outputs : List (Option α)} :
    Takes rank queue x rest →
      Run rank rest calls outputs queue' →
        Run rank queue (.pop :: calls) (some x :: outputs)
          queue'
| popEmpty
    {queue' : List α}
    {calls : List (Call α)} {outputs : List (Option α)} :
    Run rank [] calls outputs queue' →
      Run rank [] (.pop :: calls) (none :: outputs) queue'

------------------------------------------------------------
-- Taking Elements Out
------------------------------------------------------------

variable {rank : α → Nat}

/-
  The first element of the highest rank is the first one of
  those that have that rank; the ones of any rank that are
  left are the ones that were there, without it.
-/
theorem takes_of_filter
    {queue : List α} {n : Nat} {x : α} {xs : List α}
    (hFirst :
      queue.filter (fun y => rank y = n) = x :: xs)
    (hHighest : ∀ y ∈ queue, rank y ≤ n) :
    ∃ rest,
      Takes rank queue x rest ∧
        rest.filter (fun y => rank y = n) = xs ∧
          ∀ m, m ≠ n →
            rest.filter (fun y => rank y = m) =
              queue.filter (fun y => rank y = m) := by
  rcases List.filter_eq_cons_iff.mp hFirst with
    ⟨before, after, rfl, hBefore, hRank, hAfter⟩
  have hRank : rank x = n := of_decide_eq_true hRank
  refine ⟨before ++ after, ?_, ?_, ?_⟩
  · apply Takes.intro
    · intro y hy
      have hOther : rank y ≠ n := fun hSame =>
        hBefore y hy (decide_eq_true hSame)
      have hLe := hHighest y (List.mem_append_left _ hy)
      omega
    · intro y hy
      rw [hRank]
      exact hHighest y
        (List.mem_append_right _ (List.mem_cons_of_mem _ hy))
  · have hNone :
        before.filter (fun y => rank y = n) = [] :=
      List.filter_eq_nil_iff.mpr hBefore
    rw [List.filter_append, hNone, List.nil_append]
    exact hAfter
  · intro m hm
    have hOut : ¬ rank x = m := by omega
    rw [List.filter_append, List.filter_append,
      List.filter_cons_of_neg (by simpa using hOut)]

theorem Takes.perm
    {queue rest : List α} {x : α}
    (hTakes : Takes rank queue x rest) :
    queue.Perm (x :: rest) := by
  cases hTakes with
  | intro _ _ => exact List.perm_middle

theorem Takes.mem
    {queue rest : List α} {x : α}
    (hTakes : Takes rank queue x rest)
    {y : α} (hy : y ∈ rest) :
    y ∈ queue :=
  hTakes.perm.symm.subset (List.mem_cons_of_mem x hy)

/- Nothing is lost in a run, and nothing is duplicated. -/
theorem Run.perm
    {queue queue' : List α}
    {calls : List (Call α)} {outputs : List (Option α)}
    (hRun : Run rank queue calls outputs queue') :
    (queue ++ inserted calls).Perm
      (outputs.reduceOption ++ queue') := by
  induction hRun with
  | stop =>
      simp [inserted]
  | @insert queue queue' x calls outputs _ ih =>
      rw [List.append_assoc] at ih
      exact ih
  | @pop queue rest queue' x calls outputs hTakes _ ih =>
      rw [List.reduceOption_cons_of_some]
      exact (hTakes.perm.append_right _).trans
        (ih.cons x)
  | popEmpty _ ih =>
      rw [List.reduceOption_cons_of_none]
      exact ih

end StableQueue

end ProgrammingTasks
