import ProgrammingTasks.TaskClusters.Events
import Mathlib.Data.List.Pairwise
import Mathlib.Data.Rat.Defs
import Mathlib.Tactic.FieldSimp
import Mathlib.Tactic.Ring
import Mathlib.Tactic.Linarith

/-
  The mean frequency of a task (`Task.java`).

  The loop moves on by one interval for each event at most.
  So it counts all intervals only if the events that come
  after an empty interval are enough to catch up with it.

  Main declarations:
    * `meanFrequencyPerTenSeconds`
    * `reached`, `reached_eq_iff`
    * `KeepsUp`, `meanFrequency_eq_iff`
-/

------------------------------------------------------------
-- The Loop over the Events
------------------------------------------------------------

namespace ProgrammingTasks

namespace TaskClusters

/- The local variables of the loop. -/
structure Counting where
  frequencies : ℚ
  nrTimeStampsPerInterval : Nat
  nrIntervals : Nat
  finalValue : Int

/- Add up the interval that ends, and go to the next one. -/
def nextInterval (st : Counting) : Counting where
  frequencies :=
    st.frequencies + (st.nrTimeStampsPerInterval : ℚ) / 10
  nrTimeStampsPerInterval := 0
  nrIntervals := st.nrIntervals + 1
  finalValue := toInt (st.finalValue + 10)

/-
  One event.  The flag `uncheckedInterval` is only set between
  the two tests of an iteration.
-/
def countEvent (st : Counting) (ue : UserEvent) : Counting :=
  let st :=
    if ue.timestamp > st.finalValue then nextInterval st
    else st
  { st with
    nrTimeStampsPerInterval := st.nrTimeStampsPerInterval + 1 }

/-
  `meanFrequencyPerTenSeconds`, with rational numbers for
  `double`.  Without an event `get(0)` throws.
-/
def meanFrequencyPerTenSeconds
    (events : List UserEvent) : Option ℚ :=
  match events with
  | [] => none
  | first :: _ =>
      let st :=
        events.foldl countEvent
          ⟨0, 0, 0, toInt (first.timestamp + 9)⟩
      some
        ((st.frequencies +
            (st.nrTimeStampsPerInterval : ℚ) / 10) /
          ((st.nrIntervals + 1 : Nat) : ℚ))

------------------------------------------------------------
-- The Interval That Is Reached
------------------------------------------------------------

/- The number of the interval of a time, from 0. -/
def interval (start time : Int) : Int :=
  (time - start) / 10

/-
  The number of the interval whose end is the final value,
  after events at these times.
-/
def reached (start : Int) : Nat → List Int → Nat
| b, [] => b
| b, time :: times =>
    reached start
      (if time > start + 9 + 10 * b then b + 1 else b) times

theorem le_reached (start : Int) :
    ∀ (times : List Int) (b : Nat), b ≤ reached start b times
| [], b => Nat.le_refl b
| time :: times, b => by
    rw [reached]
    split
    · exact Nat.le_of_succ_le (le_reached start times (b + 1))
    · exact le_reached start times b

/- The end of an interval is passed by later intervals. -/
theorem passes_iff (start time : Int) (b : Nat) :
    time > start + 9 + 10 * b ↔
      (b : Int) + 1 ≤ interval start time := by
  unfold interval
  omega

theorem interval_mono
    {start time time' : Int} (hLe : time ≤ time') :
    interval start time ≤ interval start time' := by
  unfold interval
  omega

/-
  After each time enough others follow, to reach the last
  interval by one step for each of them.
-/
def EnoughFollow (start : Int) (last : Int) : List Int → Prop
| [] => True
| time :: times =>
    last ≤ interval start time + times.length ∧
      EnoughFollow start last times

def decideEnoughFollow (start last : Int) :
    ∀ times, Decidable (EnoughFollow start last times)
| [] => instDecidableTrue
| time :: times =>
    have := decideEnoughFollow start last times
    inferInstanceAs
      (Decidable
        (last ≤ interval start time + times.length ∧
          EnoughFollow start last times))

instance (start last : Int) (times : List Int) :
    Decidable (EnoughFollow start last times) :=
  decideEnoughFollow start last times

/-
  From an interval that is not past the times, the loop gets
  to an interval if and only if there are enough steps.
-/
theorem le_reached_iff (start last : Int) :
    ∀ (times : List Int) (b : Nat),
      times.Pairwise (· ≤ ·) →
        (∀ time ∈ times, (b : Int) ≤ interval start time) →
          (last ≤ reached start b times ↔
            last ≤ b + times.length ∧
              EnoughFollow start last times)
| [], b, _, _ => by
    simp [reached, EnoughFollow]
| time :: times, b, hSorted, hAhead => by
    rcases List.pairwise_cons.mp hSorted with
      ⟨hFirst, hSorted⟩
    have hTime := hAhead time List.mem_cons_self
    have hRest :
        ∀ time' ∈ times,
          interval start time ≤ interval start time' :=
      fun time' hMem => interval_mono (hFirst time' hMem)
    rw [reached, EnoughFollow, List.length_cons]
    by_cases hPasses : time > start + 9 + 10 * b
    · rw [if_pos hPasses]
      have hNext := (passes_iff start time b).mp hPasses
      rw [le_reached_iff start last times (b + 1) hSorted
        (fun time' hMem => by
          have := hRest time' hMem
          omega)]
      constructor
      · rintro ⟨hSteps, hFollow⟩
        exact ⟨by omega, by omega, hFollow⟩
      · rintro ⟨hSteps, _, hFollow⟩
        exact ⟨by omega, hFollow⟩
    · rw [if_neg hPasses]
      have hSame : interval start time = b := by
        have hNot := mt (passes_iff start time b).mpr hPasses
        omega
      rw [le_reached_iff start last times b hSorted
        (fun time' hMem => by
          have := hRest time' hMem
          omega)]
      constructor
      · rintro ⟨hSteps, hFollow⟩
        exact ⟨by omega, by omega, hFollow⟩
      · rintro ⟨_, hSteps, hFollow⟩
        exact ⟨by omega, hFollow⟩

/- The loop is never ahead of the last interval. -/
theorem reached_le (start last : Int) :
    ∀ (times : List Int) (b : Nat),
      (b : Int) ≤ last →
        (∀ time ∈ times, interval start time ≤ last) →
          (reached start b times : Int) ≤ last
| [], b, hLe, _ => hLe
| time :: times, b, hLe, hTimes => by
    have hTime := hTimes time List.mem_cons_self
    have hRest : ∀ time ∈ times, interval start time ≤ last :=
      fun time' hMem =>
        hTimes time' (List.mem_cons_of_mem _ hMem)
    rw [reached]
    split
    · rename_i hPasses
      have hNext := (passes_iff start time b).mp hPasses
      exact reached_le start last times (b + 1) (by omega) hRest
    · exact reached_le start last times b hLe hRest

------------------------------------------------------------
-- The Mean Frequency
------------------------------------------------------------

def times (events : List UserEvent) : List Int :=
  events.map UserEvent.timestamp

/- The time of the last event, of a list that has one. -/
def lastTime (first : UserEvent) (rest : List UserEvent) : Int :=
  ((first :: rest).getLast (List.cons_ne_nil _ _)).timestamp

/-
  All final values of the loop are `int`: the first one, and
  with it the ones up to the last one.
-/
def NoOverflow
    (first : UserEvent) (rest : List UserEvent) : Prop :=
  IsInt first.timestamp ∧
    IsInt
      (first.timestamp + 9 +
        10 * reached first.timestamp 0 (times (first :: rest)))

instance (first : UserEvent) (rest : List UserEvent) :
    Decidable (NoOverflow first rest) := by
  unfold NoOverflow
  infer_instance

/-
  No event is more intervals before the last one than there
  are events after it.
-/
def KeepsUp
    (first : UserEvent) (rest : List UserEvent) : Prop :=
  EnoughFollow first.timestamp
    (interval first.timestamp (lastTime first rest))
    (times (first :: rest))

instance (first : UserEvent) (rest : List UserEvent) :
    Decidable (KeepsUp first rest) := by
  unfold KeepsUp
  infer_instance

/- The intervals from the first event to the last one. -/
def intervals
    (first : UserEvent) (rest : List UserEvent) : Int :=
  interval first.timestamp (lastTime first rest) + 1

/- What the variables stand for after some events. -/
structure Counts
    (start : Int) (n b : Nat) (st : Counting) : Prop where
  all :
    10 * st.frequencies + st.nrTimeStampsPerInterval = n
  nrIntervals : st.nrIntervals = b
  finalValue : st.finalValue = start + 9 + 10 * b

/- One event is counted, perhaps in the next interval. -/
theorem Counts.countEvent
    {start : Int} {n b : Nat} {st : Counting}
    (hCounts : Counts start n b st)
    (ue : UserEvent)
    (hInt : IsInt (start + 9 + 10 * (b + 1))
      ∨ ¬ ue.timestamp > start + 9 + 10 * b) :
    Counts start (n + 1)
      (if ue.timestamp > start + 9 + 10 * b then b + 1 else b)
      (countEvent st ue) := by
  have hAll := hCounts.all
  unfold TaskClusters.countEvent
  rw [hCounts.finalValue]
  by_cases hPasses : ue.timestamp > start + 9 + 10 * b
  · have hInt := hInt.resolve_right (not_not.mpr hPasses)
    simp only [if_pos hPasses]
    refine ⟨?_, ?_, ?_⟩
    · simp only [nextInterval]
      push_cast
      linarith
    · simp only [nextInterval, hCounts.nrIntervals]
    · have hNext :
          start + 9 + 10 * (b : Int) + 10 =
            start + 9 + 10 * (b + 1) := by
        omega
      simp only [nextInterval, hCounts.finalValue]
      rw [hNext, toInt_of_isInt hInt]
      rfl
  · simp only [if_neg hPasses]
    refine ⟨?_, hCounts.nrIntervals, hCounts.finalValue⟩
    push_cast
    linarith

/- The loop counts the events and goes to what is reached. -/
theorem Counts.foldl
    {start : Int} (hStart : IsInt start) :
    ∀ (events : List UserEvent) {n b : Nat} {st : Counting},
      Counts start n b st →
        IsInt (start + 9 + 10 * reached start b (times events)) →
          Counts start (n + events.length)
            (reached start b (times events))
            (events.foldl TaskClusters.countEvent st)
| [], n, b, st, hCounts, _ => hCounts
| ue :: events, n, b, st, hCounts, hInt => by
    have hStep :
        reached start b (times (ue :: events)) =
          reached start
            (if ue.timestamp > start + 9 + 10 * b then b + 1
              else b)
            (times events) :=
      rfl
    rw [hStep] at hInt ⊢
    have hLower :=
      le_reached start (times events)
        (if ue.timestamp > start + 9 + 10 * b then b + 1 else b)
    have hNext :
        IsInt (start + 9 + 10 * (b + 1)) ∨
          ¬ ue.timestamp > start + 9 + 10 * b := by
      by_cases hPasses : ue.timestamp > start + 9 + 10 * b
      · rw [if_pos hPasses] at hLower hInt
        left
        unfold IsInt at hInt hStart ⊢
        omega
      · exact Or.inr hPasses
    have hRest :=
      Counts.foldl hStart events (hCounts.countEvent ue hNext)
        hInt
    have hLength :
        n + (ue :: events).length =
          n + 1 + events.length := by
      rw [List.length_cons]
      omega
    rw [hLength, List.foldl_cons]
    exact hRest

/- The mean over the intervals that the loop has reached. -/
theorem meanFrequency_eq
    {first : UserEvent} {rest : List UserEvent}
    (hNoOverflow : NoOverflow first rest) :
    meanFrequencyPerTenSeconds (first :: rest) =
      some
        (((first :: rest).length : ℚ) /
          (10 *
            ((reached first.timestamp 0
              (times (first :: rest)) + 1 : Nat) : ℚ))) := by
  rcases hNoOverflow with ⟨hStart, hEnd⟩
  have hFirst : IsInt (first.timestamp + 9) := by
    unfold IsInt at hStart hEnd ⊢
    omega
  have hInitial :
      Counts first.timestamp 0 0
        ⟨0, 0, 0, toInt (first.timestamp + 9)⟩ := by
    refine ⟨by norm_num, rfl, ?_⟩
    simp [toInt_of_isInt hFirst]
  have hCounts :=
    Counts.foldl hStart (first :: rest) hInitial hEnd
  have hAll := hCounts.all
  have hIntervals := hCounts.nrIntervals
  rw [Nat.zero_add] at hAll
  unfold meanFrequencyPerTenSeconds
  dsimp only
  rw [hIntervals, ← hAll]
  congr 1
  have hPos :
      ((reached first.timestamp 0
        (times (first :: rest)) + 1 : Nat) : ℚ) ≠ 0 :=
    Nat.cast_ne_zero.mpr (Nat.succ_ne_zero _)
  field_simp

/- The last time is the greatest one. -/
theorem le_lastTime
    {first : UserEvent} {rest : List UserEvent}
    (hSorted : (times (first :: rest)).Pairwise (· ≤ ·)) :
    ∀ time ∈ times (first :: rest), time ≤ lastTime first rest := by
  intro time hMem
  have hLast :
      lastTime first rest =
        (times (first :: rest)).getLast
          (List.cons_ne_nil _ _) := by
    simp only [lastTime, times, List.getLast_map]
  rw [hLast]
  exact hSorted.rel_getLast hMem

section Sorted

variable {first : UserEvent} {rest : List UserEvent}

/- No time is before the first interval. -/
theorem nonneg_interval
    (hSorted : (times (first :: rest)).Pairwise (· ≤ ·)) :
    ∀ time ∈ times (first :: rest),
      ((0 : Nat) : Int) ≤ interval first.timestamp time := by
  intro time hMem
  have hZero :
      interval first.timestamp first.timestamp = 0 := by
    simp [interval]
  rw [Nat.cast_zero, ← hZero]
  apply interval_mono
  rcases List.mem_cons.mp hMem with rfl | hRest
  · exact le_rfl
  · exact (List.pairwise_cons.mp hSorted).1 time hRest

/- The loop does not get past the last interval. -/
theorem reached_le_last
    (hSorted : (times (first :: rest)).Pairwise (· ≤ ·)) :
    (reached first.timestamp 0 (times (first :: rest)) : Int) ≤
      interval first.timestamp (lastTime first rest) := by
  apply reached_le
  · exact nonneg_interval hSorted _
      (List.mem_map_of_mem (List.getLast_mem _))
  · intro time hMem
    exact interval_mono (le_lastTime hSorted time hMem)

/- It gets there if and only if it keeps up with the events. -/
theorem reached_eq_iff
    (hSorted : (times (first :: rest)).Pairwise (· ≤ ·)) :
    (reached first.timestamp 0 (times (first :: rest)) : Int) =
        interval first.timestamp (lastTime first rest) ↔
      KeepsUp first rest := by
  have hUpper := reached_le_last hSorted
  have hLower :=
    le_reached_iff first.timestamp
      (interval first.timestamp (lastTime first rest))
      (times (first :: rest)) 0 hSorted
      (nonneg_interval hSorted)
  constructor
  · intro hSame
    exact (hLower.mp (by omega)).2
  · intro hKeepsUp
    have hZero :
        interval first.timestamp first.timestamp = 0 := by
      simp [interval]
    have hFirst :
        interval first.timestamp (lastTime first rest) ≤
          interval first.timestamp first.timestamp +
            (times rest).length :=
      hKeepsUp.1
    have hLength :
        (times (first :: rest)).length =
          (times rest).length + 1 :=
      rfl
    have hSteps := hLower.mpr ⟨by omega, hKeepsUp⟩
    omega

/- Equal means of some events are over equally many intervals. -/
theorem mean_eq_iff
    (k : Nat) (last : Int) :
    ((first :: rest).length : ℚ) / (10 * ((k + 1 : Nat) : ℚ)) =
        ((first :: rest).length : ℚ) /
          (10 * ((last + 1 : Int) : ℚ)) ↔
      (k : Int) = last := by
  have hEvents : ((first :: rest).length : ℚ) ≠ 0 :=
    Nat.cast_ne_zero.mpr (Nat.succ_ne_zero _)
  rw [div_eq_mul_inv, div_eq_mul_inv, mul_right_inj' hEvents,
    inv_inj, mul_right_inj' (by norm_num)]
  constructor
  · intro hSame
    have hInts : ((k + 1 : Nat) : Int) = last + 1 := by
      exact_mod_cast hSame
    omega
  · intro hSame
    rw [← hSame]
    push_cast
    rfl

end Sorted

/-
  Of events in order, the mean frequency is their number by
  the length of all intervals if and only if the loop can keep
  up with them.
-/
theorem meanFrequency_eq_iff
    {first : UserEvent} {rest : List UserEvent}
    (hSorted : (times (first :: rest)).Pairwise (· ≤ ·))
    (hNoOverflow : NoOverflow first rest) :
    meanFrequencyPerTenSeconds (first :: rest) =
        some
          (((first :: rest).length : ℚ) /
            (10 * (intervals first rest : ℚ))) ↔
      KeepsUp first rest := by
  rw [meanFrequency_eq hNoOverflow, Option.some.injEq,
    intervals, mean_eq_iff]
  exact reached_eq_iff hSorted

/- An event without an area. -/
def eventAt (time : Int) : UserEvent :=
  ⟨none, time⟩

/- Four intervals with two events each on average. -/
theorem meanFrequency_zeroBased :
    meanFrequencyPerTenSeconds
        ([0, 1, 5, 15, 16, 19, 21, 30].map eventAt) =
      some (1 / 5) := by
  have hMean :=
    (@meanFrequency_eq_iff (eventAt 0)
      ([1, 5, 15, 16, 19, 21, 30].map eventAt)
      (by decide) (by decide)).mpr (by decide)
  have hIntervals :
      intervals (eventAt 0)
        ([1, 5, 15, 16, 19, 21, 30].map eventAt) = 4 := by
    decide
  rw [hIntervals] at hMean
  refine hMean.trans (congrArg some ?_)
  norm_num

/- The two intervals between two events are not counted. -/
theorem not_meanFrequency_always :
    ¬ ∀ (first : UserEvent) (rest : List UserEvent),
      (times (first :: rest)).Pairwise (· ≤ ·) →
        NoOverflow first rest →
          meanFrequencyPerTenSeconds (first :: rest) =
            some
              (((first :: rest).length : ℚ) /
                (10 * (intervals first rest : ℚ))) := by
  intro hAlways
  have hOverflow : NoOverflow (eventAt 0) [eventAt 30] := by
    decide
  have hMean :=
    hAlways (eventAt 0) [eventAt 30] (by decide) hOverflow
  have hIntervals :
      intervals (eventAt 0) [eventAt 30] = 4 := by
    decide
  have hReached :
      reached (eventAt 0).timestamp 0
        (times [eventAt 0, eventAt 30]) = 1 := by
    decide
  rw [meanFrequency_eq hOverflow, hIntervals, hReached]
    at hMean
  have hValues := Option.some.inj hMean
  norm_num at hValues

end TaskClusters

end ProgrammingTasks
