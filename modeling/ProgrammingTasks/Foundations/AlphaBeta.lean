import Mathlib.Order.Bounds.Basic
import Mathlib.Order.OrderDual

/-
  Searching the best of several values within a window.

  A fail-hard search asks for one value after the other,
  raises the lower end of its window, and stops when the
  window is empty.  The answers need to be right within the
  window only, and so is the result.

  Main declarations:
    * `AlphaBeta.Answers`
    * `AlphaBeta.maximize`, `AlphaBeta.minimize`
    * `AlphaBeta.maximize_answers`
    * `AlphaBeta.minimize_answers`
-/

------------------------------------------------------------
-- Answers within a Window
------------------------------------------------------------

namespace AlphaBeta

variable {ι V : Type} [LinearOrder V]

/-
  `r` answers for the value `v` in the window between `alpha`
  and `beta`: it is the value inside the window, and on the
  right side of the window outside of it.
-/
structure Answers (alpha beta v r : V) : Prop where
  low : v ≤ alpha → r ≤ alpha
  inside : alpha < v → v < beta → r = v
  high : beta ≤ v → beta ≤ r

theorem Answers.self (alpha beta v : V) :
    Answers alpha beta v v where
  low h := h
  inside _ _ := rfl
  high h := h

/- Reversing the order turns the window around. -/
theorem answers_dual
    {alpha beta v r : V}
    (hAnswers :
      Answers (V := Vᵒᵈ) (OrderDual.toDual beta)
        (OrderDual.toDual alpha) (OrderDual.toDual v)
        (OrderDual.toDual r)) :
    Answers alpha beta v r where
  low := hAnswers.high
  inside hAlpha hBeta := hAnswers.inside hBeta hAlpha
  high := hAnswers.low

------------------------------------------------------------
-- The Two Loops
------------------------------------------------------------

/- Raise `alpha` by each answer until it reaches `beta`. -/
def maximize (ask : ι → V → V → V) :
    List ι → V → V → V
| [], alpha, _ => alpha
| i :: rest, alpha, beta =>
    let alpha' := max alpha (ask i alpha beta)
    if beta ≤ alpha' then alpha'
    else maximize ask rest alpha' beta

/- Lower `beta` by each answer until it reaches `alpha`. -/
def minimize (ask : ι → V → V → V) :
    List ι → V → V → V
| [], _, beta => beta
| i :: rest, alpha, beta =>
    let beta' := min beta (ask i alpha beta)
    if beta' ≤ alpha then beta'
    else minimize ask rest alpha beta'

/- One answer raises `alpha` to the value, or cuts off. -/
theorem Answers.max_cases
    {alpha beta v r : V}
    (hAnswers : Answers alpha beta v r)
    (hWindow : alpha < beta) :
    (beta ≤ max alpha r ∧ beta ≤ v) ∨
      (max alpha r < beta ∧ v < beta ∧
        max alpha r = max alpha v) := by
  rcases le_or_gt v alpha with hLow | hAlpha
  · have hR := hAnswers.low hLow
    right
    rw [max_eq_left hR, max_eq_left hLow]
    exact ⟨hWindow, lt_of_le_of_lt hLow hWindow, rfl⟩
  · rcases lt_or_ge v beta with hBeta | hHigh
    · right
      rw [hAnswers.inside hAlpha hBeta]
      exact ⟨max_lt hWindow hBeta, hBeta, rfl⟩
    · left
      exact ⟨le_trans (hAnswers.high hHigh)
        (le_max_right _ _), hHigh⟩

/- One answer lowers `beta` to the value, or cuts off. -/
theorem Answers.min_cases
    {alpha beta v r : V}
    (hAnswers : Answers alpha beta v r)
    (hWindow : alpha < beta) :
    (min beta r ≤ alpha ∧ v ≤ alpha) ∨
      (alpha < min beta r ∧ alpha < v ∧
        min beta r = min beta v) := by
  have hDual :
      Answers (V := Vᵒᵈ) (OrderDual.toDual beta)
        (OrderDual.toDual alpha) (OrderDual.toDual v)
        (OrderDual.toDual r) :=
    ⟨hAnswers.high,
      fun hBeta hAlpha => hAnswers.inside hAlpha hBeta,
      hAnswers.low⟩
  exact hDual.max_cases hWindow

/-
  What the maximizing loop returns, by the values of the
  items: `alpha` when no value exceeds it, something from
  `beta` on when a value reaches it, and else the greatest.
-/
theorem maximize_spec
    {ask : ι → V → V → V} {value : ι → V} :
    ∀ (items : List ι) (alpha beta : V),
      alpha < beta →
      (∀ i ∈ items, ∀ a, a < beta →
        Answers a beta (value i) (ask i a beta)) →
      ((∀ i ∈ items, value i ≤ alpha) →
        maximize ask items alpha beta = alpha) ∧
      ((∃ i ∈ items, beta ≤ value i) →
        beta ≤ maximize ask items alpha beta) ∧
      (∀ v, alpha < v → v < beta →
        (∃ i ∈ items, value i = v) →
        (∀ i ∈ items, value i ≤ v) →
          maximize ask items alpha beta = v)
| [], alpha, beta, _, _ => by
    refine ⟨fun _ => rfl, ?_, ?_⟩
    · rintro ⟨i, hMem, _⟩
      cases hMem
    · rintro v _ _ ⟨i, hMem, _⟩
      cases hMem
| i :: rest, alpha, beta, hWindow, hAsk => by
    have hFirst :=
      (hAsk i List.mem_cons_self alpha hWindow).max_cases
        hWindow
    rcases hFirst with ⟨hCut, hValue⟩ | ⟨hOpen, hBelow, hRaise⟩
    · rw [maximize, if_pos hCut]
      refine ⟨fun hAll => ?_, fun _ => hCut, ?_⟩
      · have hLow := hAll i List.mem_cons_self
        exact absurd hWindow
          (not_lt_of_ge (le_trans hValue hLow))
      · intro v _ hBeta _ hAll
        have hLow := hAll i List.mem_cons_self
        exact absurd hBeta
          (not_lt_of_ge (le_trans hValue hLow))
    · rw [maximize, if_neg (not_le_of_gt hOpen)]
      rw [hRaise] at hOpen ⊢
      rcases maximize_spec rest (max alpha (value i)) beta
          hOpen
          (fun j hMem =>
            hAsk j (List.mem_cons_of_mem _ hMem)) with
        ⟨hNone, hReach, hGreatest⟩
      refine ⟨fun hAll => ?_, ?_, ?_⟩
      · have hSame : max alpha (value i) = alpha :=
          max_eq_left (hAll i List.mem_cons_self)
        rw [hSame] at hNone ⊢
        exact hNone
          (fun j hMem => hAll j (List.mem_cons_of_mem _ hMem))
      · rintro ⟨j, hMem, hHigh⟩
        rcases List.mem_cons.mp hMem with rfl | hRest
        · exact absurd hBelow (not_lt_of_ge hHigh)
        · exact hReach ⟨j, hRest, hHigh⟩
      · rintro v hAlpha hBeta ⟨j, hMem, hAttained⟩ hAll
        have hRest : ∀ k ∈ rest, value k ≤ v :=
          fun k hK => hAll k (List.mem_cons_of_mem _ hK)
        have hMax : max alpha (value i) ≤ v :=
          max_le (le_of_lt hAlpha)
            (hAll i List.mem_cons_self)
        rcases eq_or_lt_of_le hMax with hEqual | hLess
        · rw [hEqual] at hNone ⊢
          exact hNone hRest
        · refine hGreatest v hLess hBeta ?_ hRest
          rcases List.mem_cons.mp hMem with rfl | hInRest
          · have hAtMost := le_max_right alpha (value j)
            rw [hAttained] at hAtMost hLess
            exact absurd hLess (not_lt_of_ge hAtMost)
          · exact ⟨j, hInRest, hAttained⟩

/- The maximizing loop answers for the greatest value. -/
theorem maximize_answers
    {ask : ι → V → V → V} {value : ι → V}
    {items : List ι} {alpha beta v : V}
    (hWindow : alpha < beta)
    (hAsk :
      ∀ i ∈ items, ∀ a, a < beta →
        Answers a beta (value i) (ask i a beta))
    (hAttained : ∃ i ∈ items, value i = v)
    (hGreatest : ∀ i ∈ items, value i ≤ v) :
    Answers alpha beta v
      (maximize ask items alpha beta) := by
  rcases maximize_spec items alpha beta hWindow hAsk with
    ⟨hNone, hReach, hInside⟩
  constructor
  · intro hLow
    exact le_of_eq
      (hNone (fun i hMem => le_trans (hGreatest i hMem) hLow))
  · intro hAlpha hBeta
    exact hInside v hAlpha hBeta hAttained hGreatest
  · intro hHigh
    rcases hAttained with ⟨i, hMem, hValue⟩
    exact hReach ⟨i, hMem, by rw [hValue]; exact hHigh⟩

/- Minimizing is maximizing in the reversed order. -/
theorem minimize_eq_maximize
    (ask : ι → V → V → V) :
    ∀ (items : List ι) (alpha beta : V),
      minimize ask items alpha beta =
        OrderDual.ofDual
          (maximize (V := Vᵒᵈ)
            (fun i b a => OrderDual.toDual
              (ask i (OrderDual.ofDual a)
                (OrderDual.ofDual b)))
            items (OrderDual.toDual beta)
            (OrderDual.toDual alpha))
| [], _, _ => rfl
| i :: rest, alpha, beta => by
    rw [minimize, maximize]
    split
    · rename_i hCut
      rw [if_pos]
      · rfl
      · exact hCut
    · rename_i hOpen
      rw [if_neg]
      · exact minimize_eq_maximize ask rest alpha _
      · exact hOpen

/- The minimizing loop answers for the least value. -/
theorem minimize_answers
    {ask : ι → V → V → V} {value : ι → V}
    {items : List ι} {alpha beta v : V}
    (hWindow : alpha < beta)
    (hAsk :
      ∀ i ∈ items, ∀ b, alpha < b →
        Answers alpha b (value i) (ask i alpha b))
    (hAttained : ∃ i ∈ items, value i = v)
    (hLeast : ∀ i ∈ items, v ≤ value i) :
    Answers alpha beta v
      (minimize ask items alpha beta) := by
  apply answers_dual
  rw [minimize_eq_maximize]
  exact maximize_answers (V := Vᵒᵈ) hWindow
    (fun i hMem b hB =>
      ⟨(hAsk i hMem b hB).high,
        fun hBeta hAlpha =>
          (hAsk i hMem b hB).inside hAlpha hBeta,
        (hAsk i hMem b hB).low⟩)
    hAttained hLeast

end AlphaBeta
