import Mathlib.Data.Set.Basic
import Mathlib.Data.List.Forall2
import Mathlib.Order.Bounds.Basic
import ProgrammingTasks.Foundations.CountedSteps

/-
  The distance of a word to the words of a box.

  A box allows a set of symbols at each place.  The recursion
  takes the diagonal wherever the first symbol is allowed,
  without a minimum; that this loses nothing follows from the
  fact that neighbouring values differ by at most one.

  Main declarations:
    * `EditDistance.Edit`
    * `EditDistance.closest`
    * `EditDistance.Neighbours`, `EditDistance.neighbours`
    * `EditDistance.closest_isLeast`
-/

------------------------------------------------------------
-- Edits
------------------------------------------------------------

namespace EditDistance

variable {α : Type}

/- One symbol is inserted, deleted or replaced. -/
inductive Edit : List α → List α → Prop
| insert (front : List α) (c : α) (rest : List α) :
    Edit (front ++ rest) (front ++ c :: rest)
| delete (front : List α) (c : α) (rest : List α) :
    Edit (front ++ c :: rest) (front ++ rest)
| replace (front : List α) (c d : α) (rest : List α) :
    Edit (front ++ c :: rest) (front ++ d :: rest)

theorem Edit.cons
    {xs ys : List α}
    (c : α)
    (hEdit : Edit xs ys) :
    Edit (c :: xs) (c :: ys) := by
  cases hEdit with
  | insert front d rest => exact .insert (c :: front) d rest
  | delete front d rest => exact .delete (c :: front) d rest
  | replace front d e rest =>
      exact .replace (c :: front) d e rest

theorem Edit.reverse
    {xs ys : List α}
    (hEdit : Edit xs ys) :
    Edit xs.reverse ys.reverse := by
  cases hEdit with
  | insert front c rest =>
      simpa using Edit.insert rest.reverse c front.reverse
  | delete front c rest =>
      simpa using Edit.delete rest.reverse c front.reverse
  | replace front c d rest =>
      simpa using Edit.replace rest.reverse c d front.reverse

theorem steps_cons
    {k : Nat} {xs ys : List α}
    (c : α)
    (hSteps : CountedSteps Edit k xs ys) :
    CountedSteps Edit k (c :: xs) (c :: ys) :=
  hSteps.map (Edit.cons c)

theorem steps_reverse_iff
    {k : Nat} {xs ys : List α} :
    CountedSteps Edit k xs.reverse ys.reverse ↔
      CountedSteps Edit k xs ys := by
  constructor
  · intro hSteps
    simpa using
      hSteps.map (f := List.reverse) (fun hEdit => hEdit.reverse)
  · intro hSteps
    exact hSteps.map (fun hEdit => hEdit.reverse)

------------------------------------------------------------
-- The Recursion
------------------------------------------------------------

/- The words that a box allows. -/
def InBox (box : List (Set α)) (word : List α) : Prop :=
  List.Forall₂ (fun c allowed => c ∈ allowed) word box

open Classical in
noncomputable def closest :
    List α → List (Set α) → Nat
| [], box => box.length
| _ :: xs, [] => xs.length + 1
| x :: xs, allowed :: box =>
    if x ∈ allowed then
      closest xs box
    else
      1 + min (closest (x :: xs) box)
        (min (closest xs (allowed :: box)) (closest xs box))
termination_by xs box => xs.length + box.length

@[simp]
theorem closest_nil_left (box : List (Set α)) :
    closest [] box = box.length := by
  rw [closest]

@[simp]
theorem closest_nil_right (xs : List α) :
    closest xs [] = xs.length := by
  cases xs with
  | nil => rw [closest_nil_left]
           rfl
  | cons x xs => rw [closest, List.length_cons]

theorem closest_cons_of_mem
    {x : α} {allowed : Set α}
    (xs : List α)
    (box : List (Set α))
    (hMem : x ∈ allowed) :
    closest (x :: xs) (allowed :: box) = closest xs box := by
  rw [closest, if_pos hMem]

theorem closest_cons_of_not_mem
    {x : α} {allowed : Set α}
    (xs : List α)
    (box : List (Set α))
    (hNotMem : x ∉ allowed) :
    closest (x :: xs) (allowed :: box) =
      1 + min (closest (x :: xs) box)
        (min (closest xs (allowed :: box)) (closest xs box)) := by
  rw [closest, if_neg hNotMem]

------------------------------------------------------------
-- Neighbouring Values
------------------------------------------------------------

/- One more symbol or place changes the value by at most one. -/
structure Neighbours
    (xs : List α) (box : List (Set α)) : Prop where
  symbol_le :
    ∀ x, closest (x :: xs) box ≤ closest xs box + 1
  le_symbol :
    ∀ x, closest xs box ≤ closest (x :: xs) box + 1
  place_le :
    ∀ allowed, closest xs (allowed :: box) ≤ closest xs box + 1
  le_place :
    ∀ allowed, closest xs box ≤ closest xs (allowed :: box) + 1

/- A symbol more, from the neighbours with a place less. -/
theorem symbol_neighbours
    {xs : List α} {box : List (Set α)}
    (hBox : Neighbours xs box)
    (x : α)
    (allowed : Set α) :
    closest (x :: xs) (allowed :: box) ≤
        closest xs (allowed :: box) + 1 ∧
      closest xs (allowed :: box) ≤
        closest (x :: xs) (allowed :: box) + 1 := by
  have hLe := hBox.place_le allowed
  have hGe := hBox.le_place allowed
  have hSymbol := hBox.le_symbol x
  by_cases hMem : x ∈ allowed
  · rw [closest_cons_of_mem xs box hMem]
    omega
  · rw [closest_cons_of_not_mem xs box hMem]
    omega

/- A place more, from the neighbours with a symbol less. -/
theorem place_neighbours
    {xs : List α} {box : List (Set α)}
    (hWord : Neighbours xs box)
    (x : α)
    (allowed : Set α) :
    closest (x :: xs) (allowed :: box) ≤
        closest (x :: xs) box + 1 ∧
      closest (x :: xs) box ≤
        closest (x :: xs) (allowed :: box) + 1 := by
  have hLe := hWord.symbol_le x
  have hGe := hWord.le_symbol x
  have hPlace := hWord.le_place allowed
  by_cases hMem : x ∈ allowed
  · rw [closest_cons_of_mem xs box hMem]
    omega
  · rw [closest_cons_of_not_mem xs box hMem]
    omega

theorem neighbours :
    ∀ (xs : List α) (box : List (Set α)), Neighbours xs box
| [], [] => by constructor <;> simp
| [], allowed :: box => by
    have hSymbol := symbol_neighbours (neighbours [] box)
    constructor
    · exact fun x => (hSymbol x allowed).1
    · exact fun x => (hSymbol x allowed).2
    · simp
    · intro allowed'
      simp only [closest_nil_left, List.length_cons]
      omega
| x :: xs, [] => by
    have hPlace := place_neighbours (neighbours xs [])
    constructor
    · simp
    · intro x'
      simp only [closest_nil_right, List.length_cons]
      omega
    · exact fun allowed => (hPlace x allowed).1
    · exact fun allowed => (hPlace x allowed).2
| x :: xs, allowed :: box => by
    have hSymbol := symbol_neighbours (neighbours (x :: xs) box)
    have hPlace :=
      place_neighbours (neighbours xs (allowed :: box))
    constructor
    · exact fun x' => (hSymbol x' allowed).1
    · exact fun x' => (hSymbol x' allowed).2
    · exact fun allowed' => (hPlace x allowed').1
    · exact fun allowed' => (hPlace x allowed').2
termination_by xs box => xs.length + box.length

------------------------------------------------------------
-- Lower Bound
------------------------------------------------------------

theorem closest_cons_le
    {xs ys : List α}
    (x : α)
    (hTail :
      ∀ box : List (Set α),
        closest xs box ≤ closest ys box + 1) :
    ∀ box : List (Set α),
      closest (x :: xs) box ≤ closest (x :: ys) box + 1
| [] => by
    have hLength := hTail []
    simp only [closest_nil_right, List.length_cons] at *
    omega
| allowed :: box => by
    have hRest := closest_cons_le x hTail box
    have hHere := hTail (allowed :: box)
    have hDiagonal := hTail box
    by_cases hMem : x ∈ allowed
    · rw [closest_cons_of_mem xs box hMem,
        closest_cons_of_mem ys box hMem]
      exact hDiagonal
    · rw [closest_cons_of_not_mem xs box hMem,
        closest_cons_of_not_mem ys box hMem]
      omega

theorem closest_replace_le
    (x y : α) (xs : List α) :
    ∀ box : List (Set α),
      closest (x :: xs) box ≤ closest (y :: xs) box + 1
| [] => by
    simp only [closest_nil_right, List.length_cons]
    omega
| allowed :: box => by
    have hRest := closest_replace_le x y xs box
    have hSymbol :=
      (neighbours xs (allowed :: box)).symbol_le x
    have hPlace :=
      (neighbours (x :: xs) box).place_le allowed
    have hDiagonal :
        closest (x :: xs) (allowed :: box) ≤
          closest xs box + 1 := by
      by_cases hMem : x ∈ allowed
      · rw [closest_cons_of_mem xs box hMem]
        omega
      · rw [closest_cons_of_not_mem xs box hMem]
        omega
    by_cases hMem : y ∈ allowed
    · rw [closest_cons_of_mem xs box hMem]
      exact hDiagonal
    · rw [closest_cons_of_not_mem xs box hMem]
      omega

/- One edit changes the value by at most one. -/
theorem closest_edit_le
    {xs ys : List α}
    (hEdit : Edit xs ys)
    (box : List (Set α)) :
    closest xs box ≤ closest ys box + 1 := by
  have hFront :
      ∀ (front : List α) {xs ys : List α},
        (∀ box, closest xs box ≤ closest ys box + 1) →
          ∀ box,
            closest (front ++ xs) box ≤
              closest (front ++ ys) box + 1 := by
    intro front
    induction front with
    | nil => exact fun hRest => hRest
    | cons c front ih =>
        exact fun hRest => closest_cons_le c (ih hRest)
  cases hEdit with
  | insert front c rest =>
      exact hFront front
        (fun box => (neighbours rest box).le_symbol c) box
  | delete front c rest =>
      exact hFront front
        (fun box => (neighbours rest box).symbol_le c) box
  | replace front c d rest =>
      exact hFront front (closest_replace_le c d rest) box

theorem closest_of_inBox
    {box : List (Set α)} {word : List α}
    (hWord : InBox box word) :
    closest word box = 0 := by
  induction hWord with
  | nil => exact closest_nil_left []
  | cons hMem _ ih =>
      rw [closest_cons_of_mem _ _ hMem]
      exact ih

------------------------------------------------------------
-- Scripts of the Computed Length
------------------------------------------------------------

/- The box is reached in as many edits as the recursion says. -/
theorem exists_steps_closest :
    ∀ (xs : List α) (box : List (Set α)),
      (∀ allowed ∈ box, allowed.Nonempty) →
        ∃ word, InBox box word ∧
          CountedSteps Edit (closest xs box) xs word
| [], [], _ => by
    rw [closest_nil_left]
    exact ⟨[], .nil, .refl []⟩
| [], allowed :: box, hBox => by
    rcases exists_steps_closest [] box
        (fun a hMem => hBox a (List.mem_cons_of_mem _ hMem)) with
      ⟨word, hWord, hSteps⟩
    rcases hBox allowed List.mem_cons_self with ⟨c, hMem⟩
    rw [closest_nil_left] at hSteps ⊢
    exact ⟨c :: word, .cons hMem hWord,
      .head (.insert [] c []) (steps_cons c hSteps)⟩
| x :: xs, [], hBox => by
    rcases exists_steps_closest xs [] hBox with
      ⟨word, hWord, hSteps⟩
    rw [closest_nil_right] at hSteps ⊢
    exact ⟨word, hWord, .head (.delete [] x xs) hSteps⟩
| x :: xs, allowed :: box, hBox => by
    have hRest :
        ∀ a ∈ box, a.Nonempty :=
      fun a hMem => hBox a (List.mem_cons_of_mem _ hMem)
    rcases hBox allowed List.mem_cons_self with ⟨c, hAllowed⟩
    rcases exists_steps_closest xs box hRest with
      ⟨diagonal, hDiagonal, hReplace⟩
    by_cases hMem : x ∈ allowed
    · rw [closest_cons_of_mem xs box hMem]
      exact ⟨x :: diagonal, .cons hMem hDiagonal,
        steps_cons x hReplace⟩
    · rcases exists_steps_closest (x :: xs) box hRest with
        ⟨above, hAbove, hInsert⟩
      rcases exists_steps_closest xs (allowed :: box) hBox with
        ⟨left, hLeft, hDelete⟩
      have hMinimum :
          closest (x :: xs) (allowed :: box) =
              closest (x :: xs) box + 1 ∨
            closest (x :: xs) (allowed :: box) =
              closest xs (allowed :: box) + 1 ∨
            closest (x :: xs) (allowed :: box) =
              closest xs box + 1 := by
        rw [closest_cons_of_not_mem xs box hMem]
        omega
      rcases hMinimum with hLength | hLength | hLength
      · rw [hLength]
        exact ⟨c :: above, .cons hAllowed hAbove,
          .head (.insert [] c (x :: xs)) (steps_cons c hInsert)⟩
      · rw [hLength]
        exact ⟨left, hLeft, .head (.delete [] x xs) hDelete⟩
      · rw [hLength]
        exact ⟨c :: diagonal, .cons hAllowed hDiagonal,
          .head (.replace [] x c xs) (steps_cons c hReplace)⟩
termination_by xs box => xs.length + box.length

/- The least number of edits that lead into the box. -/
theorem closest_isLeast
    (xs : List α)
    {box : List (Set α)}
    (hBox : ∀ allowed ∈ box, allowed.Nonempty) :
    IsLeast
      {k | ∃ word, InBox box word ∧ CountedSteps Edit k xs word}
      (closest xs box) := by
  refine ⟨exists_steps_closest xs box hBox, ?_⟩
  rintro k ⟨word, hWord, hSteps⟩
  have hBound :=
    hSteps.le_add (f := fun ys => closest ys box)
      (fun hEdit => closest_edit_le hEdit box)
  rw [closest_of_inBox hWord, Nat.zero_add] at hBound
  exact hBound

end EditDistance
