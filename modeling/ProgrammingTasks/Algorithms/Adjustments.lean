import Mathlib.Data.List.Range
import ProgrammingTasks.Foundations.EditDistance

/-
  The closest mix of versions (`p2.py`).

  The table is filled row by row.  Each cell holds the least
  number of edits from a prefix of the message to a mix of
  prefixes of the versions, read from the end.

  Main declarations:
    * `minimumAdjustments`
    * `IsMix`
    * `Filled`, `filled_fillRow`
    * `minimumAdjustments_isLeast`
-/

------------------------------------------------------------
-- The Program
------------------------------------------------------------

namespace ProgrammingTasks

namespace Algorithms

open EditDistance

variable {α : Type} [DecidableEq α]

/- The table `dp`. -/
abbrev Table := Nat → Nat → Nat

def Table.set (dp : Table) (i j value : Nat) : Table :=
  Function.update dp i (Function.update (dp i) j value)

/- The loop over the versions, which stops at the first match. -/
def foundSimilar
    (mesaj : List α) (versions : List (List α))
    (nrVar i j : Nat) : Bool :=
  (List.range nrVar).any
    (fun k =>
      decide (mesaj[i - 1]? =
        versions[k]?.bind (fun version => version[j - 1]?)))

/- The value for `dp[i][j]`. -/
def cell
    (mesaj : List α) (versions : List (List α)) (nrVar : Nat)
    (dp : Table) (i j : Nat) : Nat :=
  if i = 0 then
    j
  else if j = 0 then
    i
  else if foundSimilar mesaj versions nrVar i j then
    dp (i - 1) (j - 1)
  else
    1 + min (min (dp i (j - 1)) (dp (i - 1) j))
      (dp (i - 1) (j - 1))

def fillRow
    (mesaj : List α) (versions : List (List α))
    (n nrVar : Nat) (dp : Table) (i : Nat) : Table :=
  (List.range (n + 1)).foldl
    (fun dp j =>
      dp.set i j (cell mesaj versions nrVar dp i j)) dp

def minimumAdjustments
    (mesaj : List α) (versions : List (List α))
    (m n nrVar : Nat) : Nat :=
  (List.range (m + 1)).foldl
    (fillRow mesaj versions n nrVar) (fun _ _ => 0) m n

------------------------------------------------------------
-- Mixes of Versions
------------------------------------------------------------

/- A sequence that follows some version at every position. -/
structure IsMix
    (versions : List (List α)) (n : Nat) (t : List α) :
    Prop where
  length : t.length = n
  symbol :
    ∀ j < n, ∃ version ∈ versions, t[j]? = version[j]?

/- The symbols that the versions have at a position. -/
def column (versions : List (List α)) (j : Nat) : Set α :=
  {c | ∃ version ∈ versions, version[j]? = some c}

def columns
    (versions : List (List α)) (n : Nat) : List (Set α) :=
  (List.range n).map (column versions)

omit [DecidableEq α] in
theorem inBox_columns_iff
    {versions : List (List α)} {n : Nat} {t : List α} :
    InBox (columns versions n) t ↔ IsMix versions n t := by
  rw [InBox, List.forall₂_iff_get]
  simp only [columns, List.length_map, List.length_range,
    List.get_eq_getElem, List.getElem_map, List.getElem_range]
  constructor
  · rintro ⟨hLength, hColumn⟩
    refine ⟨hLength, fun j hJ => ?_⟩
    have hIn : j < t.length := by omega
    rcases hColumn j hIn hJ with ⟨version, hMem, hSymbol⟩
    exact ⟨version, hMem,
      (List.getElem?_eq_getElem hIn).trans hSymbol.symm⟩
  · intro hMix
    refine ⟨hMix.length, fun j hIn hJ => ?_⟩
    rcases hMix.symbol j hJ with ⟨version, hMem, hSymbol⟩
    exact ⟨version, hMem,
      hSymbol.symm.trans (List.getElem?_eq_getElem hIn)⟩

omit [DecidableEq α] in
theorem column_nonempty
    {versions : List (List α)} {n : Nat}
    (hSome : 1 ≤ versions.length)
    (hLengths : ∀ version ∈ versions, version.length = n)
    {allowed : Set α}
    (hMem : allowed ∈ columns versions n) :
    allowed.Nonempty := by
  rcases List.mem_map.mp hMem with ⟨j, hJ, rfl⟩
  rcases List.exists_mem_of_length_pos hSome with
    ⟨version, hVersion⟩
  have hIn : j < version.length := by
    rw [hLengths version hVersion]
    exact List.mem_range.mp hJ
  exact ⟨version.get ⟨j, hIn⟩, version, hVersion,
    List.getElem?_eq_getElem hIn⟩

theorem foundSimilar_iff
    {mesaj : List α} {versions : List (List α)} {i : Nat}
    (hI : i < mesaj.length)
    (j : Nat) :
    foundSimilar mesaj versions versions.length (i + 1)
        (j + 1) = true ↔
      mesaj.get ⟨i, hI⟩ ∈ column versions j := by
  simp only [foundSimilar, Nat.add_sub_cancel,
    List.getElem?_eq_getElem hI, List.any_eq_true,
    List.mem_range, decide_eq_true_eq, column,
    Set.mem_ofPred_eq, List.get_eq_getElem]
  constructor
  · rintro ⟨k, hK, hSymbol⟩
    rw [List.getElem?_eq_getElem hK, Option.bind_some]
      at hSymbol
    exact ⟨_, List.getElem_mem hK, hSymbol.symm⟩
  · rintro ⟨version, hMem, hSymbol⟩
    rcases List.getElem_of_mem hMem with ⟨k, hK, rfl⟩
    refine ⟨k, hK, ?_⟩
    rw [List.getElem?_eq_getElem hK, Option.bind_some]
    exact hSymbol.symm

------------------------------------------------------------
-- The Table
------------------------------------------------------------

section Table

variable (mesaj : List α) (versions : List (List α))
variable {n : Nat}

/- The edits from a prefix of the message to one of a mix. -/
noncomputable def prefixDistance (n i j : Nat) : Nat :=
  closest (mesaj.take i).reverse
    ((columns versions n).take j).reverse

/- The cells before `(i, j)` hold their distances. -/
def Filled (n : Nat) (dp : Table) (i j : Nat) : Prop :=
  ∀ i' j', j' ≤ n →
    (i' < i ∨ (i' = i ∧ j' < j)) →
      dp i' j' = prefixDistance mesaj versions n i' j'

variable {mesaj versions}
variable {dp : Table} {i j : Nat}

theorem cell_eq
    (hFilled : Filled mesaj versions n dp i j)
    (hI : i ≤ mesaj.length)
    (hJ : j ≤ n) :
    cell mesaj versions versions.length dp i j =
      prefixDistance mesaj versions n i j := by
  have hColumns : (columns versions n).length = n := by
    rw [columns, List.length_map, List.length_range]
  cases i with
  | zero =>
      simp only [cell, if_true, prefixDistance, List.take_zero,
        List.reverse_nil, closest_nil_left, List.length_reverse,
        List.length_take, hColumns]
      omega
  | succ i =>
      cases j with
      | zero =>
          simp only [cell, Nat.succ_ne_zero, if_false, if_true,
            prefixDistance, List.take_zero, List.reverse_nil,
            closest_nil_right, List.length_reverse,
            List.length_take]
          omega
      | succ j =>
          have hRow :
              (mesaj.take (i + 1)).reverse =
                mesaj.get ⟨i, hI⟩ :: (mesaj.take i).reverse := by
            rw [← List.take_append_getElem hI,
              List.reverse_append]
            rfl
          have hColumn :
              ((columns versions n).take (j + 1)).reverse =
                column versions j ::
                  ((columns versions n).take j).reverse := by
            rw [← List.take_append_getElem (by omega),
              List.reverse_append]
            simp [columns]
          have hLeft := hFilled (i + 1) j (by omega) (by omega)
          have hAbove := hFilled i (j + 1) hJ (by omega)
          have hDiagonal := hFilled i j (by omega) (by omega)
          simp only [prefixDistance, hRow, hColumn] at *
          simp only [cell, Nat.succ_ne_zero, if_false,
            Nat.add_sub_cancel]
          by_cases hMem :
              mesaj.get ⟨i, hI⟩ ∈ column versions j
          · rw [if_pos ((foundSimilar_iff hI j).mpr hMem),
              closest_cons_of_mem _ _ hMem]
            exact hDiagonal
          · rw [if_neg
                (fun h => hMem ((foundSimilar_iff hI j).mp h)),
              closest_cons_of_not_mem _ _ hMem, min_assoc,
              hLeft, hAbove, hDiagonal]

theorem filled_set
    (hFilled : Filled mesaj versions n dp i j)
    (hI : i ≤ mesaj.length)
    (hJ : j ≤ n) :
    Filled mesaj versions n
      (dp.set i j (cell mesaj versions versions.length dp i j))
      i (j + 1) := by
  intro i' j' hWidth hBefore
  unfold Table.set
  by_cases hRow : i' = i
  · subst hRow
    rw [Function.update_self]
    by_cases hCell : j' = j
    · subst hCell
      rw [Function.update_self]
      exact cell_eq hFilled hI hJ
    · rw [Function.update_of_ne hCell]
      exact hFilled i' j' hWidth (by omega)
  · rw [Function.update_of_ne hRow]
    exact hFilled i' j' hWidth (by omega)

theorem filled_fillRow
    (hFilled : Filled mesaj versions n dp i 0)
    (hI : i ≤ mesaj.length) :
    Filled mesaj versions n
      (fillRow mesaj versions n versions.length dp i)
      (i + 1) 0 := by
  have hCells :
      ∀ j ≤ n + 1,
        Filled mesaj versions n
          ((List.range j).foldl
            (fun dp j =>
              dp.set i j
                (cell mesaj versions versions.length dp i j))
            dp) i j := by
    intro j
    induction j with
    | zero => exact fun _ => hFilled
    | succ j ih =>
        intro hJ
        rw [List.range_succ, List.foldl_append]
        exact filled_set (ih (by omega)) hI (by omega)
  intro i' j' hWidth hBefore
  exact hCells (n + 1) (Nat.le_refl _) i' j' hWidth (by omega)

theorem filled_rows :
    ∀ i ≤ mesaj.length + 1,
      Filled mesaj versions n
        ((List.range i).foldl
          (fillRow mesaj versions n versions.length)
          (fun _ _ => 0)) i 0
| 0, _ => by
    intro i' j' _ hBefore
    omega
| i + 1, hI => by
    rw [List.range_succ, List.foldl_append]
    exact filled_fillRow (filled_rows i (by omega)) (by omega)

end Table

------------------------------------------------------------
-- The Result
------------------------------------------------------------

/-
  The result is the least number of insertions, deletions and
  replacements that turn the message into a mix of versions.
-/
theorem minimumAdjustments_isLeast
    (mesaj : List α)
    {versions : List (List α)}
    {n : Nat}
    (hSome : 1 ≤ versions.length)
    (hLengths : ∀ version ∈ versions, version.length = n) :
    IsLeast
      {k | ∃ t, IsMix versions n t ∧
        CountedSteps Edit k mesaj t}
      (minimumAdjustments mesaj versions mesaj.length n
        versions.length) := by
  have hValue :
      minimumAdjustments mesaj versions mesaj.length n
          versions.length =
        closest mesaj.reverse (columns versions n).reverse := by
    have hFilled :
        Filled mesaj versions n
          ((List.range (mesaj.length + 1)).foldl
            (fillRow mesaj versions n versions.length)
            (fun _ _ => 0)) (mesaj.length + 1) 0 :=
      filled_rows _ (Nat.le_refl _)
    have hLast :=
      hFilled mesaj.length n (Nat.le_refl n) (by omega)
    have hColumns : (columns versions n).length = n := by
      rw [columns, List.length_map, List.length_range]
    rw [prefixDistance, List.take_length,
      List.take_of_length_le (by omega)] at hLast
    exact hLast
  have hNonempty :
      ∀ allowed ∈ (columns versions n).reverse, allowed.Nonempty :=
    fun allowed hMem =>
      column_nonempty hSome hLengths (List.mem_reverse.mp hMem)
  have hLeast := closest_isLeast mesaj.reverse hNonempty
  rw [hValue]
  convert hLeast using 3 with k
  constructor
  · rintro ⟨t, hMix, hSteps⟩
    exact ⟨t.reverse,
      List.forall₂_reverse_iff.mpr (inBox_columns_iff.mpr hMix),
      steps_reverse_iff.mpr hSteps⟩
  · rintro ⟨t, hWord, hSteps⟩
    refine ⟨t.reverse, ?_, ?_⟩
    · rw [← inBox_columns_iff, InBox,
        ← List.forall₂_reverse_iff, List.reverse_reverse]
      exact hWord
    · rw [← steps_reverse_iff, List.reverse_reverse]
      exact hSteps

/- Two versions, and a message that needs one replacement. -/
theorem minimumAdjustments_twoVersions :
    IsLeast
      {k | ∃ t, IsMix [[2, 2, 3], [1, 3, 3]] 3 t ∧
        CountedSteps Edit k [2, 3, 1] t} 1 :=
  minimumAdjustments_isLeast [2, 3, 1] (by decide) (by decide)

end Algorithms

end ProgrammingTasks
