import Mathlib.Order.Bounds.Basic
import ProgrammingTasks.Foundations.AdjacentSwaps

/-
  The switches that make a palindrome (`p1.py`).

  The program pairs the first character with its last
  occurrence.  A character without a partner is charged half
  the length and dropped; what remains must then be even.

  Main declarations:
    * `switches`, `minNumberOfSwitches`
    * `Remains`, `Solves`
    * `solves_switches`
    * `minNumberOfSwitches_optimal`
-/

------------------------------------------------------------
-- The Program
------------------------------------------------------------

namespace ProgrammingTasks

namespace Algorithms

open AdjacentSwaps

/- The characters of a string. -/
abbrev Text := List Char

/- `sir.rfind(c)` for a character that occurs. -/
def rfind (sir : Text) (c : Char) : Nat :=
  sir.length - 1 - sir.reverse.idxOf c

/- The loop; without a value where it returns `-1`. -/
def switches :
    Text → Nat → Nat → Option Nat
| [], nrSwitches, _ => some nrSwitches
| c :: rest, nrSwitches, nrDistinctVars =>
    let x := rfind (c :: rest) c
    if x ≠ 0 then
      switches (rest.take (x - 1) ++ rest.drop x)
        (nrSwitches + ((c :: rest).length - 1 - x))
        nrDistinctVars
    else if nrDistinctVars + 1 > 1 then
      none
    else
      switches rest (nrSwitches + (c :: rest).length / 2)
        (nrDistinctVars + 1)
termination_by sir => sir.length
decreasing_by
  · simp only [List.length_append, List.length_take,
      List.length_drop, List.length_cons]
    omega
  · simp

def minNumberOfSwitches (sir : Text) : Text :=
  match switches sir 0 0 with
  | none => (toString (-1 : Int)).toList ++ ['\n']
  | some nrSwitches => (toString nrSwitches).toList ++ ['\n']

------------------------------------------------------------
-- What Remains to Be Done
------------------------------------------------------------

/- Once a character was dropped, the rest has to be even. -/
def Remains
    (nrDistinctVars : Nat) (sir : Text) (k : Nat) : Prop :=
  (nrDistinctVars = 0 ∨ Even sir.length) ∧ Folds sir k

/- The loop has the least number of swaps, if there is one. -/
def Solves
    (required : Nat → Prop) (nrSwitches : Nat)
    (result : Option Nat) : Prop :=
  (result = none ∧ ∀ k, ¬ required k) ∨
    ∃ n, result = some (nrSwitches + n) ∧
      IsLeast {k | required k} n

section Solves

variable {required required' : Nat → Prop}
variable {nrSwitches cost : Nat} {result : Option Nat}

/- A step of known cost, which the swaps of a start contain. -/
theorem Solves.step
    (hLower :
      ∀ k, required k → ∃ l, required' l ∧ cost + l ≤ k)
    (hUpper : ∀ l, required' l → required (cost + l))
    (hSolves : Solves required' (nrSwitches + cost) result) :
    Solves required nrSwitches result := by
  rcases hSolves with ⟨hNone, hNever⟩ | ⟨n, hSome, hLeast⟩
  · refine Or.inl ⟨hNone, fun k hRequired => ?_⟩
    rcases hLower k hRequired with ⟨l, hRest, _⟩
    exact hNever l hRest
  · refine Or.inr ⟨cost + n, ?_, hUpper n hLeast.1, ?_⟩
    · rw [hSome, Nat.add_assoc]
    · intro k hRequired
      rcases hLower k hRequired with ⟨l, hRest, hCost⟩
      have hBound := hLeast.2 hRest
      omega

end Solves

------------------------------------------------------------
-- The Loop
------------------------------------------------------------

theorem rfind_of_not_mem
    {c : Char} {rest : Text}
    (hOnly : c ∉ rest) :
    rfind (c :: rest) c = 0 := by
  have hSplit := eraseLast_split [] hOnly
  rw [List.nil_append] at hSplit
  rw [rfind, hSplit.2, List.length_cons]
  omega

theorem rfind_of_split
    {c : Char} {v : Text}
    (u : Text)
    (hLast : c ∉ v) :
    rfind (c :: (u ++ c :: v)) c = u.length + 1 := by
  have hSplit := eraseLast_split (c :: u) hLast
  rw [List.cons_append] at hSplit
  rw [rfind, hSplit.2]
  simp only [List.length_cons, List.length_append]
  omega

/- The first character has a partner. -/
theorem switches_pair
    {c : Char} {v : Text}
    (u : Text)
    (nrSwitches nrDistinctVars : Nat)
    (hLast : c ∉ v) :
    switches (c :: (u ++ c :: v)) nrSwitches nrDistinctVars =
      switches (u ++ v) (nrSwitches + v.length)
        nrDistinctVars := by
  have hTake : (u ++ c :: v).take u.length = u :=
    List.take_left
  have hDrop : (u ++ c :: v).drop (u.length + 1) = v := by
    rw [List.drop_append]
    simp
  have hCost :
      (c :: (u ++ c :: v)).length - 1 - (u.length + 1) =
        v.length := by
    simp only [List.length_cons, List.length_append]
    omega
  rw [switches, rfind_of_split u hLast]
  simp only [ne_eq, Nat.succ_ne_zero, not_false_eq_true,
    if_true, Nat.add_sub_cancel, hTake, hDrop, hCost]

/- The first character has none. -/
theorem switches_single
    {c : Char} {rest : Text}
    (nrSwitches nrDistinctVars : Nat)
    (hOnly : c ∉ rest) :
    switches (c :: rest) nrSwitches nrDistinctVars =
      if nrDistinctVars + 1 > 1 then
        none
      else
        switches rest (nrSwitches + (rest.length + 1) / 2)
          (nrDistinctVars + 1) := by
  rw [switches, rfind_of_not_mem hOnly]
  rfl

theorem solves_pair
    {c : Char} {u v : Text}
    {nrSwitches nrDistinctVars : Nat}
    {result : Option Nat}
    (hLast : c ∉ v)
    (hRest :
      Solves (Remains nrDistinctVars (u ++ v))
        (nrSwitches + v.length) result) :
    Solves (Remains nrDistinctVars (c :: (u ++ c :: v)))
      nrSwitches result := by
  have hParity :
      Even (c :: (u ++ c :: v)).length ↔
        Even (u ++ v).length := by
    simp only [List.length_cons, List.length_append]
    grind
  refine hRest.step ?_ ?_
  · rintro k ⟨hEven, hFolds⟩
    rcases folds_pair hLast hFolds with ⟨l, hInner, hCost⟩
    rw [hParity] at hEven
    exact ⟨l, ⟨hEven, hInner⟩, hCost⟩
  · rintro l ⟨hEven, hFolds⟩
    rw [← hParity] at hEven
    exact ⟨hEven, folds_of_pair hFolds⟩

theorem solves_dropped
    {c : Char} {rest : Text}
    {nrSwitches : Nat}
    {result : Option Nat}
    (hOnly : c ∉ rest)
    (hRest :
      Solves (Remains 1 rest)
        (nrSwitches + (rest.length + 1) / 2) result) :
    Solves (Remains 0 (c :: rest)) nrSwitches result := by
  refine hRest.step ?_ ?_
  · rintro k ⟨_, hFolds⟩
    rcases folds_single hOnly hFolds with
      ⟨hEven, l, hInner, hCost⟩
    refine ⟨l, ⟨Or.inr hEven, hInner⟩, ?_⟩
    rcases hEven with ⟨n, hN⟩
    omega
  · rintro l ⟨hEven, hFolds⟩
    have hEven : Even rest.length :=
      hEven.resolve_left Nat.one_ne_zero
    have hHalf : (rest.length + 1) / 2 = rest.length / 2 := by
      rcases hEven with ⟨n, hN⟩
      omega
    rw [hHalf]
    exact ⟨Or.inl rfl, folds_of_single hEven hFolds⟩

/- No word of even length has a second single character. -/
theorem solves_refused
    {c : Char} {rest : Text}
    (nrSwitches : Nat)
    (hOnly : c ∉ rest) :
    Solves (Remains 1 (c :: rest)) nrSwitches none := by
  refine Or.inl ⟨rfl, ?_⟩
  rintro k ⟨hEven, hFolds⟩
  have hEven := hEven.resolve_left Nat.one_ne_zero
  have hRest := (folds_single hOnly hFolds).1
  rw [List.length_cons] at hEven
  grind

/- The loop solves what remains, by the length of the string. -/
theorem solves_switches :
    ∀ (sir : Text) (nrSwitches nrDistinctVars : Nat),
      nrDistinctVars ≤ 1 →
        Solves (Remains nrDistinctVars sir) nrSwitches
          (switches sir nrSwitches nrDistinctVars)
| [], nrSwitches, nrDistinctVars, _ => by
    rw [switches]
    refine Or.inr ⟨0, rfl, ?_, fun k _ => Nat.zero_le k⟩
    exact ⟨Or.inr (Even.zero), [], .refl [], .nil⟩
| c :: rest, nrSwitches, nrDistinctVars, hVars => by
    by_cases hMem : c ∈ rest
    · rcases exists_last_split hMem with ⟨u, v, hSplit, hLast⟩
      have hShorter : (u ++ v).length < (c :: rest).length := by
        rw [hSplit]
        simp only [List.length_append, List.length_cons]
        omega
      rw [hSplit, switches_pair u nrSwitches nrDistinctVars hLast]
      exact solves_pair hLast
        (solves_switches (u ++ v) _ _ hVars)
    · rw [switches_single nrSwitches nrDistinctVars hMem]
      by_cases hFirst : nrDistinctVars = 0
      · subst hFirst
        exact solves_dropped hMem
          (solves_switches rest _ 1 (Nat.le_refl 1))
      · have hOne : nrDistinctVars = 1 := by omega
        subst hOne
        exact solves_refused nrSwitches hMem
termination_by sir => sir.length

------------------------------------------------------------
-- The Result
------------------------------------------------------------

/- A number is never printed with a sign. -/
theorem toString_ne_minusOne (n : Nat) :
    (toString n).toList ++ ['\n'] ≠
      (toString (-1 : Int)).toList ++ ['\n'] := by
  intro hEqual
  have hMinus : '-' ∈ (toString n).toList := by
    rw [List.append_cancel_right hEqual]
    decide
  rw [Nat.toString_eq_repr, Nat.toList_repr] at hMinus
  have hDigit :=
    Nat.isDigit_of_mem_toDigits (by decide) (by decide) hMinus
  revert hDigit
  decide

/-
  The result is the least number of swaps of neighbours that
  make a palindrome, and -1 exactly if no rearrangement is one.
-/
theorem minNumberOfSwitches_optimal (sir : Text) :
    (minNumberOfSwitches sir = "-1\n".toList ↔
      ¬ ∃ t, sir.Perm t ∧ t.Palindrome) ∧
    (minNumberOfSwitches sir = "-1\n".toList ∨
      ∃ n,
        minNumberOfSwitches sir =
          (toString n).toList ++ ['\n'] ∧
        IsLeast
          {k | ∃ t, CountedSteps Swap k sir t ∧ t.Palindrome}
          n) := by
  have hMinus :
      "-1\n".toList = (toString (-1 : Int)).toList ++ ['\n'] := by
    decide
  rw [hMinus, ← exists_folds_iff]
  unfold minNumberOfSwitches
  rcases solves_switches sir 0 0 (Nat.zero_le 1) with
    ⟨hNone, hNever⟩ | ⟨n, hSome, hLeast⟩
  · rw [hNone]
    refine ⟨iff_of_true rfl ?_, Or.inl rfl⟩
    rintro ⟨k, hFolds⟩
    exact hNever k ⟨Or.inl rfl, hFolds⟩
  · rw [hSome, Nat.zero_add]
    have hFolds : Folds sir n := hLeast.1.2
    refine ⟨iff_of_false (toString_ne_minusOne n)
        (fun hNot => hNot ⟨n, hFolds⟩),
      Or.inr ⟨n, rfl, hFolds, ?_⟩⟩
    intro k hK
    exact hLeast.2 ⟨Or.inl rfl, hK⟩

end Algorithms

end ProgrammingTasks
