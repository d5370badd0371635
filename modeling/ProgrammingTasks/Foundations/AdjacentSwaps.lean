import Mathlib.Data.List.Palindrome
import Mathlib.Data.List.Perm.Basic
import Mathlib.Algebra.Group.Nat.Even
import ProgrammingTasks.Foundations.CountedSteps

/-
  Turning words into palindromes by swaps of neighbours.

  Erasing the first occurrence of a symbol maps chains of
  swaps to chains of swaps.  The chain loses at least as many
  steps as the erased occurrence has moved.

  Main declarations:
    * `AdjacentSwaps.Swap`
    * `AdjacentSwaps.erase_steps`
    * `AdjacentSwaps.Folds`
    * `AdjacentSwaps.folds_pair`, `folds_of_pair`
    * `AdjacentSwaps.folds_single`, `folds_of_single`
-/

------------------------------------------------------------
-- Swaps
------------------------------------------------------------

namespace AdjacentSwaps

variable {α : Type}

/- Two neighbours are exchanged. -/
inductive Swap : List α → List α → Prop
| swap (front : List α) (b c : α) (rest : List α) :
    Swap (front ++ b :: c :: rest) (front ++ c :: b :: rest)

theorem Swap.cons
    {xs ys : List α}
    (c : α)
    (hSwap : Swap xs ys) :
    Swap (c :: xs) (c :: ys) := by
  cases hSwap with
  | swap front a b rest => exact .swap (c :: front) a b rest

theorem Swap.append
    {xs ys : List α}
    (hSwap : Swap xs ys)
    (zs : List α) :
    Swap (xs ++ zs) (ys ++ zs) := by
  cases hSwap with
  | swap front a b rest =>
      simpa using Swap.swap front a b (rest ++ zs)

theorem Swap.reverse
    {xs ys : List α}
    (hSwap : Swap xs ys) :
    Swap xs.reverse ys.reverse := by
  cases hSwap with
  | swap front a b rest =>
      simpa using Swap.swap rest.reverse b a front.reverse

theorem Swap.perm
    {xs ys : List α}
    (hSwap : Swap xs ys) :
    xs.Perm ys := by
  cases hSwap with
  | swap front a b rest =>
      exact (List.Perm.swap b a rest).append_left front

theorem steps_perm
    {k : Nat} {xs ys : List α}
    (hSteps : CountedSteps Swap k xs ys) :
    xs.Perm ys :=
  hSteps.preserves (P := fun zs => xs.Perm zs)
    (fun hSwap hPerm => hPerm.trans hSwap.perm)
    (List.Perm.refl xs)

/- Every rearrangement is reached. -/
theorem exists_steps_of_perm
    {xs ys : List α}
    (hPerm : xs.Perm ys) :
    ∃ k, CountedSteps Swap k xs ys := by
  induction hPerm with
  | nil => exact ⟨0, .refl []⟩
  | cons c _ ih =>
      rcases ih with ⟨k, hSteps⟩
      exact ⟨k, hSteps.map (Swap.cons c)⟩
  | swap b a rest => exact ⟨1, .single (.swap [] a b rest)⟩
  | trans _ _ ih₁ ih₂ =>
      rcases ih₁ with ⟨k, hFirst⟩
      rcases ih₂ with ⟨l, hSecond⟩
      exact ⟨k + l, hFirst.trans hSecond⟩

/- A symbol moves over a word by one swap for each symbol. -/
theorem steps_over
    (front : List α)
    (a : α) :
    ∀ v rest : List α,
      CountedSteps Swap v.length (front ++ a :: (v ++ rest))
        (front ++ v ++ a :: rest)
| [], rest => by
    rw [List.nil_append, List.append_nil]
    exact .refl _
| b :: v, rest => by
    have hRest := steps_over (front ++ [b]) a v rest
    have hNow :=
      CountedSteps.head (Swap.swap front a b (v ++ rest))
        (by simpa using hRest)
    simpa using hNow

------------------------------------------------------------
-- Erasing an Occurrence
------------------------------------------------------------

section Erase

variable [DecidableEq α]

/-
  One swap keeps the rest of the word, and moves the first
  occurrence by one, or swaps in the rest of the word.
-/
theorem erase_swap
    {xs ys : List α}
    (a : α)
    (hSwap : Swap xs ys) :
    ∃ l, CountedSteps Swap l (xs.erase a) (ys.erase a) ∧
      l + xs.idxOf a ≤ ys.idxOf a + 1 ∧
      l + ys.idxOf a ≤ xs.idxOf a + 1 := by
  cases hSwap with
  | swap front b c rest =>
      by_cases hFront : a ∈ front
      · simp only [List.erase_append_left _ hFront,
          List.idxOf_append_of_mem hFront]
        exact ⟨1, .single (.swap _ b c rest), by omega,
          by omega⟩
      · simp only [List.erase_append_right _ hFront,
          List.idxOf_append_of_notMem hFront]
        by_cases hB : b = a
        · by_cases hC : c = a
          · rw [hB, hC]
            exact ⟨0, .refl _, by omega, by omega⟩
          · rw [hB, List.erase_cons_head,
              List.erase_cons_tail (by simpa using hC),
              List.erase_cons_head, List.idxOf_cons_self,
              List.idxOf_cons_ne _ hC, List.idxOf_cons_self]
            exact ⟨0, .refl _, by omega, by omega⟩
        · by_cases hC : c = a
          · rw [hC, List.erase_cons_head,
              List.erase_cons_tail (by simpa using hB),
              List.erase_cons_head, List.idxOf_cons_self,
              List.idxOf_cons_ne _ hB, List.idxOf_cons_self]
            exact ⟨0, .refl _, by omega, by omega⟩
          · rw [List.erase_cons_tail (by simpa using hB),
              List.erase_cons_tail (by simpa using hC),
              List.erase_cons_tail (by simpa using hC),
              List.erase_cons_tail (by simpa using hB),
              List.idxOf_cons_ne _ hB, List.idxOf_cons_ne _ hC,
              List.idxOf_cons_ne _ hC, List.idxOf_cons_ne _ hB]
            exact ⟨1, .single (.swap front b c _), by omega,
              by omega⟩

/- The first occurrence pays for its own moves. -/
theorem erase_steps
    {k : Nat} {xs ys : List α}
    (a : α)
    (hSteps : CountedSteps Swap k xs ys) :
    ∃ l, CountedSteps Swap l (xs.erase a) (ys.erase a) ∧
      l + xs.idxOf a ≤ ys.idxOf a + k ∧
      l + ys.idxOf a ≤ xs.idxOf a + k := by
  induction hSteps with
  | refl xs => exact ⟨0, .refl _, by omega, by omega⟩
  | head hSwap _ ih =>
      rcases erase_swap a hSwap with ⟨l, hNow, hLeft, hRight⟩
      rcases ih with ⟨m, hRest, hLeft', hRight'⟩
      exact ⟨l + m, hNow.trans hRest, by omega, by omega⟩

/- The last occurrence pays for its own moves. -/
theorem eraseLast_steps
    {k : Nat} {xs ys : List α}
    (a : α)
    (hSteps : CountedSteps Swap k xs ys) :
    ∃ l,
      CountedSteps Swap l (xs.reverse.erase a).reverse
          (ys.reverse.erase a).reverse ∧
        l + xs.reverse.idxOf a ≤ ys.reverse.idxOf a + k ∧
        l + ys.reverse.idxOf a ≤ xs.reverse.idxOf a + k := by
  rcases erase_steps a
      (hSteps.map (fun hSwap => hSwap.reverse)) with
    ⟨l, hRest, hLeft, hRight⟩
  exact ⟨l, hRest.map (fun hSwap => hSwap.reverse), hLeft,
    hRight⟩

theorem erase_split
    {a : α} {p : List α}
    (hNotMem : a ∉ p)
    (q : List α) :
    (p ++ a :: q).erase a = p ++ q ∧
      (p ++ a :: q).idxOf a = p.length := by
  rw [List.erase_append_right _ hNotMem, List.erase_cons_head,
    List.idxOf_append_of_notMem hNotMem, List.idxOf_cons_self,
    Nat.add_zero]
  exact ⟨rfl, rfl⟩

theorem eraseLast_split
    {a : α} {q : List α}
    (p : List α)
    (hNotMem : a ∉ q) :
    ((p ++ a :: q).reverse.erase a).reverse = p ++ q ∧
      (p ++ a :: q).reverse.idxOf a = q.length := by
  have hReverse : a ∉ q.reverse := by
    rw [List.mem_reverse]
    exact hNotMem
  have hSplit := erase_split hReverse p.reverse
  have hWord :
      (p ++ a :: q).reverse = q.reverse ++ a :: p.reverse := by
    simp
  rw [hWord, hSplit.1, hSplit.2]
  simp

/- The first occurrence of a symbol is found only once. -/
theorem split_unique
    {a : α} {p q p' q' : List α}
    (hFirst : a ∉ p)
    (hFirst' : a ∉ p')
    (hEqual : p ++ a :: q = p' ++ a :: q') :
    p = p' ∧ q = q' := by
  have hLength : p.length = p'.length := by
    rw [← (erase_split hFirst q).2, hEqual,
      (erase_split hFirst' q').2]
  rcases List.append_inj hEqual hLength with ⟨hFront, hRest⟩
  exact ⟨hFront, (List.cons.inj hRest).2⟩

end Erase

theorem exists_last_split
    {a : α} {w : List α}
    (hMem : a ∈ w) :
    ∃ u v, w = u ++ a :: v ∧ a ∉ v := by
  rcases List.eq_append_cons_of_mem
      (List.mem_reverse.mpr hMem) with
    ⟨v, u, hSplit, hNotMem⟩
  refine ⟨u.reverse, v.reverse, ?_, ?_⟩
  · rw [← List.reverse_reverse w, hSplit]
    simp
  · rw [List.mem_reverse]
    exact hNotMem

------------------------------------------------------------
-- Palindromes
------------------------------------------------------------

/- The word becomes a palindrome in `k` swaps. -/
def Folds (xs : List α) (k : Nat) : Prop :=
  ∃ t, CountedSteps Swap k xs t ∧ t.Palindrome

theorem exists_folds_iff
    {xs : List α} :
    (∃ k, Folds xs k) ↔ ∃ t, xs.Perm t ∧ t.Palindrome := by
  constructor
  · rintro ⟨k, t, hSteps, hFold⟩
    exact ⟨t, steps_perm hSteps, hFold⟩
  · rintro ⟨t, hPerm, hFold⟩
    rcases exists_steps_of_perm hPerm with ⟨k, hSteps⟩
    exact ⟨k, t, hSteps, hFold⟩

/- A palindrome with a symbol at two places or more. -/
theorem palindrome_pair
    {a : α} {p q : List α}
    (hFold : (p ++ a :: q).Palindrome)
    (hFirst : a ∉ p)
    (hAgain : a ∈ q) :
    ∃ m, m.Palindrome ∧ q = m ++ a :: p.reverse := by
  classical
  rcases exists_last_split hAgain with ⟨m, r, rfl, hLast⟩
  have hReverse := hFold.reverse_eq
  have hLast' : a ∉ r.reverse := by
    rw [List.mem_reverse]
    exact hLast
  have hWord :
      (p ++ a :: (m ++ a :: r)).reverse =
        r.reverse ++ a :: (m.reverse ++ a :: p.reverse) := by
    simp
  rw [hWord] at hReverse
  rcases split_unique hLast' hFirst hReverse with
    ⟨hEnds, hMiddle⟩
  have hTail : r = p.reverse := by
    rw [← hEnds, List.reverse_reverse]
  subst hTail
  rw [List.append_cancel_right_eq] at hMiddle
  exact ⟨m, .of_reverse_eq hMiddle, rfl⟩

/- A palindrome with a symbol at one place only. -/
theorem palindrome_single
    {a : α} {p q : List α}
    (hFold : (p ++ a :: q).Palindrome)
    (hFirst : a ∉ p)
    (hOnly : a ∉ q) :
    q = p.reverse := by
  classical
  have hReverse := hFold.reverse_eq
  have hOnly' : a ∉ q.reverse := by
    rw [List.mem_reverse]
    exact hOnly
  have hWord :
      (p ++ a :: q).reverse = q.reverse ++ a :: p.reverse := by
    simp
  rw [hWord] at hReverse
  exact (split_unique hOnly' hFirst hReverse).2.symm

/- A pair of equal symbols around a palindrome. -/
theorem palindrome_around
    {m : List α}
    (hFold : m.Palindrome)
    (p : List α) :
    (p ++ m ++ p.reverse).Palindrome := by
  apply List.Palindrome.of_reverse_eq
  simp [hFold.reverse_eq]

section Fold

variable {a : α} {u v w : List α} {k : Nat}

------------------------------------------------------------
-- The First Symbol with Its Last Occurrence
------------------------------------------------------------

theorem folds_of_pair
    (hFolds : Folds (u ++ v) k) :
    Folds (a :: (u ++ a :: v)) (v.length + k) := by
  rcases hFolds with ⟨t, hSteps, hFold⟩
  refine ⟨a :: (t ++ [a]), ?_, .cons_concat a hFold⟩
  have hMove := steps_over (a :: u) a v []
  have hInside :
      CountedSteps Swap k (a :: (u ++ v ++ [a]))
        (a :: (t ++ [a])) :=
    hSteps.map
      (f := fun ys => a :: (ys ++ [a]))
      (fun hSwap => (hSwap.append [a]).cons a)
  have hStart : v ++ [] = v := List.append_nil v
  rw [hStart] at hMove
  exact hMove.trans (by simpa using hInside)

/-
  The first occurrence starts at the left end and the last one
  behind `v`; at the end they are equally far from the ends.
-/
theorem folds_pair
    (hLast : a ∉ v)
    (hFolds : Folds (a :: (u ++ a :: v)) k) :
    ∃ l, Folds (u ++ v) l ∧ v.length + l ≤ k := by
  classical
  rcases hFolds with ⟨t, hSteps, hFold⟩
  have hMem : a ∈ t :=
    (steps_perm hSteps).subset List.mem_cons_self
  rcases List.eq_append_cons_of_mem hMem with
    ⟨p, q, rfl, hFirst⟩
  rcases erase_steps a hSteps with ⟨l, hOuter, hLeft, _⟩
  rw [List.erase_cons_head, (erase_split hFirst q).1] at hOuter
  rw [List.idxOf_cons_self, (erase_split hFirst q).2] at *
  have hAgain : a ∈ q := by
    have hRest : a ∈ p ++ q :=
      (steps_perm hOuter).subset (by simp)
    exact (List.mem_append.mp hRest).resolve_left hFirst
  rcases palindrome_pair hFold hFirst hAgain with
    ⟨m, hMiddle, rfl⟩
  have hLast' : a ∉ p.reverse := by
    rw [List.mem_reverse]
    exact hFirst
  rcases eraseLast_steps a hOuter with
    ⟨l', hInner, hLeft', _⟩
  have hTarget := eraseLast_split (p ++ m) hLast'
  rw [List.append_assoc] at hTarget
  rw [(eraseLast_split u hLast).1, hTarget.1] at hInner
  rw [(eraseLast_split u hLast).2, hTarget.2,
    List.length_reverse] at hLeft'
  refine ⟨l', ⟨_, hInner, palindrome_around hMiddle p⟩, ?_⟩
  omega

------------------------------------------------------------
-- A Symbol That Occurs Once
------------------------------------------------------------

theorem folds_of_single
    (hEven : Even w.length)
    (hFolds : Folds w k) :
    Folds (a :: w) (w.length / 2 + k) := by
  rcases hFolds with ⟨t, hSteps, hFold⟩
  have hLength : t.length = w.length :=
    (steps_perm hSteps).length_eq.symm
  rcases hEven with ⟨n, hN⟩
  have hHalves : t.take n ++ t.drop n = t :=
    List.take_append_drop n t
  have hHalf : (t.take n).length = w.length / 2 := by
    rw [List.length_take]
    omega
  have hMirror : t.drop n = (t.take n).reverse := by
    have hReverse := hFold.reverse_eq
    rw [← hHalves, List.reverse_append] at hReverse
    have hEnds :=
      List.append_inj hReverse
        (by
          rw [List.length_reverse, List.length_drop, hHalf]
          omega)
    exact hEnds.2.symm
  have hMove := steps_over [] a (t.take n) (t.drop n)
  rw [hHalves, hHalf] at hMove
  refine ⟨t.take n ++ a :: t.drop n, ?_, ?_⟩
  · rw [Nat.add_comm]
    have hBehind :
        CountedSteps Swap k (a :: w) (a :: t) :=
      hSteps.map (Swap.cons a)
    exact hBehind.trans (by simpa using hMove)
  · rw [hMirror]
    have hAround :=
      palindrome_around (List.Palindrome.singleton a) (t.take n)
    simpa using hAround

/- The symbol ends in the middle. -/
theorem folds_single
    (hOnly : a ∉ w)
    (hFolds : Folds (a :: w) k) :
    Even w.length ∧
      ∃ l, Folds w l ∧ w.length / 2 + l ≤ k := by
  classical
  rcases hFolds with ⟨t, hSteps, hFold⟩
  have hMem : a ∈ t :=
    (steps_perm hSteps).subset List.mem_cons_self
  rcases List.eq_append_cons_of_mem hMem with
    ⟨p, q, rfl, hFirst⟩
  rcases erase_steps a hSteps with ⟨l, hRest, _, hRight⟩
  rw [List.erase_cons_head, (erase_split hFirst q).1] at hRest
  rw [List.idxOf_cons_self, (erase_split hFirst q).2] at hRight
  have hPerm := steps_perm hRest
  have hOnly' : a ∉ q := by
    intro hAgain
    exact hOnly
      (hPerm.symm.subset (List.mem_append_right p hAgain))
  have hMirror := palindrome_single hFold hFirst hOnly'
  subst hMirror
  have hLength := hPerm.length_eq
  rw [List.length_append, List.length_reverse] at hLength
  refine ⟨⟨p.length, hLength⟩, l,
    ⟨_, hRest, List.Palindrome.append_reverse p⟩, ?_⟩
  omega

end Fold

end AdjacentSwaps
