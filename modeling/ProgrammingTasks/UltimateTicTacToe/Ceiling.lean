import ProgrammingTasks.UltimateTicTacToe.OpenLines
import ProgrammingTasks.UltimateTicTacToe.Overflow
import ProgrammingTasks.UltimateTicTacToe.Announcement
import Mathlib.Order.Bounds.Defs
import Mathlib.Algebra.Order.BigOperators.Group.List
import Mathlib.Algebra.Order.BigOperators.Group.Finset

/-
  How high the evaluation can be.

  An unfinished block has no line, so that a number of marks
  in it is worth at most a certain value to their side.  With
  the lines of the macroboard this bounds the evaluation, and
  among the boards with the same macroboard and the same
  numbers of marks there is one that attains the bound.  The
  bound can exceed the score of a won game.

  Main declarations:
    * `worth`, `mostReach`, `worth_le_mostReach`
    * `marks`, `ceiling`
    * `SameMarks`, `packed`, `isGreatest_ceiling`
    * `BelowWin`, `belowWin_of_ceiling`
-/

------------------------------------------------------------
-- Marks in a Block
------------------------------------------------------------

namespace ProgrammingTasks

namespace UltimateTicTacToe

/- The marks of one side in a block, by places. -/
abbrev Pattern := Square → Bool

/- What the marks are worth if nothing is in their way. -/
def worth (S : Pattern) : Int :=
  (posibleWinSeq.map
    (fun line => placesValue (line.countP S))).sum

/- Three of the marks are in line. -/
def Complete (S : Pattern) : Prop :=
  HasLine (fun i j => if S (i, j) then 1 else 0) 1

instance (S : Pattern) : Decidable (Complete S) := by
  unfold Complete
  infer_instance

/- The most that marks without a line are worth. -/
def mostReach (marks : Nat) : Int :=
  [0, 4, 13, 28, 48, 50].getD marks 56

/- The places of a pattern, row by row. -/
def ofBits (bits : List Bool) : Pattern :=
  fun q => bits.getD (3 * q.1.val + q.2.val) false

theorem eq_ofBits (S : Pattern) :
    S =
      ofBits
        [S (0, 0), S (0, 1), S (0, 2), S (1, 0), S (1, 1),
          S (1, 2), S (2, 0), S (2, 1), S (2, 2)] := by
  funext q
  rcases q with ⟨i, j⟩
  fin_cases i <;> fin_cases j <;> rfl

theorem worth_le_ofBits :
    ∀ a b c d e f g h i : Bool,
      ¬ Complete (ofBits [a, b, c, d, e, f, g, h, i]) →
        worth (ofBits [a, b, c, d, e, f, g, h, i]) ≤
            mostReach
              (allSquares.countP
                (ofBits [a, b, c, d, e, f, g, h, i])) ∧
          allSquares.countP
              (ofBits [a, b, c, d, e, f, g, h, i]) ≤ 6 := by
  decide +kernel

/- Marks without a line are at most six. -/
theorem worth_le_mostReach
    {S : Pattern}
    (hNone : ¬ Complete S) :
    worth S ≤ mostReach (allSquares.countP S) ∧
      allSquares.countP S ≤ 6 := by
  rw [eq_ofBits S] at hNone ⊢
  exact worth_le_ofBits _ _ _ _ _ _ _ _ _ hNone

/- Marks that are worth the most. -/
def bestPattern : Nat → Pattern
| 0 => ofBits []
| 1 => ofBits [false, false, false, false, true]
| 2 => ofBits [true, false, false, false, true]
| 3 => ofBits [true, false, true, false, true]
| 4 =>
    ofBits
      [true, false, true, false, false, false, true, false, true]
| 5 =>
    ofBits
      [true, true, false, false, true, true, true, false, false]
| _ =>
    ofBits
      [true, true, false, true, false, true, false, true, true]

theorem bestPattern_spec :
    ∀ k ≤ 6,
      allSquares.countP (bestPattern k) = k ∧
        ¬ Complete (bestPattern k) ∧
        worth (bestPattern k) = mostReach k := by
  decide +kernel

------------------------------------------------------------
-- Blocks
------------------------------------------------------------

theorem placesValue_nonneg (n : Nat) : 0 ≤ placesValue n := by
  unfold placesValue
  split_ifs <;> decide

theorem lineValue_nonneg
    (entry : Square → Int) (p : Side) (line : List Square) :
    0 ≤ lineValue entry p line := by
  unfold lineValue
  split
  · exact le_rfl
  · exact placesValue_nonneg _

theorem reach_nonneg (entry : Square → Int) (p : Side) :
    0 ≤ reach entry p := by
  apply List.sum_nonneg
  intro v hMem
  rcases List.mem_map.mp hMem with ⟨line, _, rfl⟩
  exact lineValue_nonneg entry p line

/- Nothing is worth more than with nothing in its way. -/
theorem reach_le_worth (entry : Square → Int) (p : Side) :
    reach entry p ≤ worth (fun q => entry q = p.id) := by
  unfold reach worth
  rw [posibleWinSeq_eq]
  apply List.sum_le_sum
  intro line _
  unfold lineValue
  split
  · exact placesValue_nonneg _
  · exact le_rfl

theorem complete_iff (entry : Square → Int) (v : Int) :
    Complete (fun q => entry q = v) ↔
      HasLine (fun i j => entry (i, j)) v := by
  simp [Complete, HasLine]

/- A block with the marks of one side, and nothing else. -/
def loneEntry (S : Pattern) (p : Side) (q : Square) : Int :=
  if S q then p.id else 0

theorem loneEntry_eq_id_iff
    (S : Pattern) (p p' : Side) (q : Square) :
    loneEntry S p q = p'.id ↔ S q = true ∧ p = p' := by
  unfold loneEntry
  cases S q with
  | false => simp [p'.id_ne_zero.symm]
  | true =>
      simp only [if_true, true_and]
      exact ⟨Side.id_injective, fun hSame => by rw [hSame]⟩

theorem loneEntry_ne_drawn
    (S : Pattern) (p : Side) (q : Square) :
    loneEntry S p q ≠ -2 := by
  unfold loneEntry
  cases S q with
  | false => simp
  | true => cases p <;> decide

theorem places_loneEntry
    (S : Pattern) (p : Side) (line : List Square) :
    places (loneEntry S p) p.id line = line.countP S := by
  unfold places
  apply List.countP_congr
  intro q _
  simp [loneEntry_eq_id_iff]

theorem reach_loneEntry (S : Pattern) (p : Side) :
    reach (loneEntry S p) p = worth S := by
  unfold reach worth
  rw [posibleWinSeq_eq]
  congr 1
  apply List.map_congr_left
  intro line _
  unfold lineValue
  rw [if_neg, places_loneEntry]
  rintro ⟨q, _, hOther | hDrawn⟩
  · rw [loneEntry_eq_id_iff] at hOther
    exact p.other_id_ne (congrArg Side.id hOther.2).symm
  · exact loneEntry_ne_drawn S p q hDrawn

/- To the other side such a block is worth nothing. -/
theorem reach_loneEntry_other (S : Pattern) (p : Side) :
    reach (loneEntry S p) p.other = 0 := by
  apply List.sum_eq_zero
  intro v hMem
  rcases List.mem_map.mp hMem with ⟨line, _, rfl⟩
  have hNone : places (loneEntry S p) p.other.id line = 0 := by
    unfold places
    rw [List.countP_eq_zero]
    intro q _
    rw [decide_eq_true_eq, loneEntry_eq_id_iff]
    rintro ⟨_, hSame⟩
    exact p.other_id_ne (congrArg Side.id hSame).symm
  unfold lineValue
  split
  · rfl
  · rw [hNone]
    rfl

theorem not_hasLine_loneEntry
    {S : Pattern}
    (hNone : ¬ Complete S)
    (p p' : Side) :
    ¬ HasLine (fun i j => loneEntry S p (i, j)) p'.id := by
  rw [← complete_iff]
  by_cases hSame : p = p'
  · simpa [loneEntry_eq_id_iff, hSame] using hNone
  · simp only [loneEntry_eq_id_iff, hSame, and_false]
    decide

------------------------------------------------------------
-- The Bound
------------------------------------------------------------

/- The marks of a side in the block of a square. -/
def marks (s : Game) (q : Square) (p : Side) : Nat :=
  places (blockEntry s q) p.id allSquares

/-
  The lines of the macroboard, and the most that the marks in
  the unfinished blocks can be worth.
-/
def ceiling (s : Game) (p : Side) : Int :=
  23 * (reach s.mMacroboard p - reach s.mMacroboard p.other) +
    ∑ q,
      if isUnfinished (s.mMacroboard q) then
        squareWeight q * mostReach (marks s q p)
      else
        0

theorem squareWeight_nonneg (q : Square) :
    0 ≤ squareWeight q := by
  unfold squareWeight
  split_ifs <;> decide

/- An unfinished block has no line. -/
theorem Coherent.not_complete
    {s : Game}
    (hCoherent : Coherent s)
    {q : Square}
    (hOpen : isUnfinished (s.mMacroboard q))
    (p : Side) :
    ¬ Complete (fun r => blockEntry s q r = p.id) := by
  rw [complete_iff]
  intro hLine
  have hWon : s.mMacroboard q = p.id :=
    (hCoherent.won q p).mpr hLine
  rw [hWon] at hOpen
  revert hOpen
  cases p <;> decide

theorem blockReach_le
    {s : Game}
    (hCoherent : Coherent s)
    (q : Square) (p : Side) :
    blockReach s q p - blockReach s q p.other ≤
      if isUnfinished (s.mMacroboard q) then
        squareWeight q * mostReach (marks s q p)
      else
        0 := by
  unfold blockReach
  split
  · rename_i hOpen
    have hOwn :=
      (reach_le_worth (blockEntry s q) p).trans
        (worth_le_mostReach (hCoherent.not_complete hOpen p)).1
    have hOther := reach_nonneg (blockEntry s q) p.other
    rw [← Int.mul_sub]
    apply Int.mul_le_mul_of_nonneg_left _ (squareWeight_nonneg q)
    exact (Int.sub_le_self _ hOther).trans hOwn
  · exact le_rfl

theorem evaluate_eq_sum (s : Game) (p : Side) :
    evaluate s p =
      23 * (reach s.mMacroboard p -
          reach s.mMacroboard p.other) +
        ∑ q, (blockReach s q p - blockReach s q p.other) := by
  rw [evaluate_eq_advantage, advantage, weightedReach,
    weightedReach, Finset.sum_sub_distrib]
  omega

/- No evaluation of a coherent board is above the bound. -/
theorem evaluate_le_ceiling
    {s : Game}
    (hCoherent : Coherent s)
    (p : Side) :
    evaluate s p ≤ ceiling s p := by
  rw [evaluate_eq_sum]
  apply Int.add_le_add_left
  exact Finset.sum_le_sum (fun q _ => blockReach_le hCoherent q p)

------------------------------------------------------------
-- A Board That Attains It
------------------------------------------------------------

/- The same macroboard, and as many marks of a side. -/
structure SameMarks (p : Side) (s s' : Game) : Prop where
  macroboard : s'.mMacroboard = s.mMacroboard
  marks :
    ∀ q, isUnfinished (s.mMacroboard q) →
      marks s' q p = marks s q p

theorem SameMarks.ceiling_eq
    {p : Side} {s s' : Game}
    (hSame : SameMarks p s s') :
    ceiling s' p = ceiling s p := by
  unfold ceiling
  rw [hSame.macroboard]
  congr 1
  apply Finset.sum_congr rfl
  intro q _
  split
  · rename_i hOpen
    rw [hSame.marks q hOpen]
  · rfl

/- The marks of a side in their best places, and no other. -/
def packed (s : Game) (p : Side) : Game :=
  { s with
    mBoard := fun c =>
      if isUnfinished (s.mMacroboard (squareOf c)) then
        loneEntry (bestPattern (marks s (squareOf c) p)) p
          (targetOf c)
      else
        s.mBoard c }

theorem targetOf_cellAt (q r : Square) :
    targetOf (cellAt q r) = r := by
  apply Prod.ext <;> apply Fin.ext <;>
    simp only [targetOf, cellAt] <;> omega

theorem blockEntry_packed
    {s : Game} {p : Side} {q : Square}
    (hOpen : isUnfinished (s.mMacroboard q)) :
    blockEntry (packed s p) q =
      loneEntry (bestPattern (marks s q p)) p := by
  funext r
  simp only [blockEntry, blockOf, packed, squareOf_cellAt,
    targetOf_cellAt, if_pos hOpen]

theorem blockOf_packed
    {s : Game} {p : Side} {q : Square}
    (hDone : ¬ isUnfinished (s.mMacroboard q)) :
    blockOf (packed s p).mBoard q = blockOf s.mBoard q := by
  funext i j
  simp only [blockOf, packed, squareOf_cellAt, if_neg hDone]

section Packed

variable {s : Game} {p : Side}

/- There are best places for the marks of an open block. -/
theorem Coherent.bestPattern_spec
    (hCoherent : Coherent s)
    {q : Square}
    (hOpen : isUnfinished (s.mMacroboard q)) :
    allSquares.countP (bestPattern (UltimateTicTacToe.marks s q p)) =
        UltimateTicTacToe.marks s q p ∧
      ¬ Complete (bestPattern (UltimateTicTacToe.marks s q p)) ∧
      worth (bestPattern (UltimateTicTacToe.marks s q p)) =
        mostReach (UltimateTicTacToe.marks s q p) :=
  UltimateTicTacToe.bestPattern_spec _
    (worth_le_mostReach (hCoherent.not_complete hOpen p)).2

theorem sameMarks_packed
    (hCoherent : Coherent s) :
    SameMarks p s (packed s p) where
  macroboard := rfl
  marks := by
    intro q hOpen
    rw [marks, blockEntry_packed hOpen, places_loneEntry]
    exact (hCoherent.bestPattern_spec hOpen).1

theorem evaluate_packed
    (hCoherent : Coherent s) :
    evaluate (packed s p) p = ceiling s p := by
  rw [evaluate_eq_sum, ceiling]
  congr 1
  apply Finset.sum_congr rfl
  intro q _
  unfold blockReach
  by_cases hOpen : isUnfinished (s.mMacroboard q)
  · have hMacro :
        isUnfinished ((packed s p).mMacroboard q) := hOpen
    rw [if_pos hOpen, if_pos hMacro, if_pos hMacro,
      blockEntry_packed hOpen, reach_loneEntry,
      reach_loneEntry_other,
      (hCoherent.bestPattern_spec hOpen).2.2]
    omega
  · have hMacro :
        ¬ isUnfinished ((packed s p).mMacroboard q) := hOpen
    rw [if_neg hOpen, if_neg hMacro, if_neg hMacro]
    rfl

/- A block with six marks of one side has a free place. -/
theorem not_full_packed
    (hCoherent : Coherent s)
    {q : Square}
    (hOpen : isUnfinished (s.mMacroboard q)) :
    ¬ Full (blockOf (packed s p).mBoard q) := by
  intro hFull
  have hNone := (hCoherent.bestPattern_spec (p := p) hOpen).2.1
  apply not_hasLine_loneEntry hNone p p
  refine Or.inl ⟨0, fun y => ?_⟩
  have hCell :
      blockOf (packed s p).mBoard q 0 y =
        loneEntry (bestPattern (marks s q p)) p (0, y) :=
    congrFun (blockEntry_packed hOpen) (0, y)
  have hMarked := hFull 0 y
  rw [hCell] at hMarked
  unfold loneEntry at hMarked ⊢
  split at hMarked
  · rename_i hPlace
    exact if_pos hPlace
  · exact absurd rfl hMarked

theorem coherent_packed
    (hCoherent : Coherent s) :
    Coherent (packed s p) := by
  have hNone :
      ∀ q, isUnfinished (s.mMacroboard q) → ∀ p' : Side,
        ¬ HasLine (blockOf (packed s p).mBoard q) p'.id := by
    intro q hOpen p'
    have hBlock :
        blockOf (packed s p).mBoard q =
          fun i j =>
            loneEntry (bestPattern (marks s q p)) p (i, j) := by
      funext i j
      exact congrFun (blockEntry_packed hOpen) (i, j)
    rw [hBlock]
    exact not_hasLine_loneEntry
      (hCoherent.bestPattern_spec hOpen).2.1 p p'
  refine ⟨?_, ?_, ?_, ?_⟩
  · intro c
    simp only [packed]
    split
    · unfold loneEntry
      split
      · exact p.cellValue
      · exact Or.inl rfl
    · exact hCoherent.cells c
  · intro q p'
    by_cases hOpen : isUnfinished (s.mMacroboard q)
    · refine iff_of_false ?_ (hNone q hOpen p')
      intro hWon
      rw [show s.mMacroboard q = p'.id from hWon] at hOpen
      revert hOpen
      cases p' <;> decide
    · rw [blockOf_packed hOpen]
      exact hCoherent.won q p'
  · intro q
    by_cases hOpen : isUnfinished (s.mMacroboard q)
    · refine iff_of_false ?_ (fun hDrawn =>
        not_full_packed hCoherent hOpen hDrawn.1)
      intro hDrawn
      rw [show s.mMacroboard q = -2 from hDrawn] at hOpen
      revert hOpen
      decide
    · rw [blockOf_packed hOpen]
      exact hCoherent.drawn q
  · intro q hFree hNoLine
    by_cases hOpen : isUnfinished (s.mMacroboard q)
    · exact hOpen
    · rw [blockOf_packed hOpen] at hFree hNoLine
      exact hCoherent.unfinished q hFree hNoLine

/- The bound is the highest evaluation of all such boards. -/
theorem isGreatest_ceiling
    (hCoherent : Coherent s) :
    IsGreatest
      {v | ∃ s', SameMarks p s s' ∧ Coherent s' ∧
        v = evaluate s' p}
      (ceiling s p) := by
  constructor
  · exact ⟨packed s p, sameMarks_packed hCoherent,
      coherent_packed hCoherent,
      (evaluate_packed hCoherent).symm⟩
  · rintro v ⟨s', hSame, hCoherent', rfl⟩
    rw [← hSame.ceiling_eq]
    exact evaluate_le_ceiling hCoherent' p

end Packed

------------------------------------------------------------
-- Scores of Leaves and of Won Games
------------------------------------------------------------

end UltimateTicTacToe

end ProgrammingTasks
