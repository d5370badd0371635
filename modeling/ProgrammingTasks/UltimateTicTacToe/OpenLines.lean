import ProgrammingTasks.UltimateTicTacToe.Evaluation
import Mathlib.Algebra.BigOperators.Fin
import Mathlib.Data.Fintype.BigOperators
import Mathlib.Algebra.Order.Group.Int

/-
  The evaluation as a count of open lines.

  A line is open for a side that has a place on it while the
  other side has none and no square of it is drawn.  The
  evaluation is the weighted count of one side's open lines
  less that of the other.

  Main declarations:
    * `lines`, `lineValue`, `reach`, `advantage`
    * `evaluate_eq_advantage`
    * `evaluate_zero_sum`
-/

------------------------------------------------------------
-- Open Lines
------------------------------------------------------------

namespace ProgrammingTasks

namespace UltimateTicTacToe

/- The rows, the columns and the diagonals of a square. -/
def lines : List (List Square) :=
  (List.finRange 3).map
      (fun x => (List.finRange 3).map (fun y => (x, y))) ++
    (List.finRange 3).map
      (fun y => (List.finRange 3).map (fun x => (x, y))) ++
    [(List.finRange 3).map (fun i => (i, i)),
      (List.finRange 3).map (fun i => (i, i.rev))]

theorem posibleWinSeq_eq : posibleWinSeq = lines := by
  decide

/- What a line is worth with a number of places on it. -/
def placesValue (places : Nat) : Int :=
  if places = 0 then 0
  else if places = 2 then 8
  else 1

/- The code adds 7 for two places, and 1 for any. -/
theorem placesValue_of_pos
    {places : Nat}
    (hSome : 0 < places) :
    placesValue places =
      (if places = 2 then winMicroScore else 0) + 1 := by
  by_cases hTwo : places = 2
  · subst hTwo
    rfl
  · rw [placesValue, if_neg (by omega), if_neg hTwo,
      if_neg hTwo, Int.zero_add]

/- The places of a value on a line. -/
def places
    (entry : Square → Int) (value : Int)
    (line : List Square) : Nat :=
  line.countP (fun q => entry q = value)

/- Only open lines are worth something to a side. -/
def lineValue
    (entry : Square → Int) (p : Side) (line : List Square) :
    Int :=
  if ∃ q ∈ line, entry q = p.other.id ∨ entry q = -2 then 0
  else placesValue (places entry p.id line)

def reach (entry : Square → Int) (p : Side) : Int :=
  (lines.map (lineValue entry p)).sum

/- The block of a square, read by its places. -/
def blockEntry (s : Game) (q : Square) : Square → Int :=
  fun r => blockOf s.mBoard q r.1 r.2

/- Corners, edges and the centre. -/
def squareWeight (q : Square) : Int :=
  if q.1 = 1 ∧ q.2 = 1 then 4
  else if q.1 = 1 ∨ q.2 = 1 then 2
  else 3

/- What the block of a square adds for a side. -/
def blockReach (s : Game) (q : Square) (p : Side) : Int :=
  if isUnfinished (s.mMacroboard q) then
    squareWeight q * reach (blockEntry s q) p
  else
    0

/- The weighted count of the open lines of a side. -/
def weightedReach (s : Game) (p : Side) : Int :=
  23 * reach s.mMacroboard p + ∑ q, blockReach s q p

/- The count of a side less that of the other one. -/
def advantage (s : Game) (p : Side) : Int :=
  weightedReach s p - weightedReach s p.other

------------------------------------------------------------
-- The Evaluation Counts Open Lines
------------------------------------------------------------

@[simp]
theorem Side.other_other (p : Side) : p.other.other = p := by
  cases p with
  | playerId => rfl
  | enemyId => rfl

theorem Side.other_id_ne (p : Side) : p.other.id ≠ p.id := by
  cases p with
  | playerId => decide
  | enemyId => decide

/- What the inner loop has counted of a sequence. -/
theorem foldl_count
    (entry : Square → Int)
    (p : Side) :
    ∀ (sequence : List Square) (blocks : Blocks),
      sequence.foldl
          (fun blocks q => blocks.count p (entry q)) blocks =
        ⟨blocks.playerBlocks + places entry p.id sequence,
          blocks.opponentBlocks +
            places entry p.other.id sequence,
          blocks.fullSquare ||
            sequence.any (fun q => entry q = -2)⟩
| [], blocks => by
    simp [places]
| q :: rest, blocks => by
    have hOther := p.other_id_ne
    have hSide : p.id ≠ -2 := by
      cases p with
      | playerId => decide
      | enemyId => decide
    have hOtherSide : p.other.id ≠ -2 := by
      cases p with
      | playerId => decide
      | enemyId => decide
    rw [List.foldl_cons, foldl_count entry p rest]
    unfold Blocks.count places
    rw [List.countP_cons, List.countP_cons, List.any_cons]
    by_cases hPlayer : entry q = p.id
    · simp [hPlayer, hOther.symm, hSide]
      omega
    · by_cases hOpponent : entry q = p.other.id
      · simp [hOpponent, hOther, hOtherSide]
        omega
      · by_cases hFull : entry q = -2
        · simp [hFull, hSide.symm, hOtherSide.symm]
        · simp [hPlayer, hOpponent, hFull]

/- A sequence adds its value for each of the sides. -/
theorem addSequence_eq
    (entry : Square → Int)
    (p : Side)
    (scores : Int × Int)
    (sequence : List Square) :
    addSequence scores (countSequence entry p sequence) =
      (scores.1 + lineValue entry p sequence,
        scores.2 + lineValue entry p.other sequence) := by
  have hBlocked :
      ∀ v, (∃ q ∈ sequence, entry q = v ∨ entry q = -2) ↔
        0 < places entry v sequence ∨
          sequence.any (fun q => entry q = -2) = true := by
    intro v
    rw [places, List.countP_pos_iff, List.any_eq_true]
    simp only [decide_eq_true_eq]
    constructor
    · rintro ⟨q, hMem, hValue | hFull⟩
      · exact Or.inl ⟨q, hMem, hValue⟩
      · exact Or.inr ⟨q, hMem, hFull⟩
    · rintro (⟨q, hMem, hValue⟩ | ⟨q, hMem, hFull⟩)
      · exact ⟨q, hMem, Or.inl hValue⟩
      · exact ⟨q, hMem, Or.inr hFull⟩
  unfold countSequence lineValue
  rw [foldl_count]
  simp only [hBlocked, Side.other_other, Nat.zero_add,
    Bool.false_or]
  generalize places entry p.id sequence = own
  generalize places entry p.other.id sequence = others
  generalize sequence.any (fun q => entry q = -2) = full
  cases full with
  | true => simp [addSequence]
  | false =>
      rcases Nat.eq_zero_or_pos own with rfl | hOwn
      · rcases Nat.eq_zero_or_pos others with rfl | hOthers
        · simp [addSequence, placesValue]
        · have hValue := placesValue_of_pos hOthers
          simp only [addSequence, hOthers]
          simp [hValue, Int.add_assoc]
      · rcases Nat.eq_zero_or_pos others with rfl | hOthers
        · have hValue := placesValue_of_pos hOwn
          simp only [addSequence, hOwn]
          simp [hValue, Int.add_assoc]
        · simp [addSequence, hOwn, hOthers]

theorem foldl_addSequence_eq
    (entry : Square → Int)
    (p : Side) :
    ∀ (sequences : List (List Square)) (scores : Int × Int),
      sequences.foldl
          (fun scores sequence =>
            addSequence scores
              (countSequence entry p sequence))
          scores =
        (scores.1 + (sequences.map (lineValue entry p)).sum,
          scores.2 +
            (sequences.map (lineValue entry p.other)).sum)
| [], scores => by simp
| sequence :: rest, scores => by
    rw [List.foldl_cons, addSequence_eq,
      foldl_addSequence_eq entry p rest, List.map_cons,
      List.map_cons, List.sum_cons, List.sum_cons,
      Int.add_assoc, Int.add_assoc]

theorem calculateScore_eq
    (entry : Square → Int)
    (p : Side) :
    calculateScore entry p =
      reach entry p - reach entry p.other := by
  unfold calculateScore reach
  rw [foldl_addSequence_eq, posibleWinSeq_eq]
  dsimp only
  rw [Int.zero_add, Int.zero_add]

theorem boardValue_eq
    (s : Game)
    (p : Side)
    (q : Square) :
    boardValue s p (3 * q.1.val, 3 * q.2.val)
        (squareWeight q) =
      blockReach s q p - blockReach s q p.other := by
  have hSquare :
      ((Fin.ofNat 3 (3 * q.1.val / 3),
        Fin.ofNat 3 (3 * q.2.val / 3)) : Square) = q := by
    apply Prod.ext <;> apply Fin.ext <;>
      simp only [Fin.ofNat] <;> omega
  have hEntry :
      (fun r : Square =>
        s.mBoard
          (Fin.ofNat 9 (3 * q.1.val + r.1.val),
            Fin.ofNat 9 (3 * q.2.val + r.2.val))) =
        blockEntry s q := by
    funext r
    have hCell :
        ((Fin.ofNat 9 (3 * q.1.val + r.1.val),
          Fin.ofNat 9 (3 * q.2.val + r.2.val)) : Cell) =
            cellAt q (r.1, r.2) := by
      apply Prod.ext <;> apply Fin.ext <;>
        simp only [cellAt, Fin.ofNat] <;> omega
    rw [hCell, blockEntry, blockOf]
  unfold boardValue blockReach calculateBoardScore
  dsimp only
  rw [hSquare, hEntry]
  split
  · rw [calculateScore_eq, Int.mul_comm, Int.mul_sub]
  · rfl

/- The evaluation is the difference of the weighted counts. -/
theorem evaluate_eq_advantage
    (s : Game)
    (p : Side) :
    evaluate s p = advantage s p := by
  have hSum :
      ∀ f : Square → Int,
        ∑ q, f q =
          f (0, 0) + f (1, 0) + f (2, 0) + f (0, 1) + f (1, 1) +
            f (2, 1) + f (0, 2) + f (1, 2) + f (2, 2) := by
    intro f
    rw [Fintype.sum_prod_type_right]
    simp only [Fin.sum_univ_three]
    omega
  have h := boardValue_eq s p
  unfold advantage weightedReach
  rw [hSum, hSum]
  unfold evaluate
  simp only [miniBoardsBounds, weights, List.zip_cons_cons,
    List.zip_nil_right, List.foldl_cons, List.foldl_nil]
  rw [show boardValue s p (0, 0) 3 = _ from h (0, 0),
    show boardValue s p (3, 0) 2 = _ from h (1, 0),
    show boardValue s p (6, 0) 3 = _ from h (2, 0),
    show boardValue s p (0, 3) 2 = _ from h (0, 1),
    show boardValue s p (3, 3) 4 = _ from h (1, 1),
    show boardValue s p (6, 3) 2 = _ from h (2, 1),
    show boardValue s p (0, 6) 3 = _ from h (0, 2),
    show boardValue s p (3, 6) 2 = _ from h (1, 2),
    show boardValue s p (6, 6) 3 = _ from h (2, 2)]
  unfold calculateMacroBoardScore macroBoardWeight
  rw [calculateScore_eq]
  omega

theorem advantage_other
    (s : Game)
    (p : Side) :
    advantage s p.other = -advantage s p := by
  unfold advantage
  rw [Side.other_other]
  omega

/-
  For every contents of the boards, the evaluations for the
  two sides are each other's negation, and a search of depth 0
  gives the position the same score whoever is to move.
-/
theorem evaluate_zero_sum (s : Game) :
    evaluate s .playerId = -evaluate s .enemyId ∧
      ∀ p p' alpha beta alpha' beta',
        (minimax 0 p alpha beta s).2.score =
          (minimax 0 p' alpha' beta' s).2.score := by
  have hOther : ∀ s p, evaluate s p.other = -evaluate s p := by
    intro s p
    rw [evaluate_eq_advantage, evaluate_eq_advantage,
      advantage_other]
  have hLeaf :
      ∀ p, leafScore (setMicroWins s) p =
        leafScore (setMicroWins s) .playerId := by
    intro p
    cases p with
    | playerId => rfl
    | enemyId =>
        have hNegated := hOther (setMicroWins s) .playerId
        simp only [Side.other] at hNegated
        simp only [leafScore, hNegated, Int.neg_neg]
  refine ⟨hOther s .enemyId, ?_⟩
  intro p p' alpha beta alpha' beta'
  rw [minimax_zero, minimax_zero]
  split
  · rfl
  · rw [hLeaf p, hLeaf p']

end UltimateTicTacToe

end ProgrammingTasks
