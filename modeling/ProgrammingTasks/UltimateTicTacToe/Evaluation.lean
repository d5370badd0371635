import ProgrammingTasks.UltimateTicTacToe.Undo
import ProgrammingTasks.UltimateTicTacToe.Copies

/-
  What the scores of a position depend on, and their range.

  The score of a leaf does not depend on which unfinished
  squares are active, as long as there is a move while a
  square is unfinished.  All scores fit into 16 bits and lie
  well inside the window with which the search is started.

  Main declarations:
    * `terminalScore_congr`, `leafScore_congr`
    * `evaluate_range`
    * `refValue_range`
-/

------------------------------------------------------------
-- Lines of the Macro Board
------------------------------------------------------------

namespace ProgrammingTasks

namespace UltimateTicTacToe

/- Equal, or both unfinished. -/
def SameValue (v v' : Int) : Prop :=
  v = v' ∨ (isUnfinished v ∧ isUnfinished v')

theorem SameValue.symm
    {v v' : Int}
    (hSame : SameValue v v') :
    SameValue v' v := by
  rcases hSame with hEqual | ⟨hLeft, hRight⟩
  · exact Or.inl hEqual.symm
  · exact Or.inr ⟨hRight, hLeft⟩

theorem SameValue.eq_iff
    {v v' w w' : Int}
    (hSame : SameValue v v')
    (hSame' : SameValue w w')
    (hPlayed : isPlayed w ∨ isPlayed w') :
    v = w ↔ v' = w' := by
  unfold SameValue isUnfinished isPlayed at *
  omega

theorem SameValue.isPlayed_iff
    {v v' : Int}
    (hSame : SameValue v v') :
    isPlayed v ↔ isPlayed v' := by
  unfold SameValue isUnfinished isPlayed at *
  omega

/- A common value that is not unfinished is found in both. -/
theorem lineId_congr
    {m m' : AuxMatrix} {id : Int}
    (hSame : ∀ i j, SameValue (m i j) (m' i j))
    (hDone : ¬ isUnfinished id)
    (hLine : lineId m = some id) :
    lineId m' = some id := by
  have hRows :
      (fun x =>
        decide (isPlayed (m x 0) ∧ ∀ y, m x y = m x 0)) =
      (fun x =>
        decide (isPlayed (m' x 0) ∧ ∀ y, m' x y = m' x 0)) := by
    funext x
    rw [decide_eq_decide, (hSame x 0).isPlayed_iff]
    refine and_congr_right (fun hPlayed => ?_)
    exact forall_congr' (fun y =>
      (hSame x y).eq_iff (hSame x 0) (Or.inr hPlayed))
  have hColumns :
      (fun y =>
        decide (isPlayed (m 0 y) ∧ ∀ x, m x y = m 0 y)) =
      (fun y =>
        decide (isPlayed (m' 0 y) ∧ ∀ x, m' x y = m' 0 y)) := by
    funext y
    rw [decide_eq_decide, (hSame 0 y).isPlayed_iff]
    refine and_congr_right (fun hPlayed => ?_)
    exact forall_congr' (fun x =>
      (hSame x y).eq_iff (hSame 0 y) (Or.inr hPlayed))
  have h00 := hSame 0 0
  have h11 := hSame 1 1
  have h22 := hSame 2 2
  have h02 := hSame 0 2
  have h20 := hSame 2 0
  unfold lineId at hLine ⊢
  rw [hRows, hColumns] at hLine
  split at hLine
  · rename_i x _
    cases hLine
    rcases hSame x 0 with hEqual | hBoth
    · rw [hEqual]
    · exact absurd hBoth.1 hDone
  · split at hLine
    · rename_i y _
      cases hLine
      rcases hSame 0 y with hEqual | hBoth
      · rw [hEqual]
      · exact absurd hBoth.1 hDone
    · unfold SameValue at *
      clear hRows hColumns hSame
      grind

/- The value of a line of the macro board. -/
def macroLine (s : Game) : Option Int :=
  lineId (fun i j => s.mMacroboard (i, j))

/- There is a move while a square is unfinished. -/
def Lively (s : Game) : Prop :=
  (∃ q, isUnfinished (s.mMacroboard q)) →
    (getAvailableMoves s).length > 0

theorem lively_play
    {s : Game} (hSettled : Settled s)
    (c : Cell) (p : Side) :
    Lively (play s c p.id) :=
  fun hOpen =>
    (hSettled.play c p).exists_move_iff.mpr
      (exists_active hSettled hOpen)

/- Without a line of a side or of drawn squares. -/
theorem terminalScore_of_no_line
    {s : Game}
    (hSettled : Settled s)
    (hLively : Lively s)
    (depth : Nat)
    (hNone :
      ∀ id, macroLine s = some id → isUnfinished id) :
    ((∃ q, isUnfinished (s.mMacroboard q)) →
        terminalScore s depth = none) ∧
      ((¬ ∃ q, isUnfinished (s.mMacroboard q)) →
        terminalScore s depth = some 0) := by
  cases hLine : macroLine s with
  | some id =>
      have hOpen := hNone id hLine
      have hCheck : checkForVictory s true = id := by
        unfold macroLine at hLine
        simp only [checkForVictory, hLine, if_true]
      have hSquare : ∃ q, isUnfinished (s.mMacroboard q) := by
        have hFound :
            ∀ q, s.mMacroboard q = id →
              ∃ q, isUnfinished (s.mMacroboard q) :=
          fun q hQ => ⟨q, by rwa [hQ]⟩
        rcases hasLine_of_lineId hLine with
          ⟨x, hRow⟩ | ⟨y, hColumn⟩ | hDiagonal | hDiagonal
        · exact hFound (x, 0) (hRow 0)
        · exact hFound (0, y) (hColumn 0)
        · exact hFound (0, 0) (hDiagonal 0)
        · exact hFound (0, 2) (hDiagonal 0)
      refine ⟨fun _ => ?_, fun hNot => absurd hSquare hNot⟩
      unfold terminalScore
      rw [hCheck]
      rcases hOpen with rfl | rfl <;> rfl
  | none =>
      have hCheck :
          checkForVictory s true =
            if (getAvailableMoves s).length > 0 then 0
            else -3 := by
        unfold macroLine at hLine
        simp only [checkForVictory, hLine, if_true]
      unfold terminalScore
      rw [hCheck]
      constructor
      · intro hOpen
        rw [if_pos (hLively hOpen)]
        rfl
      · intro hNot
        have hNoMove :
            ¬ (getAvailableMoves s).length > 0 := by
          rw [hSettled.exists_move_iff]
          rintro ⟨q, hActive⟩
          exact hNot ⟨q, Or.inr hActive⟩
        rw [if_neg hNoMove]
        rfl

theorem terminalScore_of_macroLine
    {s s' : Game} {id : Int}
    (hLine : macroLine s = some id)
    (hLine' : macroLine s' = some id)
    (depth : Nat) :
    terminalScore s depth = terminalScore s' depth := by
  have hCheck :
      checkForVictory s true = checkForVictory s' true := by
    unfold macroLine at hLine hLine'
    simp only [checkForVictory, hLine, hLine', if_true]
  unfold terminalScore
  rw [hCheck]

/- The end of the game does not depend on active squares. -/
theorem terminalScore_congr
    {s s' : Game}
    (hSame : SameButActive s s')
    (hSettled : Settled s')
    (hLively : Lively s)
    (hLively' : Lively s')
    (depth : Nat) :
    terminalScore s depth = terminalScore s' depth := by
  have hValues :
      ∀ i j,
        SameValue (s.mMacroboard (i, j))
          (s'.mMacroboard (i, j)) :=
    fun i j => hSame.macroboard (i, j)
  by_cases hWon :
      ∃ id, ¬ isUnfinished id ∧ macroLine s = some id
  · rcases hWon with ⟨id, hDone, hLine⟩
    exact terminalScore_of_macroLine hLine
      (lineId_congr hValues hDone hLine) depth
  · have hNone :
        ∀ id, macroLine s = some id → isUnfinished id := by
      intro id hLine
      by_contra hDone
      exact hWon ⟨id, hDone, hLine⟩
    have hNone' :
        ∀ id, macroLine s' = some id → isUnfinished id := by
      intro id hLine
      by_contra hDone
      exact hWon ⟨id, hDone,
        lineId_congr (fun i j => (hValues i j).symm) hDone
          hLine⟩
    have hOpenIff :
        (∃ q, isUnfinished (s.mMacroboard q)) ↔
          ∃ q, isUnfinished (s'.mMacroboard q) :=
      exists_congr hSame.unfinished_iff
    have hScore :=
      terminalScore_of_no_line (hSame.settled hSettled)
        hLively depth hNone
    have hScore' :=
      terminalScore_of_no_line hSettled hLively' depth hNone'
    by_cases hOpen : ∃ q, isUnfinished (s.mMacroboard q)
    · rw [hScore.1 hOpen, hScore'.1 (hOpenIff.mp hOpen)]
    · rw [hScore.2 hOpen,
        hScore'.2 (fun hOpen' => hOpen (hOpenIff.mpr hOpen'))]

------------------------------------------------------------
-- Evaluation
------------------------------------------------------------

theorem count_congr
    {v v' : Int}
    (hSame : SameValue v v')
    (p : Side) (blocks : Blocks) :
    blocks.count p v = blocks.count p v' := by
  rcases hSame with hEqual | ⟨hLeft, hRight⟩
  · rw [hEqual]
  · rcases hLeft with rfl | rfl <;>
      rcases hRight with rfl | rfl <;>
      cases p <;> rfl

theorem calculateScore_congr
    {entry entry' : Square → Int}
    (hSame : ∀ q, SameValue (entry q) (entry' q))
    (p : Side) :
    calculateScore entry p = calculateScore entry' p := by
  have hSequence :
      countSequence entry p = countSequence entry' p := by
    funext sequence
    exact List.foldl_ext _ _ _
      (fun blocks q _ => count_congr (hSame q) p blocks)
  rw [calculateScore, calculateScore, hSequence]

theorem boardValue_congr
    {s s' : Game}
    (hSame : SameButActive s s')
    (p : Side) (low : Nat × Nat) (weight : Int) :
    boardValue s p low weight = boardValue s' p low weight := by
  have hOpen :=
    hSame.unfinished_iff
      (Fin.ofNat 3 (low.1 / 3), Fin.ofNat 3 (low.2 / 3))
  unfold boardValue calculateBoardScore
  rw [hSame.board]
  by_cases hUnfinished :
      isUnfinished
        (s.mMacroboard
          (Fin.ofNat 3 (low.1 / 3), Fin.ofNat 3 (low.2 / 3)))
  · rw [if_pos hUnfinished, if_pos (hOpen.mp hUnfinished)]
  · rw [if_neg hUnfinished,
      if_neg (fun hOther => hUnfinished (hOpen.mpr hOther))]

/- The score at depth 0 does not depend on active squares. -/
theorem leafScore_congr
    {s s' : Game}
    (hSame : SameButActive s s')
    (p : Side) :
    leafScore s p = leafScore s' p := by
  have hEvaluate : evaluate s p = evaluate s' p := by
    have hMacro :
        calculateMacroBoardScore s p =
          calculateMacroBoardScore s' p :=
      calculateScore_congr hSame.macroboard p
    rw [evaluate, evaluate, hMacro]
    exact List.foldl_ext _ _ _
      (fun value board _ => by
        rw [boardValue_congr hSame])
  unfold leafScore
  rw [hEvaluate]

------------------------------------------------------------
-- Range of the Scores
------------------------------------------------------------

theorem addSequence_range
    (scores : Int × Int) (blocks : Blocks) :
    (scores.1 ≤ (addSequence scores blocks).1 ∧
      (addSequence scores blocks).1 ≤ scores.1 + 8) ∧
    (scores.2 ≤ (addSequence scores blocks).2 ∧
      (addSequence scores blocks).2 ≤ scores.2 + 8) := by
  unfold addSequence winMicroScore
  split_ifs <;> (try dsimp only) <;> omega

/- Each sequence adds at most 8 to the score of a side. -/
theorem foldl_addSequence_range
    (blocks : List Square → Blocks) :
    ∀ (sequences : List (List Square)) (scores : Int × Int),
      (scores.1 ≤
          (sequences.foldl
            (fun scores sequence =>
              addSequence scores (blocks sequence))
            scores).1 ∧
        (sequences.foldl
          (fun scores sequence =>
            addSequence scores (blocks sequence))
          scores).1 ≤ scores.1 + 8 * sequences.length) ∧
      (scores.2 ≤
          (sequences.foldl
            (fun scores sequence =>
              addSequence scores (blocks sequence))
            scores).2 ∧
        (sequences.foldl
          (fun scores sequence =>
            addSequence scores (blocks sequence))
          scores).2 ≤ scores.2 + 8 * sequences.length)
| [], scores => by simp
| sequence :: rest, scores => by
    have hFirst := addSequence_range scores (blocks sequence)
    have hRest :=
      foldl_addSequence_range blocks rest
        (addSequence scores (blocks sequence))
    rw [List.foldl_cons, List.length_cons]
    push_cast
    omega

theorem calculateScore_range
    (entry : Square → Int) (p : Side) :
    -64 ≤ calculateScore entry p ∧
      calculateScore entry p ≤ 64 := by
  have hRange :=
    foldl_addSequence_range (countSequence entry p)
      posibleWinSeq (0, 0)
  have hLength : (posibleWinSeq.length : Int) = 8 := rfl
  rw [hLength] at hRange
  unfold calculateScore
  dsimp only at *
  omega

theorem boardValue_range
    (s : Game) (p : Side) (low : Nat × Nat)
    {weight : Int}
    (hWeight : 0 ≤ weight) :
    -(64 * weight) ≤ boardValue s p low weight ∧
      boardValue s p low weight ≤ 64 * weight := by
  unfold boardValue calculateBoardScore
  split_ifs
  · have hRange :=
      calculateScore_range
        (fun q =>
          s.mBoard
            (Fin.ofNat 9 (low.1 + q.1.val),
              Fin.ofNat 9 (low.2 + q.2.val))) p
    constructor
    · have hLow :=
        Int.mul_le_mul_of_nonneg_right hRange.1 hWeight
      rwa [Int.neg_mul] at hLow
    · exact Int.mul_le_mul_of_nonneg_right hRange.2 hWeight
  · omega

/- The evaluation stays far within 16 bits. -/
theorem evaluate_range (s : Game) (p : Side) :
    -3008 ≤ evaluate s p ∧ evaluate s p ≤ 3008 := by
  have hMacro := calculateScore_range s.mMacroboard p
  have hBoard := fun low (weight : Int) (h : 0 ≤ weight) =>
    boardValue_range s p low h
  have h1 := hBoard (0, 0) 3 (by decide)
  have h2 := hBoard (3, 0) 2 (by decide)
  have h3 := hBoard (6, 0) 3 (by decide)
  have h4 := hBoard (0, 3) 2 (by decide)
  have h5 := hBoard (3, 3) 4 (by decide)
  have h6 := hBoard (6, 3) 2 (by decide)
  have h7 := hBoard (0, 6) 3 (by decide)
  have h8 := hBoard (3, 6) 2 (by decide)
  have h9 := hBoard (6, 6) 3 (by decide)
  simp only [evaluate, miniBoardsBounds, weights,
    List.zip_cons_cons, List.zip_nil_right, List.foldl_cons,
    List.foldl_nil, calculateMacroBoardScore,
    macroBoardWeight]
  omega

theorem leafScore_range (s : Game) (p : Side) :
    -9999 < leafScore s p ∧ leafScore s p < 9999 := by
  have hRange := evaluate_range s p
  unfold leafScore
  cases p <;> dsimp only <;> omega

theorem toInt16_eq
    {v : Int}
    (hLow : -(2 ^ 15) ≤ v) (hHigh : v < 2 ^ 15) :
    toInt16 v = v :=
  Int.bmod_eq_of_le (by omega) (by omega)

theorem terminalScore_range
    {s : Game} {depth : Nat} {score : Int}
    (hDepth : depth ≤ 81)
    (hScore : terminalScore s depth = some score) :
    -9999 < score ∧ score < 9999 := by
  have hWin := toInt16_eq (v := maxScore + depth)
    (by unfold maxScore; omega) (by unfold maxScore; omega)
  have hLoss := toInt16_eq (v := minScore - depth)
    (by unfold minScore; omega) (by unfold minScore; omega)
  unfold terminalScore at hScore
  dsimp only at hScore
  rw [hWin, hLoss] at hScore
  unfold maxScore minScore at hScore
  split_ifs at hScore <;>
    have hValue := Option.some.inj hScore <;> omega

/- The values of the tree lie inside the first window. -/
theorem refValue_range :
    ∀ {depth : Nat} {p : Side} {s : Game},
      depth ≤ 81 →
      Live depth p s →
      -9999 < refValue depth p s ∧ refValue depth p s < 9999
| 0, p, s, hDepth, _ => by
    rw [refValue]
    cases hScore : terminalScore s 0 with
    | none => exact leafScore_range s p
    | some score => exact terminalScore_range hDepth hScore
| depth + 1, p, s, hDepth, hLive => by
    rw [refValue]
    cases hScore : terminalScore s (depth + 1) with
    | some score => exact terminalScore_range hDepth hScore
    | none =>
        rw [Live, hScore] at hLive
        rcases hLive with hTerminal | ⟨hSome, hLive⟩
        · cases hTerminal
        · have hMem :=
            best_mem p
              ((getAvailableMoves s).map
                (fun c =>
                  refValue depth p.other (play s c p.id)))
              (by simpa using hSome)
          rcases List.mem_map.mp hMem with ⟨c, hC, hValue⟩
          rw [Option.getD_none, ← hValue]
          exact refValue_range (by omega) (hLive c hC)

end UltimateTicTacToe

end ProgrammingTasks
