import ProgrammingTasks.UltimateTicTacToe.Board
import Mathlib.Tactic.FinCases

/-
  What the code's victory check says about one 3x3 square, and
  what a move does to the macro board.

  A move is the sequence `setMove`, `boundaries`,
  `setMicroWins`.  Its effect on the macro board is given
  square by square, and every statement about active squares
  is read off that description.

  Main declarations:
    * `HasLine`, `Coherent`, `Settled`
    * `microResult_cases`
    * `play`, `play_macroboard`
    * `Settled.play`
-/

------------------------------------------------------------
-- Lines of a Square
------------------------------------------------------------

namespace ProgrammingTasks

namespace UltimateTicTacToe

/- Three equal entries in a row, a column or a diagonal. -/
def HasLine (m : AuxMatrix) (p : Int) : Prop :=
  (∃ x, ∀ y, m x y = p) ∨ (∃ y, ∀ x, m x y = p) ∨
    (∀ i, m i i = p) ∨ (∀ i, m i i.rev = p)

instance (m : AuxMatrix) (p : Int) :
    Decidable (HasLine m p) := by
  unfold HasLine
  infer_instance

/- No cell is free. -/
def Full (m : AuxMatrix) : Prop :=
  ∀ i j, m i j ≠ 0

instance (m : AuxMatrix) : Decidable (Full m) := by
  unfold Full
  infer_instance

/- Cells are free or taken by one of the sides. -/
def CellValue (value : Int) : Prop :=
  value = 0 ∨ value = 1 ∨ value = 2

instance (value : Int) : Decidable (CellValue value) := by
  unfold CellValue
  infer_instance

theorem Side.cellValue (p : Side) : CellValue p.id := by
  cases p <;> decide

theorem Side.isPlayed (p : Side) : isPlayed p.id := by
  cases p <;> decide

theorem Side.id_ne_zero (p : Side) : p.id ≠ 0 := by
  cases p <;> decide

/-
  A common value is found on a row or a column, and is then a
  side's, or it is found on a diagonal.
-/
theorem lineId_cases
    {m : AuxMatrix} {id : Int}
    (hLine : lineId m = some id) :
    (isPlayed id ∧
      ((∃ x, ∀ y, m x y = id) ∨ (∃ y, ∀ x, m x y = id))) ∨
    (∀ i, m i i = id) ∨ (∀ i, m i i.rev = id) := by
  unfold lineId at hLine
  split at hLine
  · rename_i x hRow
    cases hLine
    have hFound := List.find?_some hRow
    simp only [decide_eq_true_eq] at hFound
    exact Or.inl ⟨hFound.1, Or.inl ⟨x, hFound.2⟩⟩
  · split at hLine
    · rename_i y hColumn
      cases hLine
      have hFound := List.find?_some hColumn
      simp only [decide_eq_true_eq] at hFound
      exact Or.inl ⟨hFound.1, Or.inr ⟨y, hFound.2⟩⟩
    · split at hLine
      · rename_i hDiagonal
        cases hLine
        refine Or.inr (Or.inl ?_)
        intro i
        fin_cases i
        · rfl
        · exact hDiagonal.1
        · exact hDiagonal.2
      · split at hLine
        · rename_i hDiagonal
          cases hLine
          refine Or.inr (Or.inr ?_)
          intro i
          fin_cases i
          · rfl
          · exact hDiagonal.1
          · exact hDiagonal.2
        · cases hLine

theorem hasLine_of_lineId
    {m : AuxMatrix} {id : Int}
    (hLine : lineId m = some id) :
    HasLine m id := by
  rcases lineId_cases hLine with
    ⟨_, hRow | hColumn⟩ | hDiagonal
  · exact Or.inl hRow
  · exact Or.inr (Or.inl hColumn)
  · exact Or.inr (Or.inr hDiagonal)

/- A value that is not a side's is only found on a diagonal. -/
theorem diagonal_of_lineId
    {m : AuxMatrix} {id : Int}
    (hLine : lineId m = some id)
    (hPlayed : ¬ isPlayed id) :
    (∀ i, m i i = id) ∨ (∀ i, m i i.rev = id) := by
  rcases lineId_cases hLine with hPlayed' | hDiagonal
  · exact absurd hPlayed'.1 hPlayed
  · exact hDiagonal

/- Without a common value no side has a line. -/
theorem not_hasLine_of_lineId_none
    {m : AuxMatrix} {p : Int}
    (hNone : lineId m = none)
    (hPlayed : isPlayed p) :
    ¬ HasLine m p := by
  unfold lineId at hNone
  split at hNone
  · cases hNone
  · rename_i hRows
    split at hNone
    · cases hNone
    · rename_i hColumns
      split at hNone
      · cases hNone
      · rename_i hMain
        split at hNone
        · cases hNone
        · rename_i hAnti
          rw [List.find?_eq_none] at hRows hColumns
          rintro (⟨x, hRow⟩ | ⟨y, hColumn⟩ | hDiagonal |
            hDiagonal)
          · refine hRows x (List.mem_finRange x) ?_
            simp only [hRow, decide_eq_true_eq]
            exact ⟨hPlayed, fun _ => trivial⟩
          · refine hColumns y (List.mem_finRange y) ?_
            simp only [hColumn, decide_eq_true_eq]
            exact ⟨hPlayed, fun _ => trivial⟩
          · refine hMain ⟨?_, ?_⟩
            · rw [hDiagonal 0, hDiagonal 1]
            · rw [hDiagonal 0, hDiagonal 2]
          · have h0 : m 0 2 = p := hDiagonal 0
            have h1 : m 1 1 = p := hDiagonal 1
            have h2 : m 2 0 = p := hDiagonal 2
            exact hAnti ⟨h1.trans h0.symm, h2.trans h0.symm⟩

/- Every line meets both diagonals. -/
theorem not_hasLine_of_diagonal
    {m : AuxMatrix} {v p : Int}
    (hDiagonal :
      (∀ i, m i i = v) ∨ (∀ i, m i i.rev = v))
    (hOther : p ≠ v) :
    ¬ HasLine m p := by
  rcases hDiagonal with hMain | hAnti
  · rintro (⟨x, hRow⟩ | ⟨y, hColumn⟩ | hLine | hLine)
    · exact hOther ((hRow x).symm.trans (hMain x))
    · exact hOther ((hColumn y).symm.trans (hMain y))
    · exact hOther ((hLine 1).symm.trans (hMain 1))
    · exact hOther ((hLine 1).symm.trans (hMain 1))
  · rintro (⟨x, hRow⟩ | ⟨y, hColumn⟩ | hLine | hLine)
    · exact hOther ((hRow x.rev).symm.trans (hAnti x))
    · have hMeet : m y.rev y = v := by
        have hAt := hAnti y.rev
        rwa [Fin.rev_rev] at hAt
      exact hOther ((hColumn y.rev).symm.trans hMeet)
    · exact hOther ((hLine 1).symm.trans (hAnti 1))
    · exact hOther ((hLine 1).symm.trans (hAnti 1))

/-
  The three outcomes of the victory check of a square: a side
  with a line, a full square without a line, or a free cell
  and no line.
-/
theorem microResult_cases
    {m : AuxMatrix}
    (hCells : ∀ i j, CellValue (m i j)) :
    (∃ p : Side, microResult m = p.id ∧ HasLine m p.id) ∨
    (microResult m = -1 ∧ Full m ∧
      ∀ p : Side, ¬ HasLine m p.id) ∨
    (microResult m = 0 ∧ ¬ Full m ∧
      ∀ p : Side, ¬ HasLine m p.id) := by
  cases hLine : lineId m with
  | none =>
      have hNoLine : ∀ p : Side, ¬ HasLine m p.id :=
        fun p => not_hasLine_of_lineId_none hLine p.isPlayed
      by_cases hFree : ∃ i j, m i j = 0
      · refine Or.inr (Or.inr ⟨?_, ?_, hNoLine⟩)
        · simp [microResult, hLine, hFree]
        · rintro hFull
          rcases hFree with ⟨i, j, hZero⟩
          exact hFull i j hZero
      · refine Or.inr (Or.inl ⟨?_, ?_, hNoLine⟩)
        · simp [microResult, hLine, hFree]
        · intro i j hZero
          exact hFree ⟨i, j, hZero⟩
  | some id =>
      have hResult : microResult m = id := by
        simp [microResult, hLine]
      have hHas := hasLine_of_lineId hLine
      have hValue : CellValue id := by
        rcases hHas with ⟨x, h⟩ | ⟨y, h⟩ | h | h
        · exact h 0 ▸ hCells x 0
        · exact h 0 ▸ hCells 0 y
        · exact h 0 ▸ hCells 0 0
        · exact h 0 ▸ hCells 0 _
      rcases hValue with rfl | rfl | rfl
      · have hDiagonal :=
          diagonal_of_lineId hLine (by decide)
        refine Or.inr (Or.inr ⟨hResult, ?_, ?_⟩)
        · intro hFull
          rcases hDiagonal with h | h
          · exact hFull 0 0 (h 0)
          · exact hFull 0 _ (h 0)
        · exact fun p =>
            not_hasLine_of_diagonal hDiagonal p.id_ne_zero
      · exact Or.inl ⟨.playerId, hResult, hHas⟩
      · exact Or.inl ⟨.enemyId, hResult, hHas⟩

------------------------------------------------------------
-- Squares of the Board
------------------------------------------------------------

/- The cell of a square at a place. -/
def cellAt (q r : Square) : Cell :=
  (⟨3 * q.1.val + r.1.val, by omega⟩,
    ⟨3 * q.2.val + r.2.val, by omega⟩)

/- The 3x3 block of a board in a square. -/
def blockOf (board : Cell → Int) (q : Square) : AuxMatrix :=
  fun i j => board (cellAt q (i, j))

@[simp] theorem squareOf_cellAt (q r : Square) :
    squareOf (cellAt q r) = q := by
  apply Prod.ext <;> apply Fin.ext <;>
    simp only [squareOf, cellAt] <;> omega

/- The bounds are those of a square. -/
def Bounds (s : Game) (q : Square) : Prop :=
  s.lx = 3 * q.1.val ∧ s.hx = 3 * q.1.val + 3 ∧
    s.ly = 3 * q.2.val ∧ s.hy = 3 * q.2.val + 3

theorem matrix_eq
    {s : Game} {q : Square}
    (hBounds : Bounds s q) :
    matrix s = blockOf s.mBoard q := by
  rcases hBounds with ⟨hLx, hHx, hLy, hHy⟩
  funext i j
  have hInside :
      s.lx + i.val < s.hx ∧ s.ly + j.val < s.hy := by omega
  have hCell :
      ((Fin.ofNat 9 (s.lx + i.val),
        Fin.ofNat 9 (s.ly + j.val)) : Cell) =
          cellAt q (i, j) := by
    apply Prod.ext <;> apply Fin.ext <;>
      simp only [cellAt, Fin.ofNat] <;> omega
  rw [matrix, if_pos hInside, hCell, blockOf]

theorem boundedSquare_eq
    {s : Game} {q : Square}
    (hBounds : Bounds s q) :
    boundedSquare s = q := by
  rcases hBounds with ⟨hLx, _, hLy, _⟩
  apply Prod.ext <;> apply Fin.ext <;>
    simp only [boundedSquare, Fin.ofNat] <;> omega

/- `boundaries` bounds the square of the move. -/
theorem bounds_boundaries (s : Game) (c : Cell) :
    Bounds (boundaries s c) (squareOf c) := by
  unfold boundaries checkX Bounds squareOf
  split_ifs <;> simp only <;> omega

theorem boundaries_boards (s : Game) (c : Cell) :
    (boundaries s c).mBoard = s.mBoard ∧
      (boundaries s c).mMacroboard = s.mMacroboard := by
  unfold boundaries checkX
  split_ifs <;> exact ⟨rfl, rfl⟩

------------------------------------------------------------
-- The Macro Board after a Move
------------------------------------------------------------

/- Neither won nor drawn. -/
def isUnfinished (value : Int) : Prop :=
  value = 0 ∨ value = -1

instance (value : Int) : Decidable (isUnfinished value) := by
  unfold isUnfinished
  infer_instance

/- The values of a macro square. -/
def SquareValue (value : Int) : Prop :=
  isUnfinished value ∨ isFinished value

/- The outcomes of the victory check of a square. -/
def MicroResult (result : Int) : Prop :=
  result = 0 ∨ result = 1 ∨ result = 2 ∨ result = -1

instance (result : Int) : Decidable (MicroResult result) := by
  unfold MicroResult
  infer_instance

/- The macro value for the result of a finished square. -/
def squareValue (result : Int) : Int :=
  if result = -1 then -2 else result

/- The target of a move is finished once the move is made. -/
def targetDone
    (macroboard : Square → Int)
    (b t : Square) (result : Int) : Prop :=
  if t = b then result ≠ 0 else isFinished (macroboard t)

instance
    (macroboard : Square → Int)
    (b t : Square) (result : Int) :
    Decidable (targetDone macroboard b t result) := by
  unfold targetDone
  infer_instance

/-
  The value of the macro square `q` after a move in the square
  `b` that points to `t`, when the check of `b` says `result`.
-/
def playedSquare
    (macroboard : Square → Int)
    (b t : Square) (result : Int) (q : Square) : Int :=
  if q = b then
    if result ≠ 0 then squareValue result
    else if t = b ∨ isFinished (macroboard t) then -1
    else 0
  else if isFinished (macroboard q) then macroboard q
  else if targetDone macroboard b t result then -1
  else if q = t then -1
  else macroboard q

/- The move of a side: `setMove`, `boundaries`, `setMicroWins`. -/
def play (s : Game) (c : Cell) (player : Int) : Game :=
  setMicroWins (boundaries (setMove s c player) c)

/- The check of the square of a move, once it is made. -/
def moveResult (s : Game) (c : Cell) (player : Int) : Int :=
  microResult
    (blockOf (Function.update s.mBoard c player) (squareOf c))

@[simp] theorem setWinnerMicroSquare_macroboard
    (s : Game) (b : Square) (winner : Int) (q : Square) :
    (setWinnerMicroSquare s b winner).mMacroboard q =
      if q = b then winner else s.mMacroboard q :=
  Function.update_apply ..

@[simp] theorem clear_macroboard (s : Game) (q : Square) :
    (clearMacroBoardWhenSentToAWonSquare s).mMacroboard q =
      if s.mMacroboard q = 0 then -1 else s.mMacroboard q :=
  rfl

@[simp] theorem unClear_macroboard (s : Game) (q : Square) :
    (unClearMacroBoardWhenSentToAWonSquare s).mMacroboard q =
      if s.mMacroboard q = -1 then 0 else s.mMacroboard q :=
  rfl

theorem setMove_board (s : Game) (c : Cell) (player : Int) :
    (setMove s c player).mBoard =
      Function.update s.mBoard c player := by
  unfold setMove
  dsimp only
  split_ifs <;> rfl

/- `setMicroWins` on bounds of a square. -/
theorem setMicroWins_eq
    {s : Game} {b : Square}
    (hBounds : Bounds s b)
    (hResult : MicroResult (microResult (blockOf s.mBoard b))) :
    setMicroWins s =
      if microResult (blockOf s.mBoard b) = 0 then s
      else
        finishSquare s
          (squareValue (microResult (blockOf s.mBoard b))) := by
  have hCheck :
      checkForVictory s false =
        microResult (blockOf s.mBoard b) := by
    simp [checkForVictory, matrix_eq hBounds]
  rw [setMicroWins, hCheck]
  rcases hResult with h | h | h | h <;>
    simp [h, Side.id, squareValue]

theorem setMicroWins_board (s : Game) :
    (setMicroWins s).mBoard = s.mBoard := by
  unfold setMicroWins finishSquare
  dsimp only
  split_ifs <;> rfl

@[simp] theorem play_board
    (s : Game) (c : Cell) (player : Int) :
    (play s c player).mBoard =
      Function.update s.mBoard c player := by
  rw [play, setMicroWins_board, (boundaries_boards _ _).1,
    setMove_board]

/- `setMove` square by square. -/
theorem setMove_macroboard
    (s : Game) (c : Cell) (player : Int)
    (hSquares : ∀ q, SquareValue (s.mMacroboard q))
    (q : Square) :
    (setMove s c player).mMacroboard q =
      playedSquare s.mMacroboard (squareOf c) (targetOf c) 0
        q := by
  have hTarget := hSquares (targetOf c)
  have hSquare := hSquares q
  simp only [setMove, apply_ite Game.mMacroboard, ite_apply,
    setWinnerMicroSquare_macroboard, clear_macroboard,
    Function.update_apply, playedSquare, targetDone]
  unfold SquareValue isUnfinished isFinished at *
  generalize squareOf c = b at *
  generalize targetOf c = t at *
  grind

theorem finishSquare_macroboard
    {s : Game} {b : Square}
    (hBounds : Bounds s b)
    (winner : Int) (q : Square) :
    (finishSquare s winner).mMacroboard q =
      if q = b then winner
      else if s.mMacroboard b = -1 ∧ s.mMacroboard q = 0 then -1
      else s.mMacroboard q := by
  simp only [finishSquare, boundedSquare_eq hBounds,
    apply_ite Game.mMacroboard, ite_apply,
    setWinnerMicroSquare_macroboard, clear_macroboard]
  grind

/- A move square by square. -/
theorem play_macroboard
    (s : Game) (c : Cell) (player : Int)
    (hSquares : ∀ q, SquareValue (s.mMacroboard q))
    (hResult : MicroResult (moveResult s c player))
    (q : Square) :
    (play s c player).mMacroboard q =
      playedSquare s.mMacroboard (squareOf c) (targetOf c)
        (moveResult s c player) q := by
  have hTarget := hSquares (targetOf c)
  have hSquare := hSquares q
  let s' := boundaries (setMove s c player) c
  have hBounds : Bounds s' (squareOf c) :=
    bounds_boundaries _ c
  have hBlock :
      microResult (blockOf s'.mBoard (squareOf c)) =
        moveResult s c player := by
    rw [moveResult, ← setMove_board,
      ← (boundaries_boards (setMove s c player) c).1]
  have hBefore : ∀ q, s'.mMacroboard q =
      playedSquare s.mMacroboard (squareOf c) (targetOf c) 0
        q := by
    intro q
    rw [← setMove_macroboard s c player hSquares,
      ← (boundaries_boards (setMove s c player) c).2]
  have hPlay :
      play s c player =
        if moveResult s c player = 0 then s'
        else finishSquare s'
          (squareValue (moveResult s c player)) := by
    rw [← hBlock] at hResult ⊢
    exact setMicroWins_eq hBounds hResult
  rw [hPlay, apply_ite Game.mMacroboard, ite_apply,
    finishSquare_macroboard hBounds, hBefore, hBefore]
  simp only [playedSquare, targetDone]
  unfold SquareValue isUnfinished isFinished at *
  generalize squareOf c = b at *
  generalize targetOf c = t at *
  generalize moveResult s c player = r at *
  grind

------------------------------------------------------------
-- Coherent Boards
------------------------------------------------------------

/-
  The macro board tells the truth about the blocks: 1 and 2
  for a line of the side, -2 for a full block without a line,
  and 0 or -1 otherwise.
-/
structure Coherent (s : Game) : Prop where
  cells : ∀ c, CellValue (s.mBoard c)
  won :
    ∀ q (p : Side),
      s.mMacroboard q = p.id ↔
        HasLine (blockOf s.mBoard q) p.id
  drawn :
    ∀ q,
      s.mMacroboard q = -2 ↔
        Full (blockOf s.mBoard q) ∧
          ∀ p : Side, ¬ HasLine (blockOf s.mBoard q) p.id
  unfinished :
    ∀ q,
      ¬ Full (blockOf s.mBoard q) →
      (∀ p : Side, ¬ HasLine (blockOf s.mBoard q) p.id) →
        isUnfinished (s.mMacroboard q)

/- A macro value fits the result of the victory check. -/
def Agrees (value result : Int) : Prop :=
  if result = 0 then isUnfinished value
  else value = squareValue result

instance (value result : Int) :
    Decidable (Agrees value result) := by
  unfold Agrees
  infer_instance

/-
  The same in the terms of the code: every macro square fits
  the victory check of its block.
-/
structure Settled (s : Game) : Prop where
  cells : ∀ c, CellValue (s.mBoard c)
  squares :
    ∀ q,
      Agrees (s.mMacroboard q)
        (microResult (blockOf s.mBoard q))

/- No block has lines of both sides. -/
def OneLine (s : Game) : Prop :=
  ∀ q (p p' : Side),
    HasLine (blockOf s.mBoard q) p.id →
      HasLine (blockOf s.mBoard q) p'.id → p = p'

theorem Side.microResult (p : Side) : MicroResult p.id := by
  cases p <;> decide

theorem Side.squareValue (p : Side) : squareValue p.id = p.id := by
  cases p <;> rfl

theorem Side.id_injective {p p' : Side} (hId : p.id = p'.id) :
    p = p' := by
  cases p <;> cases p' <;> first | rfl | cases hId

theorem microResult_range
    {m : AuxMatrix}
    (hCells : ∀ i j, CellValue (m i j)) :
    MicroResult (microResult m) := by
  rcases microResult_cases hCells with
    ⟨p, hResult, _⟩ | ⟨hResult, _⟩ | ⟨hResult, _⟩
  · rw [hResult]
    exact p.microResult
  · rw [hResult]
    decide
  · rw [hResult]
    decide

theorem Coherent.settled
    {s : Game}
    (hCoherent : Coherent s) :
    Settled s where
  cells := hCoherent.cells
  squares := by
    intro q
    rcases microResult_cases
        (m := blockOf s.mBoard q)
        (fun i j => hCoherent.cells _) with
      ⟨p, hResult, hLine⟩ | ⟨hResult, hFull, hNone⟩ |
      ⟨hResult, hFree, hNone⟩
    · rw [hResult, Agrees, if_neg p.id_ne_zero, p.squareValue]
      exact (hCoherent.won q p).mpr hLine
    · rw [hResult]
      exact (hCoherent.drawn q).mpr ⟨hFull, hNone⟩
    · rw [hResult]
      exact hCoherent.unfinished q hFree hNone

theorem Side.id_ne_drawn (p : Side) : p.id ≠ -2 := by
  cases p <;> decide

theorem Side.not_isUnfinished (p : Side) :
    ¬ isUnfinished p.id := by
  cases p <;> decide

/-
  The three kinds of squares of settled boards: won, drawn,
  and unfinished ones.
-/
theorem Settled.square_cases
    {s : Game}
    (hSettled : Settled s)
    (q : Square) :
    (∃ p : Side, s.mMacroboard q = p.id ∧
      HasLine (blockOf s.mBoard q) p.id) ∨
    (s.mMacroboard q = -2 ∧ Full (blockOf s.mBoard q) ∧
      ∀ p : Side, ¬ HasLine (blockOf s.mBoard q) p.id) ∨
    (isUnfinished (s.mMacroboard q) ∧
      ¬ Full (blockOf s.mBoard q) ∧
      ∀ p : Side, ¬ HasLine (blockOf s.mBoard q) p.id) := by
  have hSquare := hSettled.squares q
  rcases microResult_cases
      (m := blockOf s.mBoard q)
      (fun i j => hSettled.cells _) with
    ⟨p, hResult, hLine⟩ | ⟨hResult, hRest⟩ |
    ⟨hResult, hRest⟩
  · rw [hResult, Agrees, if_neg p.id_ne_zero,
      p.squareValue] at hSquare
    exact Or.inl ⟨p, hSquare, hLine⟩
  · rw [hResult] at hSquare
    exact Or.inr (Or.inl ⟨hSquare, hRest⟩)
  · rw [hResult] at hSquare
    exact Or.inr (Or.inr ⟨hSquare, hRest⟩)

theorem Settled.coherent
    {s : Game}
    (hSettled : Settled s)
    (hOneLine : OneLine s) :
    Coherent s where
  cells := hSettled.cells
  won := by
    intro q p
    rcases hSettled.square_cases q with
      ⟨p', hWon, hLine⟩ | ⟨hDrawn, _, hNone⟩ |
      ⟨hOpen, _, hNone⟩
    · rw [hWon]
      constructor
      · intro hId
        rw [← Side.id_injective hId]
        exact hLine
      · intro hLine'
        rw [hOneLine q p p' hLine' hLine]
    · rw [hDrawn]
      exact iff_of_false p.id_ne_drawn.symm (hNone p)
    · refine iff_of_false ?_ (hNone p)
      intro hId
      rw [hId] at hOpen
      exact p.not_isUnfinished hOpen
  drawn := by
    intro q
    rcases hSettled.square_cases q with
      ⟨p, hWon, hLine⟩ | ⟨hDrawn, hBoth⟩ | ⟨hOpen, hFree, _⟩
    · rw [hWon]
      exact iff_of_false p.id_ne_drawn
        (fun hBoth => hBoth.2 p hLine)
    · exact iff_of_true hDrawn hBoth
    · refine iff_of_false ?_ (fun hBoth => hFree hBoth.1)
      intro hDrawn
      rw [hDrawn] at hOpen
      exact absurd hOpen (by decide)
  unfinished := by
    intro q hFree hNone
    rcases hSettled.square_cases q with
      ⟨p, _, hLine⟩ | ⟨_, hFull, _⟩ | ⟨hOpen, _⟩
    · exact absurd hLine (hNone p)
    · exact absurd hFull hFree
    · exact hOpen

------------------------------------------------------------
-- Moves Keep Coherence
------------------------------------------------------------

namespace Settled

variable {s : Game}

theorem squareValue
    (hSettled : Settled s)
    (q : Square) :
    SquareValue (s.mMacroboard q) := by
  have hSquare := hSettled.squares q
  have hRange :=
    microResult_range
      (m := blockOf s.mBoard q) (fun i j => hSettled.cells _)
  unfold Agrees UltimateTicTacToe.squareValue at hSquare
  unfold SquareValue isFinished isUnfinished at *
  unfold MicroResult at hRange
  grind

/- A square is unfinished when the check of its block says 0. -/
theorem unfinished_iff
    (hSettled : Settled s)
    (q : Square) :
    isUnfinished (s.mMacroboard q) ↔
      microResult (blockOf s.mBoard q) = 0 := by
  have hSquare := hSettled.squares q
  have hRange :=
    microResult_range
      (m := blockOf s.mBoard q) (fun i j => hSettled.cells _)
  unfold Agrees UltimateTicTacToe.squareValue at hSquare
  unfold isUnfinished at *
  unfold MicroResult at hRange
  grind

/- An unfinished square has a free cell and no line. -/
theorem free_of_unfinished
    (hSettled : Settled s)
    {q : Square}
    (hOpen : isUnfinished (s.mMacroboard q)) :
    ¬ Full (blockOf s.mBoard q) ∧
      ∀ p : Side, ¬ HasLine (blockOf s.mBoard q) p.id := by
  rcases hSettled.square_cases q with
    ⟨p, hWon, _⟩ | ⟨hDrawn, _⟩ | ⟨_, hFree⟩
  · rw [hWon] at hOpen
    exact absurd hOpen p.not_isUnfinished
  · rw [hDrawn] at hOpen
    exact absurd hOpen (by decide)
  · exact hFree

/- The check after a move is one of the four outcomes. -/
theorem moveResult_range
    (hSettled : Settled s)
    (c : Cell) (p : Side) :
    MicroResult (moveResult s c p.id) := by
  apply microResult_range
  intro i j
  unfold blockOf
  by_cases hCell : cellAt (squareOf c) (i, j) = c
  · rw [hCell, Function.update_self]
    exact p.cellValue
  · rw [Function.update_of_ne hCell]
    exact hSettled.cells _

end Settled

/- A move does not touch the blocks of other squares. -/
theorem blockOf_update
    (board : Cell → Int) (c : Cell) (v : Int)
    {q : Square} (hOther : q ≠ squareOf c) :
    blockOf (Function.update board c v) q =
      blockOf board q := by
  funext i j
  have hCell : cellAt q (i, j) ≠ c := by
    rintro rfl
    exact hOther (squareOf_cellAt q (i, j)).symm
  rw [blockOf, blockOf, Function.update_of_ne hCell]

/- A move keeps the boards settled. -/
theorem Settled.play
    {s : Game} (hSettled : Settled s)
    (c : Cell) (p : Side) :
    Settled (play s c p.id) where
  cells := by
    intro d
    rw [play_board]
    by_cases hCell : d = c
    · rw [hCell, Function.update_self]
      exact p.cellValue
    · rw [Function.update_of_ne hCell]
      exact hSettled.cells d
  squares := by
    intro q
    have hRange := hSettled.moveResult_range c p
    rw [play_macroboard s c p.id hSettled.squareValue hRange,
      play_board]
    by_cases hSquare : q = squareOf c
    · subst hSquare
      rw [← moveResult, playedSquare, if_pos rfl, Agrees]
      unfold isUnfinished
      split_ifs <;> simp_all
    · rw [blockOf_update _ _ _ hSquare, playedSquare,
        if_neg hSquare]
      have hBefore := hSettled.squares q
      have hBlock :=
        microResult_range
          (m := blockOf s.mBoard q)
          (fun i j => hSettled.cells _)
      unfold MicroResult at hBlock
      unfold Agrees isUnfinished isFinished
        UltimateTicTacToe.squareValue at *
      grind

/- A line of the other side was there before the move. -/
theorem hasLine_of_update
    {board : Cell → Int} {c : Cell} {v w : Int} {q : Square}
    (hLine : HasLine (blockOf (Function.update board c v) q) w)
    (hOther : w ≠ v) :
    HasLine (blockOf board q) w := by
  have hCell : ∀ i j,
      blockOf (Function.update board c v) q i j = w →
        blockOf board q i j = w := by
    intro i j hValue
    unfold blockOf at *
    by_cases hSame : cellAt q (i, j) = c
    · rw [hSame, Function.update_self] at hValue
      exact absurd hValue.symm hOther
    · rwa [Function.update_of_ne hSame] at hValue
  rcases hLine with ⟨x, h⟩ | ⟨y, h⟩ | h | h
  · exact Or.inl ⟨x, fun y => hCell _ _ (h y)⟩
  · exact Or.inr (Or.inl ⟨y, fun x => hCell _ _ (h x)⟩)
  · exact Or.inr (Or.inr (Or.inl fun i => hCell _ _ (h i)))
  · exact Or.inr (Or.inr (Or.inr fun i => hCell _ _ (h i)))

/- A move makes lines of its own side only. -/
theorem OneLine.play
    {s : Game} (hOneLine : OneLine s)
    (hSettled : Settled s)
    {c : Cell}
    (hOpen : isUnfinished (s.mMacroboard (squareOf c)))
    (p : Side) :
    OneLine (play s c p.id) := by
  have hNone := (hSettled.free_of_unfinished hOpen).2
  intro q p₁ p₂ hLine₁ hLine₂
  rw [play_board] at hLine₁ hLine₂
  by_cases hSquare : q = squareOf c
  · subst hSquare
    have hOwn : ∀ p' : Side,
        HasLine
          (blockOf (Function.update s.mBoard c p.id)
            (squareOf c)) p'.id → p' = p := by
      intro p' hLine
      by_contra hOther
      have hDiffer : p'.id ≠ p.id :=
        fun hId => hOther (Side.id_injective hId)
      exact hNone p' (hasLine_of_update hLine hDiffer)
    rw [hOwn p₁ hLine₁, hOwn p₂ hLine₂]
  · rw [blockOf_update _ _ _ hSquare] at hLine₁ hLine₂
    exact hOneLine q p₁ p₂ hLine₁ hLine₂

------------------------------------------------------------
-- Active Squares after a Move
------------------------------------------------------------

section Moves

variable {s : Game} {c : Cell} {p : Side}

/- The target of a move is active if it is unfinished. -/
theorem target_active
    (hSettled : Settled s)
    (hOpen :
      isUnfinished ((play s c p.id).mMacroboard (targetOf c))) :
    (play s c p.id).mMacroboard (targetOf c) = -1 := by
  have hRange := hSettled.moveResult_range c p
  have hTarget := hSettled.squareValue (targetOf c)
  rw [play_macroboard s c p.id hSettled.squareValue
    hRange] at hOpen ⊢
  unfold playedSquare targetDone squareValue at *
  unfold SquareValue isUnfinished isFinished at *
  unfold MicroResult at hRange
  grind

/-
  If the target is finished after the move, every unfinished
  square is active.
-/
theorem all_active
    (hSettled : Settled s)
    (hDone :
      ¬ isUnfinished
        ((play s c p.id).mMacroboard (targetOf c)))
    {q : Square}
    (hOpen : isUnfinished ((play s c p.id).mMacroboard q)) :
    (play s c p.id).mMacroboard q = -1 := by
  have hRange := hSettled.moveResult_range c p
  have hTarget := hSettled.squareValue (targetOf c)
  rw [play_macroboard s c p.id hSettled.squareValue
    hRange] at hOpen hDone ⊢
  unfold playedSquare targetDone squareValue at *
  unfold SquareValue isUnfinished isFinished at *
  unfold MicroResult at hRange
  grind

/- A finished square elsewhere keeps its value. -/
theorem play_finished
    (hSettled : Settled s)
    {q : Square}
    (hFinished : isFinished (s.mMacroboard q))
    (hOther : q ≠ squareOf c) :
    (play s c p.id).mMacroboard q = s.mMacroboard q := by
  rw [play_macroboard s c p.id hSettled.squareValue
    (hSettled.moveResult_range c p), playedSquare,
    if_neg hOther, if_pos hFinished]

/- A move does not finish a square elsewhere. -/
theorem play_unfinished_iff
    (hSettled : Settled s)
    {q : Square}
    (hOther : q ≠ squareOf c) :
    isUnfinished ((play s c p.id).mMacroboard q) ↔
      isUnfinished (s.mMacroboard q) := by
  have hHere := hSettled.squareValue q
  rw [play_macroboard s c p.id hSettled.squareValue
    (hSettled.moveResult_range c p), playedSquare,
    if_neg hOther]
  unfold SquareValue isUnfinished isFinished at *
  grind

/- While a square is unfinished there is an active one. -/
theorem exists_active
    (hSettled : Settled s)
    (hOpen :
      ∃ q, isUnfinished ((play s c p.id).mMacroboard q)) :
    ∃ q, (play s c p.id).mMacroboard q = -1 := by
  rcases hOpen with ⟨q, hQ⟩
  by_cases hTarget :
      isUnfinished ((play s c p.id).mMacroboard (targetOf c))
  · exact ⟨_, target_active hSettled hTarget⟩
  · exact ⟨q, all_active hSettled hTarget hQ⟩

end Moves

/- The available moves are the cells that `make_move` accepts. -/
theorem mem_getAvailableMoves (s : Game) (c : Cell) :
    c ∈ getAvailableMoves s ↔ isLegal s c := by
  have hAll : c ∈ allCells := by
    simp [allCells]
  simp [getAvailableMoves, hAll, isLegal,
    isInActiveMicroboard, and_comm]

/- An active square has an available move. -/
theorem Settled.exists_move_of_active
    {s : Game} {q : Square}
    (hSettled : Settled s)
    (hActive : s.mMacroboard q = -1) :
    ∃ c ∈ getAvailableMoves s, squareOf c = q := by
  have hFree :=
    (hSettled.free_of_unfinished (Or.inr hActive)).1
  simp only [Full, not_forall, ne_eq, not_not] at hFree
  rcases hFree with ⟨i, j, hZero⟩
  refine ⟨cellAt q (i, j),
    (mem_getAvailableMoves _ _).mpr ⟨hZero, ?_⟩,
    squareOf_cellAt q (i, j)⟩
  rwa [squareOf_cellAt]

/- There is a move exactly if there is an active square. -/
theorem Settled.exists_move_iff
    {s : Game}
    (hSettled : Settled s) :
    (getAvailableMoves s).length > 0 ↔
      ∃ q, s.mMacroboard q = -1 := by
  constructor
  · intro hMoves
    rcases List.exists_mem_of_length_pos hMoves with ⟨c, hMem⟩
    have hLegal := (mem_getAvailableMoves _ _).mp hMem
    exact ⟨squareOf c, hLegal.2⟩
  · rintro ⟨q, hActive⟩
    rcases hSettled.exists_move_of_active hActive with
      ⟨c, hMem, _⟩
    exact List.length_pos_of_mem hMem

end UltimateTicTacToe

end ProgrammingTasks
