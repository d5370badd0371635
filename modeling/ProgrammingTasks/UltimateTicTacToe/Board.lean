import Mathlib.Algebra.GroupWithZero.Nat
import Mathlib.Data.Fintype.Prod
import Mathlib.Logic.Function.Basic

/-
  The two boards of ultimate tic-tac-toe (`main.c`).

  `mBoard` has the 81 cells and `mMacroboard` the nine 3x3
  squares.  A macro square is 1 or 2 when it is won, -2 when
  it is drawn, -1 when it is unfinished and active, and 0 when
  it is unfinished and not active.

  Main declarations:
    * `Game`, `getAvailableMoves`, `checkForVictory`
    * `setMove`, `unMove`, `boundaries`, `setMicroWins`
-/

------------------------------------------------------------
-- Cells and Squares
------------------------------------------------------------

namespace ProgrammingTasks

namespace UltimateTicTacToe

instance instNeZeroThree : NeZero 3 := ⟨Nat.succ_ne_zero 2⟩

instance instNeZeroNine : NeZero 9 := ⟨Nat.succ_ne_zero 8⟩

/- A cell `(x, y)` of `mBoard`. -/
abbrev Cell := Fin 9 × Fin 9

/- A square `(i, j)` of `mMacroboard`. -/
abbrev Square := Fin 3 × Fin 3

/- `(x / 3, y / 3)`: the square a cell lies in. -/
def squareOf (c : Cell) : Square :=
  (⟨c.1.val / 3, by omega⟩, ⟨c.2.val / 3, by omega⟩)

/- `(x % 3, y % 3)`: the square a cell points to. -/
def targetOf (c : Cell) : Square :=
  (⟨c.1.val % 3, by omega⟩, ⟨c.2.val % 3, by omega⟩)

/- The two sides: `playerId` is 1 and `enemyId` is 2. -/
inductive Side
| playerId
| enemyId
deriving DecidableEq, Repr

namespace Side

/- The value a side writes to the board. -/
def id : Side → Int
| playerId => 1
| enemyId => 2

/- `(player % 2) + 1`. -/
def other : Side → Side
| playerId => enemyId
| enemyId => playerId

instance : Fintype Side where
  elems := {playerId, enemyId}
  complete p := by cases p <;> decide

end Side

/-
  The boards with the bounds `lx`, `hx`, `ly`, `hy` of the
  square that was played last.
-/
structure Game where
  mBoard : Cell → Int
  mMacroboard : Square → Int
  lx : Nat
  hx : Nat
  ly : Nat
  hy : Nat

------------------------------------------------------------
-- Moves and Victory
------------------------------------------------------------

/- The cells in the order of the loops. -/
def allCells : List Cell :=
  (List.finRange 9).flatMap
    (fun x => (List.finRange 9).map (fun y => (x, y)))

/- `isInActiveMicroboard`. -/
def isInActiveMicroboard (s : Game) (c : Cell) : Prop :=
  s.mMacroboard (squareOf c) = -1

instance (s : Game) (c : Cell) :
    Decidable (isInActiveMicroboard s c) := by
  unfold isInActiveMicroboard
  infer_instance

/- `getAvailableMoves`. -/
def getAvailableMoves (s : Game) : List Cell :=
  allCells.filter
    (fun c => isInActiveMicroboard s c ∧ s.mBoard c = 0)

/- The test that `make_move` makes of the chosen cell. -/
def isLegal (s : Game) (c : Cell) : Prop :=
  s.mBoard c = 0 ∧ s.mMacroboard (squareOf c) = -1

instance (s : Game) (c : Cell) : Decidable (isLegal s c) := by
  unfold isLegal
  infer_instance

/- The 3x3 array `aux_matrix`. -/
abbrev AuxMatrix := Fin 3 → Fin 3 → Int

/-
  `matrix`: the cells within the bounds.  The source leaves
  the entries beyond the bounds as they are.
-/
def matrix (s : Game) : AuxMatrix :=
  fun i j =>
    if s.lx + i.val < s.hx ∧ s.ly + j.val < s.hy then
      s.mBoard
        (Fin.ofNat 9 (s.lx + i.val), Fin.ofNat 9 (s.ly + j.val))
    else
      0

/- The test of the rows and columns for a first entry. -/
def isPlayed (id : Int) : Prop :=
  id ≠ 0 ∧ id ≠ -1 ∧ id ≠ -2

instance (id : Int) : Decidable (isPlayed id) := by
  unfold isPlayed
  infer_instance

/-
  The part of `checkForVictory` that looks for a line.  On the
  diagonals every common value counts, also 0, -1 and -2.
-/
def lineId (m : AuxMatrix) : Option Int :=
  match (List.finRange 3).find?
      (fun x => isPlayed (m x 0) ∧ ∀ y, m x y = m x 0) with
  | some x => some (m x 0)
  | none =>
      match (List.finRange 3).find?
          (fun y => isPlayed (m 0 y) ∧ ∀ x, m x y = m 0 y) with
      | some y => some (m 0 y)
      | none =>
          if m 1 1 = m 0 0 ∧ m 2 2 = m 0 0 then
            some (m 0 0)
          else if m 1 1 = m 0 2 ∧ m 2 0 = m 0 2 then
            some (m 0 2)
          else
            none

/-
  `checkForVictory` of a 3x3 square: its line, 0 when a cell
  is free, and -1 for a draw.
-/
def microResult (m : AuxMatrix) : Int :=
  match lineId m with
  | some id => id
  | none => if ∃ i j, m i j = 0 then 0 else -1

/-
  `checkForVictory`; the flag tells the macro board from the
  square within the bounds.
-/
def checkForVictory (s : Game) (flag : Bool) : Int :=
  if flag then
    match lineId (fun i j => s.mMacroboard (i, j)) with
    | some id => id
    | none =>
        if (getAvailableMoves s).length > 0 then 0 else -3
  else
    microResult (matrix s)

------------------------------------------------------------
-- Playing and Undoing
------------------------------------------------------------

/- `setWinnerMicroSquare`. -/
def setWinnerMicroSquare
    (s : Game) (q : Square) (winner : Int) : Game :=
  { s with
    mMacroboard := Function.update s.mMacroboard q winner }

/- `clearMacroBoardWhenSentToAWonSquare`. -/
def clearMacroBoardWhenSentToAWonSquare (s : Game) : Game :=
  { s with
    mMacroboard := fun q =>
      if s.mMacroboard q = 0 then -1 else s.mMacroboard q }

/- `unClearMacroBoardWhenSentToAWonSquare`. -/
def unClearMacroBoardWhenSentToAWonSquare (s : Game) : Game :=
  { s with
    mMacroboard := fun q =>
      if s.mMacroboard q = -1 then 0 else s.mMacroboard q }

/- Won or drawn. -/
def isFinished (value : Int) : Prop :=
  value = 1 ∨ value = 2 ∨ value = -2

instance (value : Int) : Decidable (isFinished value) := by
  unfold isFinished
  infer_instance

/- `setMove`. -/
def setMove (s : Game) (c : Cell) (player : Int) : Game :=
  let s' :=
    { s with
      mBoard := Function.update s.mBoard c player
      mMacroboard :=
        Function.update s.mMacroboard (squareOf c) 0 }
  if s'.mMacroboard (targetOf c) = 0 then
    setWinnerMicroSquare s' (targetOf c) (-1)
  else if isFinished (s'.mMacroboard (targetOf c)) then
    clearMacroBoardWhenSentToAWonSquare s'
  else
    s'

/- `unMove`. -/
def unMove (s : Game) (c : Cell) (player : Int) : Game :=
  let s₁ :=
    { s with mBoard := Function.update s.mBoard c player }
  let s₂ :=
    if s₁.mMacroboard (targetOf c) = -1 then
      setWinnerMicroSquare s₁ (targetOf c) 0
    else if isFinished (s₁.mMacroboard (targetOf c)) then
      unClearMacroBoardWhenSentToAWonSquare s₁
    else
      s₁
  setWinnerMicroSquare s₂ (squareOf c) (-1)

/- `checkX`. -/
def checkX (s : Game) (move : Cell) : Game :=
  if move.1.val < 3 then
    { s with lx := 0, hx := 3 }
  else if move.1.val ≥ 3 ∧ move.1.val < 6 then
    { s with lx := 3, hx := 6 }
  else if move.1.val ≥ 6 ∧ move.1.val < 9 then
    { s with lx := 6, hx := 9 }
  else
    s

/- `boundaries`. -/
def boundaries (s : Game) (move : Cell) : Game :=
  if move.2.val < 3 then
    checkX { s with ly := 0, hy := 3 } move
  else if move.2.val ≥ 3 ∧ move.2.val < 6 then
    checkX { s with ly := 3, hy := 6 } move
  else if move.2.val ≥ 6 ∧ move.2.val < 9 then
    checkX { s with ly := 6, hy := 9 } move
  else
    s

/- The macro square of the bounds: `(lx / 3, ly / 3)`. -/
def boundedSquare (s : Game) : Square :=
  (Fin.ofNat 3 (s.lx / 3), Fin.ofNat 3 (s.ly / 3))

/-
  The common part of the branches of `setMicroWins`: when the
  move pointed to the square that it finished, all unfinished
  squares become active.
-/
def finishSquare (s : Game) (winner : Int) : Game :=
  let s' :=
    if s.mMacroboard (boundedSquare s) = -1 then
      clearMacroBoardWhenSentToAWonSquare s
    else
      s
  setWinnerMicroSquare s' (boundedSquare s) winner

/- `setMicroWins`. -/
def setMicroWins (s : Game) : Game :=
  let scoreId := checkForVictory s false
  if scoreId = Side.playerId.id then
    finishSquare s scoreId
  else if scoreId = Side.enemyId.id then
    finishSquare s scoreId
  else if scoreId = -1 then
    finishSquare s (-2)
  else
    s

end UltimateTicTacToe

end ProgrammingTasks
