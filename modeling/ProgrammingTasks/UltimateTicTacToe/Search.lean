import ProgrammingTasks.UltimateTicTacToe.Squares

/-
  The search of ultimate tic-tac-toe: `evaluate` and
  `minimax`.

  The search plays its moves on the one pair of boards and
  takes them back with `unMove`; the boards are therefore part
  of what `minimax` returns.

  Main declarations:
    * `evaluate`
    * `minimax`, `searchMoves`
    * `minimax_zero`, `minimax_succ`
-/

------------------------------------------------------------
-- Evaluation
------------------------------------------------------------

namespace ProgrammingTasks

namespace UltimateTicTacToe

def maxScore : Int := 1234

def minScore : Int := -1234

def winMicroScore : Int := 7

def macroBoardWeight : Int := 23

def weights : List Int := [3, 2, 3, 2, 4, 2, 3, 2, 3]

def miniBoardsBounds : List (Nat × Nat) :=
  [(0, 0), (3, 0), (6, 0), (0, 3), (3, 3), (6, 3),
    (0, 6), (3, 6), (6, 6)]

def posibleWinSeq : List (List Square) :=
  [ [(0, 0), (0, 1), (0, 2)],
    [(1, 0), (1, 1), (1, 2)],
    [(2, 0), (2, 1), (2, 2)],
    [(0, 0), (1, 0), (2, 0)],
    [(0, 1), (1, 1), (2, 1)],
    [(0, 2), (1, 2), (2, 2)],
    [(0, 0), (1, 1), (2, 2)],
    [(0, 2), (1, 1), (2, 0)] ]

/- What the inner loop counts along one sequence. -/
structure Blocks where
  playerBlocks : Nat
  opponentBlocks : Nat
  fullSquare : Bool

/- One entry of a sequence. -/
def Blocks.count
    (player : Side) (blocks : Blocks) (value : Int) : Blocks :=
  if value = player.id then
    { blocks with playerBlocks := blocks.playerBlocks + 1 }
  else if value = player.other.id then
    { blocks with opponentBlocks := blocks.opponentBlocks + 1 }
  else if value = -2 then
    { blocks with fullSquare := true }
  else
    blocks

/- The entries of a sequence, read through `entry`. -/
def countSequence
    (entry : Square → Int) (player : Side)
    (sequence : List Square) : Blocks :=
  sequence.foldl
    (fun blocks q => blocks.count player (entry q))
    ⟨0, 0, false⟩

/- The scores that one sequence adds to both sides. -/
def addSequence
    (scores : Int × Int) (blocks : Blocks) : Int × Int :=
  if blocks.fullSquare = false then
    if blocks.playerBlocks > 0 then
      if blocks.opponentBlocks > 0 then
        scores
      else
        (scores.1 +
            (if blocks.playerBlocks = 2 then winMicroScore
              else 0) + 1,
          scores.2)
    else if blocks.opponentBlocks > 0 then
      (scores.1,
        scores.2 +
          (if blocks.opponentBlocks = 2 then winMicroScore
            else 0) + 1)
    else
      scores
  else
    scores

/-
  The common part of `calculateMacroBoardScore` and
  `calculateBoardScore`.  Both also sum up `matrixWeights`,
  but do not use that sum.
-/
def calculateScore
    (entry : Square → Int) (player : Side) : Int :=
  let scores :=
    posibleWinSeq.foldl
      (fun scores sequence =>
        addSequence scores
          (countSequence entry player sequence))
      (0, 0)
  scores.1 - scores.2

/- `calculateMacroBoardScore`. -/
def calculateMacroBoardScore (s : Game) (player : Side) : Int :=
  calculateScore s.mMacroboard player

/- `calculateBoardScore`. -/
def calculateBoardScore
    (s : Game) (lowX lowY : Nat) (player : Side) : Int :=
  calculateScore
    (fun q =>
      s.mBoard
        (Fin.ofNat 9 (lowX + q.1.val),
          Fin.ofNat 9 (lowY + q.2.val)))
    player

/- The square with the bounds, if it is not finished. -/
def boardValue
    (s : Game) (player : Side)
    (low : Nat × Nat) (weight : Int) : Int :=
  if isUnfinished
      (s.mMacroboard
        (Fin.ofNat 3 (low.1 / 3), Fin.ofNat 3 (low.2 / 3))) then
    calculateBoardScore s low.1 low.2 player * weight
  else
    0

/- `evaluate`. -/
def evaluate (s : Game) (player : Side) : Int :=
  (miniBoardsBounds.zip weights).foldl
    (fun value board =>
      value + boardValue s player board.1 board.2)
    (calculateMacroBoardScore s player * macroBoardWeight)

------------------------------------------------------------
-- Minimax
------------------------------------------------------------

/- A 16-bit result. -/
def toInt16 (v : Int) : Int := v.bmod (2 ^ 16)

/-
  The score of a game that is over.  A common value 0, -1 or
  -2 on a diagonal does not end the game.
-/
@[irreducible] def terminalScore (s : Game) (depth : Nat) : Option Int :=
  let macroScore := checkForVictory s true
  if macroScore = Side.playerId.id then
    some (toInt16 (maxScore + depth))
  else if macroScore = Side.enemyId.id then
    some (toInt16 (minScore - depth))
  else if macroScore = -3 then
    some 0
  else
    none

/- The score at depth 0. -/
def leafScore (s : Game) (player : Side) : Int :=
  match player with
  | .playerId => evaluate s player
  | .enemyId => -evaluate s player

/-
  What `minimax` returns: the score, and the coordinates that
  are not initialized when no move was chosen.
-/
structure Move where
  cell : Option Cell
  score : Int

/- The variables of the loop over the moves, and the boards. -/
structure SearchState where
  game : Game
  alpha : Int
  beta : Int
  bestMove : Option Cell

/- What one score does to the window and the best move. -/
def recordScore
    (player : Side) (move : Cell) (score : Int)
    (st : SearchState) : SearchState :=
  match player with
  | .playerId =>
      if score > st.alpha then
        { st with alpha := score, bestMove := some move }
      else st
  | .enemyId =>
      if score < st.beta then
        { st with beta := score, bestMove := some move }
      else st

/- The boards with which the recursive call is made. -/
def enterMove (s : Game) (move : Cell) (player : Side) : Game :=
  setMove (boundaries s move) move player.id

/-
  The loop over the moves; `recur` is the recursive call with
  its window and boards.
-/
def searchMoves
    (recur : Int → Int → Game → Game × Move)
    (player : Side) :
    List Cell → SearchState → SearchState
| [], st => st
| move :: moves, st =>
    let reply :=
      recur st.alpha st.beta (enterMove st.game move player)
    let st' := recordScore player move reply.2.score st
    let st'' := { st' with game := unMove reply.1 move 0 }
    if st''.alpha ≥ st''.beta then
      st''
    else
      searchMoves recur player moves st''

/- `minimax`. -/
def minimax :
    Nat → Side → Int → Int → Game → Game × Move
| 0, player, _, _, s =>
    let s := setMicroWins s
    match terminalScore s 0 with
    | some score => (s, ⟨none, score⟩)
    | none => (s, ⟨none, leafScore s player⟩)
| depth + 1, player, alpha, beta, s =>
    let s := setMicroWins s
    match terminalScore s (depth + 1) with
    | some score => (s, ⟨none, score⟩)
    | none =>
        let st :=
          searchMoves (minimax depth player.other) player
            (getAvailableMoves s)
            { game := s
              alpha := alpha
              beta := beta
              bestMove := none }
        (st.game,
          { cell := st.bestMove
            score :=
              match player with
              | .playerId => st.alpha
              | .enemyId => st.beta })

------------------------------------------------------------
-- One Node
------------------------------------------------------------

/- The loop of a node that is not terminal. -/
def searchNode
    (depth : Nat) (player : Side)
    (alpha beta : Int) (s : Game) : SearchState :=
  searchMoves (minimax depth player.other) player
    (getAvailableMoves s)
    { game := s
      alpha := alpha
      beta := beta
      bestMove := none }

/- The end of the window that a side returns. -/
def SearchState.score (player : Side) (st : SearchState) : Int :=
  match player with
  | .playerId => st.alpha
  | .enemyId => st.beta

theorem minimax_zero
    (player : Side) (alpha beta : Int) (s : Game) :
    minimax 0 player alpha beta s =
      match terminalScore (setMicroWins s) 0 with
      | some score => (setMicroWins s, ⟨none, score⟩)
      | none =>
          (setMicroWins s,
            ⟨none, leafScore (setMicroWins s) player⟩) :=
  rfl

theorem minimax_succ
    (depth : Nat) (player : Side)
    (alpha beta : Int) (s : Game) :
    minimax (depth + 1) player alpha beta s =
      match terminalScore (setMicroWins s) (depth + 1) with
      | some score => (setMicroWins s, ⟨none, score⟩)
      | none =>
          let st :=
            searchNode depth player alpha beta (setMicroWins s)
          (st.game, ⟨st.bestMove, st.score player⟩) :=
  rfl

end UltimateTicTacToe

end ProgrammingTasks
