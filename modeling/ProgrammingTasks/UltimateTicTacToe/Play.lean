import ProgrammingTasks.UltimateTicTacToe.Squares
import ProgrammingTasks.Foundations.TransitionSystem

/-
  The game loop of ultimate tic-tac-toe (`make_move`) as a
  transition system, and the coherence of its boards.

  An event is what one call of `make_move` reads from the five
  buttons.  The cursor moves first; a pressed fifth button
  then plays the cell under it, if the move is accepted.

  Main declarations:
    * `Match`, `makeMove`, `gameSystem`
    * `makeMove_cases`
    * `Playable`, `playable_of_run`
    * `board_laws_of_run`
-/

------------------------------------------------------------
-- The Game Loop
------------------------------------------------------------

namespace ProgrammingTasks

namespace UltimateTicTacToe

open TransitionSystem

/- The global variables of the program. -/
structure Match where
  game : Game
  initX : Int
  initY : Int
  turn : Int
  firstMove : Bool

/- The buttons; `true` is a pressed one, which reads as 0. -/
structure Pins where
  pa0 : Bool
  pa1 : Bool
  pa2 : Bool
  pa3 : Bool
  pa4 : Bool
deriving DecidableEq, Repr

/- `square_length`. -/
def squareLength : Int := 10

/- `convert_lcd_x_to_mat_y`. -/
def convertLcdXToMatY (m : Match) (offset : Int) : Int :=
  (m.initX - squareLength - offset).tdiv squareLength

/- `convert_lcd_y_to_mat_x`. -/
def convertLcdYToMatX (m : Match) (offset : Int) : Int :=
  (m.initY - squareLength - offset).tdiv squareLength

/- The cell of `mBoard` under the cursor. -/
def cursorCell (m : Match) : Cell :=
  (Fin.ofNat 9 (convertLcdYToMatX m 0).toNat,
    Fin.ofNat 9 (convertLcdXToMatY m 0).toNat)

/- The first part of `make_move`: the four direction buttons. -/
def moveCursor (m : Match) (pins : Pins) : Match :=
  let m₀ :=
    if pins.pa0 = true ∧ m.initX < 90 then
      { m with initX := m.initX + squareLength }
    else m
  let m₁ :=
    if pins.pa1 = true ∧ m₀.initY < 90 then
      { m₀ with initY := m₀.initY + squareLength }
    else m₀
  let m₂ :=
    if pins.pa2 = true ∧ m₁.initX > 10 then
      { m₁ with initX := m₁.initX - squareLength }
    else m₁
  if pins.pa3 = true ∧ m₂.initY > 10 then
    { m₂ with initY := m₂.initY - squareLength }
  else m₂

/- `make_move`; the drawing is left out. -/
def makeMove (m : Match) (pins : Pins) : Match :=
  let m := moveCursor m pins
  let c := cursorCell m
  if m.turn = 1 then
    if pins.pa4 = true ∧ isLegal m.game c then
      let game :=
        if m.firstMove = false then
          unClearMacroBoardWhenSentToAWonSquare m.game
        else
          m.game
      { m with game := play game c Side.enemyId.id, turn := 0 }
    else
      m
  else
    if pins.pa4 = true ∧ isLegal m.game c then
      { m with game := play m.game c Side.playerId.id, turn := 1 }
    else
      m

/- The globals at the start of the loop in `main`. -/
def initialMatch : Match where
  game :=
    { mBoard := fun _ => 0
      mMacroboard := fun _ => -1
      lx := 0
      hx := 0
      ly := 0
      hy := 0 }
  initX := 10
  initY := 10
  turn := 1
  firstMove := false

/- The calls of `make_move` from the initial state. -/
def gameSystem : TransitionSystem Match Pins :=
  ofFunction (fun m => m = initialMatch)
    (fun m pins => some (makeMove m pins))

/- One call of `make_move` with the states around it. -/
abbrev Turn := Transition Match Pins

/- The call plays the cell `c`. -/
def Accepts (m : Match) (pins : Pins) (c : Cell) : Prop :=
  pins.pa4 = true ∧ c = cursorCell (moveCursor m pins) ∧
    isLegal m.game c

------------------------------------------------------------
-- One Call
------------------------------------------------------------

/- The side whose turn it is: X is the enemy. -/
def sideToMove (m : Match) : Side :=
  if m.turn = 1 then .enemyId else .playerId

/-
  The boards that a move is played on.  Only the turn of X
  clears the active squares first.
-/
def preparedGame (m : Match) : Game :=
  if m.turn = 1 then
    unClearMacroBoardWhenSentToAWonSquare m.game
  else
    m.game

theorem moveCursor_same (m : Match) (pins : Pins) :
    (moveCursor m pins).game = m.game ∧
      (moveCursor m pins).turn = m.turn ∧
      (moveCursor m pins).firstMove = m.firstMove := by
  unfold moveCursor
  dsimp only
  split_ifs <;> exact ⟨rfl, rfl, rfl⟩

/-
  What a call does to the boards: nothing, or the move of the
  side to move at a legal cell.
-/
theorem makeMove_cases
    {m : Match}
    (hFirst : m.firstMove = false)
    (pins : Pins) :
    ((∀ c, ¬ Accepts m pins c) ∧
      (makeMove m pins).game = m.game) ∨
    (∃ c, Accepts m pins c ∧
      (makeMove m pins).game =
        play (preparedGame m) c (sideToMove m).id) := by
  rcases moveCursor_same m pins with ⟨hGame, hTurn, hSame⟩
  by_cases hAccepted :
      pins.pa4 = true ∧
        isLegal m.game (cursorCell (moveCursor m pins))
  · refine Or.inr ⟨_, ⟨hAccepted.1, rfl, hAccepted.2⟩, ?_⟩
    unfold makeMove preparedGame sideToMove
    simp only [hGame, hTurn, hSame, hFirst, hAccepted]
    split_ifs <;> simp_all
  · refine Or.inl ⟨?_, ?_⟩
    · rintro c ⟨hPressed, rfl, hLegal⟩
      exact hAccepted ⟨hPressed, hLegal⟩
    · unfold makeMove
      simp only [hGame, hTurn, hAccepted, if_false]
      split_ifs <;> exact hGame

theorem makeMove_firstMove (m : Match) (pins : Pins) :
    (makeMove m pins).firstMove = m.firstMove := by
  have hSame := (moveCursor_same m pins).2.2
  unfold makeMove
  dsimp only
  split_ifs <;> exact hSame

------------------------------------------------------------
-- Prepared Boards
------------------------------------------------------------

theorem preparedGame_board (m : Match) :
    (preparedGame m).mBoard = m.game.mBoard := by
  unfold preparedGame
  split_ifs <;> rfl

/- The preparation touches active squares only. -/
theorem preparedGame_macroboard (m : Match) (q : Square) :
    (preparedGame m).mMacroboard q =
      if m.turn = 1 ∧ m.game.mMacroboard q = -1 then 0
      else m.game.mMacroboard q := by
  unfold preparedGame
  split_ifs <;> simp_all

theorem isUnfinished_preparedGame (m : Match) (q : Square) :
    isUnfinished ((preparedGame m).mMacroboard q) ↔
      isUnfinished (m.game.mMacroboard q) := by
  rw [preparedGame_macroboard]
  unfold isUnfinished
  split_ifs <;> simp_all

theorem settled_preparedGame
    {m : Match}
    (hSettled : Settled m.game) :
    Settled (preparedGame m) where
  cells := by
    rw [preparedGame_board]
    exact hSettled.cells
  squares := by
    intro q
    have hSquare := hSettled.squares q
    have hOpen := isUnfinished_preparedGame m q
    have hValue := preparedGame_macroboard m q
    rw [preparedGame_board]
    have hRange :=
      microResult_range
        (m := blockOf m.game.mBoard q)
        (fun i j => hSettled.cells _)
    unfold Agrees isUnfinished squareValue at *
    unfold MicroResult at hRange
    grind

------------------------------------------------------------
-- Reachable Boards
------------------------------------------------------------

/-
  The invariant of the game loop.  As long as a square is
  unfinished there is an active one.
-/
structure Playable (m : Match) : Prop where
  firstMove : m.firstMove = false
  settled : Settled m.game
  oneLine : OneLine m.game
  live :
    (∃ q, isUnfinished (m.game.mMacroboard q)) →
      ∃ q, m.game.mMacroboard q = -1

/- Nothing that was taken or finished has changed. -/
structure Frozen (s s' : Game) : Prop where
  board : ∀ c, s.mBoard c ≠ 0 → s'.mBoard c = s.mBoard c
  macroboard :
    ∀ q, isFinished (s.mMacroboard q) →
      s'.mMacroboard q = s.mMacroboard q

theorem Frozen.refl (s : Game) : Frozen s s where
  board _ _ := rfl
  macroboard _ _ := rfl

theorem Frozen.trans
    {s s' s'' : Game}
    (hFirst : Frozen s s')
    (hThen : Frozen s' s'') :
    Frozen s s'' where
  board := by
    intro c hTaken
    have hKept := hFirst.board c hTaken
    have hStill : s'.mBoard c ≠ 0 := by rwa [hKept]
    rw [hThen.board c hStill, hKept]
  macroboard := by
    intro q hFinished
    have hKept := hFirst.macroboard q hFinished
    have hStill : isFinished (s'.mMacroboard q) := by
      rwa [hKept]
    rw [hThen.macroboard q hStill, hKept]

theorem playable_initial : Playable initialMatch where
  firstMove := rfl
  settled :=
    { cells := fun _ => Or.inl rfl
      squares := by
        intro q
        have hEmpty :
            microResult (blockOf initialMatch.game.mBoard q) =
              0 := rfl
        rw [hEmpty]
        exact Or.inr rfl }
  oneLine := by
    intro q p p' hLine
    have hNoLine : ¬ HasLine (fun _ _ => 0) p.id := by
      cases p <;> decide
    exact absurd hLine hNoLine
  live := fun _ => ⟨(0, 0), rfl⟩

/- A call keeps the invariant and what was taken. -/
theorem Playable.makeMove
    {m : Match}
    (hPlayable : Playable m)
    (pins : Pins) :
    Playable (makeMove m pins) ∧
      Frozen m.game (makeMove m pins).game := by
  have hFirst := hPlayable.firstMove
  have hSettled := settled_preparedGame hPlayable.settled
  have hFirst' : (UltimateTicTacToe.makeMove m pins).firstMove =
      false := by
    rw [makeMove_firstMove, hFirst]
  rcases makeMove_cases hFirst pins with
    ⟨_, hSame⟩ | ⟨c, ⟨_, _, hLegal⟩, hMove⟩
  · constructor
    · constructor
      · exact hFirst'
      · rw [hSame]
        exact hPlayable.settled
      · rw [hSame]
        exact hPlayable.oneLine
      · rw [hSame]
        exact hPlayable.live
    · rw [hSame]
      exact Frozen.refl _
  · have hOpen :
        isUnfinished
          ((preparedGame m).mMacroboard (squareOf c)) :=
      (isUnfinished_preparedGame m _).mpr (Or.inr hLegal.2)
    have hOneLine : OneLine (preparedGame m) := by
      intro q
      rw [preparedGame_board]
      exact hPlayable.oneLine q
    constructor
    · constructor
      · exact hFirst'
      · rw [hMove]
        exact hSettled.play c _
      · rw [hMove]
        exact hOneLine.play hSettled hOpen _
      · rw [hMove]
        exact exists_active hSettled
    · rw [hMove]
      constructor
      · intro d hTaken
        have hCell : d ≠ c := by
          rintro rfl
          exact hTaken hLegal.1
        rw [play_board, Function.update_of_ne hCell,
          preparedGame_board]
      · intro q hFinished
        have hSquare : q ≠ squareOf c := by
          rintro rfl
          rw [hLegal.2] at hFinished
          exact absurd hFinished (by decide)
        have hPrepared :
            (preparedGame m).mMacroboard q =
              m.game.mMacroboard q := by
          rw [preparedGame_macroboard]
          unfold isFinished at hFinished
          split_ifs <;> omega
        have hStill :
            isFinished ((preparedGame m).mMacroboard q) := by
          rwa [hPrepared]
        rw [play_finished hSettled hStill hSquare, hPrepared]

/- The invariant of a run, with its frozen past. -/
theorem playable_of_run
    {trace : List Turn} {m : Match}
    (hRun : gameSystem.Run trace m) :
    Playable m ∧
      ∀ t ∈ trace, Frozen t.source.game m.game := by
  refine hRun.history_invariant
    (I := fun trace m =>
      Playable m ∧ ∀ t ∈ trace, Frozen t.source.game m.game)
    ?_ ?_
  · rintro m hInitial
    have hStart : m = initialMatch := hInitial
    rw [hStart]
    exact ⟨playable_initial,
      fun _ hMem => absurd hMem List.not_mem_nil⟩
  · rintro trace m pins m' _ ⟨hPlayable, hPast⟩ hStep
    have hNext : some (makeMove m pins) = some m' := hStep
    cases hNext
    rcases hPlayable.makeMove pins with ⟨hPlayable', hFrozen⟩
    refine ⟨hPlayable', ?_⟩
    intro t hMem
    rcases List.mem_cons.mp hMem with rfl | hEarlier
    · exact hFrozen
    · exact (hPast t hEarlier).trans hFrozen

/- A coordinate of the cursor on the grid of cells. -/
def OnGrid (v : Int) : Prop :=
  10 ≤ v ∧ v ≤ 90 ∧ v % 10 = 0

/- The cursor never leaves the grid. -/
theorem onGrid_of_run
    {trace : List Turn} {m : Match}
    (hRun : gameSystem.Run trace m) :
    OnGrid m.initX ∧ OnGrid m.initY := by
  refine hRun.invariant
    (I := fun m => OnGrid m.initX ∧ OnGrid m.initY) ?_ ?_
  · intro m hInitial
    have hStart : m = initialMatch := hInitial
    rw [hStart]
    unfold OnGrid
    decide
  · rintro m pins m' hGrid hStep
    have hNext : some (makeMove m pins) = some m' := hStep
    cases hNext
    have hCursor :
        OnGrid (moveCursor m pins).initX ∧
          OnGrid (moveCursor m pins).initY := by
      unfold moveCursor OnGrid squareLength at *
      dsimp only
      split_ifs <;> (try dsimp only at *) <;> omega
    unfold makeMove
    dsimp only
    split_ifs <;> exact hCursor

/- The indices of the cell are those that the source uses. -/
theorem cursorCell_of_onGrid
    {m : Match}
    (hX : OnGrid m.initX)
    (hY : OnGrid m.initY) :
    ((cursorCell m).1.val : Int) = convertLcdYToMatX m 0 ∧
      ((cursorCell m).2.val : Int) = convertLcdXToMatY m 0 := by
  unfold OnGrid at hX hY
  unfold cursorCell convertLcdYToMatX convertLcdXToMatY
    squareLength
  rw [Int.tdiv_eq_ediv_of_nonneg (by omega),
    Int.tdiv_eq_ediv_of_nonneg (by omega)]
  simp only [Fin.ofNat]
  omega

/- On playable boards there is a move while one is unfinished. -/
theorem Playable.moves_iff
    {m : Match}
    (hPlayable : Playable m) :
    (getAvailableMoves m.game).length > 0 ↔
      ∃ q, isUnfinished (m.game.mMacroboard q) := by
  rw [hPlayable.settled.exists_move_iff]
  constructor
  · rintro ⟨q, hActive⟩
    exact ⟨q, Or.inr hActive⟩
  · exact hPlayable.live

/-
  In every reachable state the two boards are coherent, cells
  and squares that were taken or finished have not changed,
  and there is a move exactly while a square is unfinished.
-/
theorem board_laws_of_run
    {trace : List Turn} {m : Match}
    (hRun : gameSystem.Run trace m) :
    Coherent m.game ∧
    (∀ t ∈ trace,
      (∀ c, t.source.game.mBoard c ≠ 0 →
        m.game.mBoard c = t.source.game.mBoard c) ∧
      (∀ q, isFinished (t.source.game.mMacroboard q) →
        m.game.mMacroboard q =
          t.source.game.mMacroboard q)) ∧
    ((getAvailableMoves m.game).length > 0 ↔
      ∃ q, isUnfinished (m.game.mMacroboard q)) := by
  rcases playable_of_run hRun with ⟨hPlayable, hPast⟩
  refine ⟨hPlayable.settled.coherent hPlayable.oneLine, ?_,
    hPlayable.moves_iff⟩
  intro t hMem
  exact ⟨(hPast t hMem).board, (hPast t hMem).macroboard⟩

/- The buttons of a call: the cursor's steps and the press. -/
def pins (right down left up press : Bool) : Pins :=
  ⟨right, down, left, up, press⟩

/- Steps along the diagonal and along the row. -/
def downRight : Pins := pins true true false false false

def upLeft : Pins := pins false false true true false

def right : Pins := pins true false false false false

/- The step of a call with the press. -/
def Pins.pressed (p : Pins) : Pins :=
  { p with pa4 := true }

/-
  X plays `(1, 1)`, `(2, 2)` and `(0, 0)`, and O answers at
  `(3, 3)`, `(6, 6)` and `(0, 4)`.  The third move of X wins
  the square it points to, so all unfinished squares become
  active.  The answer of O points to its own square, and
  leaves the others active.
-/
def unclearedRun : List Pins :=
  [ downRight.pressed,
    downRight, downRight.pressed,
    upLeft.pressed,
    downRight, downRight, downRight, downRight.pressed,
    upLeft, upLeft, upLeft, upLeft, upLeft, upLeft.pressed,
    right, right, right, right.pressed ]

/-
  X wins the square of `(0, 0)` before the last four calls, in
  which O moves the cursor and plays.
-/
theorem board_laws_of_unclearedRun :
    ∃ trace m, gameSystem.Run trace m ∧
      m.game.mMacroboard (0, 0) = 2 ∧
      trace.countP
          (fun t => t.source.game.mMacroboard (0, 0) = 2) = 4 ∧
      Coherent m.game ∧
      (∀ t ∈ trace,
        (∀ c, t.source.game.mBoard c ≠ 0 →
          m.game.mBoard c = t.source.game.mBoard c) ∧
        (∀ q, isFinished (t.source.game.mMacroboard q) →
          m.game.mMacroboard q =
            t.source.game.mMacroboard q)) ∧
      ((getAvailableMoves m.game).length > 0 ↔
        ∃ q, isUnfinished (m.game.mMacroboard q)) := by
  rcases exists_run_of_execute (fun m => m = initialMatch)
      (fun m pins => some (makeMove m pins)) rfl unclearedRun
      (fun trace m =>
        decide
          (m.game.mMacroboard (0, 0) = 2 ∧
            trace.countP
              (fun t => t.source.game.mMacroboard (0, 0) = 2) =
                4))
      (by decide +kernel) with
    ⟨trace, m, hRun, hWon⟩
  have hBoth := of_decide_eq_true hWon
  exact ⟨trace, m, hRun, hBoth.1, hBoth.2,
    board_laws_of_run hRun⟩

end UltimateTicTacToe

end ProgrammingTasks
