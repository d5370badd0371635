import ProgrammingTasks.UltimateTicTacToe.Search

/-
  Taking a move back: `unMove` after `play`.

  `unMove` undoes a move exactly in some positions only.  What
  it may leave behind is a changed choice of active squares:
  the cells and the finished squares are always restored.  If
  no other square was active before the move, `unMove` repairs
  whatever the search below has left behind.

  Main declarations:
    * `SameBoards`, `SameButActive`
    * `SafeMove`, `unMove_play_iff`
    * `undo_sameButActive`, `undo_repaired`
-/

------------------------------------------------------------
-- Comparing Boards
------------------------------------------------------------

namespace ProgrammingTasks

namespace UltimateTicTacToe

/- Equal cell by cell on both boards. -/
def SameBoards (s s' : Game) : Prop :=
  s.mBoard = s'.mBoard ∧ s.mMacroboard = s'.mMacroboard

/- Equal, except which unfinished squares are active. -/
structure SameButActive (s s' : Game) : Prop where
  board : s.mBoard = s'.mBoard
  macroboard :
    ∀ q,
      s.mMacroboard q = s'.mMacroboard q ∨
        (isUnfinished (s.mMacroboard q) ∧
          isUnfinished (s'.mMacroboard q))

theorem SameBoards.refl (s : Game) : SameBoards s s :=
  ⟨rfl, rfl⟩

theorem SameBoards.trans
    {s s' s'' : Game}
    (hFirst : SameBoards s s')
    (hThen : SameBoards s' s'') :
    SameBoards s s'' :=
  ⟨hFirst.1.trans hThen.1, hFirst.2.trans hThen.2⟩

theorem SameBoards.sameButActive
    {s s' : Game}
    (hSame : SameBoards s s') :
    SameButActive s s' where
  board := hSame.1
  macroboard q := Or.inl (by rw [hSame.2])

namespace SameButActive

variable {s s' s'' : Game}

theorem refl (s : Game) : SameButActive s s :=
  (SameBoards.refl s).sameButActive

theorem unfinished_iff
    (hSame : SameButActive s s')
    (q : Square) :
    isUnfinished (s.mMacroboard q) ↔
      isUnfinished (s'.mMacroboard q) := by
  rcases hSame.macroboard q with hEqual | ⟨hLeft, hRight⟩
  · rw [hEqual]
  · exact ⟨fun _ => hRight, fun _ => hLeft⟩

theorem trans
    (hFirst : SameButActive s s')
    (hThen : SameButActive s' s'') :
    SameButActive s s'' where
  board := hFirst.board.trans hThen.board
  macroboard := by
    intro q
    rcases hFirst.macroboard q with hEqual | ⟨hLeft, hMiddle⟩
    · rw [hEqual]
      exact hThen.macroboard q
    · exact Or.inr
        ⟨hLeft, (hThen.unfinished_iff q).mp hMiddle⟩

/- Settled boards stay settled. -/
theorem settled
    (hSame : SameButActive s s')
    (hSettled : Settled s') :
    Settled s where
  cells := by
    rw [hSame.board]
    exact hSettled.cells
  squares := by
    intro q
    rw [hSame.board]
    have hSquare := hSettled.squares q
    rcases hSame.macroboard q with hEqual | ⟨hLeft, hRight⟩
    · rwa [hEqual]
    · rw [(hSettled.unfinished_iff q).mp hRight]
      exact hLeft

end SameButActive

------------------------------------------------------------
-- Entering and Leaving a Move
------------------------------------------------------------

/- `boundaries` in closed form. -/
theorem boundaries_eq (s : Game) (c : Cell) :
    boundaries s c =
      { s with
        lx := 3 * (squareOf c).1.val
        hx := 3 * (squareOf c).1.val + 3
        ly := 3 * (squareOf c).2.val
        hy := 3 * (squareOf c).2.val + 3 } := by
  have hBounds := bounds_boundaries s c
  have hBoards := boundaries_boards s c
  rcases hBounds with ⟨hLx, hHx, hLy, hHy⟩
  cases hGame : boundaries s c with
  | mk board macroboard lx hx ly hy =>
      rw [hGame] at hLx hHx hLy hHy hBoards
      simp only at hLx hHx hLy hHy hBoards
      rw [hLx, hHx, hLy, hHy, hBoards.1, hBoards.2]

/- The recursive call starts where the move is completed. -/
theorem setMicroWins_enterMove
    (s : Game) (c : Cell) (p : Side) :
    setMicroWins (enterMove s c p) = play s c p.id := by
  have hCommute :
      enterMove s c p = boundaries (setMove s c p.id) c := by
    rw [enterMove, boundaries_eq, boundaries_eq]
    unfold setMove setWinnerMicroSquare
      clearMacroBoardWhenSentToAWonSquare
    dsimp only
    split_ifs <;> rfl
  rw [hCommute, play]

/- A move depends on the boards only. -/
theorem play_congr
    {s s' : Game}
    (hSame : SameBoards s s')
    (c : Cell) (v : Int) :
    play s c v = play s' c v := by
  rcases s with ⟨board, macroboard, lx, hx, ly, hy⟩
  rcases s' with ⟨board', macroboard', lx', hx', ly', hy'⟩
  rcases hSame with ⟨hBoard, hMacroboard⟩
  simp only at hBoard hMacroboard
  subst hBoard hMacroboard
  rw [play, play, boundaries_eq, boundaries_eq]
  unfold setMove setWinnerMicroSquare
    clearMacroBoardWhenSentToAWonSquare
  dsimp only
  split_ifs <;> rfl

theorem enterMove_congr
    {s s' : Game}
    (hSame : SameBoards s s')
    (c : Cell) (p : Side) :
    setMicroWins (enterMove s c p) = play s' c p.id := by
  rw [setMicroWins_enterMove, play_congr hSame]

/- `setMicroWins` changes nothing on settled boards. -/
theorem setMicroWins_settled
    {s : Game} {b : Square}
    (hSettled : Settled s)
    (hBounds : Bounds s b) :
    setMicroWins s = s := by
  have hRange :=
    microResult_range
      (m := blockOf s.mBoard b) (fun i j => hSettled.cells _)
  have hSquare := hSettled.squares b
  rw [setMicroWins_eq hBounds hRange]
  split_ifs with hZero
  · rfl
  · rw [Agrees, if_neg hZero] at hSquare
    have hNotActive : s.mMacroboard b ≠ -1 := by
      rw [hSquare]
      unfold squareValue
      unfold MicroResult at hRange
      split_ifs <;> omega
    rw [finishSquare, boundedSquare_eq hBounds,
      if_neg hNotActive, setWinnerMicroSquare, ← hSquare,
      Function.update_eq_self]

/- `unMove` square by square. -/
theorem unMove_macroboard
    (s : Game) (c : Cell) (v : Int) (q : Square) :
    (unMove s c v).mMacroboard q =
      if q = squareOf c then -1
      else if s.mMacroboard (targetOf c) = -1 then
        if q = targetOf c then 0 else s.mMacroboard q
      else if isFinished (s.mMacroboard (targetOf c)) then
        if s.mMacroboard q = -1 then 0 else s.mMacroboard q
      else s.mMacroboard q := by
  simp only [unMove, setWinnerMicroSquare_macroboard,
    apply_ite Game.mMacroboard, ite_apply, unClear_macroboard]

theorem unMove_board (s : Game) (c : Cell) (v : Int) :
    (unMove s c v).mBoard = Function.update s.mBoard c v := by
  unfold unMove setWinnerMicroSquare
    unClearMacroBoardWhenSentToAWonSquare
  dsimp only
  split_ifs <;> rfl

theorem unMove_congr
    {s s' : Game}
    (hSame : SameBoards s s')
    (c : Cell) (v : Int) :
    SameBoards (unMove s c v) (unMove s' c v) := by
  constructor
  · rw [unMove_board, unMove_board, hSame.1]
  · funext q
    rw [unMove_macroboard, unMove_macroboard, hSame.2]

------------------------------------------------------------
-- Undoing One Move
------------------------------------------------------------

/- The square of the move is the only one that may be active. -/
def OnlyOwnActive (s : Game) (c : Cell) : Prop :=
  ∀ q, s.mMacroboard q = -1 → q = squareOf c

instance (s : Game) (c : Cell) :
    Decidable (OnlyOwnActive s c) := by
  unfold OnlyOwnActive
  infer_instance

/-
  The moves that `unMove` undoes exactly: no other square is
  active, or the move points to its own square and does not
  finish it, or it points to another square that is unfinished
  and not active.
-/
def SafeMove (s : Game) (c : Cell) (p : Side) : Prop :=
  OnlyOwnActive s c ∨
    (targetOf c = squareOf c ∧ moveResult s c p.id = 0) ∨
    (targetOf c ≠ squareOf c ∧ s.mMacroboard (targetOf c) = 0)

instance (s : Game) (c : Cell) (p : Side) :
    Decidable (SafeMove s c p) := by
  unfold SafeMove
  infer_instance

section Undo

variable {s r : Game} {c : Cell} {p : Side}

/- The cell that was played is free again. -/
theorem undo_board
    (hFree : s.mBoard c = 0)
    (hBoard : r.mBoard = (play s c p.id).mBoard) :
    (unMove r c 0).mBoard = s.mBoard := by
  rw [unMove_board, hBoard, play_board,
    Function.update_idem, ← hFree, Function.update_eq_self]

/- `unMove` undoes exactly the safe moves. -/
theorem unMove_play_iff
    (hSettled : Settled s)
    (hLegal : isLegal s c)
    (p : Side) :
    SameBoards (unMove (play s c p.id) c 0) s ↔
      SafeMove s c p := by
  have hRange := hSettled.moveResult_range c p
  have hValue := hSettled.squareValue
  have hPlay :=
    play_macroboard s c p.id hSettled.squareValue hRange
  have hUndo := unMove_macroboard (play s c p.id) c 0
  have hOwn := hLegal.2
  constructor
  · intro hSame
    have hMacroboard := fun q => congrFun hSame.2 q
    simp only [hUndo, hPlay] at hMacroboard
    by_contra hUnsafe
    simp only [SafeMove, OnlyOwnActive, not_or, not_forall,
      not_and] at hUnsafe
    rcases hUnsafe with ⟨⟨q, hActive, hOther⟩, hSelf, hTarget⟩
    have hAtOther := hMacroboard q
    have hAtTarget := hMacroboard (targetOf c)
    have hTargetValue := hValue (targetOf c)
    unfold playedSquare targetDone squareValue at *
    unfold SquareValue isUnfinished isFinished at *
    unfold MicroResult at hRange
    generalize squareOf c = b at *
    generalize targetOf c = t at *
    generalize moveResult s c p.id = result at *
    clear hPlay hUndo hSame hMacroboard hSettled
    grind
  · intro hSafe
    refine ⟨undo_board hLegal.1 rfl, ?_⟩
    funext q
    rw [hUndo, hPlay, hPlay]
    have hTargetValue := hValue (targetOf c)
    have hHere := hValue q
    unfold SafeMove OnlyOwnActive at hSafe
    have hOnly :
        (∀ q, s.mMacroboard q = -1 → q = squareOf c) →
          s.mMacroboard q = -1 → q = squareOf c :=
      fun h => h q
    have hOnlyTarget :
        (∀ q, s.mMacroboard q = -1 → q = squareOf c) →
          s.mMacroboard (targetOf c) = -1 →
            targetOf c = squareOf c :=
      fun h => h (targetOf c)
    unfold playedSquare targetDone squareValue at *
    unfold SquareValue isUnfinished isFinished at *
    unfold MicroResult at hRange
    generalize squareOf c = b at *
    generalize targetOf c = t at *
    generalize moveResult s c p.id = result at *
    clear hPlay hUndo hSettled
    grind

/- In any case only the choice of active squares changes. -/
theorem undo_sameButActive
    (hSettled : Settled s)
    (hFree : s.mBoard c = 0)
    (hOpen : isUnfinished (s.mMacroboard (squareOf c)))
    (hSame : SameButActive r (play s c p.id)) :
    SameButActive (unMove r c 0) s where
  board := undo_board hFree hSame.board
  macroboard := by
    intro q
    have hRange := hSettled.moveResult_range c p
    have hHere := hSettled.squareValue q
    have hReply := hSame.macroboard q
    rw [play_macroboard s c p.id hSettled.squareValue
      hRange] at hReply
    rw [unMove_macroboard]
    unfold playedSquare targetDone squareValue at hReply
    unfold SquareValue isUnfinished isFinished at *
    unfold MicroResult at hRange
    generalize squareOf c = b at *
    generalize targetOf c = t at *
    generalize moveResult s c p.id = result at *
    clear hSettled hSame
    grind

/-
  If no other square was active and the target is finished
  after the move, `unMove` clears all active squares, and so
  repairs what the search below has left behind.
-/
theorem undo_repaired
    (hSettled : Settled s)
    (hLegal : isLegal s c)
    (hOnly : OnlyOwnActive s c)
    (hDone :
      ¬ isUnfinished
        ((play s c p.id).mMacroboard (targetOf c)))
    (hSame : SameButActive r (play s c p.id)) :
    SameBoards (unMove r c 0) s := by
  refine ⟨undo_board hLegal.1 hSame.board, ?_⟩
  have hTarget :
      isFinished (r.mMacroboard (targetOf c)) := by
    have hValue :=
      (hSettled.play c p).squareValue (targetOf c)
    rcases hSame.macroboard (targetOf c) with hEqual | hBoth
    · rw [hEqual]
      exact hValue.resolve_left hDone
    · exact absurd hBoth.2 hDone
  have hNotActive : r.mMacroboard (targetOf c) ≠ -1 := by
    intro hActive
    rw [hActive] at hTarget
    exact absurd hTarget (by decide)
  funext q
  rw [unMove_macroboard, if_neg hNotActive, if_pos hTarget]
  have hHere := hSettled.squareValue q
  have hOnlyHere := hOnly q
  have hOwn := hLegal.2
  have hKept :=
    play_finished (p := p) (c := c) (q := q) hSettled
  have hStill :=
    play_unfinished_iff (p := p) (c := c) (q := q) hSettled
  have hReply := hSame.macroboard q
  have hOpen := hSame.unfinished_iff q
  unfold SquareValue isUnfinished isFinished at *
  grind

end Undo

end UltimateTicTacToe

end ProgrammingTasks
