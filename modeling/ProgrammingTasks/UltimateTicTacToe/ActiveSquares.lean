import ProgrammingTasks.UltimateTicTacToe.Play

/-
  Which squares are active after a move.

  By the rules, a move makes the square it points to the only
  active one, or all unfinished squares if that square is
  finished.  The turn of X first clears the active squares;
  the turn of O does not, and squares that were active before
  it stay active.  The law is therefore characterized move by
  move.

  Main declarations:
    * `ActiveLaw`
    * `MoveCondition`
    * `activeLaw_of_run_iff`
    * `not_activeLaw_of_every_run`
-/

------------------------------------------------------------
-- The Law of One Move
------------------------------------------------------------

namespace ProgrammingTasks

namespace UltimateTicTacToe

open TransitionSystem

/-
  After a move at `c`: exactly the target is active if it is
  unfinished, and exactly the unfinished squares otherwise.
-/
def ActiveLaw (s : Game) (c : Cell) : Prop :=
  ∀ q,
    s.mMacroboard q = -1 ↔
      if isUnfinished (s.mMacroboard (targetOf c)) then
        q = targetOf c
      else
        isUnfinished (s.mMacroboard q)

instance (s : Game) (c : Cell) : Decidable (ActiveLaw s c) := by
  unfold ActiveLaw
  infer_instance

/- No square is active but that of the move and its target. -/
def OnlyActive (s : Game) (c : Cell) : Prop :=
  ∀ q, s.mMacroboard q = -1 → q = squareOf c ∨ q = targetOf c

instance (s : Game) (c : Cell) : Decidable (OnlyActive s c) := by
  unfold OnlyActive
  infer_instance

/- The move of a side leaves the target of the move finished. -/
def FinishesTarget (s : Game) (c : Cell) (p : Side) : Prop :=
  targetDone s.mMacroboard (squareOf c) (targetOf c)
    (moveResult s c p.id)

instance (s : Game) (c : Cell) (p : Side) :
    Decidable (FinishesTarget s c p) := by
  unfold FinishesTarget
  infer_instance

section Moves

variable {s : Game} {c : Cell} {p : Side}

/- The target is unfinished unless the move leaves it done. -/
theorem target_of_move
    (hSettled : Settled s) :
    if FinishesTarget s c p then
      ¬ isUnfinished ((play s c p.id).mMacroboard (targetOf c))
    else
      (play s c p.id).mMacroboard (targetOf c) = -1 := by
  have hRange := hSettled.moveResult_range c p
  have hAt := hSettled.squareValue (targetOf c)
  rw [play_macroboard s c p.id hSettled.squareValue hRange]
  unfold FinishesTarget playedSquare targetDone squareValue
  unfold SquareValue isUnfinished isFinished at *
  unfold MicroResult at hRange
  grind

/- A square that is neither left nor entered stays as it is. -/
theorem other_of_move
    (hSettled : Settled s)
    (hDone : ¬ FinishesTarget s c p)
    {q : Square}
    (hSquare : q ≠ squareOf c)
    (hTarget : q ≠ targetOf c) :
    (play s c p.id).mMacroboard q = s.mMacroboard q := by
  unfold FinishesTarget at hDone
  rw [play_macroboard s c p.id hSettled.squareValue
    (hSettled.moveResult_range c p), playedSquare,
    if_neg hSquare]
  simp [hDone, hTarget]

/- The square of a move that leaves it is not active. -/
theorem square_of_move
    (hSettled : Settled s)
    (hDone : ¬ FinishesTarget s c p)
    (hDiffer : squareOf c ≠ targetOf c) :
    (play s c p.id).mMacroboard (squareOf c) ≠ -1 := by
  have hRange := hSettled.moveResult_range c p
  have hAt := hSettled.squareValue (targetOf c)
  rw [play_macroboard s c p.id hSettled.squareValue hRange]
  unfold FinishesTarget targetDone at hDone
  unfold playedSquare targetDone squareValue
  unfold SquareValue isUnfinished isFinished at *
  unfold MicroResult at hRange
  grind

/- The law, when the target stays unfinished. -/
theorem activeLaw_of_open_iff
    (hSettled : Settled s)
    (hDone : ¬ FinishesTarget s c p) :
    ActiveLaw (play s c p.id) c ↔ OnlyActive s c := by
  have hTarget :
      (play s c p.id).mMacroboard (targetOf c) = -1 := by
    have hMove := target_of_move (c := c) (p := p) hSettled
    rwa [if_neg hDone] at hMove
  have hLaw :
      ActiveLaw (play s c p.id) c ↔
        ∀ q, (play s c p.id).mMacroboard q = -1 ↔
          q = targetOf c := by
    have hIf :
        isUnfinished
          ((play s c p.id).mMacroboard (targetOf c)) :=
      Or.inr hTarget
    simp only [ActiveLaw, hIf, if_true]
  rw [hLaw]
  constructor
  · intro hExactly q hActive
    by_contra hNeither
    simp only [not_or] at hNeither
    have hStill :=
      other_of_move hSettled hDone hNeither.1 hNeither.2
    rw [hActive] at hStill
    exact hNeither.2 ((hExactly q).mp hStill)
  · intro hOnly q
    constructor
    · intro hActive
      by_contra hNotTarget
      by_cases hAt : q = squareOf c
      · subst hAt
        exact square_of_move hSettled hDone hNotTarget hActive
      · rw [other_of_move hSettled hDone hAt
          hNotTarget] at hActive
        rcases hOnly q hActive with h | h
        · exact hAt h
        · exact hNotTarget h
    · rintro rfl
      exact hTarget

/- The exact condition for the law after one move. -/
theorem activeLaw_play_iff
    (hSettled : Settled s)
    (c : Cell) (p : Side) :
    ActiveLaw (play s c p.id) c ↔
      FinishesTarget s c p ∨ OnlyActive s c := by
  by_cases hDone : FinishesTarget s c p
  · refine iff_of_true ?_ (Or.inl hDone)
    have hTarget := target_of_move (c := c) (p := p) hSettled
    rw [if_pos hDone] at hTarget
    intro q
    rw [if_neg hTarget]
    exact ⟨fun hActive => Or.inr hActive,
      fun hUnfinished => all_active hSettled hTarget
        hUnfinished⟩
  · rw [or_iff_right hDone]
    exact activeLaw_of_open_iff hSettled hDone

end Moves

------------------------------------------------------------
-- The Law along Runs
------------------------------------------------------------

/-
  The condition under which a move made by `make_move` obeys
  the law: X moves, or the move leaves its target finished, or
  no square was active but that of the move and its target.
-/
def MoveCondition (m : Match) (c : Cell) : Prop :=
  m.turn = 1 ∨ FinishesTarget m.game c (sideToMove m) ∨
    OnlyActive m.game c

/- An accepted call plays its cell. -/
theorem makeMove_of_accepts
    {m : Match} {pins : Pins} {c : Cell}
    (hFirst : m.firstMove = false)
    (hAccepts : Accepts m pins c) :
    (makeMove m pins).game =
      play (preparedGame m) c (sideToMove m).id := by
  rcases makeMove_cases hFirst pins with
    ⟨hNone, _⟩ | ⟨c', hAccepts', hMove⟩
  · exact absurd hAccepts (hNone c)
  · rw [hMove, hAccepts.2.1, ← hAccepts'.2.1]

/- The exact condition for one accepted call. -/
theorem activeLaw_makeMove_iff
    {m : Match} {pins : Pins} {c : Cell}
    (hPlayable : Playable m)
    (hAccepts : Accepts m pins c) :
    ActiveLaw (makeMove m pins).game c ↔ MoveCondition m c := by
  have hSettled := settled_preparedGame hPlayable.settled
  rw [makeMove_of_accepts hPlayable.firstMove hAccepts,
    activeLaw_play_iff hSettled]
  by_cases hTurn : m.turn = 1
  · have hCleared : OnlyActive (preparedGame m) c := by
      intro q hActive
      rw [preparedGame_macroboard] at hActive
      split_ifs at hActive with hWas
      exact absurd ⟨hTurn, hActive⟩ hWas
    exact ⟨fun _ => Or.inl hTurn, fun _ => Or.inr hCleared⟩
  · have hSame : preparedGame m = m.game := by
      rw [preparedGame, if_neg hTurn]
    rw [hSame, MoveCondition, or_iff_right hTurn]

/-
  In a run, the law holds after every accepted move exactly if
  every accepted move meets the condition.
-/
theorem activeLaw_of_run_iff
    {trace : List Turn} {m : Match}
    (hRun : gameSystem.Run trace m) :
    (∀ t ∈ trace, ∀ c, Accepts t.source t.event c →
      ActiveLaw t.target.game c) ↔
    (∀ t ∈ trace, ∀ c, Accepts t.source t.event c →
      MoveCondition t.source c) := by
  have hEach : ∀ t ∈ trace, ∀ c,
      Accepts t.source t.event c →
        (ActiveLaw t.target.game c ↔
          MoveCondition t.source c) := by
    intro t hMem c hAccepts
    rcases hRun.transition_spec hMem with
      ⟨earlier, _, _, hReached, hStep⟩
    have hTarget :
        some (makeMove t.source t.event) = some t.target :=
      hStep
    have hNext : makeMove t.source t.event = t.target :=
      Option.some.inj hTarget
    rw [← hNext]
    exact activeLaw_makeMove_iff
      (playable_of_run hReached).1 hAccepts
  constructor
  · intro hLaw t hMem c hAccepts
    exact (hEach t hMem c hAccepts).mp
      (hLaw t hMem c hAccepts)
  · intro hCondition t hMem c hAccepts
    exact (hEach t hMem c hAccepts).mpr
      (hCondition t hMem c hAccepts)

/-
  X plays `(0, 0)`, O answers at `(0, 1)`: both moves meet the
  condition, and the law holds after both.
-/
theorem activeLaw_of_two_moves :
    ∃ trace m, gameSystem.Run trace m ∧
      (trace.map fun t => cursorCell t.target) =
        [(0, 1), (0, 0)] ∧
      ∀ t ∈ trace, ∀ c, Accepts t.source t.event c →
        ActiveLaw t.target.game c := by
  have hExecute :
      execute (fun m pins => some (makeMove m pins))
        [] initialMatch
        [pins false false false false true,
          pins true false false false true] =
          some (_, _) := rfl
  have hRun : gameSystem.Run _ _ :=
    run_of_execute (Run.start rfl) hExecute
  refine ⟨_, _, hRun, by decide,
    (activeLaw_of_run_iff hRun).mpr ?_⟩
  intro t hMem c hAccepts
  have hCell := hAccepts.2.1
  subst hCell
  simp only [List.mem_cons, List.not_mem_nil,
    or_false] at hMem
  rcases hMem with rfl | rfl
  · exact Or.inr (Or.inr (by decide))
  · exact Or.inl rfl

/- The run breaks the law with its last move. -/
theorem not_activeLaw_of_every_run :
    ¬ ∀ trace m, gameSystem.Run trace m →
      ∀ t ∈ trace, ∀ c, Accepts t.source t.event c →
        ActiveLaw t.target.game c := by
  intro hClaim
  rcases exists_run_of_execute (fun m => m = initialMatch)
      (fun m pins => some (makeMove m pins)) rfl unclearedRun
      (fun trace _ =>
        trace.any (fun t =>
          t.event.pa4 &&
          decide (isLegal t.source.game
            (cursorCell (moveCursor t.source t.event))) &&
          decide (¬ ActiveLaw t.target.game
            (cursorCell (moveCursor t.source t.event)))))
      (by decide +kernel) with
    ⟨trace, m, hRun, hBroken⟩
  simp only [List.any_eq_true, Bool.and_eq_true,
    decide_eq_true_eq] at hBroken
  rcases hBroken with ⟨t, hMem, ⟨hPressed, hLegal⟩, hBreak⟩
  exact hBreak
    (hClaim trace m hRun t hMem _ ⟨hPressed, rfl, hLegal⟩)

end UltimateTicTacToe

end ProgrammingTasks
