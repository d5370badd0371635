import ProgrammingTasks.UltimateTicTacToe.Restore
import ProgrammingTasks.UltimateTicTacToe.Evaluation

/-
  Does `minimax` return the value of the full tree?

  The cut-offs do no harm, but a move that is not taken back
  exactly leaves wrong boards to the moves after it.  At the
  last level this does not matter, since the scores of leaves
  do not depend on active squares.  Above it, every move after
  which another one is tried must be taken back exactly.  The
  moves that are tried are those that the cut-offs leave when
  the moves have their reference values.

  Main declarations:
    * `minimax_one_score`
    * `TakenBack`, `FaithfulWithin`
    * `minimax_of_faithfulWithin`
    * `faithfulWithin_of_refScore`
    * `minimax_score_eq_refValue`
-/

------------------------------------------------------------
-- The Last Level
------------------------------------------------------------

namespace ProgrammingTasks

namespace UltimateTicTacToe

theorem visits_true
    (ask : Cell → Window → Int) (p : Side) :
    ∀ (moves : List Cell) (w : Window),
      Visits ask p (fun _ _ => True) (fun _ _ => True) moves w
| [], _ => trivial
| _ :: rest, _ =>
    ⟨trivial, Or.inr (Or.inr
      ⟨trivial, visits_true ask p rest _⟩)⟩

/- The same move on boards with other active squares. -/
theorem SameButActive.play
    {s s' : Game}
    (hSame : SameButActive s s')
    (hSettled : Settled s')
    (c : Cell) (p : Side) :
    SameButActive (play s c p.id) (play s' c p.id) where
  board := by
    rw [play_board, play_board, hSame.board]
  macroboard := by
    intro q
    have hAfter := ((hSame.settled hSettled).play c p).squares q
    have hAfter' := (hSettled.play c p).squares q
    rw [play_board, hSame.board] at hAfter
    rw [play_board] at hAfter'
    unfold Agrees at hAfter hAfter'
    split_ifs at hAfter hAfter' with hZero
    · exact Or.inr ⟨hAfter, hAfter'⟩
    · exact Or.inl (hAfter.trans hAfter'.symm)

/- The scores of leaves do not depend on active squares. -/
theorem copyScore_zero_congr
    {s s' : Game}
    (hSame : SameButActive s s')
    (hSettled : Settled s')
    (c : Cell) (p p' : Side) (w : Window) :
    copyScore 0 p' w (play s c p.id) =
      copyScore 0 p' w (play s' c p.id) := by
  have hSame' := hSame.play hSettled c p
  rw [copyScore, copyScore,
    terminalScore_congr hSame' (hSettled.play c p)
      (lively_play (hSame.settled hSettled) c p)
      (lively_play hSettled c p),
    leafScore_congr hSame']

/- A search of depth 1 is not disturbed by active squares. -/
theorem minimax_one_score
    {p : Side} {w : Window} {s : Game}
    (hSettled : Settled (setMicroWins s)) :
    (minimax 1 p w.alpha w.beta s).2.score =
      copyScore 1 p w (setMicroWins s) := by
  refine (minimax_of_loop
    (I := fun cur => SameButActive cur (setMicroWins s))
    (J := fun _ => True)
    (fun _ _ => trivial) (SameButActive.refl _) ?_
    (Or.inr (visits_true _ p _ w))).1
  intro c hC cur hSame w' _
  have hCur := hSame.settled hSettled
  have hLegal := (mem_getAvailableMoves _ _).mp hC
  refine ⟨?_, trivial, ?_⟩
  · rw [minimax_zero_score, setMicroWins_enterMove]
    exact copyScore_zero_congr hSame hSettled c p p.other w'
  · intro _
    rw [minimax_zero_game, setMicroWins_enterMove]
    have hFree : cur.mBoard c = 0 := by
      rw [hSame.board]
      exact hLegal.1
    have hOpen : isUnfinished (cur.mMacroboard (squareOf c)) :=
      (hSame.unfinished_iff _).mpr (Or.inr hLegal.2)
    exact (undo_sameButActive hCur hFree hOpen
      (SameButActive.refl _)).trans hSame

------------------------------------------------------------
-- The Levels above It
------------------------------------------------------------

/-
  The move is taken back exactly: no other square was active,
  or it is safe and so is every move visited below it.
-/
def TakenBack
    (score : Score) (depth : Nat) (p : Side) (s : Game)
    (c : Cell) (w : Window) : Prop :=
  OnlyOwnActive s c ∨
    (SafeMove s c p ∧
      SafeWithin score depth p.other w (play s c p.id))

instance
    (score : Score) (depth : Nat) (p : Side) (s : Game)
    (c : Cell) (w : Window) :
    Decidable (TakenBack score depth p s c w) := by
  unfold TakenBack
  infer_instance

/-
  At every node of depth 2 or more that a search with these
  scores visits, a move after which another one is tried is
  taken back exactly.
-/
def FaithfulWithin (score : Score) :
    Nat → Side → Window → Game → Prop
| 0, _, _, _ => True
| 1, _, _, _ => True
| depth + 2, p, w, s =>
    (terminalScore s (depth + 2)).isSome ∨
      Visits
        (fun c w =>
          score (depth + 1) p.other w (play s c p.id))
        p
        (fun c w =>
          FaithfulWithin score (depth + 1) p.other w
            (play s c p.id))
        (TakenBack score (depth + 1) p s)
        (getAvailableMoves s) w

instance decidableFaithfulWithin (score : Score) :
    ∀ (depth : Nat) (p : Side) (w : Window) (s : Game),
      Decidable (FaithfulWithin score depth p w s)
| 0, _, _, _ => isTrue trivial
| 1, _, _, _ => isTrue trivial
| depth + 2, p, _, s =>
    have := fun c w =>
      decidableFaithfulWithin score (depth + 1) p.other w
        (play s c p.id)
    inferInstanceAs (Decidable (_ ∨ Visits _ _ _ _ _ _))

/- A move that is taken back exactly restores the boards. -/
theorem TakenBack.undo
    {depth : Nat} {p : Side} {s cur : Game}
    {c : Cell} {w : Window}
    (hTakenBack : TakenBack copyScore depth p s c w)
    (hSettled : Settled s)
    (hLegal : isLegal s c)
    (hSame : SameBoards cur s) :
    SameBoards
      (unMove
        (minimax depth p.other w.alpha w.beta
          (enterMove cur c p)).1 c 0) s := by
  have hEnter := enterMove_congr hSame c p
  have hSettled' : Settled (setMicroWins (enterMove cur c p)) := by
    rw [hEnter]
    exact hSettled.play c p
  rcases hTakenBack with hOnly | ⟨hMove, hBelow⟩
  · have hReply :=
      minimax_sameButActive depth p.other w.alpha w.beta
        (enterMove cur c p) hSettled'
    have hExact :=
      minimax_of_atMostOneActive depth p.other w.alpha w.beta
        (enterMove cur c p) hSettled'
    rw [hEnter] at hReply hExact
    exact hOnly.undo hSettled hLegal hReply hExact
  · have hReply :=
      (minimax_of_safeWithin depth p.other w
        (enterMove cur c p) hSettled'
        (by rwa [hEnter])).2
    rw [hEnter] at hReply
    exact (unMove_congr hReply c 0).trans
      ((unMove_play_iff hSettled hLegal p).mpr hMove)

/- The score of a faithful search is that on copies. -/
theorem minimax_of_faithfulWithin :
    ∀ (depth : Nat) (p : Side) (w : Window) (s : Game),
      Settled (setMicroWins s) →
      FaithfulWithin copyScore depth p w (setMicroWins s) →
      (minimax depth p w.alpha w.beta s).2.score =
        copyScore depth p w (setMicroWins s)
| 0, _, _, _, _, _ => minimax_zero_score
| 1, _, _, _, hSettled, _ => minimax_one_score hSettled
| depth + 2, p, w, s, hSettled, hFaithful => by
    refine (minimax_of_loop
      (I := fun cur => SameBoards cur (setMicroWins s))
      (J := fun _ => True)
      (fun _ _ => trivial) (SameBoards.refl _) ?_ hFaithful).1
    intro c hC cur hSame w' hBelow
    have hLegal := (mem_getAvailableMoves _ _).mp hC
    have hEnter := enterMove_congr hSame c p
    refine ⟨?_, trivial, ?_⟩
    · have hReply :=
        minimax_of_faithfulWithin (depth + 1) p.other w'
          (enterMove cur c p)
          (by
            rw [hEnter]
            exact hSettled.play c p)
          (by rwa [hEnter])
      rwa [hEnter] at hReply
    · intro hTakenBack
      exact hTakenBack.undo hSettled hLegal hSame

------------------------------------------------------------
-- The Reference Value
------------------------------------------------------------

/- The moves that the reference values visit are safe. -/
theorem safeWithin_of_refScore :
    ∀ {depth : Nat} {p : Side} {w : Window} {s : Game},
      w.alpha < w.beta →
      Live depth p s →
      SafeWithin refScore depth p w s →
        SafeWithin copyScore depth p w s
| 0, _, _, _, _, _, _ => trivial
| depth + 1, p, w, s, hWindow, hLive, hSafe => by
    rcases hLive with hTerminal | ⟨_, hLive⟩
    · exact Or.inl hTerminal
    · rcases hSafe with hTerminal | hVisits
      · exact Or.inl hTerminal
      · refine Or.inr
          (visits_of_answers _ _ hWindow ?_ hVisits)
        intro c hC w' hOpen
        refine ⟨copyScore_answers hOpen (hLive c hC), ?_, id⟩
        rintro ⟨hMove, hBelow⟩
        exact ⟨hMove,
          safeWithin_of_refScore hOpen (hLive c hC) hBelow⟩

/- The same for the moves that are taken back. -/
theorem faithfulWithin_of_refScore :
    ∀ {depth : Nat} {p : Side} {w : Window} {s : Game},
      w.alpha < w.beta →
      Live depth p s →
      FaithfulWithin refScore depth p w s →
        FaithfulWithin copyScore depth p w s
| 0, _, _, _, _, _, _ => trivial
| 1, _, _, _, _, _, _ => trivial
| depth + 2, p, w, s, hWindow, hLive, hFaithful => by
    rcases hLive with hTerminal | ⟨_, hLive⟩
    · exact Or.inl hTerminal
    · rcases hFaithful with hTerminal | hVisits
      · exact Or.inl hTerminal
      · refine Or.inr
          (visits_of_answers _ _ hWindow ?_ hVisits)
        intro c hC w' hOpen
        refine ⟨copyScore_answers hOpen (hLive c hC),
          faithfulWithin_of_refScore hOpen (hLive c hC), ?_⟩
        rintro (hOnly | ⟨hMove, hBelow⟩)
        · exact Or.inl hOnly
        · exact Or.inr ⟨hMove,
            safeWithin_of_refScore hOpen (hLive c hC) hBelow⟩

/-
  A faithful search from the widest window returns the value
  of the full tree.
-/
theorem minimax_score_eq_refValue
    {s : Game} {q : Square}
    {depth : Nat} {p : Side}
    (hCoherent : Coherent s)
    (hBounds : Bounds s q)
    (hDepth : depth ≤ 81)
    (hLive : Live depth p s)
    (hFaithful :
      FaithfulWithin refScore depth p ⟨-9999, 9999⟩ s) :
    (minimax depth p (-9999) 9999 s).2.score =
      refValue depth p s := by
  have hSettled := hCoherent.settled
  have hSame := setMicroWins_settled hSettled hBounds
  have hCopies :=
    faithfulWithin_of_refScore (w := ⟨-9999, 9999⟩)
      (by decide) hLive hFaithful
  have hScore :=
    minimax_of_faithfulWithin depth p ⟨-9999, 9999⟩ s
      (by rwa [hSame]) (by rwa [hSame])
  have hRange := refValue_range hDepth hLive
  have hAnswers :=
    copyScore_answers (w := ⟨-9999, 9999⟩) (by decide) hLive
  rw [hScore, hSame]
  exact hAnswers.inside hRange.1 hRange.2

/- The same position with the active square (2, 2) only. -/
def quietGame : Game :=
  { crowdedGame with
    mMacroboard :=
      Function.update crowdedGame.mMacroboard (2, 0) 0 }

theorem coherent_quietGame : Coherent quietGame := by
  refine Settled.coherent ⟨?_, ?_⟩ ?_
  · decide +kernel
  · decide +kernel
  · unfold OneLine
    decide +kernel

theorem minimax_score_eq_refValue_quiet :
    Live 3 .enemyId quietGame ∧
      FaithfulWithin refScore 3 .enemyId ⟨-9999, 9999⟩
        quietGame ∧
      (minimax 3 .enemyId (-9999) 9999 quietGame).2.score =
        refValue 3 .enemyId quietGame := by
  have hLive : Live 3 .enemyId quietGame := by
    decide +kernel
  have hFaithful :
      FaithfulWithin refScore 3 .enemyId ⟨-9999, 9999⟩
        quietGame := by
    decide +kernel
  exact ⟨hLive, hFaithful,
    minimax_score_eq_refValue (q := (2, 0))
      coherent_quietGame ⟨rfl, rfl, rfl, rfl⟩
      (by decide) hLive hFaithful⟩

/- The search does not always return the reference value. -/
theorem not_minimax_score_eq_refValue_always :
    ¬ ∀ (s : Game) (q : Square) (depth : Nat) (p : Side),
      Coherent s →
      Bounds s q →
      isUnfinished (s.mMacroboard q) →
      terminalScore s depth = none →
      getAvailableMoves s ≠ [] →
      1 ≤ depth →
      depth ≤ 81 →
      Live depth p s →
        (minimax depth p (-9999) 9999 s).2.score =
          refValue depth p s := by
  intro hAlways
  have hScore :=
    hAlways crowdedGame (2, 0) 2 .enemyId
      coherent_crowdedGame ⟨rfl, rfl, rfl, rfl⟩ (by decide)
      (by decide +kernel) (by decide +kernel) (by decide)
      (by decide) (by decide +kernel)
  revert hScore
  decide +kernel

end UltimateTicTacToe

end ProgrammingTasks
