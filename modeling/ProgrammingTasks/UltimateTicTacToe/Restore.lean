import ProgrammingTasks.UltimateTicTacToe.Undo
import ProgrammingTasks.UltimateTicTacToe.Copies

/-
  Does `minimax` leave the boards as it found them?

  If at most one square is active, every move is taken back
  exactly, whatever the search below it does.  With several
  active squares this depends on the moves that the search
  visits: they must be safe, at every level.  The visited
  moves are those of the search on copies of the boards, which
  as long as all of them are safe returns the same scores.

  Main declarations:
    * `minimax_sameButActive`
    * `minimax_of_atMostOneActive`
    * `SafeWithin`, `minimax_of_safeWithin`
    * `minimax_restores`
-/

------------------------------------------------------------
-- The Loop over the Moves
------------------------------------------------------------

namespace ProgrammingTasks

namespace UltimateTicTacToe

/- The window of the variables of the loop. -/
def SearchState.window (st : SearchState) : Window :=
  ⟨st.alpha, st.beta⟩

theorem recordScore_window
    (p : Side) (c : Cell) (score : Int) (st : SearchState) :
    (recordScore p c score st).window =
      narrow p score st.window := by
  cases p with
  | playerId =>
      simp only [recordScore, narrow, SearchState.window]
      split_ifs with hHigher
      · rw [max_eq_right (le_of_lt hHigher)]
      · rw [max_eq_left (not_lt.mp hHigher)]
  | enemyId =>
      simp only [recordScore, narrow, SearchState.window]
      split_ifs with hLower
      · rw [min_eq_right (le_of_lt hLower)]
      · rw [min_eq_left (not_lt.mp hLower)]

/- An invariant that every move keeps holds after the loop. -/
theorem searchMoves_keeps
    {recur : Int → Int → Game → Game × Move}
    {p : Side} {I : Game → Prop} :
    ∀ (moves : List Cell) (st : SearchState),
      I st.game →
      (∀ c ∈ moves, ∀ cur, I cur → ∀ alpha beta,
        I (unMove (recur alpha beta (enterMove cur c p)).1
          c 0)) →
      I (searchMoves recur p moves st).game
| [], _, hStart, _ => hStart
| c :: rest, st, hStart, hMove => by
    have hNext :=
      hMove c List.mem_cons_self st.game hStart
        st.alpha st.beta
    rw [searchMoves]
    dsimp only
    split_ifs
    · exact hNext
    · exact searchMoves_keeps rest _ hNext
        (fun d hD => hMove d (List.mem_cons_of_mem _ hD))

/-
  The loop follows the loop on copies.  `I` holds of the
  boards whenever a move is tried, and `J` of those at the
  end.
-/
theorem searchMoves_copies
    (recur : Int → Int → Game → Game × Move)
    {ask : Cell → Window → Int} {p : Side}
    {I J : Game → Prop} {P Q : Cell → Window → Prop}
    (hFinal : ∀ cur, I cur → J cur) :
    ∀ (moves : List Cell) (st : SearchState),
      I st.game →
      (∀ c ∈ moves, ∀ cur, I cur → ∀ w : Window, P c w →
        (recur w.alpha w.beta (enterMove cur c p)).2.score =
            ask c w ∧
          J (unMove
            (recur w.alpha w.beta (enterMove cur c p)).1
              c 0) ∧
          (Q c w →
            I (unMove
              (recur w.alpha w.beta (enterMove cur c p)).1
                c 0))) →
      Visits ask p P Q moves st.window →
      (searchMoves recur p moves st).window =
          copyMoves ask p moves st.window ∧
        J (searchMoves recur p moves st).game
| [], st, hStart, _, _ => ⟨rfl, hFinal _ hStart⟩
| c :: rest, st, hStart, hMove, hVisits => by
    rcases hVisits with ⟨hHere, hRest⟩
    rcases hMove c List.mem_cons_self st.game hStart
        st.window hHere with
      ⟨hScore, hJ, hI⟩
    have hWindow :=
      recordScore_window p c
        (recur st.alpha st.beta (enterMove st.game c p)).2.score
        st
    have hNarrow :
        (recordScore p c
          (recur st.alpha st.beta
            (enterMove st.game c p)).2.score st).window =
          narrow p (ask c st.window) st.window := by
      rw [hWindow, ← hScore]
      rfl
    rw [searchMoves, copyMoves, ← hNarrow]
    rw [← hNarrow] at hRest
    dsimp only
    split_ifs with hCut hOther hOther
    · exact ⟨rfl, hJ⟩
    · exact absurd hCut hOther
    · exact absurd hOther hCut
    · rcases hRest with hClosed | hNone | ⟨hQ, hRest⟩
      · exact absurd hClosed hOther
      · subst hNone
        exact ⟨rfl, hJ⟩
      · exact searchMoves_copies recur hFinal rest _ (hI hQ)
          (fun d hD => hMove d (List.mem_cons_of_mem _ hD))
          hRest

------------------------------------------------------------
-- One Node
------------------------------------------------------------

section Nodes

variable {depth : Nat} {p : Side} {s : Game}
variable {alpha beta : Int}

theorem minimax_of_terminal
    {score : Int}
    (hTerminal :
      terminalScore (setMicroWins s) depth = some score) :
    minimax depth p alpha beta s =
      (setMicroWins s, ⟨none, score⟩) := by
  cases depth with
  | zero => rw [minimax_zero, hTerminal]
  | succ depth => rw [minimax_succ, hTerminal]

theorem minimax_of_searched
    (hTerminal :
      terminalScore (setMicroWins s) (depth + 1) = none) :
    (minimax (depth + 1) p alpha beta s).1 =
        (searchNode depth p alpha beta
          (setMicroWins s)).game ∧
      (minimax (depth + 1) p alpha beta s).2.score =
        (searchNode depth p alpha beta
          (setMicroWins s)).window.score p := by
  rw [minimax_succ, hTerminal]
  exact ⟨rfl, by cases p <;> rfl⟩

theorem minimax_zero_game :
    (minimax 0 p alpha beta s).1 = setMicroWins s := by
  rw [minimax_zero]
  cases terminalScore (setMicroWins s) 0 <;> rfl

theorem minimax_zero_score :
    (minimax 0 p alpha beta s).2.score =
      copyScore 0 p ⟨alpha, beta⟩ (setMicroWins s) := by
  rw [minimax_zero, copyScore]
  cases terminalScore (setMicroWins s) 0 <;> rfl

/- An invariant that every move keeps holds at the return. -/
theorem minimax_keeps
    {I : Game → Prop}
    (hStart : I (setMicroWins s))
    (hMove :
      ∀ c ∈ getAvailableMoves (setMicroWins s), ∀ cur,
        I cur → ∀ alpha beta,
          I (unMove
            (minimax depth p.other alpha beta
              (enterMove cur c p)).1 c 0)) :
    I (minimax (depth + 1) p alpha beta s).1 := by
  cases hTerminal :
      terminalScore (setMicroWins s) (depth + 1) with
  | some score =>
      rw [minimax_of_terminal hTerminal]
      exact hStart
  | none =>
      rw [(minimax_of_searched hTerminal).1]
      exact searchMoves_keeps _ _ hStart hMove

/-
  A node follows the search on copies if its loop does; the
  boards at the return meet `J`.
-/
theorem minimax_of_loop
    {I J : Game → Prop} {P Q : Cell → Window → Prop}
    {w : Window}
    (hFinal : ∀ cur, I cur → J cur)
    (hStart : I (setMicroWins s))
    (hMove :
      ∀ c ∈ getAvailableMoves (setMicroWins s),
        ∀ cur, I cur → ∀ w : Window, P c w →
          (minimax depth p.other w.alpha w.beta
            (enterMove cur c p)).2.score =
              copyScore depth p.other w
                (play (setMicroWins s) c p.id) ∧
          J (unMove
            (minimax depth p.other w.alpha w.beta
              (enterMove cur c p)).1 c 0) ∧
          (Q c w →
            I (unMove
              (minimax depth p.other w.alpha w.beta
                (enterMove cur c p)).1 c 0)))
    (hVisits :
      (terminalScore (setMicroWins s) (depth + 1)).isSome ∨
        Visits
          (fun c w =>
            copyScore depth p.other w
              (play (setMicroWins s) c p.id))
          p P Q (getAvailableMoves (setMicroWins s)) w) :
    (minimax (depth + 1) p w.alpha w.beta s).2.score =
        copyScore (depth + 1) p w (setMicroWins s) ∧
      J (minimax (depth + 1) p w.alpha w.beta s).1 := by
  rw [copyScore]
  cases hTerminal :
      terminalScore (setMicroWins s) (depth + 1) with
  | some score =>
      rw [minimax_of_terminal hTerminal]
      exact ⟨rfl, hFinal _ hStart⟩
  | none =>
      rw [hTerminal] at hVisits
      have hLoop :=
        searchMoves_copies
          (minimax depth p.other) hFinal
          (getAvailableMoves (setMicroWins s))
          ⟨setMicroWins s, w.alpha, w.beta, none⟩
          hStart hMove (hVisits.resolve_left (by simp))
      rw [(minimax_of_searched hTerminal).1,
        (minimax_of_searched hTerminal).2, searchNode]
      refine ⟨?_, hLoop.2⟩
      rw [hLoop.1]
      rfl

end Nodes

------------------------------------------------------------
-- What Is Always Restored
------------------------------------------------------------

/- The search changes the choice of active squares only. -/
theorem minimax_sameButActive :
    ∀ (depth : Nat) (p : Side) (alpha beta : Int) (s : Game),
      Settled (setMicroWins s) →
      SameButActive (minimax depth p alpha beta s).1
        (setMicroWins s)
| 0, p, alpha, beta, s, _ => by
    rw [minimax_zero_game]
    exact SameButActive.refl _
| depth + 1, p, alpha, beta, s, hSettled => by
    refine minimax_keeps
      (I := fun cur => SameButActive cur (setMicroWins s))
      (SameButActive.refl _) ?_
    intro c hC cur hSame alpha' beta'
    have hLegal := (mem_getAvailableMoves _ _).mp hC
    have hCur := hSame.settled hSettled
    have hFree : cur.mBoard c = 0 := by
      rw [hSame.board]
      exact hLegal.1
    have hOpen : isUnfinished (cur.mMacroboard (squareOf c)) :=
      (hSame.unfinished_iff _).mpr (Or.inr hLegal.2)
    have hBelow :=
      minimax_sameButActive depth p.other alpha' beta'
        (enterMove cur c p)
        (by
          rw [setMicroWins_enterMove]
          exact hCur.play c p)
    rw [setMicroWins_enterMove] at hBelow
    exact (undo_sameButActive hCur hFree hOpen hBelow).trans
      hSame

/- At most one square is active. -/
def AtMostOneActive (s : Game) : Prop :=
  ∀ q q',
    s.mMacroboard q = -1 → s.mMacroboard q' = -1 → q = q'

instance (s : Game) : Decidable (AtMostOneActive s) := by
  unfold AtMostOneActive
  infer_instance

theorem AtMostOneActive.onlyOwnActive
    {s : Game} {c : Cell}
    (hSingle : AtMostOneActive s)
    (hLegal : isLegal s c) :
    OnlyOwnActive s c :=
  fun q hActive => hSingle q (squareOf c) hActive hLegal.2

section Moves

variable {s r : Game} {c : Cell} {p : Side}

/- The only active square passes to an unfinished target. -/
theorem OnlyOwnActive.play
    (hOnly : OnlyOwnActive s c)
    (hSettled : Settled s)
    (hOpen :
      isUnfinished
        ((play s c p.id).mMacroboard (targetOf c))) :
    AtMostOneActive (play s c p.id) := by
  have hTarget :
      ∀ q, (UltimateTicTacToe.play s c p.id).mMacroboard q =
        -1 → q = targetOf c := by
    intro q hActive
    have hHere := hOnly q
    have hRange := hSettled.moveResult_range c p
    rw [play_macroboard s c p.id hSettled.squareValue
      hRange] at hActive hOpen
    unfold playedSquare targetDone squareValue at *
    unfold isUnfinished isFinished at *
    unfold MicroResult at hRange
    generalize squareOf c = b at *
    generalize targetOf c = t at *
    generalize moveResult s c p.id = result at *
    clear hOnly hSettled
    grind
  intro q q' hActive hActive'
  rw [hTarget q hActive, hTarget q' hActive']

/-
  With no other active square, a move is taken back exactly if
  the search below it changes the choice of active squares
  only, and nothing when the target is unfinished.
-/
theorem OnlyOwnActive.undo
    (hOnly : OnlyOwnActive s c)
    (hSettled : Settled s)
    (hLegal : isLegal s c)
    (hSame : SameButActive r (UltimateTicTacToe.play s c p.id))
    (hExact :
      AtMostOneActive (UltimateTicTacToe.play s c p.id) →
        SameBoards r (UltimateTicTacToe.play s c p.id)) :
    SameBoards (unMove r c 0) s := by
  by_cases hOpen :
      isUnfinished
        ((UltimateTicTacToe.play s c p.id).mMacroboard
          (targetOf c))
  · have hReply := hExact (hOnly.play hSettled hOpen)
    have hUndo :=
      (unMove_play_iff hSettled hLegal p).mpr (Or.inl hOnly)
    exact (unMove_congr hReply c 0).trans hUndo
  · exact undo_repaired hSettled hLegal hOnly hOpen hSame

end Moves

/- With at most one active square the boards are restored. -/
theorem minimax_of_atMostOneActive :
    ∀ (depth : Nat) (p : Side) (alpha beta : Int) (s : Game),
      Settled (setMicroWins s) →
      AtMostOneActive (setMicroWins s) →
      SameBoards (minimax depth p alpha beta s).1
        (setMicroWins s)
| 0, p, alpha, beta, s, _, _ => by
    rw [minimax_zero_game]
    exact SameBoards.refl _
| depth + 1, p, alpha, beta, s, hSettled, hSingle => by
    refine minimax_keeps
      (I := fun cur => SameBoards cur (setMicroWins s))
      (SameBoards.refl _) ?_
    intro c hC cur hSame alpha' beta'
    have hLegal := (mem_getAvailableMoves _ _).mp hC
    have hEnter := enterMove_congr hSame c p
    have hBelow :=
      minimax_sameButActive depth p.other alpha' beta'
        (enterMove cur c p)
        (by
          rw [hEnter]
          exact hSettled.play c p)
    rw [hEnter] at hBelow
    refine (hSingle.onlyOwnActive hLegal).undo hSettled hLegal
      hBelow ?_
    intro hSingle'
    have hExact :=
      minimax_of_atMostOneActive depth p.other alpha' beta'
        (enterMove cur c p)
        (by
          rw [hEnter]
          exact hSettled.play c p)
        (by rwa [hEnter])
    rwa [hEnter] at hExact

------------------------------------------------------------
-- Several Active Squares
------------------------------------------------------------

/-
  Every move that a search with these scores visits within
  its window is safe, at every level.
-/
def SafeWithin (score : Score) :
    Nat → Side → Window → Game → Prop
| 0, _, _, _ => True
| depth + 1, p, w, s =>
    (terminalScore s (depth + 1)).isSome ∨
      Visits
        (fun c w => score depth p.other w (play s c p.id))
        p
        (fun c w =>
          SafeMove s c p ∧
            SafeWithin score depth p.other w (play s c p.id))
        (fun _ _ => True)
        (getAvailableMoves s) w

instance decidableSafeWithin (score : Score) :
    ∀ (depth : Nat) (p : Side) (w : Window) (s : Game),
      Decidable (SafeWithin score depth p w s)
| 0, _, _, _ => isTrue trivial
| depth + 1, p, _, s =>
    have := fun c w =>
      decidableSafeWithin score depth p.other w
        (play s c p.id)
    inferInstanceAs (Decidable (_ ∨ Visits _ _ _ _ _ _))

/-
  While every visited move is safe, the search returns the
  score of the search on copies, and restores the boards.
-/
theorem minimax_of_safeWithin :
    ∀ (depth : Nat) (p : Side) (w : Window) (s : Game),
      Settled (setMicroWins s) →
      SafeWithin copyScore depth p w (setMicroWins s) →
      (minimax depth p w.alpha w.beta s).2.score =
          copyScore depth p w (setMicroWins s) ∧
        SameBoards (minimax depth p w.alpha w.beta s).1
          (setMicroWins s)
| 0, p, w, s, _, _ => by
    rw [minimax_zero_game]
    exact ⟨minimax_zero_score, SameBoards.refl _⟩
| depth + 1, p, w, s, hSettled, hSafe => by
    refine minimax_of_loop
      (I := fun cur => SameBoards cur (setMicroWins s))
      (J := fun cur => SameBoards cur (setMicroWins s))
      (fun _ hSame => hSame) (SameBoards.refl _) ?_ hSafe
    rintro c hC cur hSame w' ⟨hMove, hBelow⟩
    have hLegal := (mem_getAvailableMoves _ _).mp hC
    have hEnter := enterMove_congr hSame c p
    rw [← hEnter] at hBelow
    rcases minimax_of_safeWithin depth p.other w'
        (enterMove cur c p)
        (by
          rw [hEnter]
          exact hSettled.play c p)
        hBelow with
      ⟨hReply, hBoards⟩
    rw [hEnter] at hReply hBoards
    have hUndo :=
      (unMove_congr hBoards c 0).trans
        ((unMove_play_iff hSettled hLegal p).mpr hMove)
    exact ⟨hReply, hUndo, fun _ => hUndo⟩

------------------------------------------------------------
-- Restored Boards
------------------------------------------------------------

/-
  At most one square is active, or every move that the search
  on copies visits is safe.
-/
def Restorable
    (depth : Nat) (p : Side) (w : Window) (s : Game) : Prop :=
  AtMostOneActive s ∨ SafeWithin copyScore depth p w s

instance
    (depth : Nat) (p : Side) (w : Window) (s : Game) :
    Decidable (Restorable depth p w s) := by
  unfold Restorable
  infer_instance

/-
  On coherent boards `minimax` returns with the boards as they
  were, if it is called where moves can be taken back.
-/
theorem minimax_restores
    {s : Game} {q : Square}
    {depth : Nat} {p : Side} {alpha beta : Int}
    (hCoherent : Coherent s)
    (hBounds : Bounds s q)
    (hRestorable : Restorable depth p ⟨alpha, beta⟩ s) :
    SameBoards (minimax depth p alpha beta s).1 s := by
  have hSettled := hCoherent.settled
  have hSame := setMicroWins_settled hSettled hBounds
  have hSettled' : Settled (setMicroWins s) := by
    rwa [hSame]
  rcases hRestorable with hSingle | hSafe
  · have hBoards :=
      minimax_of_atMostOneActive depth p alpha beta s
        hSettled' (by rwa [hSame])
    rwa [hSame] at hBoards
  · have hBoards :=
      (minimax_of_safeWithin depth p ⟨alpha, beta⟩ s
        hSettled' (by rwa [hSame])).2
    rwa [hSame] at hBoards

/-
  Two active squares, (0, 0) and (0, 1), no free cell of which
  points to the other one.
-/
def twoActiveGame : Game where
  mBoard c :=
    if c = (0, 1) then 1 else if c = (0, 3) then 2 else 0
  mMacroboard q := if q = (0, 0) ∨ q = (0, 1) then -1 else 0
  lx := 0
  hx := 3
  ly := 0
  hy := 3

theorem coherent_twoActiveGame : Coherent twoActiveGame := by
  refine Settled.coherent ⟨?_, ?_⟩ ?_
  · decide +kernel
  · decide +kernel
  · unfold OneLine
    decide +kernel

theorem minimax_restores_twoActive :
    Bounds twoActiveGame (0, 0) ∧
      Restorable 1 .playerId ⟨-9999, 9999⟩ twoActiveGame ∧
      SameBoards
        (minimax 1 .playerId (-9999) 9999 twoActiveGame).1
        twoActiveGame := by
  have hBounds : Bounds twoActiveGame (0, 0) :=
    ⟨rfl, rfl, rfl, rfl⟩
  have hRestorable :
      Restorable 1 .playerId ⟨-9999, 9999⟩ twoActiveGame := by
    decide +kernel
  exact ⟨hBounds, hRestorable,
    minimax_restores coherent_twoActiveGame hBounds
      hRestorable⟩

/-
  A coherent position late in a game.  The squares (2, 0) and
  (2, 2) are active, and the first available move, (8, 2),
  points from one to the other.
-/
def crowdedGame : Game where
  mBoard c :=
    ([ [2, 1, 1, 2, 1, 0, 2, 2, 0],
       [1, 2, 1, 2, 2, 1, 1, 2, 0],
       [2, 1, 1, 1, 2, 2, 1, 2, 1],
       [2, 1, 2, 2, 1, 1, 1, 2, 2],
       [2, 1, 2, 0, 1, 1, 1, 2, 1],
       [2, 2, 1, 0, 1, 0, 1, 0, 2],
       [2, 1, 2, 1, 1, 1, 1, 2, 1],
       [1, 2, 2, 2, 2, 0, 1, 2, 2],
       [1, 1, 0, 2, 0, 0, 2, 0, 0] ].getD c.1 []).getD c.2 0
  mMacroboard q :=
    ([ [1, 2, 2],
       [2, 1, 1],
       [-1, 1, -1] ].getD q.1 []).getD q.2 0
  lx := 6
  hx := 9
  ly := 0
  hy := 3

theorem coherent_crowdedGame : Coherent crowdedGame := by
  refine Settled.coherent ⟨?_, ?_⟩ ?_
  · decide +kernel
  · decide +kernel
  · unfold OneLine
    decide +kernel

/- The search does not always restore the boards. -/
theorem not_minimax_restores_always :
    ¬ ∀ (s : Game) (q : Square)
      (depth : Nat) (p : Side) (alpha beta : Int),
      Coherent s →
      Bounds s q →
      isUnfinished (s.mMacroboard q) →
      alpha < beta →
        SameBoards (minimax depth p alpha beta s).1 s := by
  intro hAlways
  have hSame :=
    hAlways crowdedGame (2, 0) 1 .playerId (-9999) 9999
      coherent_crowdedGame ⟨rfl, rfl, rfl, rfl⟩
      (by decide) (by decide)
  have hSquare := congrFun hSame.2 (2, 0)
  revert hSquare
  decide +kernel

end UltimateTicTacToe

end ProgrammingTasks
