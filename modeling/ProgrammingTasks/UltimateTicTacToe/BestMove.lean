import ProgrammingTasks.UltimateTicTacToe.Capture

/-
  Does `minimax` return a legal move?

  A best move is chosen when a score is better than the end of
  the window at which the side starts.  Leaves and finished
  games have scores inside that window.  A node without a
  move returns an end of it, and so does every node from which
  the side on the move cannot avoid such a node.

  Main declarations:
    * `searchMove`, `searchMoves_invariant`,
      `searchMoves_attains`
    * `minimax_inRange`, `minimax_cell`, `legalMove_iff`
    * `score_ne_worst`, `score_eq_worst`
    * `LegalMove`, `legalMove_of_escapes`
-/

------------------------------------------------------------
-- Rules of the Loop
------------------------------------------------------------

namespace ProgrammingTasks

namespace UltimateTicTacToe

section Loop

variable {recur : Int → Int → Game → Game × Move}
variable {p : Side}

/- The reply to one move, and the move taken back. -/
def searchMove
    (recur : Int → Int → Game → Game × Move)
    (p : Side) (c : Cell) (st : SearchState) : SearchState :=
  let reply := recur st.alpha st.beta (enterMove st.game c p)
  { recordScore p c reply.2.score st with
    game := unMove reply.1 c 0 }

theorem searchMoves_cons
    (c : Cell) (rest : List Cell) (st : SearchState) :
    searchMoves recur p (c :: rest) st =
      if (searchMove recur p c st).alpha ≥
          (searchMove recur p c st).beta then
        searchMove recur p c st
      else
        searchMoves recur p rest (searchMove recur p c st) :=
  rfl

theorem searchMove_window (c : Cell) (st : SearchState) :
    (searchMove recur p c st).window =
      narrow p
        (recur st.window.alpha st.window.beta
          (enterMove st.game c p)).2.score
        st.window :=
  recordScore_window p c _ st

/- What every move keeps holds after the loop. -/
theorem searchMoves_invariant
    {K : SearchState → Prop} :
    ∀ (moves : List Cell) (st : SearchState),
      K st →
      (∀ c ∈ moves, ∀ st, K st → K (searchMove recur p c st)) →
        K (searchMoves recur p moves st)
| [], _, hStart, _ => hStart
| c :: rest, st, hStart, hMove => by
    have hNext := hMove c List.mem_cons_self st hStart
    rw [searchMoves_cons]
    split
    · exact hNext
    · exact searchMoves_invariant rest _ hNext
        (fun d hD => hMove d (List.mem_cons_of_mem _ hD))

/-
  One move attains `G` and all moves keep it.  The loop does
  not stop before, since the window is open without `G`.
-/
theorem searchMoves_attains
    {K G : SearchState → Prop}
    (hOpen : ∀ st, K st → ¬ G st → st.alpha < st.beta) :
    ∀ (moves : List Cell) (st : SearchState),
      K st →
      (∀ c ∈ moves, ∀ st, K st →
        K (searchMove recur p c st) ∧
          (G st → G (searchMove recur p c st))) →
      (∃ c ∈ moves, ∀ st, K st → ¬ G st →
        G (searchMove recur p c st)) →
        G (searchMoves recur p moves st)
| [], _, _, _, hSome => by
    rcases hSome with ⟨c, hMem, _⟩
    exact absurd hMem List.not_mem_nil
| c :: rest, st, hStart, hMove, hSome => by
    have hNext := hMove c List.mem_cons_self st hStart
    have hRest := fun d (hD : d ∈ rest) =>
      hMove d (List.mem_cons_of_mem _ hD)
    rw [searchMoves_cons]
    by_cases hHere : G (searchMove recur p c st)
    · split
      · exact hHere
      · exact (searchMoves_invariant
          (K := fun st => K st ∧ G st) rest _
          ⟨hNext.1, hHere⟩
          (fun d hD st hBoth =>
            ⟨(hRest d hD st hBoth.1).1,
              (hRest d hD st hBoth.1).2 hBoth.2⟩)).2
    · have hWindow := hOpen _ hNext.1 hHere
      rw [if_neg (not_le_of_gt hWindow)]
      refine searchMoves_attains hOpen rest _ hNext.1 hRest ?_
      rcases hSome with ⟨d, hMem, hAttain⟩
      rcases List.mem_cons.mp hMem with rfl | hTail
      · by_cases hBefore : G st
        · exact absurd (hNext.2 hBefore) hHere
        · exact absurd (hAttain st hStart hBefore) hHere
      · exact ⟨d, hTail, hAttain⟩

end Loop

------------------------------------------------------------
-- Ends of the Window
------------------------------------------------------------

/- The scores in the window of the first call. -/
def InRange (v : Int) : Prop :=
  -9999 ≤ v ∧ v ≤ 9999

/- The end of that window at which a side starts. -/
def Side.worst : Side → Int
| .playerId => -9999
| .enemyId => 9999

structure Window.Within (w : Window) : Prop where
  alpha : InRange w.alpha
  beta : InRange w.beta

theorem within_start : Window.Within ⟨-9999, 9999⟩ := by
  constructor <;> exact ⟨by decide, by decide⟩

theorem ne_worst_of_range
    {v : Int} (p : Side)
    (hRange : -9999 < v ∧ v < 9999) :
    v ≠ p.worst := by
  cases p <;> simp only [Side.worst] <;> omega

section Windows

variable {p : Side} {w : Window} {v : Int}

theorem Window.Within.narrow
    (hWithin : w.Within) (hRange : InRange v)
    (player : Side) :
    (narrow player v w).Within := by
  rcases hWithin with ⟨hAlpha, hBeta⟩
  unfold InRange at *
  cases player with
  | playerId =>
      constructor <;> unfold InRange <;>
        simp only [UltimateTicTacToe.narrow] <;> omega
  | enemyId =>
      constructor <;> unfold InRange <;>
        simp only [UltimateTicTacToe.narrow] <;> omega

/- A window is open while only one end is the worst. -/
theorem Window.Within.isOpen
    (hWithin : w.Within)
    (hOwn : w.score p = p.worst)
    (hOther : w.score p.other ≠ p.worst) :
    w.alpha < w.beta := by
  rcases hWithin with ⟨hAlpha, hBeta⟩
  unfold InRange at *
  cases p <;>
    simp only [Window.score, Side.worst, Side.other] at * <;>
    omega

theorem narrow_score_other (p : Side) :
    (narrow p v w).score p.other = w.score p.other := by
  cases p <;> rfl

theorem narrow_score_own (p : Side) :
    (narrow p.other v w).score p = w.score p := by
  cases p <;> rfl

/- A side improves its end by a score that is not the worst. -/
theorem narrow_score_ne
    (hWithin : w.Within) (hRange : InRange v)
    (hBetter : v ≠ p.worst ∨ w.score p ≠ p.worst) :
    (narrow p v w).score p ≠ p.worst := by
  rcases hWithin with ⟨hAlpha, hBeta⟩
  unfold InRange at *
  cases p <;>
    simp only [narrow, Window.score, Side.worst] at * <;>
    omega

theorem narrow_score_worst
    (hOwn : w.score p = p.worst) :
    (narrow p p.worst w).score p = p.worst := by
  cases p <;>
    simp only [narrow, Window.score, Side.worst] at * <;>
    omega

/- The other side needs a score that is the worst. -/
theorem narrow_reply_ne
    (hScore : v ≠ p.worst)
    (hOther : w.score p.other ≠ p.worst) :
    (narrow p.other v w).score p.other ≠ p.worst := by
  cases p <;>
    simp only [narrow, Window.score, Side.worst,
      Side.other] at * <;>
    omega

theorem narrow_reply_worst
    (hWithin : w.Within) (hRange : InRange v)
    (hWorst : v = p.worst ∨ w.score p.other = p.worst) :
    (narrow p.other v w).score p.other = p.worst := by
  rcases hWithin with ⟨hAlpha, hBeta⟩
  unfold InRange at *
  cases p <;>
    simp only [narrow, Window.score, Side.worst,
      Side.other] at * <;>
    omega

end Windows

------------------------------------------------------------
-- Range of the Returned Scores
------------------------------------------------------------

theorem inRange_of_lt
    {v : Int} (hRange : -9999 < v ∧ v < 9999) : InRange v :=
  ⟨le_of_lt hRange.1, le_of_lt hRange.2⟩

/- A node that is searched returns the end of its window. -/
theorem minimax_score_of_searched
    {depth : Nat} {p : Side} {w : Window} {s : Game}
    (hNone :
      terminalScore (setMicroWins s) (depth + 1) = none) :
    (minimax (depth + 1) p w.alpha w.beta s).2.score =
      (searchMoves (minimax depth p.other) p
        (getAvailableMoves (setMicroWins s))
        ⟨setMicroWins s, w.alpha, w.beta, none⟩).window.score
          p :=
  (minimax_of_searched hNone).2

/- A node that is not searched has a score inside. -/
theorem minimax_score_of_over
    {depth : Nat} {p : Side} {w : Window} {s : Game}
    (hDepth : depth ≤ 81)
    (hOver :
      depth = 0 ∨
        (terminalScore (setMicroWins s) depth).isSome) :
    -9999 < (minimax depth p w.alpha w.beta s).2.score ∧
      (minimax depth p w.alpha w.beta s).2.score < 9999 := by
  cases hScore : terminalScore (setMicroWins s) depth with
  | some score =>
      rw [minimax_of_terminal hScore]
      exact terminalScore_range hDepth hScore
  | none =>
      rw [hScore] at hOver
      rcases hOver with rfl | hOver
      · rw [minimax_zero, hScore]
        exact leafScore_range _ _
      · cases hOver

theorem minimax_inRange :
    ∀ {depth : Nat} {p : Side} {w : Window} {s : Game},
      depth ≤ 81 →
      w.Within →
        InRange (minimax depth p w.alpha w.beta s).2.score
| 0, p, w, s, hDepth, _ =>
    inRange_of_lt
      (minimax_score_of_over hDepth (Or.inl rfl))
| depth + 1, p, w, s, hDepth, hWithin => by
    cases hScore :
        terminalScore (setMicroWins s) (depth + 1) with
    | some score =>
        exact inRange_of_lt
          (minimax_score_of_over hDepth
            (Or.inr (by rw [hScore]; rfl)))
    | none =>
        rw [minimax_score_of_searched hScore]
        have hWindow :=
          @searchMoves_invariant (minimax depth p.other) p
            (fun st => st.window.Within)
            (getAvailableMoves (setMicroWins s))
            ⟨setMicroWins s, w.alpha, w.beta, none⟩ hWithin
            (fun c _ st hSt => by
              rw [searchMove_window]
              exact hSt.narrow
                (minimax_inRange (by omega) hSt) p)
        cases p
        · exact hWindow.alpha
        · exact hWindow.beta

------------------------------------------------------------
-- Nodes of the Search
------------------------------------------------------------

/-
  The boards with which a node is searched, and those of the
  same node in the game: fewer squares may be active, but all
  those of the rule are.
-/
structure Follows (t : Square) (s n : Game) : Prop where
  fewer : Fewer (setMicroWins s) n
  kept :
    ∀ q, n.mMacroboard q = -1 → ByRule t n q →
      (setMicroWins s).mMacroboard q = -1
  settled : Settled n
  lively : Lively (setMicroWins s)
  lively' : Lively n

theorem Follows.terminalScore
    {t : Square} {s n : Game}
    (hFollows : Follows t s n) (depth : Nat) :
    terminalScore (setMicroWins s) depth =
      terminalScore n depth :=
  terminalScore_congr hFollows.fewer.same hFollows.settled
    hFollows.lively hFollows.lively' depth

/- The moves by the rule are available in the search. -/
theorem Follows.mem_moves
    {t : Square} {s n : Game} {c : Cell}
    (hFollows : Follows t s n)
    (hMem : c ∈ getAvailableMoves n)
    (hRule : ByRule t n (squareOf c)) :
    c ∈ getAvailableMoves (setMicroWins s) := by
  have hLegal := (mem_getAvailableMoves _ _).mp hMem
  exact hFollows.fewer.mem_moves_of_active hMem
    (hFollows.kept _ hLegal.2 hRule)

/- A move on boards that the search has left. -/
theorem Follows.enterMove
    {t : Square} {s n cur : Game}
    (hFollows : Follows t s n)
    (hFewer : Fewer cur (setMicroWins s))
    (c : Cell) (p : Side) :
    Follows (targetOf c) (enterMove cur c p)
      (play n c p.id) := by
  have hCur := hFewer.trans hFollows.fewer
  have hSettled := hCur.same.settled hFollows.settled
  have hPlay := hCur.play hFollows.settled c p
  have hOpen := hPlay.same.unfinished_iff
  constructor
  · rw [setMicroWins_enterMove]
    exact hPlay
  · rw [setMicroWins_enterMove]
    intro q hActive hRule
    by_cases hTarget :
        isUnfinished
          ((play n c p.id).mMacroboard (targetOf c))
    · rw [hRule hTarget]
      exact target_active hSettled ((hOpen _).mpr hTarget)
    · exact all_active hSettled
        (fun hTarget' => hTarget ((hOpen _).mp hTarget'))
        ((hOpen q).mpr (Or.inr hActive))
  · exact hFollows.settled.play c p
  · rw [setMicroWins_enterMove]
    exact lively_play hSettled c p
  · exact lively_play hFollows.settled c p

/- After a move the boards have still fewer active squares. -/
theorem fewer_searchMove
    {depth : Nat} {p : Side} {t : Square} {s n : Game}
    {c : Cell} {st : SearchState}
    (hFollows : Follows t s n)
    (hMem : c ∈ getAvailableMoves (setMicroWins s))
    (hFewer : Fewer st.game (setMicroWins s)) :
    Fewer (searchMove (minimax depth p.other) p c st).game
      (setMicroWins s) := by
  have hSettled :=
    hFollows.fewer.same.settled hFollows.settled
  have hReply :=
    minimax_fewer depth p.other st.alpha st.beta
      (enterMove st.game c p)
      (by
        rw [setMicroWins_enterMove]
        exact (hFewer.same.settled hSettled).play c p)
  rw [setMicroWins_enterMove] at hReply
  exact hFewer.undo hSettled
    ((mem_getAvailableMoves _ _).mp hMem) hReply

/- The variables of the loop over the moves of a node. -/
structure Searched (s : Game) (st : SearchState) : Prop where
  fewer : Fewer st.game (setMicroWins s)
  within : st.window.Within

theorem Searched.start
    {s : Game} {w : Window}
    (hWithin : w.Within) :
    Searched s ⟨setMicroWins s, w.alpha, w.beta, none⟩ :=
  ⟨Fewer.refl _, hWithin⟩

theorem Searched.searchMove
    {depth : Nat} {p : Side} {t : Square} {s n : Game}
    {c : Cell} {st : SearchState}
    (hSearched : Searched s st)
    (hDepth : depth ≤ 81)
    (hFollows : Follows t s n)
    (hMem : c ∈ getAvailableMoves (setMicroWins s)) :
    Searched s (searchMove (minimax depth p.other) p c st) where
  fewer := fewer_searchMove hFollows hMem hSearched.fewer
  within := by
    rw [searchMove_window]
    exact hSearched.within.narrow
      (minimax_inRange hDepth hSearched.within) p

------------------------------------------------------------
-- Scores That Are Not the Worst
------------------------------------------------------------

section Nodes

variable {depth : Nat} {p : Side} {w : Window}
variable {t : Square} {s n : Game}

/-
  A side finds a move whose scores are not the worst, whatever
  it has tried before.
-/
theorem score_ne_worst_of_move
    {c : Cell}
    (hDepth : depth ≤ 81)
    (hFollows : Follows t s n)
    (hNone :
      terminalScore (setMicroWins s) (depth + 1) = none)
    (hMem : c ∈ getAvailableMoves (setMicroWins s))
    (hScore :
      ∀ (cur : Game) (w' : Window),
        Fewer cur (setMicroWins s) →
        w'.Within →
        w'.score p.other ≠ p.worst →
          (minimax depth p.other w'.alpha w'.beta
            (enterMove cur c p)).2.score ≠ p.worst)
    (hWithin : w.Within)
    (hOther : w.score p.other ≠ p.worst) :
    (minimax (depth + 1) p w.alpha w.beta s).2.score ≠
      p.worst := by
  rw [minimax_score_of_searched hNone]
  refine searchMoves_attains
    (K := fun st =>
      Searched s st ∧ st.window.score p.other ≠ p.worst)
    (G := fun st => st.window.score p ≠ p.worst)
    ?_ _ _ ⟨Searched.start hWithin, hOther⟩ ?_ ⟨c, hMem, ?_⟩
  · rintro st ⟨hSearched, hOpen⟩ hOwn
    exact hSearched.within.isOpen (not_not.mp hOwn) hOpen
  · rintro d hD st ⟨hSearched, hOpen⟩
    refine ⟨⟨hSearched.searchMove hDepth hFollows hD, ?_⟩, ?_⟩
    · rw [searchMove_window, narrow_score_other]
      exact hOpen
    · intro hOwn
      rw [searchMove_window]
      exact narrow_score_ne hSearched.within
        (minimax_inRange hDepth hSearched.within)
        (Or.inr hOwn)
  · rintro st ⟨hSearched, hOpen⟩ _
    rw [searchMove_window]
    exact narrow_score_ne hSearched.within
      (minimax_inRange hDepth hSearched.within)
      (Or.inl
        (hScore st.game st.window hSearched.fewer
          hSearched.within hOpen))

/- If no reply has the worst score, neither has the node. -/
theorem score_ne_worst_of_replies
    (hDepth : depth ≤ 81)
    (hFollows : Follows t s n)
    (hNone :
      terminalScore (setMicroWins s) (depth + 1) = none)
    (hScore :
      ∀ c ∈ getAvailableMoves (setMicroWins s),
        ∀ (cur : Game) (w' : Window),
          Fewer cur (setMicroWins s) →
          w'.Within →
          w'.score p.other ≠ p.worst →
            (minimax depth p.other.other w'.alpha w'.beta
              (enterMove cur c p.other)).2.score ≠ p.worst)
    (hWithin : w.Within)
    (hOther : w.score p.other ≠ p.worst) :
    (minimax (depth + 1) p.other w.alpha w.beta s).2.score ≠
      p.worst := by
  rw [minimax_score_of_searched hNone]
  refine (searchMoves_invariant
    (K := fun st =>
      Searched s st ∧ st.window.score p.other ≠ p.worst)
    _ _ ⟨Searched.start hWithin, hOther⟩ ?_).2
  rintro c hMem st ⟨hSearched, hOpen⟩
  refine ⟨hSearched.searchMove hDepth hFollows hMem, ?_⟩
  rw [searchMove_window]
  exact narrow_reply_ne
    (hScore c hMem st.game st.window hSearched.fewer
      hSearched.within hOpen)
    hOpen

end Nodes

/-
  Where `p` is not caught the score is not the worst for `p`,
  although the search may have lost active squares.
-/
theorem score_ne_worst
    {p : Side} :
    ∀ {depth : Nat} {player : Side} {w : Window}
      {t : Square} {s n : Game},
      depth ≤ 81 →
      Follows t s n →
      ¬ Caught p p depth player t n →
      w.Within →
      w.score p.other ≠ p.worst →
        (minimax depth player w.alpha w.beta s).2.score ≠
          p.worst
| 0, _, _, _, _, _, hDepth, _, _, _, _ =>
    ne_worst_of_range p
      (minimax_score_of_over hDepth (Or.inl rfl))
| depth + 1, player, w, t, s, n, hDepth, hFollows, hFree,
    hWithin, hOther => by
    cases hScore :
        terminalScore (setMicroWins s) (depth + 1) with
    | some score =>
        exact ne_worst_of_range p
          (minimax_score_of_over hDepth
            (Or.inr (by rw [hScore]; rfl)))
    | none =>
        have hNone : terminalScore n (depth + 1) = none := by
          rwa [← hFollows.terminalScore]
        rcases p.eq_or_eq_other player with rfl | rfl
        · rcases exists_move_of_not_caught hNone hFree with
            ⟨c, hMem, hRule, hBelow⟩
          refine score_ne_worst_of_move (by omega) hFollows
            hScore (hFollows.mem_moves hMem hRule) ?_ hWithin
            hOther
          intro cur w' hFewer
          exact score_ne_worst (by omega)
            (hFollows.enterMove hFewer c player) hBelow
        · have hReplies := not_caught_of_reply hNone hFree
          refine score_ne_worst_of_replies (by omega) hFollows
            hScore ?_ hWithin hOther
          intro c hMem cur w' hFewer
          exact score_ne_worst (by omega)
            (hFollows.enterMove hFewer c p.other)
            (hReplies c (hFollows.fewer.mem_moves hMem))

------------------------------------------------------------
-- Scores That Are the Worst
------------------------------------------------------------

section Nodes

variable {depth : Nat} {p : Side} {w : Window}
variable {t : Square} {s n : Game}

/- If every move has the worst score, so has the node. -/
theorem score_eq_worst_of_moves
    (hDepth : depth ≤ 81)
    (hFollows : Follows t s n)
    (hNone :
      terminalScore (setMicroWins s) (depth + 1) = none)
    (hScore :
      ∀ c ∈ getAvailableMoves (setMicroWins s),
        ∀ (cur : Game) (w' : Window),
          Fewer cur (setMicroWins s) →
          w'.Within →
          w'.score p = p.worst →
          w'.score p.other ≠ p.worst →
            (minimax depth p.other w'.alpha w'.beta
              (enterMove cur c p)).2.score = p.worst)
    (hWithin : w.Within)
    (hOwn : w.score p = p.worst)
    (hOther : w.score p.other ≠ p.worst) :
    (minimax (depth + 1) p w.alpha w.beta s).2.score =
      p.worst := by
  rw [minimax_score_of_searched hNone]
  refine (searchMoves_invariant
    (K := fun st =>
      Searched s st ∧ st.window.score p = p.worst ∧
        st.window.score p.other ≠ p.worst)
    _ _ ⟨Searched.start hWithin, hOwn, hOther⟩ ?_).2.1
  rintro c hMem st ⟨hSearched, hWorst, hOpen⟩
  refine ⟨hSearched.searchMove hDepth hFollows hMem, ?_, ?_⟩
  · rw [searchMove_window,
      hScore c hMem st.game st.window hSearched.fewer
        hSearched.within hWorst hOpen]
    exact narrow_score_worst hWorst
  · rw [searchMove_window, narrow_score_other]
    exact hOpen

/-
  The other side finds a reply with the worst score for `p`,
  and nothing is better for it.
-/
theorem score_eq_worst_of_reply
    {c : Cell}
    (hDepth : depth ≤ 81)
    (hFollows : Follows t s n)
    (hNone :
      terminalScore (setMicroWins s) (depth + 1) = none)
    (hMem : c ∈ getAvailableMoves (setMicroWins s))
    (hScore :
      ∀ (cur : Game) (w' : Window),
        Fewer cur (setMicroWins s) →
        w'.Within →
        w'.score p = p.worst →
        w'.score p.other ≠ p.worst →
          (minimax depth p.other.other w'.alpha w'.beta
            (enterMove cur c p.other)).2.score = p.worst)
    (hWithin : w.Within)
    (hOwn : w.score p = p.worst) :
    (minimax (depth + 1) p.other w.alpha w.beta s).2.score =
      p.worst := by
  rw [minimax_score_of_searched hNone]
  refine searchMoves_attains
    (K := fun st =>
      Searched s st ∧ st.window.score p = p.worst)
    (G := fun st => st.window.score p.other = p.worst)
    ?_ _ _ ⟨Searched.start hWithin, hOwn⟩ ?_ ⟨c, hMem, ?_⟩
  · rintro st ⟨hSearched, hWorst⟩ hOpen
    exact hSearched.within.isOpen hWorst hOpen
  · rintro d hD st ⟨hSearched, hWorst⟩
    refine ⟨⟨hSearched.searchMove hDepth hFollows hD, ?_⟩, ?_⟩
    · rw [searchMove_window, narrow_score_own]
      exact hWorst
    · intro hClosed
      rw [searchMove_window]
      exact narrow_reply_worst hSearched.within
        (minimax_inRange hDepth hSearched.within)
        (Or.inr hClosed)
  · rintro st ⟨hSearched, hWorst⟩ hOpen
    rw [searchMove_window]
    exact narrow_reply_worst hSearched.within
      (minimax_inRange hDepth hSearched.within)
      (Or.inl
        (hScore st.game st.window hSearched.fewer
          hSearched.within hWorst hOpen))

end Nodes

/- Where `p` is caught the score is the worst for `p`. -/
theorem score_eq_worst
    {p : Side} :
    ∀ {depth : Nat} {player : Side} {w : Window}
      {t : Square} {s n : Game},
      depth ≤ 81 →
      Follows t s n →
      Caught p p.other depth player t n →
      w.Within →
      w.score p = p.worst →
      w.score p.other ≠ p.worst →
        (minimax depth player w.alpha w.beta s).2.score =
          p.worst
| 0, _, _, _, _, _, _, _, hCaught, _, _, _ =>
    absurd hCaught id
| depth + 1, player, w, t, s, n, hDepth, hFollows, hCaught,
    hWithin, hOwn, hOther => by
    have hNone :
        terminalScore (setMicroWins s) (depth + 1) = none := by
      rw [hFollows.terminalScore]
      exact terminalScore_of_caught hCaught
    rcases p.eq_or_eq_other player with rfl | rfl
    · have hMoves := caught_of_move hCaught
      refine score_eq_worst_of_moves (by omega) hFollows hNone
        ?_ hWithin hOwn hOther
      intro c hMem cur w' hFewer
      exact score_eq_worst (by omega)
        (hFollows.enterMove hFewer c player)
        (hMoves c (hFollows.fewer.mem_moves hMem))
    · rcases exists_reply_of_caught hCaught with
        ⟨c, hMem, hRule, hBelow⟩
      refine score_eq_worst_of_reply (by omega) hFollows hNone
        (hFollows.mem_moves hMem hRule) ?_ hWithin hOwn
      intro cur w' hFewer
      exact score_eq_worst (by omega)
        (hFollows.enterMove hFewer c p.other) hBelow

------------------------------------------------------------
-- The Best Move
------------------------------------------------------------

/-
  The best move is one of the moves, and it is chosen when the
  side has improved its end of the window.
-/
structure Chosen
    (p : Side) (moves : List Cell) (st : SearchState) :
    Prop where
  within : st.window.Within
  mem : ∀ c ∈ st.bestMove, c ∈ moves
  none_iff :
    st.bestMove = none ↔ st.window.score p = p.worst

/- A score is not recorded, or it improves the end. -/
theorem recordScore_cases
    {p : Side} {st : SearchState}
    (hWithin : st.window.Within)
    (c : Cell) (score : Int) :
    recordScore p c score st = st ∨
      ((recordScore p c score st).bestMove = some c ∧
        (recordScore p c score st).window.score p ≠
          p.worst) := by
  rcases hWithin with ⟨hAlpha, hBeta⟩
  unfold InRange at *
  cases p with
  | playerId =>
      simp only [recordScore]
      split_ifs with hHigher
      · refine Or.inr ⟨rfl, ?_⟩
        simp only [SearchState.window, Window.score,
          Side.worst] at *
        omega
      · exact Or.inl rfl
  | enemyId =>
      simp only [recordScore]
      split_ifs with hLower
      · refine Or.inr ⟨rfl, ?_⟩
        simp only [SearchState.window, Window.score,
          Side.worst] at *
        omega
      · exact Or.inl rfl

theorem Chosen.searchMove
    {recur : Int → Int → Game → Game × Move}
    {p : Side} {moves : List Cell} {c : Cell}
    {st : SearchState}
    (hChosen : Chosen p moves st)
    (hMem : c ∈ moves)
    (hRange :
      InRange
        (recur st.window.alpha st.window.beta
          (enterMove st.game c p)).2.score) :
    Chosen p moves (searchMove recur p c st) := by
  have hWithin :
      (UltimateTicTacToe.searchMove recur p c
        st).window.Within := by
    rw [searchMove_window]
    exact hChosen.within.narrow hRange p
  have hBest :
      (UltimateTicTacToe.searchMove recur p c st).bestMove =
        (recordScore p c
          (recur st.alpha st.beta
            (enterMove st.game c p)).2.score st).bestMove :=
    rfl
  have hWindow :
      (UltimateTicTacToe.searchMove recur p c st).window =
        (recordScore p c
          (recur st.alpha st.beta
            (enterMove st.game c p)).2.score st).window :=
    rfl
  rcases recordScore_cases hChosen.within c
      (recur st.alpha st.beta
        (enterMove st.game c p)).2.score with
    hSame | ⟨hCell, hBetter⟩
  · refine ⟨hWithin, ?_, ?_⟩
    · rw [hBest, hSame]
      exact hChosen.mem
    · rw [hBest, hWindow, hSame]
      exact hChosen.none_iff
  · refine ⟨hWithin, ?_, ?_⟩
    · rw [hBest, hCell]
      intro d hD
      rwa [← Option.some.inj hD]
    · rw [hBest, hWindow, hCell]
      exact iff_of_false (Option.some_ne_none c) hBetter

/- The move that a search returns. -/
theorem minimax_cell
    {depth : Nat} {p : Side} {s : Game}
    (hDepth : depth ≤ 81)
    (hNone :
      terminalScore (setMicroWins s) (depth + 1) = none) :
    (∀ c ∈ (minimax (depth + 1) p (-9999) 9999 s).2.cell,
      c ∈ getAvailableMoves (setMicroWins s)) ∧
    ((minimax (depth + 1) p (-9999) 9999 s).2.cell = none ↔
      (minimax (depth + 1) p (-9999) 9999 s).2.score =
        p.worst) := by
  have hStart :
      Chosen p (getAvailableMoves (setMicroWins s))
        ⟨setMicroWins s, -9999, 9999, none⟩ := by
    refine ⟨within_start, ?_, ?_⟩
    · intro c hC
      cases hC
    · cases p <;> exact iff_of_true rfl rfl
  have hChosen :=
    @searchMoves_invariant (minimax depth p.other) p _ _ _
      hStart
      (fun c hMem st hSt =>
        hSt.searchMove hMem
          (minimax_inRange hDepth hSt.within))
  have hScore :=
    minimax_score_of_searched (p := p) (w := ⟨-9999, 9999⟩)
      hNone
  have hCell :
      (minimax (depth + 1) p (-9999) 9999 s).2.cell =
        (searchMoves (minimax depth p.other) p
          (getAvailableMoves (setMicroWins s))
          ⟨setMicroWins s, -9999, 9999, none⟩).bestMove := by
    rw [minimax_succ, hNone]
    rfl
  dsimp only at hScore
  rw [hCell, hScore]
  exact ⟨hChosen.mem, hChosen.none_iff⟩

/-
  The search returns the coordinates of a free cell in a
  square that is active at entry.
-/
def LegalMove (depth : Nat) (p : Side) (s : Game) : Prop :=
  ∃ c,
    (minimax depth p (-9999) 9999 s).2.cell = some c ∧
      isLegal s c

/- It does so when its score is not the worst. -/
theorem legalMove_iff
    {depth : Nat} {p : Side} {s : Game}
    (hSame : setMicroWins s = s)
    (hDepth : depth ≤ 81)
    (hNone : terminalScore s (depth + 1) = none) :
    LegalMove (depth + 1) p s ↔
      (minimax (depth + 1) p (-9999) 9999 s).2.score ≠
        p.worst := by
  rcases minimax_cell (p := p) hDepth
      (by rwa [hSame]) with ⟨hMem, hIff⟩
  rw [hSame] at hMem
  rw [ne_eq, ← hIff]
  constructor
  · rintro ⟨c, hCell, _⟩
    rw [hCell]
    exact Option.some_ne_none c
  · intro hSome
    rcases Option.ne_none_iff_exists'.mp hSome with ⟨c, hCell⟩
    exact ⟨c, hCell,
      (mem_getAvailableMoves _ _).mp (hMem c hCell)⟩

/- The first call is a node of the game itself. -/
theorem Follows.start
    {s : Game} (t : Square)
    (hSettled : Settled s)
    (hSame : setMicroWins s = s)
    (hMoves : getAvailableMoves s ≠ []) :
    Follows t s s := by
  have hLively : Lively s :=
    fun _ => List.length_pos_of_ne_nil hMoves
  constructor
  · rw [hSame]
    exact Fewer.refl s
  · rw [hSame]
    exact fun _ hActive _ => hActive
  · exact hSettled
  · rwa [hSame]
  · exact hLively

theorem start_score (p : Side) :
    Window.score p ⟨-9999, 9999⟩ = p.worst := by
  cases p <;> rfl

theorem start_score_other (p : Side) :
    Window.score p.other ⟨-9999, 9999⟩ ≠ p.worst := by
  cases p <;> decide

section Root

variable {t : Square} {s : Game} {depth : Nat} {p : Side}

/- A side that escapes finds a move. -/
theorem score_ne_worst_of_escapes
    (hFollows : Follows t s s)
    (hSame : setMicroWins s = s)
    (hNone : terminalScore s (depth + 1) = none)
    (hDepth : depth + 1 ≤ 81)
    (hEscapes : Escapes (depth + 1) p s) :
    (minimax (depth + 1) p (-9999) 9999 s).2.score ≠
      p.worst := by
  rcases hEscapes with ⟨c, hMem, hFree⟩
  refine score_ne_worst_of_move (c := c)
    (w := ⟨-9999, 9999⟩) (by omega) hFollows
    (by rwa [hSame]) (by rwa [hSame]) ?_ within_start
    (start_score_other p)
  intro cur w' hFewer
  exact score_ne_worst (by omega)
    (hFollows.enterMove hFewer c p) hFree

/- A side that is captured does not. -/
theorem score_eq_worst_of_captured
    (hFollows : Follows t s s)
    (hSame : setMicroWins s = s)
    (hNone : terminalScore s (depth + 1) = none)
    (hDepth : depth + 1 ≤ 81)
    (hCaptured : Captured (depth + 1) p s) :
    (minimax (depth + 1) p (-9999) 9999 s).2.score =
      p.worst := by
  refine score_eq_worst_of_moves (w := ⟨-9999, 9999⟩)
    (by omega) hFollows (by rwa [hSame]) ?_ within_start
    (start_score p) (start_score_other p)
  intro c hMem cur w' hFewer
  rw [hSame] at hMem
  exact score_eq_worst (by omega)
    (hFollows.enterMove hFewer c p) (hCaptured c hMem)

end Root

/-
  The search returns a legal move if its side escapes, and
  none if it is captured.  If below the first move only the
  squares of the rule are active, there is no third case.
-/
theorem legalMove_of_escapes
    {s : Game} {q : Square} {depth : Nat} {p : Side}
    (hCoherent : Coherent s)
    (hBounds : Bounds s q)
    (hNone : terminalScore s depth = none)
    (hMoves : getAvailableMoves s ≠ [])
    (hFirst : 1 ≤ depth)
    (hDepth : depth ≤ 81) :
    (Escapes depth p s → LegalMove depth p s) ∧
      (Captured depth p s → ¬ LegalMove depth p s) ∧
      ((∀ c ∈ getAvailableMoves s,
          OnlyByRule (depth - 1) p.other (targetOf c)
            (play s c p.id)) →
        (LegalMove depth p s ↔ Escapes depth p s)) := by
  have hSettled := hCoherent.settled
  have hSame := setMicroWins_settled hSettled hBounds
  have hFollows := Follows.start q hSettled hSame hMoves
  rcases Nat.exists_eq_add_of_le' hFirst with ⟨depth, rfl⟩
  have hLegal :=
    legalMove_iff (p := p) hSame (by omega) hNone
  have hEscapes :
      Escapes (depth + 1) p s → LegalMove (depth + 1) p s := by
    intro hEscapes
    rw [hLegal]
    exact score_ne_worst_of_escapes hFollows hSame hNone
      hDepth hEscapes
  have hCaptured :
      Captured (depth + 1) p s →
        ¬ LegalMove (depth + 1) p s := by
    intro hCaptured
    rw [hLegal, not_not]
    exact score_eq_worst_of_captured hFollows hSame hNone
      hDepth hCaptured
  refine ⟨hEscapes, hCaptured, fun hOnly => ⟨?_, hEscapes⟩⟩
  intro hFound
  rw [escapes_iff_not_captured hOnly]
  exact fun hAll => hCaptured hAll hFound

/-
  Two free cells, in the central square; whoever plays them,
  the square is drawn, and with it the main diagonal.
-/
def lastTwoGame : Game where
  mBoard c :=
    ([ [1, 2, 1, 1, 1, 1, 2, 2, 2],
       [1, 2, 2, 0, 0, 0, 0, 0, 0],
       [2, 1, 1, 0, 0, 0, 0, 0, 0],
       [2, 2, 2, 0, 0, 1, 1, 1, 1],
       [0, 0, 0, 1, 2, 2, 0, 0, 0],
       [0, 0, 0, 2, 1, 1, 0, 0, 0],
       [1, 1, 1, 2, 2, 2, 1, 2, 1],
       [0, 0, 0, 0, 0, 0, 1, 2, 2],
       [0, 0, 0, 0, 0, 0, 2, 1, 1] ].getD c.1 []).getD c.2 0
  mMacroboard q :=
    ([ [-2, 1, 2],
       [2, -1, 1],
       [1, 2, -2] ].getD q.1 []).getD q.2 0
  lx := 3
  hx := 6
  ly := 3
  hy := 6

theorem coherent_lastTwoGame : Coherent lastTwoGame := by
  refine Settled.coherent ⟨?_, ?_⟩ ?_
  · decide +kernel
  · decide +kernel
  · unfold OneLine
    decide +kernel

/- A search of depth 2 does not see that the board is full. -/
theorem legalMove_of_escapes_lastTwo :
    LegalMove 2 .playerId lastTwoGame ∧
      ¬ LegalMove 3 .playerId lastTwoGame := by
  have hBounds : Bounds lastTwoGame (1, 1) :=
    ⟨rfl, rfl, rfl, rfl⟩
  exact ⟨(legalMove_of_escapes coherent_lastTwoGame hBounds
      (by decide +kernel) (by decide +kernel)
      (by decide) (by decide)).1 (by decide +kernel),
    (legalMove_of_escapes coherent_lastTwoGame hBounds
      (by decide +kernel) (by decide +kernel)
      (by decide) (by decide)).2.1 (by decide +kernel)⟩

/- The search does not always return a move. -/
theorem not_legalMove_always :
    ¬ ∀ (s : Game) (q : Square) (depth : Nat) (p : Side),
      Coherent s →
      Bounds s q →
      isUnfinished (s.mMacroboard q) →
      terminalScore s depth = none →
      getAvailableMoves s ≠ [] →
      1 ≤ depth →
      depth ≤ 81 →
        LegalMove depth p s := by
  intro hAlways
  rcases hAlways lastTwoGame (1, 1) 3 .playerId
      coherent_lastTwoGame ⟨rfl, rfl, rfl, rfl⟩ (by decide)
      (by decide +kernel) (by decide +kernel) (by decide)
      (by decide) with ⟨c, hCell, _⟩
  have hNone :
      (minimax 3 .playerId (-9999) 9999 lastTwoGame).2.cell =
        none := by
    decide +kernel
  rw [hNone] at hCell
  cases hCell

end UltimateTicTacToe

end ProgrammingTasks
