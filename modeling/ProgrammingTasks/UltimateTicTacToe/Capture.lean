import ProgrammingTasks.UltimateTicTacToe.Score

/-
  Positions in which a side is on the move without a move.

  When all squares are finished, no side has a line and a
  diagonal is drawn, the check for victory returns the value
  of drawn squares.  The search takes the game for unfinished,
  but it finds no move.  Whether a side can be forced there is
  a game on the legal moves.

  Besides the squares of the rule (the target of the last
  move, or all unfinished ones if that is finished) other
  squares may still be active.  The search may have lost these
  when it tries a move.  The game is therefore stated for a
  side that keeps to the rule.

  Main declarations:
    * `ByRule`, `CanMove`, `Caught`
    * `Escapes`, `Captured`
    * `escapes_iff_not_captured`, `escapes_of_live`,
      `escapes_of_le_two`
    * `Fewer`, `minimax_fewer`
-/

------------------------------------------------------------
-- The Game
------------------------------------------------------------

namespace ProgrammingTasks

namespace UltimateTicTacToe

/-
  After a move that points to `t`, the rule allows to play in
  `q`: it is `t`, or `t` is finished.
-/
def ByRule (t : Square) (s : Game) (q : Square) : Prop :=
  isUnfinished (s.mMacroboard t) → q = t

instance (t : Square) (s : Game) (q : Square) :
    Decidable (ByRule t s q) := by
  unfold ByRule
  infer_instance

/- There is a move with `P`; a weak side keeps to the rule. -/
def CanMove
    (weak : Bool) (t : Square) (s : Game)
    (P : Cell → Prop) : Prop :=
  ∃ c ∈ getAvailableMoves s,
    (weak = true → ByRule t s (squareOf c)) ∧ P c

instance
    (weak : Bool) (t : Square) (s : Game) (P : Cell → Prop)
    [DecidablePred P] :
    Decidable (CanMove weak t s P) := by
  unfold CanMove
  infer_instance

/-
  The other side can force that `p` is on the move without a
  move, in a game that is not over, above the leaves of the
  tree.  The last move points to `t`.
-/
def Caught (p weak : Side) :
    Nat → Side → Square → Game → Prop
| 0, _, _, _ => False
| depth + 1, player, t, s =>
    terminalScore s (depth + 1) = none ∧
      if player = p then
        ¬ CanMove (player = weak) t s
          (fun c =>
            ¬ Caught p weak depth player.other (targetOf c)
              (play s c player.id))
      else
        CanMove (player = weak) t s
          (fun c =>
            Caught p weak depth player.other (targetOf c)
              (play s c player.id))

instance decidableCaught (p weak : Side) :
    ∀ (depth : Nat) (player : Side) (t : Square) (s : Game),
      Decidable (Caught p weak depth player t s)
| 0, _, _, _ => isFalse id
| depth + 1, player, t, s =>
    have := fun c =>
      decidableCaught p weak depth player.other (targetOf c)
        (play s c player.id)
    inferInstanceAs
      (Decidable
        (terminalScore s (depth + 1) = none ∧
          if player = p then
            ¬ CanMove (player = weak) t s
              (fun c =>
                ¬ Caught p weak depth player.other
                  (targetOf c) (play s c player.id))
          else
            CanMove (player = weak) t s
              (fun c =>
                Caught p weak depth player.other
                  (targetOf c) (play s c player.id))))

/-
  `p` has a first move after which it is not caught, even if
  it keeps to the rule from then on.
-/
def Escapes (depth : Nat) (p : Side) (s : Game) : Prop :=
  ∃ c ∈ getAvailableMoves s,
    ¬ Caught p p (depth - 1) p.other (targetOf c)
      (play s c p.id)

instance (depth : Nat) (p : Side) (s : Game) :
    Decidable (Escapes depth p s) := by
  unfold Escapes
  infer_instance

/-
  After every first move `p` is caught, even if the other side
  keeps to the rule.
-/
def Captured (depth : Nat) (p : Side) (s : Game) : Prop :=
  ∀ c ∈ getAvailableMoves s,
    Caught p p.other (depth - 1) p.other (targetOf c)
      (play s c p.id)

instance (depth : Nat) (p : Side) (s : Game) :
    Decidable (Captured depth p s) := by
  unfold Captured
  infer_instance

------------------------------------------------------------
-- Moves of Both Sides
------------------------------------------------------------

theorem Side.other_ne (p : Side) : p.other ≠ p := by
  cases p <;> decide

theorem Side.eq_or_eq_other (p player : Side) :
    player = p ∨ player = p.other := by
  cases p <;> cases player <;> decide

section Nodes

variable {p : Side} {depth : Nat} {t : Square} {s : Game}

/- A weak side that is not caught has a move by the rule. -/
theorem exists_move_of_not_caught
    (hNone : terminalScore s (depth + 1) = none)
    (hFree : ¬ Caught p p (depth + 1) p t s) :
    ∃ c ∈ getAvailableMoves s,
      ByRule t s (squareOf c) ∧
        ¬ Caught p p depth p.other (targetOf c)
          (play s c p.id) := by
  unfold Caught at hFree
  simpa only [hNone, true_and, if_true, not_not, CanMove,
    decide_true, forall_const] using hFree

/- No reply of the other side catches it. -/
theorem not_caught_of_reply
    (hNone : terminalScore s (depth + 1) = none)
    (hFree : ¬ Caught p p (depth + 1) p.other t s) :
    ∀ c ∈ getAvailableMoves s,
      ¬ Caught p p depth p.other.other (targetOf c)
        (play s c p.other.id) := by
  have hWeak : decide (p.other = p) = false :=
    decide_eq_false p.other_ne
  unfold Caught at hFree
  simpa only [hNone, true_and, if_neg p.other_ne, CanMove,
    hWeak, Bool.false_eq_true, false_implies, not_exists,
    not_and] using hFree

/- Every move of a side that is caught is to no avail. -/
theorem caught_of_move
    (hCaught : Caught p p.other (depth + 1) p t s) :
    ∀ c ∈ getAvailableMoves s,
      Caught p p.other depth p.other (targetOf c)
        (play s c p.id) := by
  have hWeak : decide (p = p.other) = false :=
    decide_eq_false p.other_ne.symm
  unfold Caught at hCaught
  simpa only [if_true, CanMove, hWeak, Bool.false_eq_true,
    false_implies, true_and, not_exists, not_and,
    not_not] using hCaught.2

/- The other side, then weak, has a reply by the rule. -/
theorem exists_reply_of_caught
    (hCaught : Caught p p.other (depth + 1) p.other t s) :
    ∃ c ∈ getAvailableMoves s,
      ByRule t s (squareOf c) ∧
        Caught p p.other depth p.other.other (targetOf c)
          (play s c p.other.id) := by
  unfold Caught at hCaught
  simpa only [if_neg p.other_ne, CanMove, decide_true,
    forall_const] using hCaught.2

theorem terminalScore_of_caught
    {weak player : Side}
    (hCaught : Caught p weak (depth + 1) player t s) :
    terminalScore s (depth + 1) = none := by
  unfold Caught at hCaught
  exact hCaught.1

end Nodes

------------------------------------------------------------
-- No Other Active Squares
------------------------------------------------------------

/- Above the leaves only squares of the rule are active. -/
def OnlyByRule : Nat → Side → Square → Game → Prop
| 0, _, _, _ => True
| depth + 1, player, t, s =>
    (terminalScore s (depth + 1)).isSome ∨
      ((∀ q, s.mMacroboard q = -1 → ByRule t s q) ∧
        ∀ c ∈ getAvailableMoves s,
          OnlyByRule depth player.other (targetOf c)
            (play s c player.id))

/- Then every move is by the rule. -/
theorem canMove_of_byRule
    {t : Square} {s : Game} {P : Cell → Prop}
    (hRule : ∀ q, s.mMacroboard q = -1 → ByRule t s q)
    (weak : Bool) :
    CanMove weak t s P ↔ ∃ c ∈ getAvailableMoves s, P c := by
  refine exists_congr fun c => and_congr_right fun hMem => ?_
  have hLegal := (mem_getAvailableMoves _ _).mp hMem
  exact and_iff_right fun _ => hRule _ hLegal.2

theorem caught_of_onlyByRule
    {p : Side} (weak weak' : Side) :
    ∀ {depth : Nat} {player : Side} {t : Square} {s : Game},
      OnlyByRule depth player t s →
        (Caught p weak depth player t s ↔
          Caught p weak' depth player t s)
| 0, _, _, _, _ => Iff.rfl
| depth + 1, player, t, s, hOnly => by
    unfold Caught
    refine and_congr_right (fun hNone => ?_)
    rw [OnlyByRule, hNone] at hOnly
    rcases hOnly with hOver | ⟨hRule, hBelow⟩
    · cases hOver
    · have hSame := fun c hMem =>
        caught_of_onlyByRule (p := p) weak weak'
          (hBelow c hMem)
      rw [canMove_of_byRule hRule, canMove_of_byRule hRule,
        canMove_of_byRule hRule, canMove_of_byRule hRule]
      split
      · exact not_congr (exists_congr fun c =>
          and_congr_right fun hMem =>
            not_congr (hSame c hMem))
      · exact exists_congr fun c =>
          and_congr_right fun hMem => hSame c hMem

/- And a side that does not escape is captured. -/
theorem escapes_iff_not_captured
    {depth : Nat} {p : Side} {s : Game}
    (hOnly :
      ∀ c ∈ getAvailableMoves s,
        OnlyByRule (depth - 1) p.other (targetOf c)
          (play s c p.id)) :
    Escapes depth p s ↔ ¬ Captured depth p s := by
  unfold Escapes Captured
  simp only [not_forall, exists_prop]
  exact exists_congr fun c => and_congr_right fun hMem =>
    not_congr
      (caught_of_onlyByRule p p.other (hOnly c hMem))

------------------------------------------------------------
-- Trees without Such Positions
------------------------------------------------------------

/- Where there is a move there is one by the rule. -/
theorem exists_move_byRule
    {t : Square} {s : Game}
    (hSettled : Settled s)
    (hTarget :
      isUnfinished (s.mMacroboard t) → s.mMacroboard t = -1)
    (hSome : getAvailableMoves s ≠ []) :
    ∃ c ∈ getAvailableMoves s, ByRule t s (squareOf c) := by
  by_cases hOpen : isUnfinished (s.mMacroboard t)
  · rcases hSettled.exists_move_of_active (hTarget hOpen) with
      ⟨c, hMem, hSquare⟩
    exact ⟨c, hMem, fun _ => hSquare⟩
  · rcases List.exists_mem_of_ne_nil _ hSome with ⟨c, hMem⟩
    exact ⟨c, hMem, fun hOpen' => absurd hOpen' hOpen⟩

/- Where every node has a move, no side is caught. -/
theorem not_caught_of_live
    {p weak : Side} :
    ∀ {depth : Nat} {player : Side} {t : Square} {s : Game},
      Settled s →
      (isUnfinished (s.mMacroboard t) →
        s.mMacroboard t = -1) →
      Live depth player s →
        ¬ Caught p weak depth player t s
| 0, _, _, _, _, _, _ => id
| depth + 1, player, t, s, hSettled, hTarget, hLive => by
    unfold Caught
    rintro ⟨hNone, hHere⟩
    rw [Live, hNone] at hLive
    rcases hLive with hOver | ⟨hSome, hLive⟩
    · cases hOver
    · have hBelow : ∀ c ∈ getAvailableMoves s,
          ¬ Caught p weak depth player.other (targetOf c)
            (play s c player.id) :=
        fun c hMem =>
          not_caught_of_live (hSettled.play c player)
            (target_active hSettled) (hLive c hMem)
      split at hHere
      · rcases exists_move_byRule hSettled hTarget hSome with
          ⟨c, hMem, hRule⟩
        exact hHere ⟨c, hMem, fun _ => hRule, hBelow c hMem⟩
      · rcases hHere with ⟨c, hMem, _, hCaught⟩
        exact hBelow c hMem hCaught

theorem escapes_of_live
    {depth : Nat} {p : Side} {s : Game}
    (hSettled : Settled s)
    (hSome : getAvailableMoves s ≠ [])
    (hLive :
      ∀ c ∈ getAvailableMoves s,
        Live (depth - 1) p.other (play s c p.id)) :
    Escapes depth p s := by
  rcases List.exists_mem_of_ne_nil _ hSome with ⟨c, hMem⟩
  exact ⟨c, hMem,
    not_caught_of_live (hSettled.play c p)
      (target_active hSettled) (hLive c hMem)⟩

/- Two moves are not enough to catch the side that begins. -/
theorem escapes_of_le_two
    {depth : Nat} {p : Side} {s : Game}
    (hSome : getAvailableMoves s ≠ [])
    (hDepth : depth ≤ 2) :
    Escapes depth p s := by
  rcases List.exists_mem_of_ne_nil _ hSome with ⟨c, hMem⟩
  refine ⟨c, hMem, ?_⟩
  have hRest : depth - 1 = 0 ∨ depth - 1 = 1 := by omega
  rcases hRest with hZero | hOne
  · rw [hZero]
    exact id
  · rw [hOne]
    intro hCaught
    have hNone := terminalScore_of_caught hCaught
    refine absurd hCaught ?_
    unfold Caught
    simp [hNone, p.other_ne, CanMove, Caught]

------------------------------------------------------------
-- Fewer Active Squares
------------------------------------------------------------

/- A square that is active after a move. -/
theorem active_of_play
    {s : Game} {c : Cell} {p : Side} {q : Square}
    (hSettled : Settled s)
    (hActive : (play s c p.id).mMacroboard q = -1)
    (hOther : q ≠ squareOf c) :
    isFinished ((play s c p.id).mMacroboard (targetOf c)) ∨
      q = targetOf c ∨ s.mMacroboard q = -1 := by
  by_cases hOpen :
      isUnfinished ((play s c p.id).mMacroboard (targetOf c))
  · have hRange := hSettled.moveResult_range c p
    rw [play_macroboard s c p.id hSettled.squareValue
      hRange] at hActive hOpen
    right
    unfold playedSquare targetDone squareValue at *
    unfold isUnfinished isFinished at *
    unfold MicroResult at hRange
    generalize squareOf c = b at *
    generalize targetOf c = t at *
    generalize moveResult s c p.id = result at *
    clear hSettled
    grind
  · exact Or.inl
      (((hSettled.play c p).squareValue _).resolve_left hOpen)

/- The same boards, and no other square is active. -/
structure Fewer (s s' : Game) : Prop where
  same : SameButActive s s'
  active :
    ∀ q, s.mMacroboard q = -1 → s'.mMacroboard q = -1

namespace Fewer

variable {s s' s'' : Game}

theorem refl (s : Game) : Fewer s s :=
  ⟨SameButActive.refl s, fun _ => id⟩

theorem trans
    (hFirst : Fewer s s')
    (hThen : Fewer s' s'') :
    Fewer s s'' :=
  ⟨hFirst.same.trans hThen.same,
    fun q hActive => hThen.active q (hFirst.active q hActive)⟩

theorem mem_moves
    (hFewer : Fewer s s')
    {c : Cell}
    (hMem : c ∈ getAvailableMoves s) :
    c ∈ getAvailableMoves s' := by
  rw [mem_getAvailableMoves] at hMem ⊢
  exact ⟨by rw [← hFewer.same.board]; exact hMem.1,
    hFewer.active _ hMem.2⟩

/- The moves in the active squares that are left. -/
theorem mem_moves_of_active
    (hFewer : Fewer s s')
    {c : Cell}
    (hMem : c ∈ getAvailableMoves s')
    (hActive : s.mMacroboard (squareOf c) = -1) :
    c ∈ getAvailableMoves s := by
  rw [mem_getAvailableMoves] at hMem ⊢
  exact ⟨by rw [hFewer.same.board]; exact hMem.1, hActive⟩

/- A move keeps the comparison. -/
theorem play
    (hFewer : Fewer s s')
    (hSettled : Settled s')
    (c : Cell) (p : Side) :
    Fewer (play s c p.id) (play s' c p.id) where
  same := hFewer.same.play hSettled c p
  active := by
    intro q hActive
    have hHere := hFewer.same.settled hSettled
    have hRange := hSettled.moveResult_range c p
    have hRange' := hHere.moveResult_range c p
    have hResult :
        moveResult s c p.id = moveResult s' c p.id := by
      rw [moveResult, moveResult, hFewer.same.board]
    rw [play_macroboard s c p.id hHere.squareValue hRange',
      hResult] at hActive
    rw [play_macroboard s' c p.id hSettled.squareValue hRange]
    have hTarget := hFewer.same.macroboard (targetOf c)
    have hSquare := hFewer.same.macroboard q
    have hLeft := hFewer.active q
    unfold playedSquare targetDone squareValue at *
    unfold isUnfinished isFinished at *
    unfold MicroResult at hRange
    generalize squareOf c = b at *
    generalize targetOf c = t at *
    generalize moveResult s' c p.id = result at *
    clear hFewer hSettled hHere hResult hRange'
    grind

/-
  So does taking a move back: an active target was not active
  before, or is lost, and a finished one clears all squares.
-/
theorem undo
    {r : Game} {c : Cell} {p : Side}
    (hFewer : Fewer s s')
    (hSettled : Settled s')
    (hLegal : isLegal s' c)
    (hReply : Fewer r (UltimateTicTacToe.play s c p.id)) :
    Fewer (unMove r c 0) s' where
  same := by
    have hFree : s.mBoard c = 0 := by
      rw [hFewer.same.board]
      exact hLegal.1
    have hOpen : isUnfinished (s.mMacroboard (squareOf c)) :=
      (hFewer.same.unfinished_iff _).mpr (Or.inr hLegal.2)
    exact (undo_sameButActive (hFewer.same.settled hSettled)
      hFree hOpen hReply.same).trans hFewer.same
  active := by
    intro q hActive
    have hHere := hFewer.same.settled hSettled
    have hTarget := hReply.same.macroboard (targetOf c)
    have hAfter := active_of_play hHere (c := c) (p := p)
      (q := q)
    have hReplyActive := hReply.active q
    have hKept := hFewer.active q
    have hOwn := hLegal.2
    rw [unMove_macroboard] at hActive
    unfold isUnfinished isFinished at *
    grind

end Fewer

/- The search loses active squares, but gains none. -/
theorem minimax_fewer :
    ∀ (depth : Nat) (p : Side) (alpha beta : Int) (s : Game),
      Settled (setMicroWins s) →
      Fewer (minimax depth p alpha beta s).1 (setMicroWins s)
| 0, p, alpha, beta, s, _ => by
    rw [minimax_zero_game]
    exact Fewer.refl _
| depth + 1, p, alpha, beta, s, hSettled => by
    refine minimax_keeps
      (I := fun cur => Fewer cur (setMicroWins s))
      (Fewer.refl _) ?_
    intro c hC cur hFewer alpha' beta'
    have hLegal := (mem_getAvailableMoves _ _).mp hC
    have hCur := hFewer.same.settled hSettled
    have hBelow :=
      minimax_fewer depth p.other alpha' beta'
        (enterMove cur c p)
        (by
          rw [setMicroWins_enterMove]
          exact hCur.play c p)
    rw [setMicroWins_enterMove] at hBelow
    exact hFewer.undo hSettled hLegal hBelow

end UltimateTicTacToe

end ProgrammingTasks
