import ProgrammingTasks.Foundations.AlphaBeta
import ProgrammingTasks.UltimateTicTacToe.Search

/-
  The search on copies of the boards.

  `refValue` is the full minimax value of a position: every
  move is tried, on boards of its own.  `copyScore` cuts off
  as `minimax` does, but also takes every move on a copy of
  the boards.  The cut-offs alone do no harm: `copyScore`
  answers for `refValue` in every window.  What remains
  between `copyScore` and `minimax` is the undoing of moves.

  Main declarations:
    * `refValue`, `Live`
    * `copyMoves`, `copyScore`
    * `copyScore_answers`
    * `Visits`, `visits_of_answers`
-/

------------------------------------------------------------
-- The Reference Value
------------------------------------------------------------

namespace ProgrammingTasks

namespace UltimateTicTacToe

/- The best of the values for a side; 0 if there is none. -/
def best (player : Side) (values : List Int) : Int :=
  match player with
  | .playerId => values.max?.getD 0
  | .enemyId => values.min?.getD 0

/- The value of the full tree of the given depth. -/
def refValue : Nat → Side → Game → Int
| 0, player, s => (terminalScore s 0).getD (leafScore s player)
| depth + 1, player, s =>
    (terminalScore s (depth + 1)).getD
      (best player
        ((getAvailableMoves s).map
          (fun c =>
            refValue depth player.other
              (play s c player.id))))

/-
  Every node of the tree above the leaves that is not terminal
  has an available move.
-/
def Live : Nat → Side → Game → Prop
| 0, _, _ => True
| depth + 1, player, s =>
    (terminalScore s (depth + 1)).isSome ∨
      (getAvailableMoves s ≠ [] ∧
        ∀ c ∈ getAvailableMoves s,
          Live depth player.other (play s c player.id))

instance decidableLive :
    ∀ (depth : Nat) (player : Side) (s : Game),
      Decidable (Live depth player s)
| 0, _, _ => isTrue trivial
| depth + 1, player, s =>
    have := fun c =>
      decidableLive depth player.other (play s c player.id)
    inferInstanceAs (Decidable (_ ∨ (_ ∧ _)))

/- One value is at least as good for a side as another. -/
def AtLeastAsGood (player : Side) (v u : Int) : Prop :=
  match player with
  | .playerId => u ≤ v
  | .enemyId => v ≤ u

theorem best_mem
    (player : Side) (values : List Int)
    (hSome : values ≠ []) :
    best player values ∈ values := by
  cases player with
  | playerId =>
      cases hMax : values.max? with
      | none => exact absurd (List.max?_eq_none_iff.mp hMax) hSome
      | some v =>
          rw [best, hMax]
          exact List.max?_mem hMax
  | enemyId =>
      cases hMin : values.min? with
      | none => exact absurd (List.min?_eq_none_iff.mp hMin) hSome
      | some v =>
          rw [best, hMin]
          exact List.min?_mem hMin

theorem best_atLeastAsGood
    (player : Side) {values : List Int} {v : Int}
    (hMem : v ∈ values) :
    AtLeastAsGood player (best player values) v := by
  cases player with
  | playerId =>
      cases hMax : values.max? with
      | none =>
          rw [List.max?_eq_none_iff.mp hMax] at hMem
          cases hMem
      | some u =>
          rw [best, hMax]
          exact (List.max?_eq_some_iff.mp hMax).2 v hMem
  | enemyId =>
      cases hMin : values.min? with
      | none =>
          rw [List.min?_eq_none_iff.mp hMin] at hMem
          cases hMem
      | some u =>
          rw [best, hMin]
          exact (List.min?_eq_some_iff.mp hMin).2 v hMem

------------------------------------------------------------
-- Cutting Off
------------------------------------------------------------

/- The window of the search. -/
structure Window where
  alpha : Int
  beta : Int

/- The window after the score of a move. -/
def narrow (player : Side) (score : Int) (w : Window) : Window :=
  match player with
  | .playerId => { w with alpha := max w.alpha score }
  | .enemyId => { w with beta := min w.beta score }

/- The end of the window that a side returns. -/
def Window.score (player : Side) (w : Window) : Int :=
  match player with
  | .playerId => w.alpha
  | .enemyId => w.beta

/- The loop over the moves with its cut-off. -/
def copyMoves
    (ask : Cell → Window → Int) (player : Side) :
    List Cell → Window → Window
| [], w => w
| c :: rest, w =>
    let w' := narrow player (ask c w) w
    if w'.alpha ≥ w'.beta then w'
    else copyMoves ask player rest w'

/- `minimax` with every move on a copy of the boards. -/
def copyScore : Nat → Side → Window → Game → Int
| 0, player, _, s =>
    (terminalScore s 0).getD (leafScore s player)
| depth + 1, player, w, s =>
    (terminalScore s (depth + 1)).getD
      ((copyMoves
        (fun c w =>
          copyScore depth player.other w (play s c player.id))
        player (getAvailableMoves s) w).score player)

/- The score of a node for a side in a window. -/
abbrev Score := Nat → Side → Window → Game → Int

/- The reference value, whatever the window is. -/
def refScore : Score :=
  fun depth player _ s => refValue depth player s

/-
  `P` holds of every move that the loop visits, and `Q` of
  those after which it visits another one.
-/
def Visits
    (ask : Cell → Window → Int) (player : Side)
    (P Q : Cell → Window → Prop) :
    List Cell → Window → Prop
| [], _ => True
| c :: rest, w =>
    let w' := narrow player (ask c w) w
    P c w ∧
      (w'.alpha ≥ w'.beta ∨ rest = [] ∨
        (Q c w ∧ Visits ask player P Q rest w'))

instance decidableVisits
    (ask : Cell → Window → Int) (player : Side)
    (P Q : Cell → Window → Prop)
    [∀ c w, Decidable (P c w)]
    [∀ c w, Decidable (Q c w)] :
    ∀ (moves : List Cell) (w : Window),
      Decidable (Visits ask player P Q moves w)
| [], _ => isTrue trivial
| c :: rest, w =>
    have :=
      decidableVisits ask player P Q rest
        (narrow player (ask c w) w)
    inferInstanceAs (Decidable (_ ∧ (_ ∨ _ ∨ (_ ∧ _))))

------------------------------------------------------------
-- Cut-Offs Do No Harm
------------------------------------------------------------

open AlphaBeta

theorem copyMoves_playerId
    (ask : Cell → Window → Int) :
    ∀ (moves : List Cell) (w : Window),
      (copyMoves ask .playerId moves w).score .playerId =
        maximize (fun c alpha beta => ask c ⟨alpha, beta⟩)
          moves w.alpha w.beta
| [], _ => rfl
| c :: rest, w => by
    rw [copyMoves, maximize]
    by_cases hCut :
        (narrow .playerId (ask c w) w).alpha ≥
          (narrow .playerId (ask c w) w).beta
    · rw [if_pos hCut]
      exact (if_pos hCut).symm
    · rw [if_neg hCut, copyMoves_playerId ask rest]
      exact (if_neg hCut).symm

theorem copyMoves_enemyId
    (ask : Cell → Window → Int) :
    ∀ (moves : List Cell) (w : Window),
      (copyMoves ask .enemyId moves w).score .enemyId =
        minimize (fun c alpha beta => ask c ⟨alpha, beta⟩)
          moves w.alpha w.beta
| [], _ => rfl
| c :: rest, w => by
    rw [copyMoves, minimize]
    by_cases hCut :
        (narrow .enemyId (ask c w) w).alpha ≥
          (narrow .enemyId (ask c w) w).beta
    · rw [if_pos hCut]
      exact (if_pos hCut).symm
    · rw [if_neg hCut, copyMoves_enemyId ask rest]
      exact (if_neg hCut).symm

/- The loop answers for the best value of its moves. -/
theorem copyMoves_answers
    {ask : Cell → Window → Int} {value : Cell → Int}
    {moves : List Cell} {w : Window}
    (player : Side)
    (hWindow : w.alpha < w.beta)
    (hSome : moves ≠ [])
    (hAsk :
      ∀ c ∈ moves, ∀ w' : Window, w'.alpha < w'.beta →
        Answers w'.alpha w'.beta (value c) (ask c w')) :
    Answers w.alpha w.beta
      (best player (moves.map value))
      ((copyMoves ask player moves w).score player) := by
  have hMem :=
    best_mem player (moves.map value) (by simpa using hSome)
  have hBest := fun c (hC : c ∈ moves) =>
    best_atLeastAsGood player
      (List.mem_map_of_mem (f := value) hC)
  rcases List.mem_map.mp hMem with ⟨c, hC, hValue⟩
  cases player with
  | playerId =>
      rw [copyMoves_playerId]
      exact maximize_answers hWindow
        (fun c hC alpha hAlpha => hAsk c hC ⟨alpha, _⟩ hAlpha)
        ⟨c, hC, hValue⟩ hBest
  | enemyId =>
      rw [copyMoves_enemyId]
      exact minimize_answers hWindow
        (fun c hC beta hBeta => hAsk c hC ⟨_, beta⟩ hBeta)
        ⟨c, hC, hValue⟩ hBest

/- An answer closes the window as the value does. -/
theorem narrow_cases
    (player : Side) {w : Window} {v r : Int}
    (hWindow : w.alpha < w.beta)
    (hAnswers : Answers w.alpha w.beta v r) :
    ((narrow player r w).alpha ≥ (narrow player r w).beta ∧
      (narrow player v w).alpha ≥ (narrow player v w).beta) ∨
    ((narrow player r w).alpha < (narrow player r w).beta ∧
      narrow player r w = narrow player v w) := by
  cases player with
  | playerId =>
      rcases hAnswers.max_cases hWindow with
        ⟨hCut, hValue⟩ | ⟨hOpen, _, hSame⟩
      · exact Or.inl
          ⟨hCut, le_trans hValue (le_max_right _ _)⟩
      · exact Or.inr ⟨hOpen, by rw [narrow, narrow, hSame]⟩
  | enemyId =>
      rcases hAnswers.min_cases hWindow with
        ⟨hCut, hValue⟩ | ⟨hOpen, _, hSame⟩
      · exact Or.inl
          ⟨hCut, le_trans (min_le_right _ _) hValue⟩
      · exact Or.inr ⟨hOpen, by rw [narrow, narrow, hSame]⟩

/- Answers lead to the same visits as the values. -/
theorem visits_of_answers
    {ask value : Cell → Window → Int} {player : Side}
    {P P' Q Q' : Cell → Window → Prop} :
    ∀ (moves : List Cell) (w : Window),
      w.alpha < w.beta →
      (∀ c ∈ moves, ∀ w' : Window, w'.alpha < w'.beta →
        Answers w'.alpha w'.beta (value c w') (ask c w') ∧
          (P' c w' → P c w') ∧ (Q' c w' → Q c w')) →
      Visits value player P' Q' moves w →
        Visits ask player P Q moves w
| [], _, _, _, _ => trivial
| c :: rest, w, hWindow, hMoves, hVisits => by
    rcases hMoves c List.mem_cons_self w hWindow with
      ⟨hAnswers, hP, hQ⟩
    rcases hVisits with ⟨hHere, hRest⟩
    refine ⟨hP hHere, ?_⟩
    rcases narrow_cases player hWindow hAnswers with
      ⟨hClosed, _⟩ | ⟨hOpen, hSame⟩
    · exact Or.inl hClosed
    · rw [← hSame] at hRest
      rcases hRest with hClosed | hNone | ⟨hQHere, hRest⟩
      · exact absurd hOpen (not_lt_of_ge hClosed)
      · exact Or.inr (Or.inl hNone)
      · refine Or.inr (Or.inr ⟨hQ hQHere, ?_⟩)
        exact visits_of_answers rest _ hOpen
          (fun d hD => hMoves d (List.mem_cons_of_mem _ hD))
          hRest

/- The search with cut-offs answers for the full tree. -/
theorem copyScore_answers :
    ∀ {depth : Nat} {player : Side} {w : Window} {s : Game},
      w.alpha < w.beta →
      Live depth player s →
      Answers w.alpha w.beta (refValue depth player s)
        (copyScore depth player w s)
| 0, player, w, s, _, _ => by
    rw [refValue, copyScore]
    exact Answers.self _ _ _
| depth + 1, player, w, s, hWindow, hLive => by
    rw [refValue, copyScore]
    rcases hLive with hTerminal | ⟨hSome, hLive⟩
    · rcases Option.isSome_iff_exists.mp hTerminal with
        ⟨score, hScore⟩
      rw [hScore]
      exact Answers.self _ _ _
    · cases terminalScore s (depth + 1) with
      | some score => exact Answers.self _ _ _
      | none =>
          exact copyMoves_answers player hWindow hSome
            (fun c hC w' hWindow' =>
              copyScore_answers hWindow' (hLive c hC))

end UltimateTicTacToe

end ProgrammingTasks
