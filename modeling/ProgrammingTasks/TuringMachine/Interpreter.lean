import ProgrammingTasks.Foundations.TapeMachine

/-
  The Turing machine interpreter (`turing.c`).

  `Turing` works on one character array and an integer cursor.
  Its loop body is a function of the loop variables; an access
  outside the tape or outside the matrix is a result of its
  own.  The interpreter simulates the tape machine whose rules
  are read off the matrix.

  Main declarations:
    * `Celula`, `turing`
    * `tableRule`
    * `iterate_of_reaches`
    * `iterate_of_halts`
-/

------------------------------------------------------------
-- The Interpreter
------------------------------------------------------------

namespace ProgrammingTasks

namespace TuringMachine

open TapeMachine

/- An entry of the transition matrix. -/
structure Celula where
  stareUrm : Int
  charW : Char
  deplasare : Char
deriving DecidableEq, Repr

/- The rows are the states, the columns the symbols. -/
abbrev Matrix := List (List Celula)

/- The entry `xs[i]` of an array, if the index is inside. -/
def readAt {α : Type} (xs : List α) (i : Int) : Option α :=
  if 0 ≤ i then xs[i.toNat]? else none

/- The variables of the loop. -/
structure Loop where
  banda : List Char
  cursor : Int
  index : Int
  stareUrmatoare : Int
deriving DecidableEq, Repr

/- What the interpreter returns. -/
inductive Rezultat
| banda (cells : List Char)
| eroare
-- The cursor has left the tape, or there is no such cell.
| invalidAccess
deriving DecidableEq, Repr

/- The outcome of one iteration. -/
inductive Iteration
| next (loop : Loop)
| returned (rezultat : Rezultat)
deriving DecidableEq, Repr

/-
  The column of a character; on any other character `index`
  keeps the value it had.
-/
def columnOf (ch : Char) (index : Int) : Int :=
  if ch = '0' then 0
  else if ch = '1' then 1
  else if ch = '#' then 2
  else index

/- The final states are the last `sf` ones. -/
def isFinal (s sf stare : Int) : Prop :=
  s - sf ≤ stare ∧ stare ≤ s - 1

instance (s sf stare : Int) :
    Decidable (isFinal s sf stare) := by
  unfold isFinal
  infer_instance

/- The cursor after the move `moveDir`. -/
def moveCursor (cursor : Int) (moveDir : Char) : Int :=
  if moveDir = 'R' then cursor + 1
  else if moveDir = 'L' then cursor - 1
  else cursor

/- The body of the `while` loop. -/
def body
    (matrix : Matrix) (s sf : Int)
    (loop : Loop) : Iteration :=
  match readAt loop.banda loop.cursor with
  | none => .returned .invalidAccess
  | some ch =>
      let index := columnOf ch loop.index
      match (readAt matrix loop.stareUrmatoare).bind
          (readAt · index) with
      | none => .returned .invalidAccess
      | some celula =>
          if celula.stareUrm = -1 then
            .returned .eroare
          else
            let banda :=
              loop.banda.set loop.cursor.toNat celula.charW
            if isFinal s sf celula.stareUrm then
              .returned (.banda banda)
            else
              .next
                { banda := banda
                  cursor :=
                    moveCursor loop.cursor celula.deplasare
                  index := index
                  stareUrmatoare := celula.stareUrm }

/- At most `fuel` iterations of the loop. -/
def iterate (matrix : Matrix) (s sf : Int) :
    Nat → Loop → Option Rezultat
| 0, _ => none
| fuel + 1, loop =>
    match body matrix s sf loop with
    | .next loop' => iterate matrix s sf fuel loop'
    | .returned rezultat => some rezultat

/-
  `Turing`.  The cursor starts at 1 and the state is 0; `index`
  is the value of an uninitialized local variable.
-/
def turing
    (matrix : Matrix) (banda : List Char)
    (s sf : Int) (index : Int)
    (fuel : Nat) : Option Rezultat :=
  iterate matrix s sf fuel
    { banda := banda
      cursor := 1
      index := index
      stareUrmatoare := 0 }

------------------------------------------------------------
-- The Machine of a Matrix
------------------------------------------------------------

/- The matrix entry for a state and one of the symbols. -/
def cellOf
    (matrix : Matrix)
    (stare : Int) (ch : Char) : Option Celula :=
  if ch = '0' ∨ ch = '1' ∨ ch = '#' then
    (readAt matrix stare).bind (readAt · (columnOf ch 0))
  else
    none

/- The move a character stands for. -/
def moveOf (moveDir : Char) : Move :=
  if moveDir = 'R' then .right
  else if moveDir = 'L' then .left
  else .stay

/- The rules of a matrix: its entries that go on running. -/
def tableRule (matrix : Matrix) (s sf : Int) :
    Rule Int Char :=
  fun stare ch =>
    match cellOf matrix stare ch with
    | none => none
    | some celula =>
        if celula.stareUrm = -1 ∨
            isFinal s sf celula.stareUrm then
          none
        else
          some
            { next := celula.stareUrm
              write := celula.charW
              move := moveOf celula.deplasare }

/- The loop variables that a configuration stands for. -/
def loopOf (c : Config Int Char) (index : Int) : Loop where
  banda := c.left.reverse ++ c.right
  cursor := c.left.length
  index := index
  stareUrmatoare := c.state

/- The cursor reads the cell at the head. -/
theorem readAt_head
    {α : Type}
    (left : List α) (a : α) (right : List α) :
    readAt (left.reverse ++ a :: right)
      (left.length : Int) = some a := by
  have hIndex : ((left.length : Int)).toNat =
      left.reverse.length := by simp
  simp only [readAt, Int.natCast_nonneg, if_true, hIndex]
  simp

/- Writing at the cursor replaces the cell at the head. -/
theorem set_head
    {α : Type}
    (left : List α) (a b : α) (right : List α) :
    (left.reverse ++ a :: right).set
      ((left.length : Int)).toNat b =
        left.reverse ++ b :: right := by
  have hIndex : ((left.length : Int)).toNat =
      left.reverse.length := by simp
  rw [hIndex, List.set_append_right _ _ (Nat.le_refl _)]
  simp

/- On a symbol the old value of `index` does not matter. -/
theorem bind_column_of_cellOf
    {matrix : Matrix} {stare : Int} {ch : Char}
    {celula : Celula}
    (hCell : cellOf matrix stare ch = some celula)
    (index : Int) :
    (readAt matrix stare).bind
      (readAt · (columnOf ch index)) = some celula := by
  unfold cellOf at hCell
  split at hCell
  · rename_i hSymbol
    have hColumn : columnOf ch index = columnOf ch 0 := by
      rcases hSymbol with rfl | rfl | rfl <;> rfl
    rw [hColumn]
    exact hCell
  · cases hCell

/-
  The interpreter's body on a configuration whose cell is
  defined: return in a final state, else move the head.
-/
theorem body_loopOf
    {matrix : Matrix} {s sf : Int}
    {stare : Int} {ch : Char} {celula : Celula}
    (left right : List Char) (index : Int)
    (hCell : cellOf matrix stare ch = some celula)
    (hDefined : celula.stareUrm ≠ -1) :
    body matrix s sf
        (loopOf ⟨stare, left, ch :: right⟩ index) =
      if isFinal s sf celula.stareUrm then
        .returned
          (.banda (left.reverse ++ celula.charW :: right))
      else
        .next
          { banda := left.reverse ++ celula.charW :: right
            cursor :=
              moveCursor left.length celula.deplasare
            index := columnOf ch index
            stareUrmatoare := celula.stareUrm } := by
  simp only [body, loopOf, readAt_head,
    bind_column_of_cellOf hCell, hDefined, if_false, set_head]

/- Moving the cursor is moving the head. -/
theorem loopOf_moveHead
    {stare : Int} {b : Char} {left right : List Char}
    {moveDir : Char} {c : Config Int Char}
    (hMove :
      moveHead stare b left right (moveOf moveDir) = some c)
    (index : Int) :
    loopOf c index =
      { banda := left.reverse ++ b :: right
        cursor := moveCursor left.length moveDir
        index := index
        stareUrmatoare := stare } := by
  unfold moveOf at hMove
  by_cases hRight : moveDir = 'R'
  · simp only [hRight, if_true, moveHead,
      Option.some.injEq] at hMove
    subst hMove
    simp [loopOf, moveCursor, hRight]
  · by_cases hLeft : moveDir = 'L'
    · cases left with
      | nil =>
          simp [hLeft, moveHead] at hMove
      | cons x left =>
          simp [hLeft, moveHead] at hMove
          subst hMove
          simp [loopOf, moveCursor, hLeft]
    · simp only [hRight, hLeft, if_false, moveHead,
        Option.some.injEq] at hMove
      subst hMove
      simp [loopOf, moveCursor, hRight, hLeft]

/- One step of the machine is one iteration of the loop. -/
theorem body_of_step
    {matrix : Matrix} {s sf : Int}
    {c d : Config Int Char}
    (hStep : step (tableRule matrix s sf) c = some d)
    (index : Int) :
    ∃ index',
      body matrix s sf (loopOf c index) =
        .next (loopOf d index') := by
  rcases c with ⟨stare, left, right⟩
  cases right with
  | nil =>
      cases hStep
  | cons ch right =>
      simp only [step, tableRule] at hStep
      cases hCell : cellOf matrix stare ch with
      | none =>
          simp [hCell] at hStep
      | some celula =>
          by_cases hStop :
              celula.stareUrm = -1 ∨
                isFinal s sf celula.stareUrm
          · simp [hCell, hStop] at hStep
          · simp only [hCell, hStop, if_false] at hStep
            have hDefined : celula.stareUrm ≠ -1 :=
              fun h => hStop (Or.inl h)
            have hRunning : ¬ isFinal s sf celula.stareUrm :=
              fun h => hStop (Or.inr h)
            refine ⟨columnOf ch index, ?_⟩
            rw [body_loopOf left right index hCell hDefined,
              if_neg hRunning, loopOf_moveHead hStep]

/-
  A run of the machine is a run of the loop: after some number
  of iterations the interpreter is where the machine is.
-/
theorem iterate_of_reaches
    {matrix : Matrix} {s sf : Int}
    {c d : Config Int Char}
    (hReaches : Reaches (tableRule matrix s sf) c d) :
    ∀ index, ∃ steps index', ∀ fuel,
      iterate matrix s sf (fuel + steps) (loopOf c index) =
        iterate matrix s sf fuel (loopOf d index') := by
  induction hReaches using
      Relation.ReflTransGen.head_induction_on with
  | refl =>
      intro index
      exact ⟨0, index, fun _ => rfl⟩
  | head hStep _ ih =>
      intro index
      rcases body_of_step hStep index with ⟨index₁, hBody⟩
      rcases ih index₁ with ⟨steps, index', hRest⟩
      refine ⟨steps + 1, index', fun fuel => ?_⟩
      rw [← Nat.add_assoc, iterate, hBody]
      exact hRest fuel

------------------------------------------------------------
-- Halting
------------------------------------------------------------

/-
  From `c` the machine reaches a cell whose entry leads to a
  final state, and leaves `cells` on the tape.
-/
def Halts
    (matrix : Matrix) (s sf : Int)
    (c : Config Int Char) (cells : List Char) : Prop :=
  ∃ stare left ch right celula,
    Reaches (tableRule matrix s sf) c
      ⟨stare, left, ch :: right⟩ ∧
    cellOf matrix stare ch = some celula ∧
    celula.stareUrm ≠ -1 ∧
    isFinal s sf celula.stareUrm ∧
    left.reverse ++ celula.charW :: right = cells

/- A run may be put before a halting one. -/
theorem Halts.of_reaches
    {matrix : Matrix} {s sf : Int}
    {c d : Config Int Char} {cells : List Char}
    (hReaches : Reaches (tableRule matrix s sf) c d)
    (hHalts : Halts matrix s sf d cells) :
    Halts matrix s sf c cells := by
  rcases hHalts with
    ⟨stare, left, ch, right, celula, hRest, hLast⟩
  exact ⟨stare, left, ch, right, celula,
    hReaches.trans hRest, hLast⟩

/- A machine that halts makes the interpreter return. -/
theorem iterate_of_halts
    {matrix : Matrix} {s sf : Int}
    {c : Config Int Char} {cells : List Char}
    (hHalts : Halts matrix s sf c cells)
    (index : Int) :
    ∃ steps, ∀ fuel ≥ steps,
      iterate matrix s sf fuel (loopOf c index) =
        some (.banda cells) := by
  rcases hHalts with
    ⟨stare, left, ch, right, celula,
      hReaches, hCell, hDefined, hFinal, hCells⟩
  rcases iterate_of_reaches hReaches index with
    ⟨steps, index', hRun⟩
  refine ⟨steps + 1, fun fuel hFuel => ?_⟩
  obtain ⟨extra, rfl⟩ :
      ∃ extra, fuel = (extra + 1) + steps :=
    ⟨fuel - (steps + 1), by omega⟩
  rw [hRun, iterate,
    body_loopOf left right index' hCell hDefined,
    if_pos hFinal, hCells]

end TuringMachine

end ProgrammingTasks
