import Mathlib.Data.List.Infix
import Mathlib.Algebra.GroupWithZero.Nat
import Mathlib.Algebra.Ring.Int.Defs

/-
  The events of the editor logs (`UserEvent.java`,
  `EditorArea.java`, `ZoneFactory.java`).

  A reference that may be null is an `Option`.  The color of
  an area is not used by the tasks and the clusters.

  Main declarations:
    * `EditorElement`, `EditorArea`, `UserEvent`
    * `createZone`
    * `toInt`, `IsInt`
-/

------------------------------------------------------------
-- Integers of the Programs
------------------------------------------------------------

namespace ProgrammingTasks

namespace TaskClusters

/- The result of an `int` operation. -/
def toInt (v : Int) : Int :=
  v.bmod (2 ^ 32)

/- The number is an `int`. -/
def IsInt (v : Int) : Prop :=
  -2 ^ 31 ≤ v ∧ v < 2 ^ 31

instance (v : Int) : Decidable (IsInt v) := by
  unfold IsInt
  infer_instance

theorem toInt_of_isInt {v : Int} (hInt : IsInt v) :
    toInt v = v := by
  unfold IsInt at hInt
  exact Int.bmod_eq_of_le (by omega) (by omega)

------------------------------------------------------------
-- Areas of the Editor
------------------------------------------------------------

/- The characters of a string. -/
abbrev Text := List Char

/- `contains`. -/
def contains (s text : Text) : Bool :=
  text <:+: s

structure EditorElement where
  type : Text
deriving DecidableEq, Repr

/- The classes of areas. -/
inductive Zone
| canvas
| menu
| dialogBox
| unknownArea
deriving DecidableEq, Repr

structure EditorArea where
  zone : Zone
  pathInEditor : List EditorElement
deriving DecidableEq, Repr

structure UserEvent where
  area : Option EditorArea
  timestamp : Int
deriving DecidableEq, Repr

/- The zone of the type of a first element. -/
def zoneOf (type : Text) : Zone :=
  if contains type ['c', 'a', 'r', 'd'] ∨
      contains type ['i', 'n', 'p', 'u', 't'] ∨
        contains type ['p', 'a', 'g', 'e'] then
    .canvas
  else if
      (contains type ['m', 'e', 'n', 'u'] ∧
          ¬ contains type
            ['m', 'e', 'n', 'u', '-', 'b', 'u', 't', 't', 'o',
              'n']) ∨
        contains type
          ['m', 'e', 'n', 'u', '-', 'b', 'u', 't', 't', 'o',
            'n'] ∨
          contains type ['i', 'c', 'o', 'n'] then
    .menu
  else if contains type ['d', 'i', 'a', 'l', 'o', 'g'] then
    .dialogBox
  else
    .unknownArea

/- `createZone`: the loop returns at the first element. -/
def createZone : List EditorElement → Option EditorArea
| [] => none
| ee :: elements =>
    some ⟨zoneOf ee.type, ee :: elements⟩

end TaskClusters

end ProgrammingTasks
