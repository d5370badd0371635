import Mathlib.Logic.Relation

/-
  Machines that move one head over a finite tape.

  The tape is split at the head: the cells before it, nearest
  first, and the cells from the head on.  Sweeps over a word
  are the composite moves from which runs are assembled.

  Main declarations:
    * `TapeMachine.step`
    * `TapeMachine.Reaches`
    * `TapeMachine.sweep_right`
    * `TapeMachine.sweep_left`
-/

------------------------------------------------------------
-- Configurations and Steps
------------------------------------------------------------

namespace TapeMachine

/- The head moves. -/
inductive Move
| left
| right
| stay
deriving DecidableEq, Repr

/- What a rule does: the next state, the symbol, the move. -/
structure Action (Q A : Type) where
  next : Q
  write : A
  move : Move
deriving DecidableEq, Repr

/-
  A control state with the tape around the head: `left` holds
  the cells before the head, nearest first, and the head
  stands on the first cell of `right`.
-/
@[ext] structure Config (Q A : Type) where
  state : Q
  left : List A
  right : List A
deriving DecidableEq, Repr

/- The rules of a machine. -/
abbrev Rule (Q A : Type) := Q → A → Option (Action Q A)

variable {Q A : Type}

/- Write `b` on the head's cell and move. -/
def moveHead
    (q : Q) (b : A)
    (left right : List A) :
    Move → Option (Config Q A)
| .right => some ⟨q, b :: left, right⟩
| .stay => some ⟨q, left, b :: right⟩
| .left =>
    match left with
    | [] => none
    | x :: rest => some ⟨q, rest, x :: b :: right⟩

/- One step; there is none off the tape or without a rule. -/
def step (rule : Rule Q A) :
    Config Q A → Option (Config Q A)
| ⟨_, _, []⟩ => none
| ⟨q, left, a :: right⟩ =>
    match rule q a with
    | none => none
    | some action =>
        moveHead action.next action.write left right
          action.move

/- Any number of steps. -/
def Reaches (rule : Rule Q A) :
    Config Q A → Config Q A → Prop :=
  Relation.ReflTransGen (fun c d => step rule c = some d)

namespace Reaches

variable {rule : Rule Q A} {c d e : Config Q A}

theorem refl (c : Config Q A) :
    Reaches rule c c :=
  Relation.ReflTransGen.refl

theorem trans
    (hFirst : Reaches rule c d)
    (hThen : Reaches rule d e) :
    Reaches rule c e :=
  Relation.ReflTransGen.trans hFirst hThen

theorem head
    (hStep : step rule c = some d)
    (hThen : Reaches rule d e) :
    Reaches rule c e :=
  Relation.ReflTransGen.head hStep hThen

end Reaches

/- A rule that moves right shifts one cell to the left part. -/
theorem step_right
    {rule : Rule Q A} {p q : Q} {a b : A}
    (left right : List A)
    (hRule : rule p a = some ⟨q, b, .right⟩) :
    step rule ⟨p, left, a :: right⟩ =
      some ⟨q, b :: left, right⟩ := by
  simp [step, hRule, moveHead]

/- A rule that moves left takes the nearest cell back. -/
theorem step_left
    {rule : Rule Q A} {p q : Q} {a b : A}
    (x : A) (left right : List A)
    (hRule : rule p a = some ⟨q, b, .left⟩) :
    step rule ⟨p, x :: left, a :: right⟩ =
      some ⟨q, left, x :: b :: right⟩ := by
  simp [step, hRule, moveHead]

------------------------------------------------------------
-- Sweeps
------------------------------------------------------------

/-
  A state that rewrites each symbol of a word and keeps
  moving right passes over the whole word.
-/
theorem sweep_right
    {rule : Rule Q A} {q : Q} {f : A → A} (right : List A) :
    ∀ (word left : List A),
      (∀ a ∈ word, rule q a = some ⟨q, f a, .right⟩) →
        Reaches rule ⟨q, left, word ++ right⟩
          ⟨q, (word.map f).reverse ++ left, right⟩
| [], left, _ => Reaches.refl _
| a :: word, left, hRules => by
    have hHead := hRules a List.mem_cons_self
    have hRest :=
      sweep_right right word (f a :: left)
        (fun b hb => hRules b (List.mem_cons_of_mem _ hb))
    refine Reaches.head (step_right _ _ hHead) ?_
    simpa using hRest

/-
  A leftward sweep that is entered from state `p`: the head
  passes over `a` and over `word` before it, and stops on the
  first cell `x` beyond.
-/
theorem sweep_left
    {rule : Rule Q A} {q : Q} {f : A → A}
    (x : A) (left : List A) :
    ∀ (word : List A) (p : Q) (a : A) (right : List A),
      rule p a = some ⟨q, f a, .left⟩ →
      (∀ b ∈ word, rule q b = some ⟨q, f b, .left⟩) →
        Reaches rule ⟨p, word ++ x :: left, a :: right⟩
          ⟨q, left,
            x :: ((a :: word).map f).reverse ++ right⟩
| [], p, a, right, hEnter, _ =>
    Reaches.head (step_left x left right hEnter)
      (Reaches.refl _)
| b :: word, p, a, right, hEnter, hRules => by
    have hRest :=
      sweep_left x left word q b (f a :: right)
        (hRules b List.mem_cons_self)
        (fun d hd => hRules d (List.mem_cons_of_mem _ hd))
    refine Reaches.head (step_left b _ right hEnter) ?_
    simpa using hRest

end TapeMachine
