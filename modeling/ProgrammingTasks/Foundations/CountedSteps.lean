import Mathlib.Logic.Function.Basic

/-
  Chains of a relation with their number of steps.

  Lower bounds on the number of steps come from a function
  that one step changes by at most one.

  Main declarations:
    * `CountedSteps`
    * `CountedSteps.trans`, `CountedSteps.map`
    * `CountedSteps.le_add`
-/

------------------------------------------------------------
-- Chains
------------------------------------------------------------

/- `y` is reached from `x` in exactly `k` steps of `r`. -/
inductive CountedSteps {σ : Type} (r : σ → σ → Prop) :
    Nat → σ → σ → Prop
| refl (x : σ) :
    CountedSteps r 0 x x
| head
    {k : Nat} {x y z : σ} :
    r x y → CountedSteps r k y z → CountedSteps r (k + 1) x z

namespace CountedSteps

variable {σ τ : Type}
variable {r : σ → σ → Prop} {r' : τ → τ → Prop}
variable {k l : Nat} {x y z : σ}

theorem single (hStep : r x y) : CountedSteps r 1 x y :=
  head hStep (refl y)

theorem trans
    (hFirst : CountedSteps r k x y)
    (hSecond : CountedSteps r l y z) :
    CountedSteps r (k + l) x z := by
  induction hFirst with
  | refl x =>
      rw [Nat.zero_add]
      exact hSecond
  | head hStep _ ih =>
      rw [Nat.add_right_comm]
      exact head hStep (ih hSecond)

/- A function that respects steps maps chains to chains. -/
theorem map
    {f : σ → τ}
    (hStep : ∀ {x y}, r x y → r' (f x) (f y))
    (hChain : CountedSteps r k x y) :
    CountedSteps r' k (f x) (f y) := by
  induction hChain with
  | refl x => exact refl (f x)
  | head hFirst _ ih => exact head (hStep hFirst) ih

/- What one step decreases by at most one. -/
theorem le_add
    {f : σ → Nat}
    (hStep : ∀ {x y}, r x y → f x ≤ f y + 1)
    (hChain : CountedSteps r k x y) :
    f x ≤ f y + k := by
  induction hChain with
  | refl x => exact Nat.le_refl _
  | head hFirst _ ih =>
      have hNow := hStep hFirst
      omega

/- A chain preserves what each step preserves. -/
theorem preserves
    {P : σ → Prop}
    (hStep : ∀ {x y}, r x y → P x → P y)
    (hChain : CountedSteps r k x y)
    (hHolds : P x) :
    P y := by
  induction hChain with
  | refl x => exact hHolds
  | head hFirst _ ih => exact ih (hStep hFirst hHolds)

end CountedSteps
