import Mathlib.Algebra.BigOperators.Group.Finset.Basic
import Mathlib.Algebra.Order.BigOperators.Group.Finset
import Mathlib.Algebra.BigOperators.Group.List.Basic
import Mathlib.Algebra.Order.Group.Unbundled.Int
import Mathlib.Tactic.Ring

/-
  A lower bound for the length of links between charged points.

  Every link joins two points of opposite charge.  Over each
  gap run at least as many links as the points to the left of
  it have charge in excess.

  Main declarations:
    * `Matchings.Link`, `Matchings.Inside`
    * `Matchings.ends`, `Matchings.totalLength`
    * `Matchings.chargeUpTo`
    * `Matchings.sum_charge_le_totalLength`
-/

------------------------------------------------------------
-- Links
------------------------------------------------------------

namespace Matchings

abbrev Link := Nat × Nat

/- The second link runs strictly inside the first one. -/
def Inside (l l' : Link) : Prop :=
  l.1 < l'.1 ∧ l'.2 < l.2

instance (l l' : Link) : Decidable (Inside l l') :=
  inferInstanceAs (Decidable (l.1 < l'.1 ∧ l'.2 < l.2))

/- Two links that are disjoint or nested. -/
def NonCrossing (l l' : Link) : Prop :=
  l.2 < l'.1 ∨ l'.2 < l.1 ∨ Inside l l' ∨ Inside l' l

def ends (links : List Link) : List Nat :=
  links.flatMap (fun l => [l.1, l.2])

def length (l : Link) : Nat :=
  ((l.2 : Int) - l.1).natAbs

def totalLength (links : List Link) : Nat :=
  (links.map length).sum

@[simp]
theorem ends_cons (l : Link) (links : List Link) :
    ends (l :: links) = l.1 :: l.2 :: ends links :=
  rfl

@[simp]
theorem totalLength_cons (l : Link) (links : List Link) :
    totalLength (l :: links) = length l + totalLength links :=
  rfl

theorem ends_perm
    {links links' : List Link}
    (hPerm : links.Perm links') :
    (ends links).Perm (ends links') :=
  hPerm.flatMap_right _

theorem totalLength_perm
    {links links' : List Link}
    (hPerm : links.Perm links') :
    totalLength links = totalLength links' :=
  (hPerm.map length).sum_eq

------------------------------------------------------------
-- Charges
------------------------------------------------------------

section Charges

variable (charge : Nat → Int)

/- The charge of a point, counted up to the gap behind `g`. -/
def chargeAt (g p : Nat) : Int :=
  if p ≤ g then charge p else 0

/- The charge of all points up to the gap behind `g`. -/
def chargeUpTo (points : List Nat) (g : Nat) : Int :=
  (points.map (chargeAt charge g)).sum

theorem chargeUpTo_perm
    {points points' : List Nat}
    (hPerm : points.Perm points')
    (g : Nat) :
    chargeUpTo charge points g = chargeUpTo charge points' g :=
  (hPerm.map _).sum_eq

variable {charge}

/- A link runs over as many gaps as it is long. -/
theorem sum_chargeAt_le
    {l : Link}
    (hOpposite : charge l.1 + charge l.2 = 0)
    (hUnit : (charge l.1).natAbs ≤ 1)
    (n : Nat) :
    ∑ g ∈ Finset.range n,
        (chargeAt charge g l.1 + chargeAt charge g l.2).natAbs ≤
      length l := by
  have hGaps :
      ∀ n : Nat,
        ∑ g ∈ Finset.range n,
            (chargeAt charge g l.1 +
              chargeAt charge g l.2).natAbs ≤
          ((min l.2 n : Nat) - (min l.1 n : Nat) : Int).natAbs := by
    intro n
    induction n with
    | zero => simp
    | succ n ih =>
        rw [Finset.sum_range_succ]
        unfold chargeAt at *
        split_ifs <;> omega
  have hAll := hGaps n
  unfold length
  omega

/- The lower bound for every way to link the points. -/
theorem sum_charge_le_totalLength
    (n : Nat) :
    ∀ {links : List Link},
      (∀ l ∈ links,
        charge l.1 + charge l.2 = 0 ∧
          (charge l.1).natAbs ≤ 1) →
        ∑ g ∈ Finset.range n,
            (chargeUpTo charge (ends links) g).natAbs ≤
          totalLength links
| [], _ => by
    simp [chargeUpTo, ends]
| l :: links, hLinks => by
    have hRest :=
      sum_charge_le_totalLength n
        (fun l' hMem => hLinks l' (List.mem_cons_of_mem _ hMem))
    rcases hLinks l List.mem_cons_self with ⟨hOpposite, hUnit⟩
    have hFirst := sum_chargeAt_le hOpposite hUnit n
    have hSplit :
        ∀ g,
          (chargeUpTo charge (ends (l :: links)) g).natAbs ≤
            (chargeAt charge g l.1 +
              chargeAt charge g l.2).natAbs +
              (chargeUpTo charge (ends links) g).natAbs := by
      intro g
      have hSum :
          chargeUpTo charge (ends (l :: links)) g =
            (chargeAt charge g l.1 + chargeAt charge g l.2) +
              chargeUpTo charge (ends links) g := by
        simp only [chargeUpTo, ends_cons, List.map_cons,
          List.sum_cons]
        ring
      rw [hSum]
      exact Int.natAbs_add_le _ _
    calc
      ∑ g ∈ Finset.range n,
          (chargeUpTo charge (ends (l :: links)) g).natAbs
        ≤ ∑ g ∈ Finset.range n,
            ((chargeAt charge g l.1 +
              chargeAt charge g l.2).natAbs +
              (chargeUpTo charge (ends links) g).natAbs) :=
          Finset.sum_le_sum (fun g _ => hSplit g)
      _ = ∑ g ∈ Finset.range n,
            (chargeAt charge g l.1 +
              chargeAt charge g l.2).natAbs +
          ∑ g ∈ Finset.range n,
            (chargeUpTo charge (ends links) g).natAbs :=
          Finset.sum_add_distrib
      _ ≤ length l + totalLength links :=
          Nat.add_le_add hFirst hRest

end Charges

end Matchings
