import Mathlib.Data.List.Basic
import Mathlib.Logic.Function.Basic

/-
  Singly linked lists in a store of links.

  `Linked next head l` says that the links lead from `head`
  through the nodes of `l`, in this order, to the end.

  Main declarations:
    * `Linked`
    * `Linked.nodup`, `Linked.unique`
    * `Linked.congr`
    * `Linked.append_node`
-/

------------------------------------------------------------
-- Chains of Nodes
------------------------------------------------------------

/- The nodes that the links lead through. -/
def Linked {A : Type} (next : A → Option A) :
    Option A → List A → Prop
| head, [] => head = none
| head, a :: l => head = some a ∧ Linked next (next a) l

namespace Linked

variable {A : Type} {next : A → Option A}

/- The links determine the nodes. -/
theorem unique :
    ∀ {head : Option A} {l l' : List A},
      Linked next head l → Linked next head l' → l = l'
| _, [], [], _, _ => rfl
| _, [], _ :: _, hLeft, hRight => by
    cases hLeft.symm.trans hRight.1
| _, _ :: _, [], hLeft, hRight => by
    cases hRight.symm.trans hLeft.1
| _, a :: l, b :: l', hLeft, hRight => by
    cases hLeft.1.symm.trans hRight.1
    exact congrArg (List.cons a)
      (unique hLeft.2 hRight.2)

/- A node of a list is the head of the rest of the list. -/
theorem suffix_of_mem :
    ∀ {head : Option A} {l : List A} {a : A},
      Linked next head l → a ∈ l →
        ∃ front rest,
          l = front ++ a :: rest ∧
            Linked next (some a) (a :: rest)
| _, [], _, _, hMem => by
    cases hMem
| _, b :: l, a, hLinked, hMem => by
    rcases List.mem_cons.mp hMem with rfl | hRest
    · exact ⟨[], l, rfl, rfl, hLinked.2⟩
    · rcases suffix_of_mem hLinked.2 hRest with
        ⟨front, rest, hSplit, hSuffix⟩
      exact ⟨b :: front, rest, by simp [hSplit], hSuffix⟩

/- No node occurs twice. -/
theorem nodup :
    ∀ {head : Option A} {l : List A},
      Linked next head l → l.Nodup
| _, [], _ => List.nodup_nil
| _, a :: l, hLinked => by
    refine List.nodup_cons.mpr ⟨?_, nodup hLinked.2⟩
    intro hMem
    rcases suffix_of_mem hLinked.2 hMem with
      ⟨front, rest, hSplit, hSuffix⟩
    have hSame : l = rest := unique hLinked.2 hSuffix.2
    have hLength := congrArg List.length hSplit
    simp [hSame] at hLength
    omega

/- Only the links of the nodes matter. -/
theorem congr
    {next' : A → Option A} :
    ∀ {head : Option A} {l : List A},
      Linked next head l →
        (∀ a ∈ l, next' a = next a) →
          Linked next' head l
| _, [], hLinked, _ => hLinked
| _, a :: l, hLinked, hSame => by
    refine ⟨hLinked.1, ?_⟩
    rw [hSame a (List.mem_cons_self ..)]
    apply congr hLinked.2
    intro b hMem
    exact hSame b (List.mem_cons_of_mem _ hMem)

/- The last node has no successor. -/
theorem next_getLast :
    ∀ {head : Option A} {l : List A},
      Linked next head l →
        ∀ hNonempty : l ≠ [],
          next (l.getLast hNonempty) = none
| _, [_], hLinked, _ => hLinked.2
| _, _ :: b :: l, hLinked, _ => by
    rw [List.getLast_cons (List.cons_ne_nil b l)]
    exact next_getLast hLinked.2 (List.cons_ne_nil b l)

variable [DecidableEq A]

/- Link a new node behind the last one. -/
theorem append_node
    {head : Option A} {l : List A} {w : A}
    (hLinked : Linked next head l)
    (hNonempty : l ≠ [])
    (hNew : w ∉ l)
    (hEnd : next w = none) :
    Linked
      (Function.update next (l.getLast hNonempty) (some w))
      head (l ++ [w]) := by
  induction l generalizing head with
  | nil => exact absurd rfl hNonempty
  | cons a l ih =>
      refine ⟨hLinked.1, ?_⟩
      cases l with
      | nil =>
          have hApart : w ≠ a := by
            rintro rfl
            exact hNew (List.mem_cons_self ..)
          simp [Linked, Function.update_of_ne hApart, hEnd]
      | cons b l =>
          have hRest := ih hLinked.2 (List.cons_ne_nil b l)
            (fun hMem => hNew (List.mem_cons_of_mem _ hMem))
          have hApart :
              a ≠ (b :: l).getLast (List.cons_ne_nil b l) := by
            intro hSame
            have hNodup := List.nodup_cons.mp hLinked.nodup
            apply hNodup.1
            rw [hSame]
            exact List.getLast_mem _
          rw [List.getLast_cons (List.cons_ne_nil b l),
            Function.update_of_ne hApart]
          exact hRest

end Linked
