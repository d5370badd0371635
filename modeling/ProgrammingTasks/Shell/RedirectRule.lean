import ProgrammingTasks.Foundations.LinkedList
import ProgrammingTasks.Shell.Words
import Mathlib.Data.List.Induction
import Mathlib.Data.List.Perm.Subperm

/-
  The lists that the rule for redirections builds.

  Before `&>` the lists of output and of error are apart.  It
  ends both with one node, so that each later word of one list
  is a word of the other one, too, and a second `&>` would
  link its node to itself, which fails an assertion.

  Main declarations:
    * `Lists`, `collect`, `flagsOf`
    * `BothLast`, `targets`
    * `redirectRules_cases`, `redirectRules_lists`
    * `collect_of_bothLast`, `length_lt_of_not_bothLast`
-/

------------------------------------------------------------
-- Adding a Word to a List
------------------------------------------------------------

namespace ProgrammingTasks

namespace Shell

/- The loop ends at the last node of the list. -/
theorem lastNode_linked
    {next : Nat → Option Nat} :
    ∀ {fuel crt : Nat} {l : List Nat},
      Linked next (some crt) (crt :: l) →
      (crt :: l).length ≤ fuel →
        lastNode next fuel crt =
          some ((crt :: l).getLast (List.cons_ne_nil crt l))
| 0, _, _, _, hFuel => by
    cases hFuel
| fuel + 1, crt, [], hLinked, _ => by
    simp only [lastNode]
    rw [show next crt = none from hLinked.2]
    rfl
| fuel + 1, crt, crt' :: l, hLinked, hFuel => by
    have hNext : next crt = some crt' := hLinked.2.1
    have hRest : Linked next (some crt') (crt' :: l) :=
      ⟨rfl, hLinked.2.2⟩
    simp only [lastNode, hNext]
    rw [lastNode_linked hRest (Nat.le_of_succ_le_succ hFuel),
      List.getLast_cons (List.cons_ne_nil crt' l)]

/- What adding a word to a list does to the links. -/
structure Adds
    (next : Nat → Option Nat) (l : List Nat) (w : Nat)
    (head' : Option Nat) (next' : Nat → Option Nat) :
    Prop where
  linked : Linked next' head' (l ++ [w])
  nil : l = [] → next' = next
  cons :
    ∀ hNonempty : l ≠ [],
      next' =
        Function.update next (l.getLast hNonempty) (some w)

theorem addWordToList_new
    {fuel w : Nat} {lst : Option Nat}
    {next : Nat → Option Nat} {l : List Nat}
    (hLinked : Linked next lst l)
    (hFuel : l.length ≤ fuel)
    (hNew : w ∉ l)
    (hEnd : next w = none) :
    ∃ head' next',
      addWordToList fuel w lst next = some (head', next') ∧
        Adds next l w head' next' := by
  cases l with
  | nil =>
      rw [show lst = none from hLinked]
      refine ⟨some w, next, ?_, ⟨rfl, hEnd⟩, fun _ => rfl,
        fun hNonempty => absurd rfl hNonempty⟩
      simp only [addWordToList, if_pos hEnd]
  | cons crt l =>
      have hNonempty := List.cons_ne_nil crt l
      have hHead := hLinked.1
      subst hHead
      have hApart : w ≠ (crt :: l).getLast hNonempty := by
        rintro rfl
        exact hNew (List.getLast_mem hNonempty)
      refine ⟨some crt,
        Function.update next ((crt :: l).getLast hNonempty)
          (some w), ?_,
        hLinked.append_node hNonempty hNew hEnd,
        fun hNil => absurd hNil hNonempty, fun _ => rfl⟩
      simp only [addWordToList, lastNode_linked hLinked hFuel,
        Function.update_of_ne hApart, if_pos hEnd]

/- The assertion fails for a word that the list ends with. -/
theorem addWordToList_last
    {fuel w : Nat} {lst : Option Nat}
    {next : Nat → Option Nat} {l : List Nat}
    (hLinked : Linked next lst (l ++ [w]))
    (hFuel : (l ++ [w]).length ≤ fuel) :
    addWordToList fuel w lst next = none := by
  have hLast :
      ∃ crt, lst = some crt ∧ lastNode next fuel crt = some w := by
    cases l with
    | nil =>
        exact ⟨w, hLinked.1,
          lastNode_linked (l := []) ⟨rfl, hLinked.2⟩ hFuel⟩
    | cons crt l =>
        refine ⟨crt, hLinked.1, ?_⟩
        rw [lastNode_linked (l := l ++ [w])
          ⟨rfl, hLinked.2⟩ hFuel]
        simp
  rcases hLast with ⟨crt, rfl, hNode⟩
  simp [addWordToList, hNode]

namespace Adds

variable {next next' : Nat → Option Nat}
variable {l : List Nat} {w : Nat} {head' : Option Nat}

/- A list that does not meet the changed one stays. -/
theorem linked_apart
    (hAdds : Adds next l w head' next')
    {head : Option Nat} {l' : List Nat}
    (hLinked : Linked next head l')
    (hApart : ∀ a ∈ l, a ∉ l') :
    Linked next' head l' := by
  by_cases hNil : l = []
  · rw [hAdds.nil hNil]
    exact hLinked
  · apply hLinked.congr
    intro a hMem
    rw [hAdds.cons hNil]
    apply Function.update_of_ne
    rintro rfl
    exact hApart _ (List.getLast_mem hNil) hMem

/- A list with the same end grows with the changed one. -/
theorem linked_shared
    (hAdds : Adds next l w head' next')
    {head : Option Nat} {front front' : List Nat} {a : Nat}
    (hSplit : l = front' ++ [a])
    (hLinked : Linked next head (front ++ [a]))
    (hNew : w ∉ front ++ [a])
    (hEnd : next w = none) :
    Linked next' head (front ++ [a] ++ [w]) := by
  subst hSplit
  have hNonempty : front' ++ [a] ≠ [] := by simp
  have hNonempty' : front ++ [a] ≠ [] := by simp
  have hGrows := hLinked.append_node hNonempty' hNew hEnd
  rw [hAdds.cons hNonempty, List.getLast_concat]
  rw [List.getLast_concat] at hGrows
  exact hGrows

/- The new node has no successor. -/
theorem next_new
    (hAdds : Adds next l w head' next') :
    next' w = none := by
  have hLast :=
    hAdds.linked.next_getLast (by simp)
  rwa [List.getLast_concat] at hLast

end Adds

------------------------------------------------------------
-- The Lists That the Rule Builds
------------------------------------------------------------

/- The three lists; `shared` says that `&>` has occurred. -/
structure Lists (α : Type) where
  listI : List α
  listO : List α
  listE : List α
  shared : Bool

namespace Lists

variable {α : Type}

def empty : Lists α := ⟨[], [], [], false⟩

/- A further item, which also ends a shared list. -/
def add (lists : Lists α) (op : RedirectOp) (a : α) : Lists α :=
  match op with
  | .indirect => { lists with listI := lists.listI ++ [a] }
  | .redirectOE =>
      { lists with
        listO := lists.listO ++ [a]
        listE := lists.listE ++ [a]
        shared := true }
  | .redirectO | .redirectAppendO =>
      { lists with
        listO := lists.listO ++ [a]
        listE :=
          if lists.shared then lists.listE ++ [a]
          else lists.listE }
  | .redirectE | .redirectAppendE =>
      { lists with
        listE := lists.listE ++ [a]
        listO :=
          if lists.shared then lists.listO ++ [a]
          else lists.listO }

end Lists

/- The lists of words that the rule leaves. -/
def collect (reds : List Redirection) : Lists Word :=
  reds.foldl (fun lists red => lists.add red.1 red.2) .empty

------------------------------------------------------------
-- The Links That the Rule Leaves
------------------------------------------------------------

/- How the lists of output and error meet. -/
def Ends (shared : Bool) (l l' : List Nat) : Prop :=
  if shared then
    ∃ front front' a, l = front ++ [a] ∧ l' = front' ++ [a]
  else
    ∀ a ∈ l, a ∉ l'

theorem Ends.symm
    {shared : Bool} {l l' : List Nat}
    (hEnds : Ends shared l l') :
    Ends shared l' l := by
  cases shared with
  | true =>
      rcases hEnds with ⟨front, front', a, h, h'⟩
      exact ⟨front', front, a, h', h⟩
  | false =>
      intro a hMem hMem'
      exact hEnds a hMem' hMem

/- The links of the lists of nodes below `n`. -/
structure Builds
    (r : Redirect) (nodes : Lists Nat) (n : Nat) : Prop where
  linkedI : Linked r.nextWord r.redI nodes.listI
  linkedO : Linked r.nextWord r.redO nodes.listO
  linkedE : Linked r.nextWord r.redE nodes.listE
  boundI : ∀ a ∈ nodes.listI, a < n
  boundO : ∀ a ∈ nodes.listO, a < n
  boundE : ∀ a ∈ nodes.listE, a < n
  apartO : ∀ a ∈ nodes.listO, a ∉ nodes.listI
  apartE : ∀ a ∈ nodes.listE, a ∉ nodes.listI
  ends : Ends nodes.shared nodes.listO nodes.listE

/- A chain below a bound is no longer than the bound. -/
theorem length_le_of_linked
    {next : Nat → Option Nat} {head : Option Nat}
    {l : List Nat} {n : Nat}
    (hLinked : Linked next head l)
    (hBound : ∀ a ∈ l, a < n) :
    l.length ≤ n := by
  have hSubset : l ⊆ List.range n := by
    intro a hMem
    exact List.mem_range.mpr (hBound a hMem)
  have hLength :=
    (hLinked.nodup.subperm hSubset).length_le
  rwa [List.length_range] at hLength

/- A node that is not below the bound is in no list. -/
theorem not_mem_of_bound
    {l : List Nat} {n : Nat}
    (hBound : ∀ a ∈ l, a < n) :
    n ∉ l :=
  fun hMem => Nat.lt_irrefl n (hBound n hMem)

theorem bound_append
    {l : List Nat} {n : Nat}
    (hBound : ∀ a ∈ l, a < n) :
    ∀ a ∈ l ++ [n], a < n + 1 := by
  intro a hMem
  rcases List.mem_append.mp hMem with hOld | hNew
  · exact Nat.lt_succ_of_lt (hBound a hOld)
  · rw [List.mem_singleton.mp hNew]
    exact Nat.lt_succ_self n

/-
  Add a node to one of two lists that may share their ends;
  the third list is apart from both.
-/
theorem addWordToList_pair
    {next : Nat → Option Nat}
    {head other third : Option Nat}
    {l l' l'' : List Nat} {shared : Bool} {n fuel : Nat}
    (hLinked : Linked next head l)
    (hOther : Linked next other l')
    (hThird : Linked next third l'')
    (hBound : ∀ a ∈ l, a < n)
    (hBound' : ∀ a ∈ l', a < n)
    (hApart : ∀ a ∈ l, a ∉ l'')
    (hEnds : Ends shared l l')
    (hEnd : next n = none)
    (hFuel : n ≤ fuel) :
    ∃ head' next',
      addWordToList fuel n head next = some (head', next') ∧
        Linked next' head' (l ++ [n]) ∧
        Linked next' other (if shared then l' ++ [n] else l') ∧
        Linked next' third l'' ∧
        next' n = none := by
  have hLength := length_le_of_linked hLinked hBound
  rcases addWordToList_new hLinked (Nat.le_trans hLength hFuel)
      (not_mem_of_bound hBound) hEnd with
    ⟨head', next', hAdd, hAdds⟩
  refine ⟨head', next', hAdd, hAdds.linked, ?_,
    hAdds.linked_apart hThird hApart, hAdds.next_new⟩
  cases shared with
  | false => exact hAdds.linked_apart hOther hEnds
  | true =>
      rcases hEnds with ⟨front, front', a, h, h'⟩
      rw [h'] at hOther hBound'
      have hGrows :=
        hAdds.linked_shared h hOther
          (not_mem_of_bound hBound') hEnd
      rw [if_pos rfl, h']
      exact hGrows

theorem ends_append
    {shared : Bool} {l l' : List Nat} {n : Nat}
    (hBound : ∀ a ∈ l', a < n)
    (hEnds : Ends shared l l') :
    Ends shared (l ++ [n])
      (if shared then l' ++ [n] else l') := by
  cases shared with
  | true => exact ⟨l, l', n, rfl, rfl⟩
  | false =>
      intro a hMem hMem'
      rcases List.mem_append.mp hMem with hOld | hNew
      · exact hEnds a hOld hMem'
      · rw [List.mem_singleton.mp hNew] at hMem'
        exact not_mem_of_bound hBound hMem'

theorem not_mem_append
    {l l' : List Nat} {n : Nat}
    (hApart : ∀ a ∈ l, a ∉ l')
    (hBound' : ∀ a ∈ l', a < n) :
    ∀ a ∈ l ++ [n], a ∉ l' := by
  intro a hMem
  rcases List.mem_append.mp hMem with hOld | hNew
  · exact hApart a hOld
  · rw [List.mem_singleton.mp hNew]
    exact not_mem_of_bound hBound'

theorem forall_shared
    {P : Nat → Prop} {shared : Bool} {l : List Nat} {n : Nat}
    (hOld : ∀ a ∈ l, P a) (hNew : P n) :
    ∀ a ∈ (if shared then l ++ [n] else l), P a := by
  intro a hMem
  split at hMem
  · rcases List.mem_append.mp hMem with hMem | hMem
    · exact hOld a hMem
    · rw [List.mem_singleton.mp hMem]
      exact hNew
  · exact hOld a hMem

/- A new word leaves the lists as they are. -/
theorem Builds.newWord
    {r : Redirect} {nodes : Lists Nat}
    (hBuilds : Builds r nodes r.words.length)
    (w : Word) :
    Builds (newWord r w) nodes r.words.length := by
  have hSame :
      ∀ {head : Option Nat} {l : List Nat},
        (∀ a ∈ l, a < r.words.length) →
        Linked r.nextWord head l →
          Linked (Shell.newWord r w).nextWord head l := by
    intro head l hBound hLinked
    apply hLinked.congr
    intro a hMem
    exact Function.update_of_ne
      (Nat.ne_of_lt (hBound a hMem)) _ _
  exact
    { linkedI := hSame hBuilds.boundI hBuilds.linkedI
      linkedO := hSame hBuilds.boundO hBuilds.linkedO
      linkedE := hSame hBuilds.boundE hBuilds.linkedE
      boundI := hBuilds.boundI
      boundO := hBuilds.boundO
      boundE := hBuilds.boundE
      apartO := hBuilds.apartO
      apartE := hBuilds.apartE
      ends := hBuilds.ends }

section Steps

variable {r : Redirect} {nodes : Lists Nat} {n : Nat}

/- A node for standard input. -/
theorem Builds.addI
    (hBuilds : Builds r nodes n)
    (hFree : r.nextWord n = none)
    (hLength : n ≤ r.words.length) :
    ∃ head next,
      Shell.addI r n =
          some { r with redI := head, nextWord := next } ∧
        Builds { r with redI := head, nextWord := next }
          (nodes.add .indirect n) (n + 1) := by
  have hFuel :=
    Nat.le_trans
      (length_le_of_linked hBuilds.linkedI hBuilds.boundI)
      hLength
  rcases addWordToList_new hBuilds.linkedI hFuel
      (not_mem_of_bound hBuilds.boundI) hFree with
    ⟨head, next, hAdd, hAdds⟩
  refine ⟨head, next, ?_, ?_⟩
  · simp only [Shell.addI, hAdd]
  · exact
      { linkedI := hAdds.linked
        linkedO := hAdds.linked_apart hBuilds.linkedO
          (fun a hMem hMem' => hBuilds.apartO a hMem' hMem)
        linkedE := hAdds.linked_apart hBuilds.linkedE
          (fun a hMem hMem' => hBuilds.apartE a hMem' hMem)
        boundI := bound_append hBuilds.boundI
        boundO := fun a hMem =>
          Nat.lt_succ_of_lt (hBuilds.boundO a hMem)
        boundE := fun a hMem =>
          Nat.lt_succ_of_lt (hBuilds.boundE a hMem)
        apartO := fun a hMem hMem' =>
          not_mem_append
            (fun b hI hO => hBuilds.apartO b hO hI)
            hBuilds.boundO a hMem' hMem
        apartE := fun a hMem hMem' =>
          not_mem_append
            (fun b hI hE => hBuilds.apartE b hE hI)
            hBuilds.boundE a hMem' hMem
        ends := hBuilds.ends }

/- A node for standard output. -/
theorem Builds.addO
    (hBuilds : Builds r nodes n)
    (hFree : r.nextWord n = none)
    (hLength : n ≤ r.words.length) :
    ∃ head next,
      Shell.addO r n =
          some { r with redO := head, nextWord := next } ∧
        Builds { r with redO := head, nextWord := next }
          (nodes.add .redirectO n) (n + 1) ∧
        next n = none := by
  rcases addWordToList_pair hBuilds.linkedO hBuilds.linkedE
      hBuilds.linkedI hBuilds.boundO hBuilds.boundE
      hBuilds.apartO hBuilds.ends hFree hLength with
    ⟨head, next, hAdd, hO, hE, hI, hNext⟩
  refine ⟨head, next, ?_, ?_, hNext⟩
  · simp only [Shell.addO, hAdd]
  · exact
      { linkedI := hI
        linkedO := hO
        linkedE := hE
        boundI := fun a hMem =>
          Nat.lt_succ_of_lt (hBuilds.boundI a hMem)
        boundO := bound_append hBuilds.boundO
        boundE := forall_shared
          (fun a hMem => Nat.lt_succ_of_lt (hBuilds.boundE a hMem))
          (Nat.lt_succ_self n)
        apartO := not_mem_append hBuilds.apartO hBuilds.boundI
        apartE := forall_shared hBuilds.apartE
          (not_mem_of_bound hBuilds.boundI)
        ends := ends_append hBuilds.boundE hBuilds.ends }

/- A node for standard error. -/
theorem Builds.addE
    (hBuilds : Builds r nodes n)
    (hFree : r.nextWord n = none)
    (hLength : n ≤ r.words.length) :
    ∃ head next,
      Shell.addE r n =
          some { r with redE := head, nextWord := next } ∧
        Builds { r with redE := head, nextWord := next }
          (nodes.add .redirectE n) (n + 1) := by
  rcases addWordToList_pair hBuilds.linkedE hBuilds.linkedO
      hBuilds.linkedI hBuilds.boundE hBuilds.boundO
      hBuilds.apartE hBuilds.ends.symm hFree hLength with
    ⟨head, next, hAdd, hE, hO, hI, _⟩
  refine ⟨head, next, ?_, ?_⟩
  · simp only [Shell.addE, hAdd]
  · exact
      { linkedI := hI
        linkedO := hO
        linkedE := hE
        boundI := fun a hMem =>
          Nat.lt_succ_of_lt (hBuilds.boundI a hMem)
        boundE := bound_append hBuilds.boundE
        boundO := forall_shared
          (fun a hMem => Nat.lt_succ_of_lt (hBuilds.boundO a hMem))
          (Nat.lt_succ_self n)
        apartE := not_mem_append hBuilds.apartE hBuilds.boundI
        apartO := forall_shared hBuilds.apartO
          (not_mem_of_bound hBuilds.boundI)
        ends :=
          (ends_append hBuilds.boundO hBuilds.ends.symm).symm }

/- One node for both, while the lists are apart. -/
theorem Builds.addOE
    (hBuilds : Builds r nodes n)
    (hApart : nodes.shared = false)
    (hFree : r.nextWord n = none)
    (hLength : n < r.words.length) :
    ∃ headO headE next,
      (Shell.addO r n).bind (fun r => Shell.addE r n) =
          some
            { r with
              redO := headO, redE := headE, nextWord := next } ∧
        Builds
          { r with
            redO := headO, redE := headE, nextWord := next }
          (nodes.add .redirectOE n) (n + 1) := by
  rcases hBuilds.addO hFree (Nat.le_of_lt hLength) with
    ⟨headO, next, hAddO, hBuildsO, hNext⟩
  have hLinkedE := hBuildsO.linkedE
  simp only [Lists.add, hApart] at hLinkedE
  have hFuel :=
    Nat.le_trans
      (length_le_of_linked hLinkedE hBuilds.boundE)
      (Nat.le_of_lt hLength)
  rcases addWordToList_new hLinkedE hFuel
      (not_mem_of_bound hBuilds.boundE) hNext with
    ⟨headE, next', hAddE, hAdds⟩
  have hEnds := hBuilds.ends
  rw [hApart] at hEnds
  refine ⟨headO, headE, next', ?_, ?_⟩
  · simp only [hAddO, Option.bind_some, Shell.addE]
    have hAddE' :
        addWordToList r.words.length n r.redE next =
          some (headE, next') := hAddE
    rw [hAddE']
  · exact
      { linkedI := hAdds.linked_apart hBuildsO.linkedI
          hBuilds.apartE
        linkedO := hAdds.linked_apart hBuildsO.linkedO
          (fun a hMem hMem' =>
            not_mem_append hEnds hBuilds.boundE a hMem' hMem)
        linkedE := hAdds.linked
        boundI := hBuildsO.boundI
        boundO := hBuildsO.boundO
        boundE := bound_append hBuilds.boundE
        apartO := hBuildsO.apartO
        apartE := not_mem_append hBuilds.apartE hBuilds.boundI
        ends := ⟨nodes.listO, nodes.listE, n, rfl, rfl⟩ }

/- A second `&>` fails: the node is already at the other end. -/
theorem Builds.addOE_shared
    (hBuilds : Builds r nodes n)
    (hShared : nodes.shared = true)
    (hFree : r.nextWord n = none)
    (hLength : n < r.words.length) :
    (Shell.addO r n).bind (fun r => Shell.addE r n) = none := by
  rcases hBuilds.addO hFree (Nat.le_of_lt hLength) with
    ⟨headO, next, hAddO, hBuildsO, hNext⟩
  have hLinkedE := hBuildsO.linkedE
  have hBoundE := hBuildsO.boundE
  simp only [Lists.add, hShared, if_true] at hLinkedE hBoundE
  have hFuel :=
    Nat.le_trans (length_le_of_linked hLinkedE hBoundE) hLength
  simp only [hAddO, Option.bind_some, Shell.addE]
  have hFails :
      addWordToList r.words.length n r.redE next = none :=
    addWordToList_last hLinkedE hFuel
  rw [hFails]

end Steps

------------------------------------------------------------
-- The Words of the Lists
------------------------------------------------------------

/- The flags of a list of redirections. -/
def flagsOf (reds : List Redirection) : Nat :=
  reds.foldl
    (fun flags red =>
      match red.1 with
      | .redirectAppendO => flags ||| ioOutAppend
      | .redirectAppendE => flags ||| ioErrAppend
      | _ => flags)
    ioRegular

/- How often `&>` occurs. -/
def bothCount (reds : List Redirection) : Nat :=
  reds.countP (fun red => red.1 = .redirectOE)

/-
  After `&>` no other redirection of output or error follows;
  in particular it is the only one of its kind.
-/
def BothLast (reds : List Redirection) : Prop :=
  ∀ front red rest,
    reds = front ++ red :: rest →
      red.1 = .redirectOE → ∀ red' ∈ rest, red'.1 = .indirect

/- The nodes of the lists carry the words of the lists. -/
structure Names
    (words : List Word) (nodes : Lists Nat)
    (lists : Lists Word) : Prop where
  listI :
    nodes.listI.map (fun a => words[a]?) = lists.listI.map some
  listO :
    nodes.listO.map (fun a => words[a]?) = lists.listO.map some
  listE :
    nodes.listE.map (fun a => words[a]?) = lists.listE.map some
  shared : nodes.shared = lists.shared

theorem map_words_append
    {words : List Word} {l : List Nat}
    (hBound : ∀ a ∈ l, a < words.length)
    (w : Word) :
    l.map (fun a => (words ++ [w])[a]?) =
      l.map (fun a => words[a]?) := by
  apply List.map_congr_left
  intro a hMem
  exact List.getElem?_append_left (hBound a hMem)

theorem Names.add
    {r : Redirect} {nodes : Lists Nat} {lists : Lists Word}
    (hNames : Names r.words nodes lists)
    (hBuilds : Builds r nodes r.words.length)
    (op : RedirectOp) (w : Word) :
    Names (r.words ++ [w]) (nodes.add op r.words.length)
      (lists.add op w) := by
  have hI := map_words_append hBuilds.boundI w
  have hO := map_words_append hBuilds.boundO w
  have hE := map_words_append hBuilds.boundE w
  rw [hNames.listI] at hI
  rw [hNames.listO] at hO
  rw [hNames.listE] at hE
  have hShared := hNames.shared
  cases op with
  | indirect =>
      exact ⟨by simp [Lists.add, hI], hO, hE, hShared⟩
  | redirectOE =>
      exact ⟨hI, by simp [Lists.add, hO],
        by simp [Lists.add, hE], rfl⟩
  | redirectO =>
      refine ⟨hI, by simp [Lists.add, hO], ?_, hShared⟩
      simp only [Lists.add, hShared]
      split <;> simp [hE]
  | redirectAppendO =>
      refine ⟨hI, by simp [Lists.add, hO], ?_, hShared⟩
      simp only [Lists.add, hShared]
      split <;> simp [hE]
  | redirectE =>
      refine ⟨hI, ?_, by simp [Lists.add, hE], hShared⟩
      simp only [Lists.add, hShared]
      split <;> simp [hO]
  | redirectAppendE =>
      refine ⟨hI, ?_, by simp [Lists.add, hE], hShared⟩
      simp only [Lists.add, hShared]
      split <;> simp [hO]

/- What the rule has built from a list of redirections. -/
structure BuiltFrom
    (reds : List Redirection) (r : Redirect)
    (nodes : Lists Nat) : Prop where
  builds : Builds r nodes r.words.length
  words : r.words = reds.map Prod.snd
  names : Names r.words nodes (collect reds)
  flags : r.redFlags = flagsOf reds
  single : bothCount reds ≤ 1

theorem collect_append
    (reds : List Redirection) (red : Redirection) :
    collect (reds ++ [red]) =
      (collect reds).add red.1 red.2 := by
  simp [collect]

theorem redirectRules_append
    (reds : List Redirection) (red : Redirection) :
    redirectRules (reds ++ [red]) =
      (redirectRules reds).bind
        (fun r => redirectRule r red) := by
  simp [redirectRules, List.foldlM_append]

/- Whether `&>` occurs. -/
theorem collect_shared
    (reds : List Redirection) :
    (collect reds).shared = true ↔
      ∃ red ∈ reds, red.1 = .redirectOE := by
  induction reds using List.reverseRecOn with
  | nil => simp [collect, Lists.empty]
  | append_singleton reds red ih =>
      rw [collect_append]
      simp only [List.mem_append, List.mem_singleton]
      cases hOp : red.1 with
      | redirectOE =>
          refine iff_of_true rfl ⟨red, Or.inr rfl, hOp⟩
      | _ =>
          simp only [Lists.add]
          rw [ih]
          constructor
          · rintro ⟨red', hMem, hBoth⟩
            exact ⟨red', Or.inl hMem, hBoth⟩
          · rintro ⟨red', hMem | hSame, hBoth⟩
            · exact ⟨red', hMem, hBoth⟩
            · rw [hSame, hOp] at hBoth
              cases hBoth

theorem bothCount_append
    (reds : List Redirection) (red : Redirection) :
    bothCount (reds ++ [red]) =
      bothCount reds +
        (if red.1 = .redirectOE then 1 else 0) := by
  by_cases hBoth : red.1 = .redirectOE
  · simp [bothCount, hBoth]
  · simp [bothCount, hBoth]

/- `&>` occurs exactly if the lists are shared. -/
theorem bothCount_eq_zero
    {reds : List Redirection}
    (hApart : (collect reds).shared = false) :
    bothCount reds = 0 := by
  rw [bothCount, List.countP_eq_zero]
  intro red hMem hBoth
  rw [← Bool.not_eq_true, collect_shared] at hApart
  exact hApart ⟨red, hMem, of_decide_eq_true hBoth⟩

theorem bothCount_pos
    {reds : List Redirection}
    (hShared : (collect reds).shared = true) :
    0 < bothCount reds := by
  rw [collect_shared] at hShared
  rcases hShared with ⟨red, hMem, hBoth⟩
  exact List.countP_pos_iff.mpr
    ⟨red, hMem, decide_eq_true hBoth⟩

theorem Builds.orFlags
    {r : Redirect} {nodes : Lists Nat} {n : Nat}
    (hBuilds : Builds r nodes n)
    (flag : Nat) :
    Builds (orFlags flag r) nodes n :=
  { hBuilds with }

/- One more redirection, unless it is a second `&>`. -/
theorem BuiltFrom.rule
    {reds : List Redirection} {r : Redirect}
    {nodes : Lists Nat}
    (hBuilt : BuiltFrom reds r nodes)
    (red : Redirection)
    (hSingle :
      red.1 = .redirectOE → nodes.shared = false) :
    ∃ r', redirectRule r red = some r' ∧
      BuiltFrom (reds ++ [red]) r'
        (nodes.add red.1 r.words.length) := by
  have hNew := hBuilt.builds.newWord red.2
  have hFree : (newWord r red.2).nextWord r.words.length = none :=
    Function.update_self ..
  have hLength :
      r.words.length < (newWord r red.2).words.length := by
    simp [newWord]
  have hNames := hBuilt.names.add hBuilt.builds red.1 red.2
  rw [← collect_append] at hNames
  have hWords :
      r.words ++ [red.2] = (reds ++ [red]).map Prod.snd := by
    rw [hBuilt.words]
    simp
  have hCount : (r.words ++ [red.2]).length = r.words.length + 1 :=
    by simp
  have hCountOE : bothCount (reds ++ [red]) ≤ 1 := by
    have hSingles := hBuilt.single
    rw [bothCount_append]
    split
    · rename_i hBoth
      have hApart := hSingle hBoth
      rw [hBuilt.names.shared] at hApart
      have hZero := bothCount_eq_zero hApart
      omega
    · exact hSingles
  rcases red with ⟨op, w⟩
  cases op with
  | indirect =>
      rcases hNew.addI hFree (Nat.le_of_lt hLength) with
        ⟨head, next, hAdd, hBuilds⟩
      refine ⟨_, hAdd, ?_, hWords, hNames, ?_, hCountOE⟩
      · simpa only [newWord, hCount] using hBuilds
      · simp [newWord, flagsOf, hBuilt.flags]
  | redirectO =>
      rcases hNew.addO hFree (Nat.le_of_lt hLength) with
        ⟨head, next, hAdd, hBuilds, _⟩
      refine ⟨_, hAdd, ?_, hWords, hNames, ?_, hCountOE⟩
      · simpa only [newWord, hCount] using hBuilds
      · simp [newWord, flagsOf, hBuilt.flags]
  | redirectAppendO =>
      rcases hNew.addO hFree (Nat.le_of_lt hLength) with
        ⟨head, next, hAdd, hBuilds, _⟩
      refine ⟨_, congrArg (Option.map (orFlags ioOutAppend)) hAdd,
        ?_, hWords, hNames, ?_, hCountOE⟩
      · have hFlags :
            Builds _ (nodes.add .redirectAppendO r.words.length)
              _ :=
          hBuilds.orFlags ioOutAppend
        simpa only [newWord, orFlags, hCount] using hFlags
      · simp [newWord, orFlags, flagsOf, hBuilt.flags]
  | redirectE =>
      rcases hNew.addE hFree (Nat.le_of_lt hLength) with
        ⟨head, next, hAdd, hBuilds⟩
      refine ⟨_, hAdd, ?_, hWords, hNames, ?_, hCountOE⟩
      · simpa only [newWord, hCount] using hBuilds
      · simp [newWord, flagsOf, hBuilt.flags]
  | redirectAppendE =>
      rcases hNew.addE hFree (Nat.le_of_lt hLength) with
        ⟨head, next, hAdd, hBuilds⟩
      refine ⟨_, congrArg (Option.map (orFlags ioErrAppend)) hAdd,
        ?_, hWords, hNames, ?_, hCountOE⟩
      · have hFlags :
            Builds _ (nodes.add .redirectAppendE r.words.length)
              _ :=
          hBuilds.orFlags ioErrAppend
        simpa only [newWord, orFlags, hCount] using hFlags
      · simp [newWord, orFlags, flagsOf, hBuilt.flags]
  | redirectOE =>
      rcases hNew.addOE (hSingle rfl) hFree hLength with
        ⟨headO, headE, next, hAdd, hBuilds⟩
      refine ⟨_, hAdd, ?_, hWords, hNames, ?_, hCountOE⟩
      · simpa only [newWord, hCount] using hBuilds
      · simp [newWord, flagsOf, hBuilt.flags]

/- The rule after the redirections before. -/
theorem bothLast_append
    (reds : List Redirection) (red : Redirection) :
    BothLast (reds ++ [red]) ↔
      BothLast reds ∧
        (red.1 = .indirect ∨ (collect reds).shared = false) := by
  rw [← Bool.not_eq_true, collect_shared]
  constructor
  · intro hLast
    refine ⟨?_, ?_⟩
    · intro front red' rest hSplit hBoth red'' hMem
      exact hLast front red' (rest ++ [red]) (by simp [hSplit])
        hBoth red'' (List.mem_append_left _ hMem)
    · by_cases hSome : ∃ red' ∈ reds, red'.1 = .redirectOE
      · rcases hSome with ⟨red', hMem, hBoth⟩
        rcases List.append_of_mem hMem with ⟨front, rest, hSplit⟩
        refine Or.inl ?_
        exact hLast front red' (rest ++ [red]) (by simp [hSplit])
          hBoth red
          (List.mem_append_right _ (List.mem_singleton_self _))
      · exact Or.inr hSome
  · rintro ⟨hLast, hRed⟩ front red' rest hSplit hBoth red'' hMem
    rcases List.eq_nil_or_concat rest with
      rfl | ⟨middle, last, rfl⟩
    · cases hMem
    · rw [List.concat_eq_append] at hSplit hMem
      rw [← List.cons_append, ← List.append_assoc] at hSplit
      rcases List.append_inj' hSplit rfl with ⟨hReds, hLastRed⟩
      rcases List.mem_append.mp hMem with hOld | hNew
      · exact hLast front red' middle hReds hBoth red'' hOld
      · rw [List.mem_singleton.mp hNew]
        rw [List.singleton_inj] at hLastRed
        rw [← hLastRed]
        apply hRed.resolve_right
        intro hNone
        exact hNone ⟨red', by simp [hReds], hBoth⟩

/- The rule fails, or it builds the lists. -/
theorem redirectRules_cases
    (reds : List Redirection) :
    (redirectRules reds = none ∧ ¬ BothLast reds) ∨
      ∃ r nodes,
        redirectRules reds = some r ∧
          BuiltFrom reds r nodes := by
  induction reds using List.reverseRecOn with
  | nil =>
      refine Or.inr
        ⟨emptyRedirect, .empty, rfl, ?_, rfl, ?_, rfl, ?_⟩
      · constructor <;> simp [emptyRedirect, Lists.empty, Linked,
          Ends]
      · constructor <;> rfl
      · exact Nat.zero_le 1
  | append_singleton reds red ih =>
      rw [redirectRules_append, bothLast_append]
      rcases ih with ⟨hNone, hNotLast⟩ | ⟨r, nodes, hSome, hBuilt⟩
      · refine Or.inl ⟨by rw [hNone]; rfl, ?_⟩
        exact fun hBoth => hNotLast hBoth.1
      · rw [hSome, Option.bind_some]
        by_cases hFails :
            red.1 = .redirectOE ∧ nodes.shared = true
        · refine Or.inl ⟨?_, ?_⟩
          · have hNew := hBuilt.builds.newWord red.2
            have hFree :
                (newWord r red.2).nextWord r.words.length = none :=
              Function.update_self ..
            have hFailed :=
              hNew.addOE_shared hFails.2 hFree (by simp [newWord])
            simp only [redirectRule, hFails.1]
            exact hFailed
          · rintro ⟨_, hIndirect | hApart⟩
            · rw [hFails.1] at hIndirect
              cases hIndirect
            · rw [← hBuilt.names.shared, hFails.2] at hApart
              cases hApart
        · refine Or.inr ?_
          rcases hBuilt.rule red
              (fun hBoth => by
                rw [← Bool.not_eq_true]
                exact fun hShared => hFails ⟨hBoth, hShared⟩) with
            ⟨r', hRule, hBuilt'⟩
          exact ⟨r', _, hRule, hBuilt'⟩

/- The loops of the shell read the words of the nodes. -/
theorem listWords_linked
    {words : List Word} {next : Nat → Option Nat} :
    ∀ {fuel : Nat} {head : Option Nat}
      {l : List Nat} {ws : List Word},
      Linked next head l →
      l.length ≤ fuel →
      l.map (fun a => words[a]?) = ws.map some →
        listWords words next fuel head = ws
| 0, _, [], [], _, _, _ => rfl
| _ + 1, head, [], [], hLinked, _, _ => by
    rw [show head = none from hLinked]
    rfl
| fuel + 1, head, a :: l, w :: ws, hLinked, hFuel, hNames => by
    simp only [List.map_cons, List.cons.injEq] at hNames
    rw [hLinked.1]
    simp only [listWords, hNames.1, Option.toList_some,
      List.singleton_append]
    rw [listWords_linked hLinked.2
      (Nat.le_of_succ_le_succ hFuel) hNames.2]
| 0, _, _ :: _, _, _, hFuel, _ => by
    cases hFuel
| _, _, [], _ :: _, _, _, hNames => by
    cases hNames
| _, _, _ :: _, [], _, _, hNames => by
    cases hNames

/- The words of the lists that the rule has built. -/
theorem redirectRules_lists
    {reds : List Redirection} {r : Redirect}
    (hSome : redirectRules reds = some r) :
    r.wordsI = (collect reds).listI ∧
      r.wordsO = (collect reds).listO ∧
      r.wordsE = (collect reds).listE ∧
      r.redFlags = flagsOf reds ∧
      bothCount reds ≤ 1 := by
  rcases redirectRules_cases reds with
    ⟨hNone, _⟩ | ⟨r', nodes, hSome', hBuilt⟩
  · rw [hNone] at hSome
    cases hSome
  · cases hSome'.symm.trans hSome
    have hBuilds := hBuilt.builds
    refine ⟨?_, ?_, ?_, hBuilt.flags, hBuilt.single⟩
    · exact listWords_linked hBuilds.linkedI
        (length_le_of_linked hBuilds.linkedI hBuilds.boundI)
        hBuilt.names.listI
    · exact listWords_linked hBuilds.linkedO
        (length_le_of_linked hBuilds.linkedO hBuilds.boundO)
        hBuilt.names.listO
    · exact listWords_linked hBuilds.linkedE
        (length_le_of_linked hBuilds.linkedE hBuilds.boundE)
        hBuilt.names.listE

------------------------------------------------------------
-- The Redirections of a Descriptor
------------------------------------------------------------

/- The descriptors that an operator is for. -/
def affects (op : RedirectOp) (d : Nat) : Bool :=
  match op with
  | .indirect => d = 0
  | .redirectO | .redirectAppendO => d = 1
  | .redirectE | .redirectAppendE => d = 2
  | .redirectOE => d = 1 || d = 2

/- The redirections of a descriptor, as they are written. -/
def redirectionsOf
    (d : Nat) (reds : List Redirection) : List Redirection :=
  reds.filter (fun red => affects red.1 d)

/- The words of the redirections of a descriptor. -/
def targets (d : Nat) (reds : List Redirection) : List Word :=
  (redirectionsOf d reds).map Prod.snd

theorem targets_append
    (d : Nat) (reds : List Redirection) (red : Redirection) :
    targets d (reds ++ [red]) =
      targets d reds ++
        (if affects red.1 d then [red.2] else []) := by
  unfold targets redirectionsOf
  rw [List.filter_append, List.map_append]
  by_cases hAffects : affects red.1 d = true
  · simp [hAffects]
  · simp [hAffects]

theorem collect_listI
    (reds : List Redirection) :
    (collect reds).listI = targets 0 reds := by
  induction reds using List.reverseRecOn with
  | nil => rfl
  | append_singleton reds red ih =>
      rw [collect_append, targets_append, ← ih]
      rcases red with ⟨op, w⟩
      cases op <;> simp [Lists.add, affects]

/- With `&>` in the last place the lists are as written. -/
theorem collect_of_bothLast
    {reds : List Redirection}
    (hLast : BothLast reds) :
    (collect reds).listO = targets 1 reds ∧
      (collect reds).listE = targets 2 reds := by
  induction reds using List.reverseRecOn with
  | nil => exact ⟨rfl, rfl⟩
  | append_singleton reds red ih =>
      rw [bothLast_append] at hLast
      rw [collect_append, targets_append, targets_append,
        ← (ih hLast.1).1, ← (ih hLast.1).2]
      rcases red with ⟨op, w⟩
      rcases hLast.2 with hIndirect | hApart
      · cases hIndirect
        simp [Lists.add, affects]
      · cases op <;> simp [Lists.add, affects, hApart]

theorem length_targets_append
    (d : Nat) (reds : List Redirection) (red : Redirection) :
    (targets d (reds ++ [red])).length =
      (targets d reds).length +
        (if affects red.1 d then 1 else 0) := by
  rw [targets_append]
  split
  · simp
  · simp

/- A list gets every word that is written for it. -/
theorem length_add_le
    (lists : Lists Word) (op : RedirectOp) (w : Word) :
    lists.listO.length + (if affects op 1 then 1 else 0) ≤
        (lists.add op w).listO.length ∧
      lists.listE.length + (if affects op 2 then 1 else 0) ≤
        (lists.add op w).listE.length := by
  cases hShared : lists.shared with
  | true =>
      cases op <;> simp [Lists.add, affects, hShared]
  | false =>
      cases op <;> simp [Lists.add, affects, hShared]

/- The lists have at least the words that are written. -/
theorem length_targets_le
    (reds : List Redirection) :
    (targets 1 reds).length ≤ (collect reds).listO.length ∧
      (targets 2 reds).length ≤ (collect reds).listE.length := by
  induction reds using List.reverseRecOn with
  | nil => exact ⟨Nat.le_refl _, Nat.le_refl _⟩
  | append_singleton reds red ih =>
      have hAdd := length_add_le (collect reds) red.1 red.2
      rw [collect_append, length_targets_append,
        length_targets_append]
      omega

/- Otherwise a list has a word that is written for another. -/
theorem length_lt_of_not_bothLast
    {reds : List Redirection}
    (hSingle : bothCount reds ≤ 1)
    (hNotLast : ¬ BothLast reds) :
    (targets 1 reds).length + (targets 2 reds).length <
      (collect reds).listO.length +
        (collect reds).listE.length := by
  induction reds using List.reverseRecOn with
  | nil =>
      exfalso
      apply hNotLast
      intro front red rest hSplit
      simp at hSplit
  | append_singleton reds red ih =>
      rw [bothCount_append] at hSingle
      rw [bothLast_append] at hNotLast
      have hLess := length_targets_le reds
      have hAdd := length_add_le (collect reds) red.1 red.2
      rw [collect_append, length_targets_append,
        length_targets_append]
      by_cases hBefore : BothLast reds
      · have hOp : red.1 ≠ .indirect :=
          fun hIndirect => hNotLast ⟨hBefore, Or.inl hIndirect⟩
        have hShared : (collect reds).shared = true := by
          rw [← Bool.not_eq_false]
          exact fun hApart => hNotLast ⟨hBefore, Or.inr hApart⟩
        have hPositive := bothCount_pos hShared
        rcases red with ⟨op, w⟩
        cases op with
        | indirect => exact absurd rfl hOp
        | redirectOE =>
            simp only [if_true] at hSingle
            omega
        | redirectO =>
            simp [Lists.add, affects, hShared]
            omega
        | redirectAppendO =>
            simp [Lists.add, affects, hShared]
            omega
        | redirectE =>
            simp [Lists.add, affects, hShared]
            omega
        | redirectAppendE =>
            simp [Lists.add, affects, hShared]
            omega
      · have hAlready := ih (by omega) hBefore
        omega

end Shell

end ProgrammingTasks
