import Mathlib.Data.List.Basic
import Mathlib.Logic.Function.Basic

/-
  Digital trees: every path of symbols leads to at most one
  node, and every node carries a label.

  Main declarations:
    * `DigitalTree.lookup`
    * `DigitalTree.modify`, `DigitalTree.makePath`
    * `DigitalTree.lookup_modify`
    * `DigitalTree.lookup_makePath`
    * `DigitalTree.entries`, `DigitalTree.entries_sorted`
-/

------------------------------------------------------------
-- Trees and Paths
------------------------------------------------------------

/-
  A tree over the symbols `ι` with labels in `α`; `null` is
  the tree without a node.
-/
inductive DigitalTree (ι α : Type)
| null
| node
    (label : α)
    (children : ι → DigitalTree ι α)

namespace DigitalTree

variable {ι α : Type}

/- The subtree at the end of a path. -/
def subtree :
    List ι → DigitalTree ι α → DigitalTree ι α
| [], t => t
| _ :: _, null => null
| i :: path, node _ children => subtree path (children i)

/- The label of the root, if there is a node. -/
def label? : DigitalTree ι α → Option α
| null => none
| node label _ => some label

/- The label at the end of a path. -/
def lookup (path : List ι) (t : DigitalTree ι α) : Option α :=
  (subtree path t).label?

/- The tree itself, or a new leaf in the place of `null`. -/
def orLeaf (fresh : α) :
    DigitalTree ι α → DigitalTree ι α
| null => node fresh (fun _ => null)
| node label children => node label children

section Updates

variable [DecidableEq ι]

/- Change the label at the end of a path, if it is there. -/
def modify (f : α → α) :
    List ι → DigitalTree ι α → DigitalTree ι α
| _, null => null
| [], node label children => node (f label) children
| i :: path, node label children =>
    node label
      (Function.update children i
        (modify f path (children i)))

/- Create the missing nodes of a path with a fresh label. -/
def makePath (fresh : α) :
    List ι → DigitalTree ι α → DigitalTree ι α
| _, null => null
| [], node label children => node label children
| i :: path, node label children =>
    node label
      (Function.update children i
        (makePath fresh path (orLeaf fresh (children i))))

end Updates

------------------------------------------------------------
-- Lookup
------------------------------------------------------------

@[simp] theorem lookup_null (path : List ι) :
    lookup path (null : DigitalTree ι α) = none := by
  cases path <;> rfl

@[simp] theorem lookup_nil_node
    (label : α) (children : ι → DigitalTree ι α) :
    lookup [] (node label children) = some label :=
  rfl

@[simp] theorem lookup_cons_node
    (i : ι) (path : List ι)
    (label : α) (children : ι → DigitalTree ι α) :
    lookup (i :: path) (node label children) =
      lookup path (children i) :=
  rfl

/- A fresh leaf has its own label and no other node. -/
theorem lookup_leaf (fresh : α) (path : List ι) :
    lookup path (node fresh (fun _ => null)) =
      if path = [] then some fresh else none := by
  cases path with
  | nil => rfl
  | cons i path => simp

section Updates

variable [DecidableEq ι]

/- Only the label at the end of the path changes. -/
theorem lookup_modify (f : α → α) :
    ∀ (path path' : List ι) (t : DigitalTree ι α),
      lookup path' (modify f path t) =
        if path' = path then
          (lookup path' t).map f
        else
          lookup path' t
| path, path', null => by
    cases path <;> simp [modify]
| [], path', node label children => by
    cases path' <;> simp [modify]
| i :: path, path', node label children => by
    cases path' with
    | nil =>
        simp [modify]
    | cons j path' =>
        by_cases hSymbol : j = i
        · subst hSymbol
          simp [modify,
            lookup_modify f path path' (children j)]
        · simp [modify, hSymbol]

/- A modified node is still a node. -/
theorem modify_ne_null
    (f : α → α) (path : List ι)
    {t : DigitalTree ι α}
    (hNode : t ≠ null) :
    modify f path t ≠ null := by
  cases t with
  | null =>
      exact absurd rfl hNode
  | node label children =>
      cases path <;> intro hNull <;> cases hNull

/- The nodes of the path are there, the others as before. -/
theorem lookup_makePath (fresh : α) :
    ∀ (path path' : List ι)
      (label : α) (children : ι → DigitalTree ι α),
      lookup path' (makePath fresh path (node label children)) =
        (lookup path' (node label children)).or
          (if path' <+: path then some fresh else none)
| [], path', label, children => by
    cases path' with
    | nil =>
        simp [makePath]
    | cons j path' =>
        simp [makePath]
| i :: path, path', label, children => by
    cases path' with
    | nil =>
        simp [makePath]
    | cons j path' =>
        by_cases hSymbol : j = i
        · subst hSymbol
          cases hChild : children j with
          | null =>
              have hPath :=
                lookup_makePath fresh path path' fresh
                  (fun _ => null)
              simp only [makePath, lookup_cons_node,
                Function.update_self, hChild, orLeaf, hPath,
                lookup_leaf, lookup_null]
              cases path' <;> simp
          | node childLabel grandchildren =>
              have hPath :=
                lookup_makePath fresh path path' childLabel
                  grandchildren
              simp [makePath, hChild, orLeaf, hPath]
        · simp [makePath, hSymbol]

/- A path that was made leads to a node. -/
theorem lookup_makePath_self
    (fresh : α) (path : List ι)
    (label : α) (children : ι → DigitalTree ι α) :
    lookup path (makePath fresh path (node label children)) =
      some ((lookup path (node label children)).getD fresh) := by
  rw [lookup_makePath]
  cases lookup path (node label children) <;> simp

end Updates

/- The end of a path is that of its second part below. -/
theorem subtree_append :
    ∀ (front rest : List ι) (t : DigitalTree ι α),
      subtree (front ++ rest) t = subtree rest (subtree front t)
| [], _, _ => rfl
| _ :: _, [], null => rfl
| _ :: _, _ :: _, null => rfl
| _ :: front, rest, node _ children =>
    subtree_append front rest (children _)

theorem lookup_append
    (front rest : List ι)
    (t : DigitalTree ι α) :
    lookup (front ++ rest) t = lookup rest (subtree front t) := by
  rw [lookup, subtree_append, lookup]

------------------------------------------------------------
-- Entries in Pre-Order
------------------------------------------------------------

/-
  The paths of all nodes with their labels, in the order of a
  traversal that visits the children as `symbols` lists them.
-/
def entries (symbols : List ι) :
    DigitalTree ι α → List (List ι × α)
| null => []
| node label children =>
    ([], label) ::
      symbols.flatMap (fun i =>
        (entries symbols (children i)).map
          (fun e => (i :: e.1, e.2)))

variable {symbols : List ι}

/- The entries are the labels that can be looked up. -/
theorem mem_entries_iff
    (hAll : ∀ i, i ∈ symbols)
    {label : α} :
    ∀ {path : List ι} {t : DigitalTree ι α},
      (path, label) ∈ entries symbols t ↔
        lookup path t = some label
| path, null => by
    rw [lookup_null]
    simp [entries]
| [], node root children => by
    simp [entries, eq_comm]
| i :: path, node root children => by
    have hChild :
        (path, label) ∈ entries symbols (children i) ↔
          lookup path (children i) = some label :=
      mem_entries_iff hAll
    rw [lookup_cons_node, ← hChild]
    simp [entries, hAll]

/- The paths of the entries ascend lexicographically. -/
theorem entries_sorted
    {r : ι → ι → Prop}
    (hSorted : symbols.Pairwise r) :
    ∀ t : DigitalTree ι α,
      (entries symbols t).Pairwise
        (fun a b => List.Lex r a.1 b.1)
| null => List.Pairwise.nil
| node label children => by
    refine List.pairwise_cons.mpr ⟨?_, ?_⟩
    · intro e hMem
      rcases List.mem_flatMap.mp hMem with ⟨i, _, hChild⟩
      rcases List.mem_map.mp hChild with ⟨e', _, rfl⟩
      exact List.Lex.nil
    · refine List.pairwise_flatMap.mpr ⟨?_, ?_⟩
      · intro i _
        refine List.pairwise_map.mpr ?_
        exact (entries_sorted hSorted (children i)).imp
          List.Lex.cons
      · refine hSorted.imp ?_
        intro i j hLess x hX y hY
        rcases List.mem_map.mp hX with ⟨x', _, rfl⟩
        rcases List.mem_map.mp hY with ⟨y', _, rfl⟩
        exact List.Lex.rel hLess

/-
  Folding over the entries by their labels visits a node
  first and then its children.
-/
theorem foldl_entries_node
    {σ : Type}
    (visit : σ → α → σ)
    (label : α)
    (children : ι → DigitalTree ι α)
    (acc : σ) :
    (entries symbols (node label children)).foldl
        (fun acc e => visit acc e.2) acc =
      symbols.foldl
        (fun acc i =>
          (entries symbols (children i)).foldl
            (fun acc e => visit acc e.2) acc)
        (visit acc label) := by
  simp only [entries, List.foldl_cons, List.foldl_flatMap,
    List.foldl_map]

end DigitalTree
