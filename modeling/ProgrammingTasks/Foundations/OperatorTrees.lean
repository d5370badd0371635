import Mathlib.Data.List.Basic

/-
  Trees of binary operators with levels.

  An operator of a higher level binds tighter, and operators of
  one level group to the left.  A tree that obeys this is
  determined by its operands and operators from left to right.
  It is built by inserting one operator with its right operand
  after another, or with a stack of operators that still wait
  for their right operands.

  Main declarations:
    * `OperatorTree`, `Lawful`
    * `insert`, `assemble`
    * `lawful_assemble`, `Lawful.eq_assemble`
    * `close`, `settle`, `insert_close`
-/

------------------------------------------------------------
-- Trees
------------------------------------------------------------

inductive OperatorTree (Op L : Type)
| leaf (a : L)
| node (op : Op) (left right : OperatorTree Op L)

namespace OperatorTree

variable {Op L : Type}

/- The leftmost operand. -/
def first : OperatorTree Op L → L
| .leaf a => a
| .node _ left _ => left.first

/- The operators, each with the operand that follows it. -/
def items : OperatorTree Op L → List (Op × L)
| .leaf _ => []
| .node op left right =>
    left.items ++ (op, right.first) :: right.items

/- The operator at the root, if any, has at least this level. -/
def AtLeast (level : Op → ℕ) (n : ℕ) :
    OperatorTree Op L → Prop
| .leaf _ => True
| .node op _ _ => n ≤ level op

/-
  No operator is below one that binds tighter, and to the right
  none is below one of the same level.
-/
def Lawful (level : Op → ℕ) : OperatorTree Op L → Prop
| .leaf _ => True
| .node op left right =>
    AtLeast level (level op) left ∧
      AtLeast level (level op + 1) right ∧
        Lawful level left ∧ Lawful level right

------------------------------------------------------------
-- Building a Tree from Left to Right
------------------------------------------------------------

/- Put a further operator and operand behind a tree. -/
def insert (level : Op → ℕ) (op : Op) (a : L) :
    OperatorTree Op L → OperatorTree Op L
| .leaf b => .node op (.leaf b) (.leaf a)
| .node op' left right =>
    if level op' < level op then
      .node op' left (insert level op a right)
    else
      .node op (.node op' left right) (.leaf a)

/- Put several of them behind a tree. -/
def extend (level : Op → ℕ) (tree : OperatorTree Op L)
    (l : List (Op × L)) : OperatorTree Op L :=
  l.foldl (fun tree x => insert level x.1 x.2 tree) tree

def assemble (level : Op → ℕ) (a : L) (l : List (Op × L)) :
    OperatorTree Op L :=
  extend level (.leaf a) l

section Building

variable {level : Op → ℕ}

theorem AtLeast.mono
    {m n : ℕ} {tree : OperatorTree Op L}
    (hRoot : AtLeast level n tree)
    (hLess : m ≤ n) :
    AtLeast level m tree := by
  cases tree with
  | leaf a => trivial
  | node op left right => exact Nat.le_trans hLess hRoot

theorem first_insert
    (op : Op) (a : L) (tree : OperatorTree Op L) :
    (insert level op a tree).first = tree.first := by
  cases tree with
  | leaf b => rfl
  | node op' left right =>
      unfold insert
      split
      · rfl
      · rfl

theorem items_insert
    (op : Op) (a : L) (tree : OperatorTree Op L) :
    (insert level op a tree).items =
      tree.items ++ [(op, a)] := by
  induction tree with
  | leaf b => rfl
  | node op' left right ihLeft ihRight =>
      unfold insert
      split
      · rw [items, items, first_insert, ihRight,
          List.append_assoc, List.cons_append]
      · rfl

theorem atLeast_insert
    {n : ℕ} {op : Op} {tree : OperatorTree Op L}
    (a : L)
    (hRoot : AtLeast level n tree)
    (hLess : n ≤ level op) :
    AtLeast level n (insert level op a tree) := by
  cases tree with
  | leaf b => exact hLess
  | node op' left right =>
      unfold insert
      split
      · exact hRoot
      · exact hLess

theorem lawful_insert
    (op : Op) (a : L) {tree : OperatorTree Op L}
    (hLawful : Lawful level tree) :
    Lawful level (insert level op a tree) := by
  induction tree with
  | leaf b => exact ⟨trivial, trivial, trivial, trivial⟩
  | node op' left right ihLeft ihRight =>
      rcases hLawful with ⟨hLeft, hRight, hBelow, hBelow'⟩
      unfold insert
      split
      · rename_i hTighter
        exact ⟨hLeft, atLeast_insert a hRight hTighter, hBelow,
          ihRight hBelow'⟩
      · rename_i hLooser
        exact ⟨Nat.not_lt.mp hLooser, trivial,
          ⟨hLeft, hRight, hBelow, hBelow'⟩, trivial⟩

theorem extend_append
    (tree : OperatorTree Op L) (l l' : List (Op × L)) :
    extend level tree (l ++ l') =
      extend level (extend level tree l) l' :=
  List.foldl_append

theorem lawful_extend
    {tree : OperatorTree Op L}
    (hLawful : Lawful level tree)
    (l : List (Op × L)) :
    Lawful level (extend level tree l) := by
  induction l generalizing tree with
  | nil => exact hLawful
  | cons x l ih => exact ih (lawful_insert x.1 x.2 hLawful)

theorem items_extend
    (tree : OperatorTree Op L) (l : List (Op × L)) :
    (extend level tree l).items = tree.items ++ l := by
  induction l generalizing tree with
  | nil => exact (List.append_nil _).symm
  | cons x l ih =>
      have hRest := ih (insert level x.1 x.2 tree)
      rw [items_insert, List.append_assoc] at hRest
      exact hRest

theorem first_extend
    (tree : OperatorTree Op L) (l : List (Op × L)) :
    (extend level tree l).first = tree.first := by
  induction l generalizing tree with
  | nil => rfl
  | cons x l ih =>
      exact (ih _).trans (first_insert x.1 x.2 tree)

/- Every list of operands and operators has a lawful tree. -/
theorem lawful_assemble (a : L) (l : List (Op × L)) :
    Lawful level (assemble level a l) := by
  have hLeaf : Lawful level (.leaf a : OperatorTree Op L) :=
    trivial
  exact lawful_extend hLeaf l

@[simp]
theorem items_assemble (a : L) (l : List (Op × L)) :
    (assemble level a l).items = l :=
  items_extend (.leaf a) l

@[simp]
theorem first_assemble (a : L) (l : List (Op × L)) :
    (assemble level a l).first = a :=
  first_extend (.leaf a) l

/- The level of the root is the lowest one of a lawful tree. -/
theorem Lawful.le_level
    {n : ℕ} {tree : OperatorTree Op L}
    (hLawful : Lawful level tree)
    (hRoot : AtLeast level n tree) :
    ∀ x ∈ tree.items, n ≤ level x.1 := by
  induction tree generalizing n with
  | leaf a =>
      intro x hMem
      cases hMem
  | node op left right ihLeft ihRight =>
      rcases hLawful with ⟨hLeft, hRight, hBelow, hBelow'⟩
      intro x hMem
      rcases List.mem_append.mp hMem with hMem | hMem
      · exact ihLeft hBelow (hLeft.mono hRoot) x hMem
      · rcases List.mem_cons.mp hMem with rfl | hMem
        · exact hRoot
        · exact ihRight hBelow'
            (hRight.mono (Nat.le_succ_of_le hRoot)) x hMem

/- What binds tighter than the root goes to its right. -/
theorem extend_node
    {op : Op} {left : OperatorTree Op L}
    {l : List (Op × L)}
    (hTighter : ∀ x ∈ l, level op < level x.1)
    (right : OperatorTree Op L) :
    extend level (.node op left right) l =
      .node op left (extend level right l) := by
  induction l generalizing right with
  | nil => rfl
  | cons x l ih =>
      have hInsert :
          insert level x.1 x.2 (.node op left right) =
            .node op left (insert level x.1 x.2 right) :=
        if_pos (hTighter x List.mem_cons_self)
      have hRest :=
        ih (fun y hMem => hTighter y (List.mem_cons_of_mem _ hMem))
          (insert level x.1 x.2 right)
      rw [← hInsert] at hRest
      exact hRest

/- An operator goes above a tree that binds as tight. -/
theorem insert_of_atLeast
    {op : Op} {tree : OperatorTree Op L}
    (a : L)
    (hRoot : AtLeast level (level op) tree) :
    insert level op a tree = .node op tree (.leaf a) := by
  cases tree with
  | leaf b => rfl
  | node op' left right => exact if_neg (Nat.not_lt.mpr hRoot)

/- A lawful tree is the one built from what it is made of. -/
theorem Lawful.eq_assemble
    {tree : OperatorTree Op L}
    (hLawful : Lawful level tree) :
    assemble level tree.first tree.items = tree := by
  induction tree with
  | leaf a => rfl
  | node op left right ihLeft ihRight =>
      rcases hLawful with ⟨hLeft, hRight, hBelow, hBelow'⟩
      have hTighter := hBelow'.le_level hRight
      have hBuilt := ihLeft hBelow
      have hBuilt' := ihRight hBelow'
      unfold assemble at hBuilt hBuilt' ⊢
      rw [items, extend_append, first, hBuilt]
      change
        extend level (insert level op right.first left)
          right.items = _
      rw [insert_of_atLeast _ hLeft, extend_node hTighter,
        hBuilt']

/- No other lawful tree is made of the same. -/
theorem Lawful.unique
    {tree tree' : OperatorTree Op L}
    (hLawful : Lawful level tree)
    (hLawful' : Lawful level tree')
    (hFirst : tree.first = tree'.first)
    (hItems : tree.items = tree'.items) :
    tree = tree' := by
  rw [← hLawful.eq_assemble, hFirst, hItems,
    hLawful'.eq_assemble]

end Building

------------------------------------------------------------
-- Waiting Operators
------------------------------------------------------------

/-
  Operators with their left operands that wait for the right
  ones, the innermost first: the tree when they get them.
-/
def close (tree : OperatorTree Op L) :
    List (OperatorTree Op L × Op) → OperatorTree Op L
| [] => tree
| (left, op) :: waiting => close (.node op left tree) waiting

/- Complete the ones that bind as tight as the next operator. -/
def settle (level : Op → ℕ) (next : Op)
    (tree : OperatorTree Op L) :
    List (OperatorTree Op L × Op) →
      OperatorTree Op L × List (OperatorTree Op L × Op)
| [] => (tree, [])
| (left, op) :: waiting =>
    if level next ≤ level op then
      settle level next (.node op left tree) waiting
    else
      (tree, (left, op) :: waiting)

section Waiting

variable {level : Op → ℕ}

/- An inner operator binds tighter than an outer one. -/
def Rising (level : Op → ℕ)
    (waiting : List (OperatorTree Op L × Op)) : Prop :=
  waiting.Pairwise fun x y => level y.2 < level x.2

/- What binds tighter goes into the innermost operand. -/
theorem insert_close_of_lt
    {op : Op} {waiting : List (OperatorTree Op L × Op)}
    (a : L)
    (hTighter : ∀ x ∈ waiting, level x.2 < level op)
    (tree : OperatorTree Op L) :
    insert level op a (close tree waiting) =
      close (insert level op a tree) waiting := by
  induction waiting generalizing tree with
  | nil => rfl
  | cons x waiting ih =>
      have hInsert :
          insert level op a (.node x.2 x.1 tree) =
            .node x.2 x.1 (insert level op a tree) :=
        if_pos (hTighter x List.mem_cons_self)
      have hRest :=
        ih (fun y hMem => hTighter y (List.mem_cons_of_mem _ hMem))
          (.node x.2 x.1 tree)
      rw [hInsert] at hRest
      exact hRest

theorem close_settle
    (next : Op) (tree : OperatorTree Op L)
    (waiting : List (OperatorTree Op L × Op)) :
    close (settle level next tree waiting).1
        (settle level next tree waiting).2 =
      close tree waiting := by
  induction waiting generalizing tree with
  | nil => rfl
  | cons x waiting ih =>
      unfold settle
      split
      · exact ih _
      · rfl

/- The ones that are left bind less tight and still rise. -/
theorem settle_rising
    {waiting : List (OperatorTree Op L × Op)}
    (hRising : Rising level waiting)
    (next : Op) (tree : OperatorTree Op L) :
    Rising level (settle level next tree waiting).2 ∧
      ∀ x ∈ (settle level next tree waiting).2,
        level x.2 < level next := by
  induction waiting generalizing tree with
  | nil => exact ⟨List.Pairwise.nil, fun x hMem => by cases hMem⟩
  | cons x waiting ih =>
      rcases List.pairwise_cons.mp hRising with ⟨hOuter, hRest⟩
      unfold settle
      split
      · exact ih hRest _
      · rename_i hLooser
        refine ⟨hRising, ?_⟩
        intro y hMem
        rcases List.mem_cons.mp hMem with rfl | hMem
        · exact Nat.not_le.mp hLooser
        · exact Nat.lt_trans (hOuter y hMem)
            (Nat.not_le.mp hLooser)

/- They still rise with the next operator on top. -/
theorem rising_cons_settle
    {waiting : List (OperatorTree Op L × Op)}
    (hRising : Rising level waiting)
    (next : Op) (tree left : OperatorTree Op L) :
    Rising level
      ((left, next) :: (settle level next tree waiting).2) :=
  List.pairwise_cons.mpr (settle_rising hRising next tree).symm

theorem settle_atLeast
    {next : Op} {tree : OperatorTree Op L}
    (hRoot : AtLeast level (level next) tree)
    (waiting : List (OperatorTree Op L × Op)) :
    AtLeast level (level next)
      (settle level next tree waiting).1 := by
  induction waiting generalizing tree with
  | nil => exact hRoot
  | cons x waiting ih =>
      unfold settle
      split
      · rename_i hTight
        exact ih hTight
      · exact hRoot

/-
  With a stack of waiting operators the next one is inserted
  where its level puts it.
-/
theorem insert_close
    {next : Op} {tree : OperatorTree Op L}
    {waiting : List (OperatorTree Op L × Op)}
    (a : L)
    (hRising : Rising level waiting)
    (hRoot : AtLeast level (level next) tree) :
    insert level next a (close tree waiting) =
      close (.leaf a)
        (((settle level next tree waiting).1, next) ::
          (settle level next tree waiting).2) := by
  have hLeft := settle_rising hRising next tree
  rw [← close_settle next tree waiting,
    insert_close_of_lt a hLeft.2,
    insert_of_atLeast a (settle_atLeast hRoot waiting)]
  rfl

end Waiting

end OperatorTree
