import ProgrammingTasks.Trie.Operations

/-
  What the calls of the trie do to the node of each key.

  A key over the alphabet is a path of the tree, different
  keys are different paths, and so each call is described by
  the labels it leaves at the keys.

  Main declarations:
    * `Supported`, `labelAt`
    * `addWalk_eq`, `searchFrom_eq`
    * `labelAt_add`, `labelAt_remove`
-/

------------------------------------------------------------
-- Letters and Paths
------------------------------------------------------------

namespace ProgrammingTasks

namespace Trie

/- The letters in the order of their codes. -/
def alphabet : List Char :=
  [ '!', '(', ')', '-', '0', '1', '2', '3', '4', '5', '6',
    '7', '8', '9', '?', 'A', 'B', 'C', 'D', 'E', 'F', 'G',
    'H', 'I', 'J', 'K', 'L', 'M', 'N', 'O', 'P', 'Q', 'R',
    'S', 'T', 'U', 'V', 'W', 'X', 'Y', 'Z', '_', 'a', 'b',
    'c', 'd', 'e', 'f', 'g', 'h', 'i', 'j', 'k', 'l', 'm',
    'n', 'o', 'p', 'q', 'r', 's', 't', 'u', 'v', 'w', 'x',
    'y', 'z' ]

/- The letter of a code: the inverse of `encode`. -/
def decode (code : Nat) : Char :=
  alphabet.getD (code - 1) ' '

theorem decode_encode
    {letter : Char}
    (hLetter : InAlphabet letter) :
    decode (encode letter) = letter := by
  revert hLetter
  unfold InAlphabet encode
  split
  all_goals
    intro hLetter
    first
    | rfl
    | exact absurd rfl hLetter

theorem encode_le (letter : Char) : encode letter ≤ 68 := by
  unfold encode
  split <;> decide

/- A letter with a code has a place. -/
theorem index_eq_some
    {letter : Char}
    (hLetter : InAlphabet letter) :
    ∃ i, index letter = some i := by
  have hRange : 1 ≤ encode letter ∧ encode letter ≤ 68 :=
    ⟨Nat.pos_of_ne_zero hLetter, encode_le letter⟩
  exact ⟨⟨encode letter - 1, by omega⟩, dif_pos hRange⟩

/- The place of a letter tells the letter. -/
theorem decode_index
    {letter : Char} {i : Fin 68}
    (hIndex : index letter = some i) :
    decode (i.val + 1) = letter := by
  unfold index at hIndex
  split at hIndex
  · rename_i hRange
    cases hIndex
    have hCode : encode letter - 1 + 1 = encode letter := by
      omega
    have hLetter : InAlphabet letter :=
      Nat.ne_of_gt hRange.1
    rw [hCode, decode_encode hLetter]
  · cases hIndex

/- All letters of a key have a code. -/
def Supported (letters : List Char) : Prop :=
  ∀ ch ∈ letters, InAlphabet ch

instance (letters : List Char) :
    Decidable (Supported letters) :=
  List.decidableBAll InAlphabet letters

theorem path_cons
    {ch : Char} {i : Fin 68}
    (hIndex : index ch = some i)
    (letters : List Char) :
    path (ch :: letters) = i :: path letters := by
  simp [path, hIndex]

/- Different keys have different paths. -/
theorem path_injective :
    ∀ {xs ys : List Char},
      Supported xs → Supported ys →
        path xs = path ys → xs = ys
| [], [], _, _, _ => rfl
| [], y :: ys, _, hYs, hPath => by
    rcases index_eq_some (hYs y List.mem_cons_self) with
      ⟨i, hIndex⟩
    rw [path_cons hIndex] at hPath
    cases hPath
| x :: xs, [], hXs, _, hPath => by
    rcases index_eq_some (hXs x List.mem_cons_self) with
      ⟨i, hIndex⟩
    rw [path_cons hIndex] at hPath
    cases hPath
| x :: xs, y :: ys, hXs, hYs, hPath => by
    rcases index_eq_some (hXs x List.mem_cons_self) with
      ⟨i, hI⟩
    rcases index_eq_some (hYs y List.mem_cons_self) with
      ⟨j, hJ⟩
    rw [path_cons hI, path_cons hJ] at hPath
    injection hPath with hSymbol hRest
    subst hSymbol
    have hLetter : x = y := by
      rw [← decode_index hI, decode_index hJ]
    have hLetters : xs = ys :=
      path_injective
        (fun ch hMem => hXs ch (List.mem_cons_of_mem _ hMem))
        (fun ch hMem => hYs ch (List.mem_cons_of_mem _ hMem))
        hRest
    rw [hLetter, hLetters]

theorem path_eq_iff
    {xs ys : List Char}
    (hXs : Supported xs)
    (hYs : Supported ys) :
    path xs = path ys ↔ xs = ys :=
  ⟨path_injective hXs hYs, fun h => by rw [h]⟩

------------------------------------------------------------
-- The Two Walks
------------------------------------------------------------

/- On a supported key `add` makes the path of the key. -/
theorem addWalk_eq :
    ∀ (letters : List Char) (t : TrieNode),
      Supported letters → t ≠ .null →
        addWalk letters t =
          (DigitalTree.makePath newNode (path letters) t, true)
| _, .null, _, hNode => absurd rfl hNode
| [], .node data children, _, _ => rfl
| ch :: letters, .node data children, hLetters, _ => by
    rcases index_eq_some (hLetters ch List.mem_cons_self) with
      ⟨i, hIndex⟩
    have hChild :
        DigitalTree.orLeaf newNode (children i) ≠ .null := by
      cases children i <;> intro hNull <;> cases hNull
    have hWalk :=
      addWalk_eq letters _
        (fun c hMem =>
          hLetters c (List.mem_cons_of_mem _ hMem)) hChild
    simp only [addWalk, hIndex, path_cons hIndex,
      DigitalTree.makePath, hWalk]

/- The walk of `add` keeps the node where it starts. -/
theorem addWalk_ne_null
    (letters : List Char) {t : TrieNode}
    (hNode : t ≠ .null) :
    (addWalk letters t).1 ≠ .null := by
  cases t with
  | null =>
      exact absurd rfl hNode
  | node data children =>
      cases letters with
      | nil =>
          exact hNode
      | cons ch letters =>
          unfold addWalk
          split <;> intro hNull <;> cases hNull

/- On a supported key `search` follows the path of the key. -/
theorem searchFrom_eq :
    ∀ (letters : List Char) (t : TrieNode),
      Supported letters →
        searchFrom letters t =
          some (DigitalTree.subtree (path letters) t)
| [], _, _ => rfl
| ch :: letters, .null, hLetters => by
    rcases index_eq_some (hLetters ch List.mem_cons_self) with
      ⟨i, hIndex⟩
    rw [path_cons hIndex]
    rfl
| ch :: letters, .node data children, hLetters => by
    rcases index_eq_some (hLetters ch List.mem_cons_self) with
      ⟨i, hIndex⟩
    have hSearch :=
      searchFrom_eq letters (children i)
        (fun c hMem =>
          hLetters c (List.mem_cons_of_mem _ hMem))
    simp only [searchFrom, hIndex, path_cons hIndex, hSearch,
      DigitalTree.subtree]

------------------------------------------------------------
-- Labels
------------------------------------------------------------

/- The fields of the node of a key, if there is a node. -/
def labelAt (t : TrieFunctions) (letters : List Char) :
    Option NodeData :=
  DigitalTree.lookup (path letters) t.root

/- The root is an object. -/
def Rooted (t : TrieFunctions) : Prop :=
  t.root ≠ .null

section Calls

variable (toLowerCase : JavaString → JavaString)
variable {t : TrieFunctions}
variable {element : TrieElement}

/- `add` on a supported key. -/
theorem add_eq
    (hRooted : Rooted t)
    (hSupported : Supported (toCharArray toLowerCase element)) :
    add toLowerCase t element =
      ({ t with
          root :=
            DigitalTree.modify (addString element.getS)
              (path (toCharArray toLowerCase element))
              (DigitalTree.makePath newNode
                (path (toCharArray toLowerCase element))
                t.root) },
        .done) := by
  simp [add, addWalk_eq _ _ hSupported hRooted]

/- `search` on a supported key. -/
theorem search_eq
    (t : TrieFunctions)
    (hSupported : Supported (toCharArray toLowerCase element)) :
    search toLowerCase t element =
      some (DigitalTree.subtree
        (path (toCharArray toLowerCase element)) t.root) :=
  searchFrom_eq _ _ hSupported

/- `count` reads the label of the key. -/
theorem count_eq
    (t : TrieFunctions)
    (hSupported : Supported (toCharArray toLowerCase element)) :
    count toLowerCase t element =
      .number
        (((labelAt t (toCharArray toLowerCase element)).map
          NodeData.count).getD 0) := by
  rw [count, search_eq toLowerCase t hSupported, labelAt,
    DigitalTree.lookup]
  cases DigitalTree.subtree
      (path (toCharArray toLowerCase element)) t.root with
  | null => rfl
  | node data children => rfl

/-
  `add` gives the node of the key one more entry, and makes
  the nodes before it if they are missing.
-/
theorem labelAt_add
    (hRooted : Rooted t)
    (hSupported : Supported (toCharArray toLowerCase element))
    {letters : List Char}
    (hLetters : Supported letters) :
    labelAt (add toLowerCase t element).1 letters =
      if letters = toCharArray toLowerCase element then
        some (addString element.getS
          ((labelAt t letters).getD newNode))
      else
        (labelAt t letters).or
          (if path letters <+:
              path (toCharArray toLowerCase element) then
            some newNode
          else
            none) := by
  rw [add_eq toLowerCase hRooted hSupported]
  simp only [labelAt, DigitalTree.lookup_modify,
    path_eq_iff hLetters hSupported]
  cases hRoot : t.root with
  | null =>
      exact absurd hRoot hRooted
  | node data children =>
      by_cases hKey : letters = toCharArray toLowerCase element
      · subst hKey
        rw [if_pos rfl, if_pos rfl,
          DigitalTree.lookup_makePath_self]
        rfl
      · rw [if_neg hKey, if_neg hKey,
          DigitalTree.lookup_makePath]

/- `remove` changes the node of the key only, if there is one. -/
theorem labelAt_remove
    (t : TrieFunctions)
    (hSupported : Supported (toCharArray toLowerCase element))
    {letters : List Char}
    (hLetters : Supported letters) :
    labelAt (remove toLowerCase t element).1 letters =
      if letters = toCharArray toLowerCase element then
        (labelAt t letters).map removeString
      else
        labelAt t letters := by
  rw [remove, search_eq toLowerCase t hSupported]
  cases hNode : DigitalTree.subtree
      (path (toCharArray toLowerCase element)) t.root with
  | null =>
      by_cases hKey : letters = toCharArray toLowerCase element
      · subst hKey
        have hAbsent :
            labelAt t (toCharArray toLowerCase element) =
              none := by
          rw [labelAt, DigitalTree.lookup, hNode]
          rfl
        simp [hAbsent]
      · simp [hKey]
  | node data children =>
      simp only [labelAt, DigitalTree.lookup_modify,
        path_eq_iff hLetters hSupported]

/- `getSortedElements` does not touch the tree. -/
theorem root_getSortedElements
    (t : TrieFunctions) (element : TrieElement) :
    (getSortedElements toLowerCase t element).1.root =
      t.root := by
  unfold getSortedElements
  split
  · rfl
  · dsimp only
    split <;> rfl

/- The root stays an object. -/
theorem rooted_perform
    (hRooted : Rooted t)
    (operation : Operation) :
    Rooted (perform toLowerCase t operation).1 := by
  cases operation with
  | add element =>
      simp only [perform, add]
      split
      · exact DigitalTree.modify_ne_null _ _
          (addWalk_ne_null _ hRooted)
      · exact addWalk_ne_null _ hRooted
  | remove element =>
      simp only [perform, remove]
      split
      · exact hRooted
      · exact hRooted
      · exact DigitalTree.modify_ne_null _ _ hRooted
  | count element =>
      exact hRooted
  | getSortedElements element =>
      simp only [perform, Rooted, root_getSortedElements]
      exact hRooted

end Calls

end Trie

end ProgrammingTasks
