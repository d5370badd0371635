import ProgrammingTasks.Trie.Counting

/-
  The listing of the keys with a prefix.

  The traversal in pre-order meets the keys in the order of
  `compareTo`, since the codes ascend with the letters.  It
  lists the strings of the nodes with a positive counter; such
  a node always has a string and is marked as a full word.

  Main declarations:
    * `letterOf`, `compareTo_of_lex`
    * `listed`, `wordsWithSamePrefix_eq`
    * `Settled`, `settled_of_run`
    * `ListsRightly`, `listing_of_run`
-/

------------------------------------------------------------
-- Letters in the Order of Their Codes
------------------------------------------------------------

namespace ProgrammingTasks

namespace Trie

open TransitionSystem

/- The letter of a place among the children. -/
def letterOf (i : Fin 68) : Char :=
  decode (i.val + 1)

theorem index_letterOf (i : Fin 68) :
    index (letterOf i) = some i := by
  revert i
  decide

theorem inAlphabet_letterOf (i : Fin 68) :
    InAlphabet (letterOf i) := by
  have hIndex := index_letterOf i
  unfold index at hIndex
  split at hIndex
  · rename_i hRange
    exact Nat.ne_of_gt hRange.1
  · cases hIndex

theorem alphabet_ascends :
    alphabet.Pairwise (fun a b => a.toNat < b.toNat) := by
  decide

theorem letterOf_eq_get (i : Fin 68) :
    letterOf i = alphabet.get ⟨i.val, i.isLt⟩ := by
  rw [letterOf, decode, Nat.add_sub_cancel,
    List.getD_eq_getElem?_getD,
    List.getElem?_eq_getElem (show i.val < alphabet.length from
      i.isLt)]
  rfl

/- The code table is monotone. -/
theorem letterOf_lt
    {i j : Fin 68}
    (hLess : i < j) :
    (letterOf i).toNat < (letterOf j).toNat := by
  rw [letterOf_eq_get, letterOf_eq_get]
  exact List.pairwise_iff_getElem.mp alphabet_ascends
    i.val j.val i.isLt j.isLt hLess

theorem letterOf_of_index
    {letter : Char} {i : Fin 68}
    (hIndex : index letter = some i) :
    letterOf i = letter :=
  decode_index hIndex

/- The letters of a path lead back to it. -/
theorem path_map_letterOf :
    ∀ places : List (Fin 68),
      path (places.map letterOf) = places
| [] => rfl
| i :: places => by
    rw [List.map_cons, path_cons (index_letterOf i),
      path_map_letterOf places]

theorem map_letterOf_path :
    ∀ {letters : List Char},
      Supported letters →
        (path letters).map letterOf = letters
| [], _ => rfl
| ch :: letters, hLetters => by
    rcases index_eq_some (hLetters ch List.mem_cons_self) with
      ⟨i, hIndex⟩
    have hRest :=
      map_letterOf_path
        (fun c hMem => hLetters c (List.mem_cons_of_mem _ hMem))
    rw [path_cons hIndex, List.map_cons, hRest,
      letterOf_of_index hIndex]

theorem supported_append
    {front rest : List Char} :
    Supported (front ++ rest) ↔
      Supported front ∧ Supported rest := by
  simp only [Supported, List.mem_append, or_imp, forall_and]

theorem supported_map_letterOf (places : List (Fin 68)) :
    Supported (places.map letterOf) := by
  intro ch hMem
  rcases List.mem_map.mp hMem with ⟨i, _, rfl⟩
  exact inAlphabet_letterOf i

theorem path_append (front rest : List Char) :
    path (front ++ rest) = path front ++ path rest :=
  List.filterMap_append

/- Strings that go on from a common prefix. -/
theorem compareTo_append :
    ∀ front xs ys : JavaString,
      compareTo (front ++ xs) (front ++ ys) = compareTo xs ys
| [], _, _ => rfl
| ch :: front, xs, ys => by
    rw [List.cons_append, List.cons_append, compareTo,
      if_pos rfl, compareTo_append front xs ys]

/- Lexicographic order of places is the order of strings. -/
theorem compareTo_of_lex
    {xs ys : List (Fin 68)}
    (hLess : List.Lex (· < ·) xs ys) :
    compareTo (xs.map letterOf) (ys.map letterOf) < 0 := by
  induction hLess with
  | nil =>
      simp only [List.map_nil, List.map_cons, compareTo,
        List.length_cons, List.length_map]
      omega
  | cons _ ih =>
      rw [List.map_cons, List.map_cons, compareTo, if_pos rfl]
      exact ih
  | rel hLetter =>
      have hCodes := letterOf_lt hLetter
      rw [List.map_cons, List.map_cons, compareTo,
        if_neg (fun hSame => by rw [hSame] at hCodes; omega)]
      omega

------------------------------------------------------------
-- The Traversal
------------------------------------------------------------

/- The string that a node adds to the list, if any. -/
def listed (data : NodeData) : Option JavaString :=
  if data.fullWord ∧ data.count > 0 then data.string else none

/- What the traversal does at a node. -/
def visit
    (found : List JavaString × Nat) (data : NodeData) :
    List JavaString × Nat :=
  match data.string with
  | some string =>
      if data.fullWord ∧ data.count > 0 then
        (found.1 ++ [string], found.2 + 1)
      else
        found
  | none => found

/- The nodes below a node in the order of the traversal. -/
def nodesBelow (t : TrieNode) :
    List (List (Fin 68) × NodeData) :=
  t.entries (List.finRange 68)

/- The traversal visits the nodes in pre-order. -/
theorem wordsWithSamePrefix_eq_foldl :
    ∀ (t : TrieNode) (found : List JavaString × Nat),
      wordsWithSamePrefix t found =
        (nodesBelow t).foldl
          (fun found e => visit found e.2) found
| .null, _ => rfl
| .node data children, found => by
    rw [nodesBelow, DigitalTree.foldl_entries_node]
    have hChildren :
        (fun (found : List JavaString × Nat) i =>
            wordsWithSamePrefix (children i) found) =
          (fun found i =>
            (DigitalTree.entries (List.finRange 68)
              (children i)).foldl
                (fun found e => visit found e.2) found) := by
      funext found i
      exact wordsWithSamePrefix_eq_foldl (children i) found
    rw [← hChildren]
    rfl

/- A node appends its string, if it is listed, and counts it. -/
theorem visit_eq
    (found : List JavaString × Nat)
    (data : NodeData) :
    visit found data =
      (found.1 ++ (listed data).toList,
        found.2 + (listed data).toList.length) := by
  unfold visit listed
  by_cases hListed : data.fullWord ∧ data.count > 0
  · rw [if_pos hListed]
    cases data.string with
    | none => simp
    | some string => simp [hListed]
  · rw [if_neg hListed]
    cases data.string with
    | none => simp
    | some string => simp [hListed]

/- The counter counts the strings that are appended. -/
theorem foldl_visit :
    ∀ (es : List (List (Fin 68) × NodeData))
      (found : List JavaString × Nat),
      es.foldl (fun found e => visit found e.2) found =
        (found.1 ++ es.filterMap (fun e => listed e.2),
          found.2 + (es.filterMap (fun e => listed e.2)).length)
| [], found => by
    simp
| e :: es, found => by
    rw [List.foldl_cons, foldl_visit es, visit_eq,
      List.filterMap_cons]
    cases listed e.2 with
    | none => simp
    | some string =>
        simp only [Option.toList_some, List.append_assoc,
          List.length_cons, List.length_nil, Prod.mk.injEq]
        exact ⟨rfl, by omega⟩

theorem wordsWithSamePrefix_eq
    (t : TrieNode)
    (found : List JavaString × Nat) :
    wordsWithSamePrefix t found =
      (found.1 ++ (nodesBelow t).filterMap (fun e => listed e.2),
        found.2 +
          ((nodesBelow t).filterMap
            (fun e => listed e.2)).length) := by
  rw [wordsWithSamePrefix_eq_foldl, foldl_visit]

------------------------------------------------------------
-- The Invariant
------------------------------------------------------------

/-
  Between two calls no element is counted, and each node with
  a positive counter has a string and is a full word.
-/
structure Settled (t : TrieFunctions) : Prop where
  rooted : Rooted t
  nrElements : t.nrElements = 0
  complete :
    ∀ letters, Supported letters →
      ∀ data, labelAt t letters = some data →
        data.count > 0 →
          data.fullWord = true ∧ data.string ≠ none

section Calls

variable {toLowerCase : JavaString → JavaString}
variable {t : TrieFunctions} {element : TrieElement}

theorem settled_new : Settled TrieFunctions.new where
  rooted := fun hNull => by cases hNull
  nrElements := rfl
  complete := by
    intro letters _ data hData hCount
    simp only [labelAt, TrieFunctions.new,
      DigitalTree.lookup_leaf] at hData
    split at hData
    · cases hData
      exact absurd hCount (by decide)
    · cases hData

/- The nodes that `add` makes on its way count nothing. -/
theorem Settled.complete_or
    (hSettled : Settled t)
    {letters : List Char}
    (hLetters : Supported letters)
    {made : Prop} [Decidable made]
    {data : NodeData}
    (hData :
      (labelAt t letters).or
          (if made then some newNode else none) =
        some data)
    (hCount : data.count > 0) :
    data.fullWord = true ∧ data.string ≠ none := by
  cases hBefore : labelAt t letters with
  | some before =>
      rw [hBefore, Option.some_or] at hData
      cases hData
      exact hSettled.complete letters hLetters data hBefore
        hCount
  | none =>
      rw [hBefore, Option.none_or] at hData
      split at hData
      · cases hData
        exact absurd hCount (by decide)
      · cases hData

theorem Settled.add
    (hSettled : Settled t)
    (hElement : Supported (toCharArray toLowerCase element)) :
    Settled (add toLowerCase t element).1 where
  rooted :=
    rooted_perform toLowerCase hSettled.rooted (.add element)
  nrElements := by
    rw [add_eq toLowerCase hSettled.rooted hElement]
    exact hSettled.nrElements
  complete := by
    intro letters hLetters data hData hCount
    rw [labelAt_add toLowerCase hSettled.rooted hElement
      hLetters] at hData
    split at hData
    · cases hData
      refine ⟨rfl, ?_⟩
      simp only [addString]
      split <;> exact Option.some_ne_none _
    · exact hSettled.complete_or hLetters hData hCount

theorem Settled.remove
    (hSettled : Settled t)
    (hElement : Supported (toCharArray toLowerCase element)) :
    Settled (remove toLowerCase t element).1 where
  rooted :=
    rooted_perform toLowerCase hSettled.rooted (.remove element)
  nrElements := by
    rw [Trie.remove, search_eq toLowerCase t hElement]
    split
    · exact hSettled.nrElements
    · exact hSettled.nrElements
    · exact hSettled.nrElements
  complete := by
    intro letters hLetters data hData hCount
    rw [labelAt_remove toLowerCase t hElement hLetters] at hData
    split at hData
    · rcases Option.map_eq_some_iff.mp hData with
        ⟨before, hBefore, rfl⟩
      have hKept := hSettled.complete letters hLetters before
        hBefore
      rw [count_removeString] at hCount
      by_cases hPositive : before.count > 0
      · rw [if_pos hPositive] at hCount
        have hNonzero : before.count - 1 ≠ 0 := by
          intro hZero
          rw [hZero] at hCount
          exact absurd hCount (by decide)
        simp only [removeString, if_pos hPositive,
          if_neg hNonzero]
        exact hKept hPositive
      · rw [if_neg hPositive] at hCount
        exact absurd hCount hPositive
    · exact hSettled.complete letters hLetters data hData hCount

/- The strings that a listing finds. -/
def strings (t : TrieFunctions) (letters : List Char) :
    List JavaString :=
  (nodesBelow (DigitalTree.subtree (path letters) t.root)).filterMap
    (fun e => listed e.2)

/- A listing returns all strings and changes nothing. -/
theorem getSortedElements_eq
    (hNone : t.nrElements = 0)
    (hElement : Supported (toCharArray toLowerCase element)) :
    getSortedElements toLowerCase t element =
      (t,
        .elements
          ((strings t (toCharArray toLowerCase element)).map
            (fun s => some (.trie1 s)))) := by
  have hSame : { t with nrElements := 0 } = t := by
    cases t
    cases hNone
    rfl
  rw [getSortedElements, search_eq toLowerCase t hElement]
  simp only [wordsWithSamePrefix_eq, hNone, List.nil_append,
    Nat.zero_add, Nat.le_refl, if_true, hSame]
  simp only [fillArray, Nat.sub_self, List.replicate_zero,
    List.append_nil]
  rfl

theorem Settled.perform
    (hSettled : Settled t)
    (operation : Operation)
    (hElement :
      Supported (toCharArray toLowerCase operation.element)) :
    Settled (perform toLowerCase t operation).1 := by
  cases operation with
  | add element => exact hSettled.add hElement
  | remove element => exact hSettled.remove hElement
  | count element => exact hSettled
  | getSortedElements element =>
      have hKey : Supported (toCharArray toLowerCase element) :=
        hElement
      simp only [Trie.perform]
      rw [getSortedElements_eq hSettled.nrElements hKey]
      exact hSettled

theorem settled_of_run
    {calls : List Call}
    (hRun : (trieSystem toLowerCase).Run calls t)
    (hAll : AllSupported toLowerCase calls) :
    Settled t := by
  revert hAll
  refine hRun.history_invariant
    (I := fun calls t =>
      AllSupported toLowerCase calls → Settled t) ?_ ?_
  · rintro t rfl _
    exact settled_new
  · intro calls t operation t' _ hInv hStep hAll
    have hBefore : AllSupported toLowerCase calls :=
      fun call hMem => hAll call (List.mem_cons_of_mem _ hMem)
    have hNext :
        some (perform toLowerCase t operation).1 = some t' :=
      hStep
    cases hNext
    exact (hInv hBefore).perform operation
      (hAll _ List.mem_cons_self)

------------------------------------------------------------
-- The Listed Keys
------------------------------------------------------------

/- The string that is stored for a key. -/
def representative (t : TrieFunctions) (letters : List Char) :
    Option JavaString :=
  (labelAt t letters).bind NodeData.string

/- The keys of the nodes that a listing finds. -/
def listedKeys (t : TrieFunctions) (letters : List Char) :
    List (List Char) :=
  ((nodesBelow (DigitalTree.subtree (path letters) t.root)).filter
    (fun e => (listed e.2).isSome)).map
      (fun e => letters ++ e.1.map letterOf)

variable {letters : List Char}

/- An entry below a key is the label of a longer key. -/
theorem mem_nodesBelow_iff
    {places : List (Fin 68)} {data : NodeData} :
    (places, data) ∈
        nodesBelow (DigitalTree.subtree (path letters) t.root) ↔
      labelAt t (letters ++ places.map letterOf) = some data := by
  rw [nodesBelow, DigitalTree.mem_entries_iff List.mem_finRange,
    labelAt, path_append, path_map_letterOf,
    DigitalTree.lookup_append]

/- The keys ascend, so that no key is there twice. -/
theorem listedKeys_sorted
    (t : TrieFunctions)
    (letters : List Char) :
    (listedKeys t letters).Pairwise
      (fun k k' => compareTo k k' < 0) := by
  have hOrder :=
    DigitalTree.entries_sorted (List.pairwise_lt_finRange 68)
      (DigitalTree.subtree (path letters) t.root)
  refine List.pairwise_map.mpr ?_
  refine (hOrder.filter _).imp ?_
  intro e e' hLess
  rw [compareTo_append]
  exact compareTo_of_lex hLess

theorem listed_of_positive
    (hSettled : Settled t)
    {key : List Char} {data : NodeData}
    (hKey : Supported key)
    (hData : labelAt t key = some data)
    (hCount : data.count > 0) :
    (listed data).isSome = true := by
  rcases hSettled.complete key hKey data hData hCount with
    ⟨hWord, hString⟩
  rw [listed, if_pos ⟨hWord, hCount⟩]
  exact Option.isSome_iff_ne_none.mpr hString

theorem positive_of_listed
    {data : NodeData}
    (hListed : (listed data).isSome = true) :
    data.count > 0 ∧ listed data = data.string := by
  unfold listed at hListed ⊢
  split at hListed
  · rename_i hBoth
    rw [if_pos hBoth]
    exact ⟨hBoth.2, rfl⟩
  · cases hListed

/- The keys with the prefix that have a positive counter. -/
theorem mem_listedKeys_iff
    (hSettled : Settled t)
    (hLetters : Supported letters)
    (key : List Char) :
    key ∈ listedKeys t letters ↔
      Supported key ∧ letters <+: key ∧ counter t key > 0 := by
  constructor
  · intro hMem
    rcases List.mem_map.mp hMem with ⟨⟨places, data⟩, hEntry, rfl⟩
    rcases List.mem_filter.mp hEntry with ⟨hNode, hListed⟩
    have hData := mem_nodesBelow_iff.mp hNode
    refine ⟨?_, List.prefix_append _ _, ?_⟩
    · exact supported_append.mpr
        ⟨hLetters, supported_map_letterOf places⟩
    · rw [counter, hData]
      exact (positive_of_listed hListed).1
  · rintro ⟨hKey, ⟨rest, rfl⟩, hCount⟩
    have hRest := (supported_append.mp hKey).2
    cases hData : labelAt t (letters ++ rest) with
    | none =>
        rw [counter, hData] at hCount
        exact absurd hCount (by decide)
    | some data =>
        rw [counter, hData] at hCount
        refine List.mem_map.mpr ⟨(path rest, data), ?_, ?_⟩
        · refine List.mem_filter.mpr ⟨?_, ?_⟩
          · rw [mem_nodesBelow_iff, map_letterOf_path hRest]
            exact hData
          · exact listed_of_positive hSettled hKey hData hCount
        · rw [map_letterOf_path hRest]

/- The strings are those stored for the keys. -/
theorem strings_eq
    (t : TrieFunctions)
    (letters : List Char) :
    (strings t letters).map some =
      (listedKeys t letters).map (representative t) := by
  have hEach :
      ∀ es : List (List (Fin 68) × NodeData),
        (∀ e ∈ es,
          labelAt t (letters ++ e.1.map letterOf) = some e.2) →
          (es.filterMap (fun e => listed e.2)).map some =
            ((es.filter (fun e => (listed e.2).isSome)).map
              (fun e => letters ++ e.1.map letterOf)).map
                (representative t) := by
    intro es hEntries
    induction es with
    | nil => rfl
    | cons e es ih =>
        have hRest :=
          ih (fun e' hMem =>
            hEntries e' (List.mem_cons_of_mem _ hMem))
        have hData := hEntries e List.mem_cons_self
        cases hListed : listed e.2 with
        | none =>
            simp only [List.filterMap_cons, List.filter_cons,
              hListed, Option.isSome_none, hRest]
            rfl
        | some string =>
            have hString : e.2.string = some string := by
              rw [← hListed]
              refine ((positive_of_listed ?_).2).symm
              rw [hListed]
              rfl
            have hStored :
                representative t (letters ++ e.1.map letterOf) =
                  some string := by
              rw [representative, hData]
              exact hString
            simp only [List.filterMap_cons, List.filter_cons,
              hListed, Option.isSome_some, if_true,
              List.map_cons, hStored, hRest]
  exact hEach _ (fun e hMem => mem_nodesBelow_iff.mp hMem)

------------------------------------------------------------
-- The Listing in Every Run
------------------------------------------------------------

/-
  A listing returns the strings of the keys with the prefix
  and a positive counter, each key once and in the order of
  `compareTo`, and leaves the object as it is.
-/
def ListsRightly
    (toLowerCase : JavaString → JavaString)
    (t : TrieFunctions) (element : TrieElement) : Prop :=
  ∃ keys : List (List Char),
    keys.Pairwise (fun k k' => compareTo k k' < 0) ∧
    (∀ key, key ∈ keys ↔
      Supported key ∧
        toCharArray toLowerCase element <+: key ∧
          counter t key > 0) ∧
    (∀ key ∈ keys, representative t key ≠ none) ∧
    getSortedElements toLowerCase t element =
      (t,
        .elements
          (keys.map (fun key =>
            (representative t key).map .trie1))) ∧
    t.nrElements = 0

theorem listing_of_run
    {calls : List Call}
    (hRun : (trieSystem toLowerCase).Run calls t)
    (hAll : AllSupported toLowerCase calls)
    (hElement : Supported (toCharArray toLowerCase element)) :
    ListsRightly toLowerCase t element := by
  have hSettled := settled_of_run hRun hAll
  have hStrings :=
    strings_eq t (toCharArray toLowerCase element)
  refine ⟨listedKeys t (toCharArray toLowerCase element),
    listedKeys_sorted t _, mem_listedKeys_iff hSettled hElement,
    ?_, ?_, hSettled.nrElements⟩
  · intro key hMem hNone
    have hStored :
        none ∈
          (listedKeys t (toCharArray toLowerCase element)).map
            (representative t) :=
      List.mem_map.mpr ⟨key, hMem, hNone⟩
    rw [← hStrings] at hStored
    rcases List.mem_map.mp hStored with ⟨s, _, hSome⟩
    cases hSome
  · have hElements :=
      congrArg (List.map (Option.map TrieElement.trie1)) hStrings
    rw [List.map_map, List.map_map] at hElements
    rw [getSortedElements_eq hSettled.nrElements hElement]
    exact congrArg (fun array => (t, Answer.elements array))
      hElements

end Calls

/- After adding `B` and `a`, both are listed for the empty key. -/
theorem listing_of_two_keys :
    ∃ calls t,
      (trieSystem asciiLowerCase).Run calls t ∧
        calls.map Transition.event =
          [.add (.trie1 ['a']), .add (.trie1 ['B'])] ∧
        ListsRightly asciiLowerCase t (.trie1 []) := by
  have hExecute :
      execute (fun t operation =>
          some (perform asciiLowerCase t operation).1)
        [] TrieFunctions.new
        [.add (.trie1 ['B']), .add (.trie1 ['a'])] =
          some (_, _) := rfl
  have hRun : (trieSystem asciiLowerCase).Run _ _ :=
    run_of_execute (Run.start rfl) hExecute
  exact ⟨_, _, hRun, rfl,
    listing_of_run hRun (by unfold AllSupported; decide)
      (by decide)⟩

end Trie

end ProgrammingTasks
