import ProgrammingTasks.Trie.Representative

/-
  What a call leaves behind that throws.

  Before `add` meets a letter without a code it makes the
  nodes for the letters before it.  Such a node is not listed
  and counts nothing.  But `remove` finds it and gives it the
  string that is replaced by the next one, unless that one is
  larger.

  Main declarations:
    * `walked`, `Blank`, `SameContents`
    * `performAll`, `LeavesContents`
    * `NothingLarger`
    * `leavesContents_iff`
-/

------------------------------------------------------------
-- Keys with a Letter that has no Code
------------------------------------------------------------

namespace ProgrammingTasks

namespace Trie

open TransitionSystem

/- The letters before the first one without a code. -/
def walked (letters : List Char) : List Char :=
  letters.takeWhile (fun ch => InAlphabet ch)

theorem supported_walked (letters : List Char) :
    Supported (walked letters) := by
  intro ch hMem
  have hAll :
      (walked letters).all (fun ch => InAlphabet ch) = true :=
    List.all_takeWhile
  exact of_decide_eq_true (List.all_eq_true.mp hAll ch hMem)

theorem index_eq_none
    {letter : Char}
    (hLetter : ¬ InAlphabet letter) :
    index letter = none := by
  have hCode : encode letter = 0 := by
    by_contra hSome
    exact hLetter hSome
  rw [index, dif_neg]
  omega

/- The letter is further on. -/
theorem unsupported_tail
    {ch : Char} {letters : List Char}
    (hFirst : InAlphabet ch)
    (hLetters : ¬ Supported (ch :: letters)) :
    ¬ Supported letters := by
  intro hAll
  apply hLetters
  intro c hMem
  rcases List.mem_cons.mp hMem with rfl | hLater
  · exact hFirst
  · exact hAll c hLater

/- `add` makes the nodes up to the letter, and throws. -/
theorem addWalk_unsupported :
    ∀ (letters : List Char) (t : TrieNode),
      ¬ Supported letters → t ≠ .null →
        addWalk letters t =
          (DigitalTree.makePath newNode (path (walked letters)) t,
            false)
| _, .null, _, hNode => absurd rfl hNode
| [], .node _ _, hLetters, _ =>
    absurd (fun ch hMem => by cases hMem) hLetters
| ch :: letters, .node data children, hLetters, _ => by
    by_cases hFirst : InAlphabet ch
    · rcases index_eq_some hFirst with ⟨i, hIndex⟩
      have hRest := unsupported_tail hFirst hLetters
      have hChild :
          DigitalTree.orLeaf newNode (children i) ≠ .null := by
        cases children i <;> intro hNull <;> cases hNull
      have hWalk := addWalk_unsupported letters _ hRest hChild
      have hWalked :
          walked (ch :: letters) = ch :: walked letters := by
        rw [walked, List.takeWhile_cons, if_pos (by simpa)]
        rfl
      simp only [addWalk, hIndex, hWalked, path_cons hIndex,
        DigitalTree.makePath, hWalk]
    · have hWalked : walked (ch :: letters) = [] := by
        rw [walked, List.takeWhile_cons, if_neg (by simpa)]
      simp only [addWalk, index_eq_none hFirst, hWalked]
      rfl

/- `search` finds no node, or throws. -/
theorem searchFrom_unsupported :
    ∀ (letters : List Char) (t : TrieNode),
      ¬ Supported letters →
        searchFrom letters t = none ∨
          searchFrom letters t = some .null
| [], _, hLetters =>
    absurd (fun ch hMem => by cases hMem) hLetters
| _ :: _, .null, _ => Or.inr rfl
| ch :: letters, .node data children, hLetters => by
    by_cases hFirst : InAlphabet ch
    · rcases index_eq_some hFirst with ⟨i, hIndex⟩
      have hRest := unsupported_tail hFirst hLetters
      simp only [searchFrom, hIndex]
      exact searchFrom_unsupported letters _ hRest
    · simp [searchFrom, index_eq_none hFirst]

theorem path_prefix_iff
    {xs ys : List Char}
    (hXs : Supported xs)
    (hYs : Supported ys) :
    path xs <+: path ys ↔ xs <+: ys := by
  constructor
  · rintro ⟨rest, hRest⟩
    refine ⟨rest.map letterOf, ?_⟩
    have hMap := congrArg (List.map letterOf) hRest
    rw [List.map_append, map_letterOf_path hXs,
      map_letterOf_path hYs] at hMap
    exact hMap
  · rintro ⟨rest, rfl⟩
    rw [path_append]
    exact List.prefix_append _ _

section Unsupported

variable {toLowerCase : JavaString → JavaString}
variable {t : TrieFunctions} {element : TrieElement}

theorem add_unsupported
    (hRooted : Rooted t)
    (hElement : ¬ Supported (toCharArray toLowerCase element)) :
    add toLowerCase t element =
      ({ t with
          root :=
            DigitalTree.makePath newNode
              (path (walked (toCharArray toLowerCase element)))
              t.root },
        .thrown) := by
  simp [add, addWalk_unsupported _ _ hElement hRooted]

/- Nodes for the walked letters are new, or were there. -/
theorem labelAt_add_unsupported
    (hRooted : Rooted t)
    (hElement : ¬ Supported (toCharArray toLowerCase element))
    {key : List Char}
    (hKey : Supported key) :
    labelAt (add toLowerCase t element).1 key =
      (labelAt t key).or
        (if key <+: walked (toCharArray toLowerCase element) then
          some newNode
        else
          none) := by
  rw [add_unsupported hRooted hElement]
  cases hRoot : t.root with
  | null => exact absurd hRoot hRooted
  | node data children =>
      simp only [labelAt, hRoot, DigitalTree.lookup_makePath,
        path_prefix_iff hKey (supported_walked _)]

theorem remove_unsupported
    (t : TrieFunctions)
    (hElement : ¬ Supported (toCharArray toLowerCase element)) :
    (remove toLowerCase t element).1 = t := by
  unfold remove search
  rcases searchFrom_unsupported _ t.root hElement with
    hNone | hNull
  · rw [hNone]
  · rw [hNull]

theorem getSortedElements_unsupported
    (hNone : t.nrElements = 0)
    (hElement : ¬ Supported (toCharArray toLowerCase element)) :
    (getSortedElements toLowerCase t element).1 = t := by
  unfold getSortedElements search
  rcases searchFrom_unsupported _ t.root hElement with
    hThrown | hNull
  · rw [hThrown]
  · rw [hNull]
    cases t
    cases hNone
    rfl

theorem settled_perform_unsupported
    (hSettled : Settled t)
    (operation : Operation)
    (hElement :
      ¬ Supported (toCharArray toLowerCase operation.element)) :
    Settled (perform toLowerCase t operation).1 := by
  cases operation with
  | add element =>
      have hKey : ¬ Supported (toCharArray toLowerCase element) :=
        hElement
      refine ⟨rooted_perform toLowerCase hSettled.rooted _, ?_, ?_⟩
      · rw [perform, add_unsupported hSettled.rooted hKey]
        exact hSettled.nrElements
      · intro letters hLetters data hData hCount
        rw [perform, labelAt_add_unsupported hSettled.rooted
          hKey hLetters] at hData
        exact hSettled.complete_or hLetters hData hCount
  | remove element =>
      have hKey : ¬ Supported (toCharArray toLowerCase element) :=
        hElement
      rw [perform, remove_unsupported t hKey]
      exact hSettled
  | count element => exact hSettled
  | getSortedElements element =>
      have hKey : ¬ Supported (toCharArray toLowerCase element) :=
        hElement
      rw [perform,
        getSortedElements_unsupported hSettled.nrElements hKey]
      exact hSettled

/- Calls that throw leave a settled object as well. -/
theorem settled_perform_any
    (hSettled : Settled t)
    (operation : Operation) :
    Settled (perform toLowerCase t operation).1 := by
  by_cases hElement :
      Supported (toCharArray toLowerCase operation.element)
  · exact hSettled.perform operation hElement
  · exact settled_perform_unsupported hSettled operation hElement

theorem settled_of_reached
    {calls : List Call}
    (hRun : (trieSystem toLowerCase).Run calls t) :
    Settled t := by
  refine hRun.invariant (I := fun t => Settled t) ?_ ?_
  · rintro t rfl
    exact settled_new
  · intro t operation t' hSettled hStep
    have hNext :
        some (perform toLowerCase t operation).1 = some t' :=
      hStep
    cases hNext
    exact settled_perform_any hSettled operation

end Unsupported

------------------------------------------------------------
-- Nodes that Nobody Sees
------------------------------------------------------------

/- No node, or one that counts nothing and lists nothing. -/
def Blank : Option NodeData → Prop
| none => True
| some data =>
    data.count = 0 ∧ data.fullWord = false ∧
      (data.string = none ∨ data.string = some ['~'])

/- No string of the key is larger than that of `remove`. -/
def Replaceable
    (toLowerCase : JavaString → JavaString)
    (key : List Char) : Prop :=
  ∀ element, toCharArray toLowerCase element = key →
    compareTo element.getS ['~'] ≤ 0

/- The nodes of the keys are the same, or both are blank. -/
def SameLabel
    (toLowerCase : JavaString → JavaString)
    (key : List Char) (label label' : Option NodeData) : Prop :=
  label = label' ∨
    Blank label ∧ Blank label' ∧ Replaceable toLowerCase key

/- Two objects that differ only in nodes that nobody sees. -/
structure SameContents
    (toLowerCase : JavaString → JavaString)
    (t t' : TrieFunctions) : Prop where
  settled : Settled t
  settled' : Settled t'
  labels :
    ∀ key, Supported key →
      SameLabel toLowerCase key (labelAt t key) (labelAt t' key)

section SameContents

variable {toLowerCase : JavaString → JavaString}
variable {t t' : TrieFunctions} {element : TrieElement}
variable {key : List Char} {label label' : Option NodeData}

theorem blank_newNode : Blank (some newNode) :=
  ⟨rfl, rfl, Or.inl rfl⟩

theorem Blank.remove
    (hBlank : Blank label) :
    Blank (label.map removeString) := by
  cases label with
  | none => trivial
  | some data =>
      have hCount :
          (if data.count > 0 then data.count - 1
            else data.count) = 0 := by
        rw [hBlank.1]
        decide
      have hRemoved :
          removeString data =
            { count :=
                if data.count > 0 then data.count - 1
                else data.count
              string := some ['~']
              fullWord := false } :=
        if_pos hCount
      change Blank (some (removeString data))
      rw [hRemoved]
      exact ⟨hCount, rfl, Or.inr rfl⟩

/- A new string of a blank node replaces what it holds. -/
theorem Blank.add
    (hBlank : Blank label)
    {s : JavaString}
    (hLess : compareTo s ['~'] ≤ 0) :
    addString s (label.getD newNode) =
      { count := 1, string := some s, fullWord := true } := by
  cases label with
  | none => rfl
  | some data =>
      rcases hBlank with ⟨hCount, _, hString⟩
      have hNew : lexicographicalOrder ['~'] s = s := by
        rw [lexicographicalOrder_eq]
        split
        · rename_i hMore
          exact compareTo_antisymm hMore hLess
        · rfl
      rw [Option.getD_some, addString, hCount]
      rcases hString with hNone | hSentinel
      · rw [hNone]
        rfl
      · rw [hSentinel]
        simp only [hNew]
        rfl

theorem Blank.or
    (hBlank : Blank label)
    (hBlank' : Blank label') :
    Blank (label.or label') := by
  cases label with
  | none => exact hBlank'
  | some data => exact hBlank

/- What `add` does to the other nodes. -/
theorem SameLabel.or
    (hSame : SameLabel toLowerCase key label label')
    {new : Option NodeData}
    (hNew : Blank new) :
    SameLabel toLowerCase key (label.or new)
      (label'.or new) := by
  rcases hSame with rfl | ⟨hBlank, hBlank', hReplaceable⟩
  · exact Or.inl rfl
  · exact Or.inr ⟨hBlank.or hNew, hBlank'.or hNew, hReplaceable⟩

theorem blank_ite (c : Prop) [Decidable c] :
    Blank (if c then some newNode else none) := by
  split
  · exact blank_newNode
  · trivial

theorem SameContents.add
    (hSame : SameContents toLowerCase t t')
    (element : TrieElement)
    (hKey : Supported key) :
    SameLabel toLowerCase key
      (labelAt (add toLowerCase t element).1 key)
      (labelAt (add toLowerCase t' element).1 key) := by
  have hBefore := hSame.labels key hKey
  by_cases hElement : Supported (toCharArray toLowerCase element)
  · rw [labelAt_add toLowerCase hSame.settled.rooted hElement
      hKey, labelAt_add toLowerCase hSame.settled'.rooted
      hElement hKey]
    by_cases hTarget : key = toCharArray toLowerCase element
    · rw [if_pos hTarget, if_pos hTarget]
      rcases hBefore with hLabel | ⟨hBlank, hBlank', hLess⟩
      · rw [hLabel]
        exact Or.inl rfl
      · have hString := hLess element hTarget.symm
        rw [hBlank.add hString, hBlank'.add hString]
        exact Or.inl rfl
    · rw [if_neg hTarget, if_neg hTarget]
      exact hBefore.or (blank_ite _)
  · rw [labelAt_add_unsupported hSame.settled.rooted hElement
      hKey, labelAt_add_unsupported hSame.settled'.rooted
      hElement hKey]
    exact hBefore.or (blank_ite _)

theorem SameContents.remove
    (hSame : SameContents toLowerCase t t')
    (element : TrieElement)
    (hKey : Supported key) :
    SameLabel toLowerCase key
      (labelAt (remove toLowerCase t element).1 key)
      (labelAt (remove toLowerCase t' element).1 key) := by
  have hBefore := hSame.labels key hKey
  by_cases hElement : Supported (toCharArray toLowerCase element)
  · rw [labelAt_remove toLowerCase t hElement hKey,
      labelAt_remove toLowerCase t' hElement hKey]
    split
    · rcases hBefore with hLabel | ⟨hBlank, hBlank', hLess⟩
      · rw [hLabel]
        exact Or.inl rfl
      · exact Or.inr ⟨hBlank.remove, hBlank'.remove, hLess⟩
    · exact hBefore
  · rw [remove_unsupported t hElement,
      remove_unsupported t' hElement]
    exact hBefore

/- Every call keeps the contents the same. -/
theorem SameContents.perform
    (hSame : SameContents toLowerCase t t')
    (operation : Operation) :
    SameContents toLowerCase
      (perform toLowerCase t operation).1
      (perform toLowerCase t' operation).1 where
  settled := settled_perform_any hSame.settled operation
  settled' := settled_perform_any hSame.settled' operation
  labels := by
    intro key hKey
    cases operation with
    | add element => exact hSame.add element hKey
    | remove element => exact hSame.remove element hKey
    | count element => exact hSame.labels key hKey
    | getSortedElements element =>
        have hRoot :=
          root_getSortedElements toLowerCase t element
        have hRoot' :=
          root_getSortedElements toLowerCase t' element
        simp only [Trie.perform, labelAt, hRoot, hRoot']
        exact hSame.labels key hKey

------------------------------------------------------------
-- What is Seen of the Contents
------------------------------------------------------------

theorem SameContents.counter_eq
    (hSame : SameContents toLowerCase t t')
    (hKey : Supported key) :
    counter t key = counter t' key := by
  have hZero :
      ∀ {label : Option NodeData}, Blank label →
        (label.map NodeData.count).getD 0 = 0 := by
    intro label hBlank
    cases label with
    | none => rfl
    | some data => exact hBlank.1
  rcases hSame.labels key hKey with hLabel | ⟨hBlank, hBlank', _⟩
  · rw [counter, counter, hLabel]
  · rw [counter, counter, hZero hBlank, hZero hBlank']

theorem SameContents.count_eq
    (hSame : SameContents toLowerCase t t')
    (hElement : Supported (toCharArray toLowerCase element)) :
    count toLowerCase t element =
      count toLowerCase t' element := by
  rw [Trie.count_eq toLowerCase t hElement,
    Trie.count_eq toLowerCase t' hElement]
  exact congrArg Answer.number (hSame.counter_eq hElement)

/- The node of a key that is listed is not blank. -/
theorem SameContents.representative_eq
    (hSame : SameContents toLowerCase t t')
    (hKey : Supported key)
    (hCount : counter t key > 0) :
    representative t key = representative t' key := by
  rcases hSame.labels key hKey with hLabel | ⟨hBlank, _, _⟩
  · rw [representative, representative, hLabel]
  · cases hData : labelAt t key with
    | none =>
        rw [counter, hData] at hCount
        exact absurd hCount (by decide)
    | some data =>
        rw [hData] at hBlank
        have hZero : data.count > 0 := by
          rw [counter, hData] at hCount
          exact hCount
        rw [hBlank.1] at hZero
        exact absurd hZero (by decide)

theorem SameContents.strings_eq
    (hSame : SameContents toLowerCase t t')
    (hKey : Supported key) :
    strings t key = strings t' key := by
  have hKeys : listedKeys t key = listedKeys t' key := by
    refine sorted_keys_unique (listedKeys_sorted t key)
      (listedKeys_sorted t' key) ?_
    intro listedKey
    rw [mem_listedKeys_iff hSame.settled hKey,
      mem_listedKeys_iff hSame.settled' hKey]
    constructor
    · rintro ⟨hListed, hPrefix, hCount⟩
      rw [hSame.counter_eq hListed] at hCount
      exact ⟨hListed, hPrefix, hCount⟩
    · rintro ⟨hListed, hPrefix, hCount⟩
      rw [← hSame.counter_eq hListed] at hCount
      exact ⟨hListed, hPrefix, hCount⟩
  have hStrings :
      (strings t key).map some = (strings t' key).map some := by
    rw [Trie.strings_eq, Trie.strings_eq, ← hKeys]
    refine List.map_congr_left ?_
    intro listedKey hMem
    rcases (mem_listedKeys_iff hSame.settled hKey listedKey).mp
        hMem with ⟨hListed, _, hCount⟩
    exact hSame.representative_eq hListed hCount
  exact List.map_injective_iff.mpr
    (fun _ _ hSome => Option.some.inj hSome) hStrings

theorem SameContents.elements_eq
    (hSame : SameContents toLowerCase t t')
    (hElement : Supported (toCharArray toLowerCase element)) :
    (getSortedElements toLowerCase t element).2 =
      (getSortedElements toLowerCase t' element).2 := by
  rw [getSortedElements_eq hSame.settled.nrElements hElement,
    getSortedElements_eq hSame.settled'.nrElements hElement,
    hSame.strings_eq hElement]

end SameContents

------------------------------------------------------------
-- Later Calls
------------------------------------------------------------

section Later

variable (toLowerCase : JavaString → JavaString)

/- A sequence of calls. -/
def performAll (t : TrieFunctions) (later : List Operation) :
    TrieFunctions :=
  later.foldl (fun t operation => (perform toLowerCase t operation).1)
    t

/- The calls that only look find the same in both. -/
def SeesSame (t t' : TrieFunctions) : Prop :=
  ∀ element, Supported (toCharArray toLowerCase element) →
    count toLowerCase t element = count toLowerCase t' element ∧
      (getSortedElements toLowerCase t element).2 =
        (getSortedElements toLowerCase t' element).2

/-
  An `add` of a key with a letter without a code throws; and
  whatever is called behind a call that has thrown, it finds
  what it would have found without it.
-/
structure LeavesContents
    (t : TrieFunctions) (operation : Operation) : Prop where
  throws :
    ∀ element, operation = .add element →
      ¬ Supported (toCharArray toLowerCase element) →
        (perform toLowerCase t operation).2 = .thrown
  unseen :
    (perform toLowerCase t operation).2 = .thrown →
      ∀ later,
        SeesSame toLowerCase
          (performAll toLowerCase
            (perform toLowerCase t operation).1 later)
          (performAll toLowerCase t later)

/-
  No node is made for a key with a string that is larger than
  that of `remove`.
-/
def NothingLarger (t : TrieFunctions) : Operation → Prop
| .add element =>
    ¬ Supported (toCharArray toLowerCase element) →
      ∀ key, key <+: walked (toCharArray toLowerCase element) →
        labelAt t key = none → Replaceable toLowerCase key
| _ => True

end Later

section Calls

variable {toLowerCase : JavaString → JavaString}
variable {t t' : TrieFunctions}
variable {element : TrieElement} {key : List Char}

theorem SameContents.performAll
    (hSame : SameContents toLowerCase t t')
    (later : List Operation) :
    SameContents toLowerCase (performAll toLowerCase t later)
      (performAll toLowerCase t' later) := by
  induction later generalizing t t' with
  | nil => exact hSame
  | cons operation later ih =>
      exact ih (hSame.perform operation)

theorem SameContents.seesSame
    (hSame : SameContents toLowerCase t t') :
    SeesSame toLowerCase t t' :=
  fun _ hElement =>
    ⟨hSame.count_eq hElement, hSame.elements_eq hElement⟩

theorem sameContents_refl
    (hSettled : Settled t) :
    SameContents toLowerCase t t where
  settled := hSettled
  settled' := hSettled
  labels := fun _ _ => Or.inl rfl

/- Only keys with a letter without a code make a call throw. -/
theorem unsupported_of_thrown
    (hSettled : Settled t)
    {operation : Operation}
    (hThrown :
      (perform toLowerCase t operation).2 = .thrown) :
    ¬ Supported
      (toCharArray toLowerCase operation.element) := by
  intro hElement
  cases operation with
  | add element =>
      have hKey : Supported (toCharArray toLowerCase element) :=
        hElement
      rw [perform, add_eq toLowerCase hSettled.rooted hKey]
        at hThrown
      cases hThrown
  | remove element =>
      have hKey : Supported (toCharArray toLowerCase element) :=
        hElement
      rw [perform, remove, search_eq toLowerCase t hKey]
        at hThrown
      split at hThrown
      · rename_i hNone
        cases hNone
      · cases hThrown
      · cases hThrown
  | count element =>
      have hKey : Supported (toCharArray toLowerCase element) :=
        hElement
      have hNumber := count_eq toLowerCase t hKey
      have hAnswer : count toLowerCase t element = .thrown :=
        hThrown
      rw [hNumber] at hAnswer
      cases hAnswer
  | getSortedElements element =>
      have hKey : Supported (toCharArray toLowerCase element) :=
        hElement
      rw [perform, getSortedElements_eq hSettled.nrElements hKey]
        at hThrown
      cases hThrown

/- The nodes that a failed `add` has made are not seen. -/
theorem sameContents_of_thrown
    (hSettled : Settled t)
    {operation : Operation}
    (hThrown :
      (perform toLowerCase t operation).2 = .thrown)
    (hLarger : NothingLarger toLowerCase t operation) :
    SameContents toLowerCase
      (perform toLowerCase t operation).1 t := by
  have hElement := unsupported_of_thrown hSettled hThrown
  have hAfter :
      Settled (perform toLowerCase t operation).1 :=
    settled_perform_any hSettled operation
  cases operation with
  | add element =>
      have hKey : ¬ Supported (toCharArray toLowerCase element) :=
        hElement
      refine ⟨hAfter, hSettled, ?_⟩
      intro key hSupported
      rw [perform, labelAt_add_unsupported hSettled.rooted hKey
        hSupported]
      cases hLabel : labelAt t key with
      | some data => exact Or.inl rfl
      | none =>
          rw [Option.none_or]
          split
          · rename_i hPrefix
            exact Or.inr
              ⟨blank_newNode, trivial,
                hLarger hKey key hPrefix hLabel⟩
          · exact Or.inl rfl
  | remove element =>
      have hKey : ¬ Supported (toCharArray toLowerCase element) :=
        hElement
      rw [perform, remove_unsupported t hKey]
      exact sameContents_refl hSettled
  | count element => exact sameContents_refl hSettled
  | getSortedElements element =>
      have hKey : ¬ Supported (toCharArray toLowerCase element) :=
        hElement
      rw [perform, getSortedElements_unsupported
        hSettled.nrElements hKey]
      exact sameContents_refl hSettled

------------------------------------------------------------
-- A String that is Not Replaced
------------------------------------------------------------

/- A listing of one key. -/
theorem strings_singleton
    (hSettled : Settled t)
    (hKey : Supported key)
    (hOnly :
      ∀ other, Supported other → key <+: other →
        (counter t other > 0 ↔ other = key))
    {s : JavaString}
    (hString : representative t key = some s) :
    strings t key = [s] := by
  have hKeys : listedKeys t key = [key] := by
    refine sorted_keys_unique (listedKeys_sorted t key)
      (List.pairwise_singleton _ _) ?_
    intro other
    rw [mem_listedKeys_iff hSettled hKey, List.mem_singleton]
    constructor
    · rintro ⟨hOther, hPrefix, hCount⟩
      exact (hOnly other hOther hPrefix).mp hCount
    · rintro rfl
      exact ⟨hKey, List.prefix_refl _,
        (hOnly other hKey (List.prefix_refl _)).mpr rfl⟩
  have hStrings := strings_eq t key
  rw [hKeys, List.map_singleton, hString] at hStrings
  rcases List.map_eq_singleton_iff.mp hStrings with
    ⟨s', hList, hSame⟩
  rw [hList, Option.some.inj hSame]

/- A string is removed, which is not there, and then added. -/
theorem strings_performAll
    (hSettled : Settled t)
    (hElement : Supported (toCharArray toLowerCase element))
    (hNothing :
      ∀ other, Supported other →
        toCharArray toLowerCase element <+: other →
          counter t other = 0)
    {s : JavaString}
    (hString :
      held
          (((labelAt t (toCharArray toLowerCase element)).map
            removeString).bind NodeData.string)
          [element.getS] = some s) :
    strings
        (performAll toLowerCase t [.remove element, .add element])
        (toCharArray toLowerCase element) = [s] := by
  have hRemoved :
      Settled (perform toLowerCase t (.remove element)).1 :=
    settled_perform_any hSettled _
  have hAdded :
      Settled
        (performAll toLowerCase t
          [.remove element, .add element]) :=
    settled_perform_any hRemoved (.add element)
  have hLabel :=
    labelAt_remove toLowerCase t hElement hElement
  rw [if_pos rfl] at hLabel
  refine strings_singleton hAdded hElement ?_ ?_
  · intro other hOther hPrefix
    have hCount :=
      counter_add hRemoved.rooted hElement hOther
    have hBefore := counter_remove t hElement hOther
    rw [hNothing other hOther hPrefix] at hBefore
    have hZero :
        counter (perform toLowerCase t (.remove element)).1
          other = 0 := by
      refine Eq.trans hBefore ?_
      split <;> rfl
    rw [hZero] at hCount
    change counter (add toLowerCase _ element).1 other > 0 ↔ _
    rw [hCount]
    split
    · rename_i hSame
      exact iff_of_true (by decide) hSame
    · rename_i hDifferent
      exact iff_of_false (by decide) hDifferent
  · have hNew :=
      representative_add hRemoved.rooted hElement hElement
    rw [if_pos rfl] at hNew
    refine Eq.trans hNew ?_
    rw [← hString]
    exact congrArg
      (fun label =>
        held (Option.bind label NodeData.string) [element.getS])
      hLabel

/- Without a node there is none below it. -/
theorem labelAt_of_prefix
    (hNone : labelAt t key = none)
    {other : List Char}
    (hPrefix : key <+: other) :
    labelAt t other = none := by
  rcases hPrefix with ⟨rest, rfl⟩
  rw [labelAt, path_append, DigitalTree.lookup_append]
  have hNull :
      DigitalTree.subtree (path key) t.root = .null := by
    rw [labelAt, DigitalTree.lookup] at hNone
    cases hNode : DigitalTree.subtree (path key) t.root with
    | null => rfl
    | node data children =>
        rw [hNode] at hNone
        cases hNone
  rw [hNull, DigitalTree.lookup_null]

/-
  A larger string would not replace that of `remove`, in the
  node that the failed `add` has made.
-/
theorem replaceable_of_unseen
    (hSettled : Settled t)
    (hElement : ¬ Supported (toCharArray toLowerCase element))
    (hUnseen :
      ∀ later,
        SeesSame toLowerCase
          (performAll toLowerCase
            (add toLowerCase t element).1 later)
          (performAll toLowerCase t later))
    (hPrefix : key <+: walked (toCharArray toLowerCase element))
    (hNone : labelAt t key = none) :
    Replaceable toLowerCase key := by
  rintro other rfl
  by_contra hMore
  have hFailed : Settled (add toLowerCase t element).1 :=
    settled_perform_any hSettled (.add element)
  have hKey : Supported (toCharArray toLowerCase other) :=
    fun ch hMem =>
      supported_walked _ ch (hPrefix.subset hMem)
  have hNothing :
      ∀ longer, Supported longer →
        toCharArray toLowerCase other <+: longer →
          counter t longer = 0 := by
    intro longer _ hLonger
    rw [counter, labelAt_of_prefix hNone hLonger]
    rfl
  have hNothing' :
      ∀ longer, Supported longer →
        toCharArray toLowerCase other <+: longer →
          counter (add toLowerCase t element).1 longer = 0 := by
    intro longer hSupported hLonger
    rw [counter, labelAt_add_unsupported hSettled.rooted hElement
      hSupported, labelAt_of_prefix hNone hLonger,
      Option.none_or]
    split <;> rfl
  have hWith :
      strings
          (performAll toLowerCase (add toLowerCase t element).1
            [.remove other, .add other])
          (toCharArray toLowerCase other) = [['~']] := by
    refine strings_performAll hFailed hKey hNothing' ?_
    rw [labelAt_add_unsupported hSettled.rooted hElement hKey,
      hNone, Option.none_or, if_pos hPrefix]
    have hKept :
        lexicographicalOrder ['~'] other.getS = ['~'] := by
      have hSwap := compareTo_swap other.getS ['~']
      rw [lexicographicalOrder_eq, if_pos (by omega)]
    change some (lexicographicalOrder ['~'] other.getS) = _
    rw [hKept]
  have hWithout :
      strings
          (performAll toLowerCase t [.remove other, .add other])
          (toCharArray toLowerCase other) = [other.getS] := by
    refine strings_performAll hSettled hKey hNothing ?_
    rw [hNone]
    rfl
  have hSettledAfter :
      ∀ {u : TrieFunctions}, Settled u →
        Settled
          (performAll toLowerCase u
            [.remove other, .add other]) :=
    fun hU =>
      settled_perform_any (settled_perform_any hU _) _
  have hSees :=
    (hUnseen [.remove other, .add other] other hKey).2
  rw [getSortedElements_eq (hSettledAfter hFailed).nrElements
    hKey, getSortedElements_eq
    (hSettledAfter hSettled).nrElements hKey, hWith, hWithout]
    at hSees
  injection hSees with hArrays
  injection hArrays with hFirst _
  injection hFirst with hTrie
  injection hTrie with hString
  rw [← hString] at hMore
  exact hMore (by decide)

/-
  A call that throws leaves the contents exactly if no node is
  made for a key with a larger string.
-/
theorem leavesContents_iff
    {calls : List Call}
    (hRun : (trieSystem toLowerCase).Run calls t)
    (operation : Operation) :
    LeavesContents toLowerCase t operation ↔
      NothingLarger toLowerCase t operation := by
  have hSettled := settled_of_reached hRun
  constructor
  · intro hLeaves
    cases operation with
    | add element =>
        intro hElement key hPrefix hNone
        exact replaceable_of_unseen hSettled hElement
          (hLeaves.unseen
            (hLeaves.throws element rfl hElement))
          hPrefix hNone
    | remove element => trivial
    | count element => trivial
    | getSortedElements element => trivial
  · intro hLarger
    refine ⟨?_, ?_⟩
    · rintro element rfl hElement
      rw [perform, add_unsupported hSettled.rooted hElement]
    · intro hThrown later
      exact
        ((sameContents_of_thrown hSettled hThrown
          hLarger).performAll later).seesSame

end Calls

/- With the letters of ASCII alone every string is replaced. -/
theorem replaceable_asciiLowerCase
    {key : List Char}
    (hKey : Supported key) :
    Replaceable asciiLowerCase key := by
  rintro element rfl
  refine Int.le_of_lt (compareTo_sentinel_of_lt ?_)
  intro ch hMem
  cases element with
  | trie1 s =>
      have hLower : InAlphabet ch.toLower :=
        hKey _ (List.mem_map_of_mem hMem)
      by_cases hUpper :
          ch.val ≥ 'A'.val ∧ ch.val ≤ 'Z'.val
      · have hCode : ch.toNat ≤ 'Z'.toNat := hUpper.2
        exact Nat.lt_of_le_of_lt hCode (by decide)
      · have hKept : ch.toLower = ch := dif_neg hUpper
        rw [hKept] at hLower
        exact toNat_lt_of_inAlphabet hLower
  | trie2 s =>
      by_cases hDropped : ch ∈ ['-', '_', '(', ')']
      · have hAll :
            ['-', '_', '(', ')'].all
              (fun c => decide (c.toNat < '~'.toNat)) = true :=
          rfl
        exact of_decide_eq_true
          (List.all_eq_true.mp hAll ch hDropped)
      · exact toNat_lt_of_inAlphabet
          (hKey ch
            (List.mem_filter.mpr ⟨hMem, by simpa using hDropped⟩))

theorem leavesContents_brace :
    LeavesContents asciiLowerCase TrieFunctions.new
      (.add (.trie2 ['a', '{'])) := by
  refine (leavesContents_iff (Run.start rfl) _).mpr ?_
  intro _ key hPrefix _
  exact replaceable_asciiLowerCase
    (fun ch hMem => supported_walked _ ch (hPrefix.subset hMem))

/-
  `toLowerCase` for the letters of ASCII and the sign for
  Kelvin, which is a `k` then.
-/
def kelvinLowerCase (s : JavaString) : JavaString :=
  s.map
    (fun ch => if ch = Char.ofNat 8490 then 'k' else ch.toLower)

/- The sign for Kelvin does not replace the string `~`. -/
theorem not_leavesContents_always :
    ¬ ∀ toLowerCase calls t,
      (trieSystem toLowerCase).Run calls t →
        ∀ operation,
          LeavesContents toLowerCase t operation := by
  intro hAlways
  have hLeaves :=
    hAlways kelvinLowerCase [] TrieFunctions.new (Run.start rfl)
      (.add (.trie1 ['k', '{']))
  have hElement :
      ¬ Supported
        (toCharArray kelvinLowerCase (.trie1 ['k', '{'])) := by
    decide
  have hReplaceable : Replaceable kelvinLowerCase ['k'] :=
    replaceable_of_unseen settled_new hElement
      (hLeaves.unseen (hLeaves.throws _ rfl hElement))
      (by decide) rfl
  have hLess :=
    hReplaceable (.trie1 [Char.ofNat 8490]) (by decide)
  revert hLess
  decide

end Trie

end ProgrammingTasks
