import ProgrammingTasks.Trie.Listing

/-
  The string that is listed for a key.

  A node holds the smallest string that was added, and `remove`
  puts a string there that is larger than any other when the
  counter comes to 0.  The root starts with the empty string,
  which is smaller than any other.

  Main declarations:
    * `IsSmallest`, `held`
    * `addedSince`, `stale`
    * `ListsSmallest`
    * `listsSmallest_iff`
-/

------------------------------------------------------------
-- The Order of Strings
------------------------------------------------------------

namespace ProgrammingTasks

namespace Trie

open TransitionSystem

theorem compareTo_swap :
    ∀ xs ys : JavaString, compareTo ys xs = -compareTo xs ys
| [], [] => rfl
| [], y :: ys => by
    simp [compareTo]
| x :: xs, [] => by
    simp [compareTo]
| x :: xs, y :: ys => by
    unfold compareTo
    by_cases hSame : x = y
    · rw [if_pos hSame, if_pos hSame.symm, compareTo_swap xs ys]
    · rw [if_neg hSame, if_neg (Ne.symm hSame)]
      omega

theorem eq_of_compareTo :
    ∀ {xs ys : JavaString}, compareTo xs ys = 0 → xs = ys
| [], [], _ => rfl
| [], y :: ys, hZero => by
    simp only [compareTo, List.length_cons] at hZero
    omega
| x :: xs, [], hZero => by
    simp only [compareTo, List.length_cons] at hZero
    omega
| x :: xs, y :: ys, hZero => by
    unfold compareTo at hZero
    split at hZero
    · rename_i hSame
      rw [hSame, eq_of_compareTo hZero]
    · rename_i hDifferent
      have hCodes : x.toNat = y.toNat := by
        omega
      exact absurd (Char.toNat_inj.mp hCodes) hDifferent

theorem compareTo_self (xs : JavaString) :
    compareTo xs xs = 0 := by
  have hSwap := compareTo_swap xs xs
  omega

theorem compareTo_antisymm
    {xs ys : JavaString}
    (hFirst : compareTo xs ys ≤ 0)
    (hSecond : compareTo ys xs ≤ 0) :
    xs = ys := by
  have hSwap := compareTo_swap xs ys
  exact eq_of_compareTo (by omega)

theorem compareTo_trans :
    ∀ {xs ys zs : JavaString},
      compareTo xs ys ≤ 0 → compareTo ys zs ≤ 0 →
        compareTo xs zs ≤ 0
| [], _, zs, _, _ => by
    simp only [compareTo]
    omega
| x :: xs, [], _, hFirst, _ => by
    simp only [compareTo, List.length_cons] at hFirst
    omega
| x :: xs, y :: ys, [], _, hSecond => by
    simp only [compareTo, List.length_cons] at hSecond
    omega
| x :: xs, y :: ys, z :: zs, hFirst, hSecond => by
    unfold compareTo at hFirst hSecond ⊢
    by_cases hXy : x = y
    · subst hXy
      rw [if_pos rfl] at hFirst
      by_cases hXz : x = z
      · subst hXz
        rw [if_pos rfl] at hSecond ⊢
        exact compareTo_trans hFirst hSecond
      · rw [if_neg hXz] at hSecond ⊢
        exact hSecond
    · rw [if_neg hXy] at hFirst
      have hDifferent : x.toNat ≠ y.toNat :=
        fun hCodes => hXy (Char.toNat_inj.mp hCodes)
      by_cases hYz : y = z
      · subst hYz
        rw [if_neg hXy]
        exact hFirst
      · rw [if_neg hYz] at hSecond
        have hXz : x ≠ z := by
          rintro rfl
          omega
        rw [if_neg hXz]
        omega

theorem lexicographicalOrder_eq (oldS newS : JavaString) :
    lexicographicalOrder oldS newS =
      if compareTo oldS newS ≤ 0 then oldS else newS := by
  unfold lexicographicalOrder
  split_ifs <;> first | rfl | omega

/- A string of the list with no smaller one. -/
def IsSmallest (s : JavaString) (l : List JavaString) : Prop :=
  s ∈ l ∧ ∀ s' ∈ l, compareTo s s' ≤ 0

theorem isSmallest_singleton (s : JavaString) :
    IsSmallest s [s] := by
  refine ⟨List.mem_singleton_self s, ?_⟩
  intro s' hMem
  rw [List.mem_singleton.mp hMem]
  exact Int.le_of_eq (compareTo_self s)

/- The smaller of a new string and the smallest so far. -/
theorem IsSmallest.cons
    {s : JavaString} {l : List JavaString}
    (hSmallest : IsSmallest s l)
    (newS : JavaString) :
    IsSmallest (lexicographicalOrder s newS) (newS :: l) := by
  rw [lexicographicalOrder_eq]
  split
  · rename_i hOld
    refine ⟨List.mem_cons_of_mem _ hSmallest.1, ?_⟩
    intro s' hMem
    rcases List.mem_cons.mp hMem with rfl | hRest
    · exact hOld
    · exact hSmallest.2 s' hRest
  · rename_i hNew
    have hSwap := compareTo_swap s newS
    refine ⟨List.mem_cons_self, ?_⟩
    intro s' hMem
    rcases List.mem_cons.mp hMem with rfl | hRest
    · exact Int.le_of_eq (compareTo_self _)
    · exact compareTo_trans (by omega) (hSmallest.2 s' hRest)

/- The string of `remove` is larger than any of these. -/
theorem compareTo_sentinel_of_lt
    {s : JavaString}
    (hLetters : ∀ ch ∈ s, ch.toNat < '~'.toNat) :
    compareTo s ['~'] < 0 := by
  cases s with
  | nil => decide
  | cons ch rest =>
      have hCode := hLetters ch List.mem_cons_self
      have hDifferent : ch ≠ '~' := by
        rintro rfl
        omega
      rw [compareTo, if_neg hDifferent]
      omega

theorem toNat_lt_of_inAlphabet
    {letter : Char}
    (hLetter : InAlphabet letter) :
    letter.toNat < '~'.toNat := by
  rcases index_eq_some hLetter with ⟨i, hIndex⟩
  have hAll :
      ∀ i : Fin 68, (letterOf i).toNat < '~'.toNat := by
    decide
  have hCode := hAll i
  rw [letterOf_of_index hIndex] at hCode
  exact hCode

theorem compareTo_sentinel
    {s : JavaString}
    (hString : Supported s) :
    compareTo s ['~'] < 0 :=
  compareTo_sentinel_of_lt
    (fun ch hMem => toNat_lt_of_inAlphabet (hString ch hMem))

------------------------------------------------------------
-- The String of a Node
------------------------------------------------------------

/-
  What a node holds that started with a string, or with none,
  after the strings of a list, the latest first.
-/
def held (start : Option JavaString) :
    List JavaString → Option JavaString
| [] => start
| s :: earlier =>
    match held start earlier with
    | none => some s
    | some string => some (lexicographicalOrder string s)

theorem held_cons
    (start : Option JavaString) (s : JavaString)
    (earlier : List JavaString) :
    held start (s :: earlier) =
      held (held start earlier) [s] :=
  rfl

theorem string_addString (s : JavaString) (data : NodeData) :
    (addString s data).string = held data.string [s] := by
  unfold addString held held
  rfl

/- The string of a node goes with its last entry. -/
theorem string_removeString (data : NodeData) :
    (removeString data).string =
      if (removeString data).count = 0 then some ['~']
      else data.string := by
  rw [count_removeString]
  by_cases hLast :
      (if data.count > 0 then data.count - 1
        else data.count) = 0
  · rw [if_pos hLast]
    exact congrArg NodeData.string (if_pos hLast)
  · rw [if_neg hLast]
    exact (congrArg NodeData.string (if_neg hLast)).trans rfl

theorem held_ne_none
    (start : Option JavaString)
    {l : List JavaString}
    (hSome : l ≠ []) :
    held start l ≠ none := by
  cases l with
  | nil => exact absurd rfl hSome
  | cons s earlier =>
      rw [held]
      split <;> exact Option.some_ne_none _

/- The smallest of the strings and of the one at the start. -/
theorem isSmallest_held
    {start : Option JavaString} :
    ∀ {l : List JavaString} {s : JavaString},
      held start l = some s → IsSmallest s (l ++ start.toList)
| [], s, hSome => by
    have hStart : start = some s := hSome
    rw [hStart]
    exact isSmallest_singleton s
| newS :: earlier, s, hSome => by
    rw [held] at hSome
    cases hBefore : held start earlier with
    | none =>
        have hNil : earlier = [] := by
          by_contra hRest
          exact held_ne_none start hRest hBefore
        subst hNil
        have hStart : start = none := hBefore
        rw [hBefore] at hSome
        cases hSome
        rw [hStart]
        exact isSmallest_singleton newS
    | some string =>
        rw [hBefore] at hSome
        cases hSome
        exact (isSmallest_held hBefore).cons newS

/- The string of `remove` is gone with the first new one. -/
theorem held_sentinel :
    ∀ {l : List JavaString},
      (∀ s ∈ l, Supported s) → l ≠ [] →
        held (some ['~']) l = held none l
| [s], hStrings, _ => by
    have hLess :=
      compareTo_sentinel (hStrings s List.mem_cons_self)
    have hSwap := compareTo_swap s ['~']
    have hNew : lexicographicalOrder ['~'] s = s := by
      rw [lexicographicalOrder_eq, if_neg (by omega)]
    simp only [held, hNew]
| s :: next :: earlier, hStrings, _ => by
    have hRest :=
      held_sentinel
        (fun s' hMem =>
          hStrings s' (List.mem_cons_of_mem _ hMem))
        (List.cons_ne_nil next earlier)
    rw [held_cons, hRest]
    rfl

------------------------------------------------------------
-- The Strings of a Run
------------------------------------------------------------

section Calls

variable (toLowerCase : JavaString → JavaString)

/- The call adds a string under the key. -/
def addsUnder (key : List Char) :
    Operation → Option JavaString
| .add element =>
    if toCharArray toLowerCase element = key then
      some element.getS
    else
      none
| _ => none

/-
  The strings that were added under a key since its count was
  last 0, the latest first.
-/
def addedSince (key : List Char) :
    List Call → List JavaString
| [] => []
| call :: calls =>
    if counter call.target key = 0 then
      []
    else
      (addsUnder toLowerCase key call.event).toList ++
        addedSince key calls

/-
  A string that the node of a key had already when its count
  was last 0: the empty string of the root, until `remove`
  replaces it; and the smallest one before, where the counter
  has come to 0 by an `add`, after 2 ^ 32 of them.
-/
def stale (key : List Char) : List Call → Option JavaString
| [] => if key = [] then some [] else none
| call :: calls =>
    if counter call.target key = 0 then
      match call.event with
      | .add element =>
          if toCharArray toLowerCase element = key then
            held (stale key calls)
              (element.getS :: addedSince toLowerCase key calls)
          else
            stale key calls
      | .remove element =>
          if toCharArray toLowerCase element = key then none
          else stale key calls
      | _ => stale key calls
    else
      stale key calls

/- All strings of a run are over the alphabet. -/
def AllTexts (calls : List Call) : Prop :=
  ∀ call ∈ calls, Supported call.event.element.getS

/-
  What the node of a key holds: it started with the string
  that is left, or, if there is none, with that of `remove`.
-/
structure Holds
    (calls : List Call) (t : TrieFunctions)
    (key : List Char) : Prop where
  nothing :
    addedSince toLowerCase key calls = [] ↔ counter t key = 0
  texts :
    ∀ s ∈ addedSince toLowerCase key calls, Supported s
  start :
    ∃ start,
      representative t key =
          held start (addedSince toLowerCase key calls) ∧
        (start = stale toLowerCase key calls ∨
          stale toLowerCase key calls = none ∧
            start = some ['~'])

end Calls

section Holds

variable {toLowerCase : JavaString → JavaString}
variable {calls : List Call} {t t' : TrieFunctions}
variable {element : TrieElement} {key : List Char}

theorem holds_new (hKey : Supported key) :
    Holds toLowerCase [] TrieFunctions.new key where
  nothing := by
    have hCounter : counter TrieFunctions.new key = 0 := by
      simp only [counter, labelAt, TrieFunctions.new,
        DigitalTree.lookup_leaf]
      split <;> rfl
    exact iff_of_true rfl hCounter
  texts := fun s hMem => by cases hMem
  start := by
    refine ⟨stale toLowerCase key [], ?_, Or.inl rfl⟩
    have hRoot : path key = [] ↔ key = [] :=
      path_eq_iff hKey (by simp [Supported] : Supported [])
    rw [representative, labelAt, TrieFunctions.new,
      DigitalTree.lookup_leaf, stale]
    simp only [hRoot]
    split <;> rfl

/- A new string of a key, and no change for the others. -/
theorem representative_add
    (hRooted : Rooted t)
    (hSupported : Supported (toCharArray toLowerCase element))
    (hKey : Supported key) :
    representative (add toLowerCase t element).1 key =
      if key = toCharArray toLowerCase element then
        held (representative t key) [element.getS]
      else
        representative t key := by
  rw [representative,
    labelAt_add toLowerCase hRooted hSupported hKey]
  unfold representative
  split
  · rw [Option.bind_some, string_addString]
    cases labelAt t key with
    | none => rfl
    | some data => rfl
  · cases labelAt t key with
    | none =>
        rw [Option.none_or]
        split <;> rfl
    | some data => rfl

/- The call adds no string, and leaves that of the key. -/
theorem Holds.unchanged
    (hHolds : Holds toLowerCase calls t key)
    {operation : Operation}
    (hCounter : counter t' key = 0 ↔ counter t key = 0)
    (hString : representative t' key = representative t key)
    (hAdds : addsUnder toLowerCase key operation = none)
    (hStale :
      stale toLowerCase key (⟨t, operation, t'⟩ :: calls) =
        stale toLowerCase key calls) :
    Holds toLowerCase (⟨t, operation, t'⟩ :: calls) t' key := by
  have hSince :
      addedSince toLowerCase key (⟨t, operation, t'⟩ :: calls) =
        addedSince toLowerCase key calls := by
    rw [addedSince]
    split
    · rename_i hZero
      exact (hHolds.nothing.mpr (hCounter.mp hZero)).symm
    · dsimp only
      rw [hAdds]
      rfl
  refine ⟨?_, ?_, ?_⟩
  · rw [hSince, hCounter]
    exact hHolds.nothing
  · rw [hSince]
    exact hHolds.texts
  · rw [hSince, hStale, hString]
    exact hHolds.start

/- The node of the key is the same. -/
theorem Holds.sameLabel
    (hHolds : Holds toLowerCase calls t key)
    {operation : Operation}
    (hLabel : labelAt t' key = labelAt t key)
    (hAdds : addsUnder toLowerCase key operation = none)
    (hStale :
      stale toLowerCase key (⟨t, operation, t'⟩ :: calls) =
        stale toLowerCase key calls) :
    Holds toLowerCase (⟨t, operation, t'⟩ :: calls) t' key := by
  refine hHolds.unchanged ?_ ?_ hAdds hStale
  · rw [counter, counter, hLabel]
  · rw [representative, representative, hLabel]

/- A string that is added under the key. -/
theorem Holds.added
    (hHolds : Holds toLowerCase calls t key)
    (hKey : toCharArray toLowerCase element = key)
    (hText : Supported element.getS)
    (hString :
      representative t' key =
        held (representative t key) [element.getS]) :
    Holds toLowerCase (⟨t, .add element, t'⟩ :: calls) t'
      key := by
  rcases hHolds.start with ⟨start, hHeld, hStart⟩
  have hNew :
      representative t' key =
        held start
          (element.getS :: addedSince toLowerCase key calls) := by
    rw [hString, hHeld, ← held_cons]
  have hTexts :
      ∀ s ∈ element.getS :: addedSince toLowerCase key calls,
        Supported s := by
    intro s hMem
    rcases List.mem_cons.mp hMem with rfl | hBefore
    · exact hText
    · exact hHolds.texts s hBefore
  by_cases hZero : counter t' key = 0
  · -- The counter has run through all its values.
    have hSince :
        addedSince toLowerCase key
          (⟨t, .add element, t'⟩ :: calls) = [] :=
      if_pos hZero
    refine ⟨?_, ?_, ?_⟩
    · exact iff_of_true hSince hZero
    · rw [hSince]
      exact fun s hMem => by cases hMem
    · rw [hSince, stale, if_pos hZero]
      dsimp only
      rw [if_pos hKey]
      refine ⟨_, hNew, Or.inl ?_⟩
      rcases hStart with rfl | ⟨hNone, rfl⟩
      · rfl
      · rw [hNone]
        exact held_sentinel hTexts (List.cons_ne_nil _ _)
  · have hSince :
        addedSince toLowerCase key
            (⟨t, .add element, t'⟩ :: calls) =
          element.getS :: addedSince toLowerCase key calls := by
      rw [addedSince, if_neg hZero]
      dsimp only [addsUnder]
      rw [if_pos hKey]
      rfl
    refine ⟨?_, ?_, ?_⟩
    · rw [hSince]
      exact iff_of_false (List.cons_ne_nil _ _) hZero
    · rw [hSince]
      exact hTexts
    · rw [hSince, stale, if_neg hZero]
      exact ⟨start, hNew, hStart⟩

/- The string of the key goes, and the counter is 0. -/
theorem holds_emptied
    (hKey : toCharArray toLowerCase element = key)
    (hLabel :
      labelAt t' key = (labelAt t key).map removeString)
    (hZero : counter t' key = 0) :
    Holds toLowerCase (⟨t, .remove element, t'⟩ :: calls) t'
      key := by
  have hSince :
      addedSince toLowerCase key
        (⟨t, .remove element, t'⟩ :: calls) = [] :=
    if_pos hZero
  refine ⟨?_, ?_, ?_⟩
  · exact iff_of_true hSince hZero
  · rw [hSince]
    exact fun s hMem => by cases hMem
  · rw [hSince, stale, if_pos hZero]
    dsimp only
    rw [if_pos hKey]
    refine ⟨representative t' key, rfl, ?_⟩
    cases hData : labelAt t key with
    | none =>
        rw [representative, hLabel, hData]
        exact Or.inl rfl
    | some data =>
        rw [counter, hLabel, hData] at hZero
        have hCount : (removeString data).count = 0 := hZero
        rw [representative, hLabel, hData]
        exact Or.inr
          ⟨rfl, (string_removeString data).trans (if_pos hCount)⟩

/- One of the entries goes, and others are left. -/
theorem Holds.decremented
    (hHolds : Holds toLowerCase calls t key)
    (hLabel :
      labelAt t' key = (labelAt t key).map removeString)
    (hSome : counter t' key ≠ 0) :
    Holds toLowerCase (⟨t, .remove element, t'⟩ :: calls) t'
      key := by
  cases hData : labelAt t key with
  | none =>
      rw [counter, hLabel, hData] at hSome
      exact absurd rfl hSome
  | some data =>
      have hCount : (removeString data).count ≠ 0 := by
        rw [counter, hLabel, hData] at hSome
        exact hSome
      have hBefore : counter t key ≠ 0 := by
        rw [counter, hData]
        intro hNone
        have hNothing : data.count = 0 := hNone
        rw [count_removeString, hNothing] at hCount
        exact hCount (by decide)
      have hString :
          representative t' key = representative t key := by
        rw [representative, representative, hLabel, hData]
        exact (string_removeString data).trans (if_neg hCount)
      refine hHolds.unchanged (iff_of_false hSome hBefore)
        hString rfl ?_
      rw [stale, if_neg hSome]

/- What a call leaves alone. -/
theorem Holds.perform
    (hHolds : Holds toLowerCase calls t key)
    (hRooted : Rooted t)
    (hKey : Supported key)
    (operation : Operation)
    (hElement :
      Supported (toCharArray toLowerCase operation.element))
    (hText : Supported operation.element.getS) :
    Holds toLowerCase
      (⟨t, operation, (perform toLowerCase t operation).1⟩ ::
        calls)
      (perform toLowerCase t operation).1 key := by
  cases operation with
  | add element =>
      have hTarget : Supported (toCharArray toLowerCase element) :=
        hElement
      have hCounter := counter_add hRooted hTarget hKey
      have hString := representative_add hRooted hTarget hKey
      by_cases hSame : toCharArray toLowerCase element = key
      · rw [if_pos hSame.symm] at hString
        exact hHolds.added hSame hText hString
      · rw [if_neg (Ne.symm hSame)] at hCounter hString
        have hZero :
            counter (add toLowerCase t element).1 key = 0 ↔
              counter t key = 0 := by
          rw [hCounter]
        refine hHolds.unchanged hZero hString (if_neg hSame) ?_
        rw [stale]
        dsimp only
        rw [if_neg hSame, ite_self]
  | remove element =>
      have hTarget : Supported (toCharArray toLowerCase element) :=
        hElement
      have hLabel := labelAt_remove toLowerCase t hTarget hKey
      by_cases hSame : toCharArray toLowerCase element = key
      · rw [if_pos hSame.symm] at hLabel
        by_cases hZero :
            counter (remove toLowerCase t element).1 key = 0
        · exact holds_emptied hSame hLabel hZero
        · exact hHolds.decremented hLabel hZero
      · rw [if_neg (Ne.symm hSame)] at hLabel
        refine hHolds.sameLabel hLabel rfl ?_
        rw [stale]
        dsimp only
        rw [if_neg hSame, ite_self]
  | count element =>
      refine hHolds.sameLabel rfl rfl ?_
      rw [stale]
      exact ite_self _
  | getSortedElements element =>
      have hRoot :=
        root_getSortedElements toLowerCase t element
      have hLabel :
          labelAt
              (getSortedElements toLowerCase t element).1 key =
            labelAt t key := by
        rw [labelAt, labelAt, hRoot]
      refine hHolds.sameLabel hLabel rfl ?_
      rw [stale]
      exact ite_self _

theorem holds_of_run
    (hRun : (trieSystem toLowerCase).Run calls t)
    (hAll : AllSupported toLowerCase calls)
    (hTexts : AllTexts calls)
    (hKey : Supported key) :
    Holds toLowerCase calls t key := by
  revert hAll hTexts
  refine hRun.history_invariant
    (I := fun calls t =>
      AllSupported toLowerCase calls → AllTexts calls →
        Holds toLowerCase calls t key) ?_ ?_
  · rintro t rfl _ _
    exact holds_new hKey
  · intro calls t operation t' hBefore hInv hStep hAll hTexts
    have hEarlier : AllSupported toLowerCase calls :=
      fun call hMem => hAll call (List.mem_cons_of_mem _ hMem)
    have hEarlierTexts : AllTexts calls :=
      fun call hMem => hTexts call (List.mem_cons_of_mem _ hMem)
    have hNext :
        some (perform toLowerCase t operation).1 = some t' :=
      hStep
    cases hNext
    exact (hInv hEarlier hEarlierTexts).perform
      (settled_of_run hBefore hEarlier).rooted hKey operation
      (hAll _ List.mem_cons_self) (hTexts _ List.mem_cons_self)

/- A counter that is not 0 comes from strings. -/
theorem addedSince_ne_nil
    (hHolds : Holds toLowerCase calls t key)
    (hCount : counter t key > 0) :
    addedSince toLowerCase key calls ≠ [] := by
  intro hNil
  rw [hHolds.nothing.mp hNil] at hCount
  exact absurd hCount (by decide)

/-
  The node holds the smallest string of the list exactly if no
  smaller one was left.
-/
theorem isSmallest_representative_iff
    (hHolds : Holds toLowerCase calls t key)
    (hCount : counter t key > 0) :
    (∃ s, representative t key = some s ∧
        IsSmallest s (addedSince toLowerCase key calls)) ↔
      ∀ left, stale toLowerCase key calls = some left →
        ∃ s ∈ addedSince toLowerCase key calls,
          compareTo s left ≤ 0 := by
  have hSome := addedSince_ne_nil hHolds hCount
  rcases hHolds.start with ⟨start, hHeld, hStart⟩
  cases hString : held start (addedSince toLowerCase key calls)
    with
  | none => exact absurd hString (held_ne_none start hSome)
  | some string =>
      have hSmallest := isSmallest_held hString
      rw [hHeld, hString]
      constructor
      · rintro ⟨s, hSame, hMem, _⟩ left hLeft
        cases hSame
        rcases hStart with rfl | ⟨hNone, _⟩
        · refine ⟨string, hMem, hSmallest.2 left ?_⟩
          rw [hLeft]
          exact List.mem_append_right _ List.mem_cons_self
        · rw [hNone] at hLeft
          cases hLeft
      · intro hApart
        refine ⟨string, rfl, ?_, fun s hMem =>
          hSmallest.2 s (List.mem_append_left _ hMem)⟩
        rcases List.mem_append.mp hSmallest.1 with
          hMem | hLeft
        · exact hMem
        · have hFirst : start = some string :=
            Option.mem_toList.mp hLeft
          rcases hStart with hStale | ⟨_, hSentinel⟩
          · rcases hApart string (hStale ▸ hFirst) with
              ⟨s, hMem, hLess⟩
            have hSame := compareTo_antisymm hLess
              (hSmallest.2 s (List.mem_append_left _ hMem))
            rw [← hSame]
            exact hMem
          · -- Every string is smaller than that of `remove`.
            rw [hSentinel] at hString
            rw [held_sentinel hHolds.texts hSome] at hString
            have hNone := (isSmallest_held hString).1
            rw [Option.toList_none, List.append_nil] at hNone
            exact hNone

------------------------------------------------------------
-- The Listing
------------------------------------------------------------

/-
  The strings that a listing returns for the keys with the
  prefix and a positive count, in the order of the keys, are
  the smallest that were added since the count was last 0.
-/
def ListsSmallest
    (toLowerCase : JavaString → JavaString)
    (calls : List Call) (t : TrieFunctions)
    (element : TrieElement) : Prop :=
  ∃ (keys : List (List Char)) (strings : List JavaString),
    keys.Pairwise (fun k k' => compareTo k k' < 0) ∧
    (∀ key, key ∈ keys ↔
      Supported key ∧
        toCharArray toLowerCase element <+: key ∧
          counter t key > 0) ∧
    List.Forall₂
      (fun key s =>
        IsSmallest s (addedSince toLowerCase key calls))
      keys strings ∧
    (getSortedElements toLowerCase t element).2 =
      .elements (strings.map (fun s => some (.trie1 s)))

/- No key has a smaller string left. -/
def NothingLeft
    (toLowerCase : JavaString → JavaString)
    (calls : List Call) (t : TrieFunctions)
    (element : TrieElement) : Prop :=
  ∀ key, Supported key →
    toCharArray toLowerCase element <+: key →
      counter t key > 0 →
        ∀ left, stale toLowerCase key calls = some left →
          ∃ s ∈ addedSince toLowerCase key calls,
            compareTo s left ≤ 0

/- Keys in order are given by their membership. -/
theorem sorted_keys_unique
    {keys keys' : List (List Char)}
    (hSorted : keys.Pairwise (fun k k' => compareTo k k' < 0))
    (hSorted' : keys'.Pairwise (fun k k' => compareTo k k' < 0))
    (hSame : ∀ key, key ∈ keys ↔ key ∈ keys') :
    keys = keys' := by
  have hNodup :
      ∀ {l : List (List Char)},
        l.Pairwise (fun k k' => compareTo k k' < 0) →
          l.Nodup := by
    intro l hOrder
    refine hOrder.imp ?_
    rintro k k' hLess rfl
    rw [compareTo_self] at hLess
    omega
  have hPerm :=
    (List.perm_ext_iff_of_nodup (hNodup hSorted)
      (hNodup hSorted')).mpr hSame
  refine hPerm.eq_of_pairwise ?_ hSorted hSorted'
  intro k k' _ _ hLess hMore
  exact compareTo_antisymm (Int.le_of_lt hLess)
    (Int.le_of_lt hMore)

/- A list of results, one for each key. -/
theorem exists_results_iff
    {f : List Char → Option JavaString}
    {P : List Char → JavaString → Prop} :
    ∀ keys : List (List Char),
      (∃ strings,
          List.Forall₂ P keys strings ∧
            keys.map f = strings.map some) ↔
        ∀ key ∈ keys, ∃ s, f key = some s ∧ P key s
| [] =>
    iff_of_true ⟨[], List.Forall₂.nil, rfl⟩
      (fun key hMem => by cases hMem)
| key :: keys => by
    rw [List.forall_mem_cons, ← exists_results_iff keys]
    constructor
    · rintro ⟨strings, hAll, hSame⟩
      cases hAll with
      | cons hFirst hRest =>
          rw [List.map_cons, List.map_cons] at hSame
          injection hSame with hString hStrings
          exact ⟨⟨_, hString, hFirst⟩, _, hRest, hStrings⟩
    · rintro ⟨⟨s, hString, hFirst⟩, strings, hRest, hStrings⟩
      refine ⟨s :: strings, hRest.cons hFirst, ?_⟩
      · rw [List.map_cons, List.map_cons, hString, hStrings]

theorem elements_eq_iff
    {keys : List (List Char)} {strings : List JavaString} :
    Answer.elements
          (keys.map
            (fun key => (representative t key).map .trie1)) =
        .elements (strings.map (fun s => some (.trie1 s))) ↔
      keys.map (representative t) = strings.map some := by
  have hInjective :
      Function.Injective
        (List.map (Option.map TrieElement.trie1)) := by
    refine List.map_injective_iff.mpr
      (Option.map_injective ?_)
    intro s s' hSame
    cases hSame
    rfl
  rw [Answer.elements.injEq, ← hInjective.eq_iff, List.map_map,
    List.map_map]
  rfl

/-
  In every run the listing is right exactly if nothing smaller
  was left in a node that is listed.
-/
theorem listsSmallest_iff
    (hRun : (trieSystem toLowerCase).Run calls t)
    (hAll : AllSupported toLowerCase calls)
    (hTexts : AllTexts calls)
    (hElement : Supported (toCharArray toLowerCase element)) :
    ListsSmallest toLowerCase calls t element ↔
      NothingLeft toLowerCase calls t element := by
  rcases listing_of_run hRun hAll hElement with
    ⟨keys, hSorted, hMem, _, hListing, _⟩
  have hEach :
      ∀ key, key ∈ keys →
        ((∃ s, representative t key = some s ∧
            IsSmallest s (addedSince toLowerCase key calls)) ↔
          ∀ left, stale toLowerCase key calls = some left →
            ∃ s ∈ addedSince toLowerCase key calls,
              compareTo s left ≤ 0) := by
    intro key hKey
    rcases (hMem key).mp hKey with ⟨hSupported, _, hCount⟩
    exact isSmallest_representative_iff
      (holds_of_run hRun hAll hTexts hSupported) hCount
  constructor
  · rintro ⟨keys', strings, hSorted', hMem', hSmallest, hArray⟩
      key hKey hPrefix hCount
    have hSame :=
      sorted_keys_unique hSorted hSorted'
        (fun key => (hMem key).trans (hMem' key).symm)
    subst hSame
    rw [hListing, elements_eq_iff] at hArray
    have hListed := (hMem key).mpr ⟨hKey, hPrefix, hCount⟩
    exact (hEach key hListed).mp
      ((exists_results_iff keys).mp
        ⟨strings, hSmallest, hArray⟩ key hListed)
  · intro hNothing
    have hStrings :=
      (exists_results_iff keys).mpr
        (fun key hKey =>
          (hEach key hKey).mpr
            (hNothing key ((hMem key).mp hKey).1
              ((hMem key).mp hKey).2.1
              ((hMem key).mp hKey).2.2))
    rcases hStrings with ⟨strings, hSmallest, hSame⟩
    refine ⟨keys, strings, hSorted, hMem, hSmallest, ?_⟩
    rw [hListing]
    exact elements_eq_iff.mpr hSame

/- Within the range of `int` only the root has a string left. -/
theorem stale_eq
    (hRun : (trieSystem toLowerCase).Run calls t)
    (hAll : AllSupported toLowerCase calls)
    (hKey : Supported key)
    (hRange : InRange toLowerCase calls key)
    {left : JavaString}
    (hLeft : stale toLowerCase key calls = some left) :
    key = [] ∧ left = [] := by
  revert hAll hRange hLeft
  refine hRun.history_invariant
    (I := fun calls _ =>
      AllSupported toLowerCase calls →
        InRange toLowerCase calls key →
          stale toLowerCase key calls = some left →
            key = [] ∧ left = []) ?_ ?_
  · intro t _ _ _ hLeft
    rw [stale] at hLeft
    split at hLeft
    · rename_i hRoot
      exact ⟨hRoot, (Option.some.inj hLeft).symm⟩
    · cases hLeft
  · intro calls t operation t' hBefore hInv hStep hAll hRange
      hLeft
    have hEarlier :=
      hInv (fun call hMem => hAll call (List.mem_cons_of_mem _ hMem))
        hRange.tail
    rw [stale] at hLeft
    split at hLeft
    · rename_i hZero
      cases operation with
      | add element =>
          dsimp only at hLeft
          split at hLeft
          · rename_i hSame
            -- The value of the key is positive here.
            have hAfter :=
              (countsLike_of_run (hBefore.next hStep)).agree hAll
                key hKey hRange
            have hZeroInt : (counter t' key).toInt = 0 := by
              rw [hZero]
              rfl
            rw [hZeroInt] at hAfter
            have hPositive :
                mapOf toLowerCase
                    (⟨t, .add element, t'⟩ :: calls) key =
                  mapOf toLowerCase calls key + 1 := by
              rw [mapOf, mapStep, hSame, Function.update_self]
            omega
          · exact hEarlier hLeft
      | remove element =>
          dsimp only at hLeft
          split at hLeft
          · cases hLeft
          · exact hEarlier hLeft
      | count element => exact hEarlier hLeft
      | getSortedElements element => exact hEarlier hLeft
    · exact hEarlier hLeft

end Holds

/- Of two strings with the key `ab` the smaller one is listed. -/
theorem listsSmallest_of_two_strings :
    ∃ calls t,
      (trieSystem asciiLowerCase).Run calls t ∧
        calls.map Transition.event =
          [.add (.trie2 ['a', '-', 'b']),
            .add (.trie2 ['a', 'b'])] ∧
        ListsSmallest asciiLowerCase calls t
          (.trie2 ['a', 'b']) := by
  have hExecute :
      execute (fun t operation =>
          some (perform asciiLowerCase t operation).1)
        [] TrieFunctions.new
        [.add (.trie2 ['a', 'b']),
          .add (.trie2 ['a', '-', 'b'])] = some (_, _) := rfl
  have hRun : (trieSystem asciiLowerCase).Run _ _ :=
    run_of_execute (Run.start rfl) hExecute
  refine ⟨_, _, hRun, rfl,
    (listsSmallest_iff hRun (by unfold AllSupported; decide)
      (by unfold AllTexts; decide) (by decide)).mpr ?_⟩
  intro key hKey hPrefix _ left hLeft
  have hRoot :=
    stale_eq hRun (by unfold AllSupported; decide) hKey
      (inRange_of_length _ (by decide) key) hLeft
  rw [hRoot.1] at hPrefix
  exact absurd hPrefix (by decide)

/- The empty string of the root is listed for the string `-`. -/
theorem not_listsSmallest_always :
    ¬ ∀ calls t,
      (trieSystem asciiLowerCase).Run calls t →
        AllSupported asciiLowerCase calls → AllTexts calls →
          ∀ element,
            Supported (toCharArray asciiLowerCase element) →
              ListsSmallest asciiLowerCase calls t element := by
  intro hAlways
  have hExecute :
      execute (fun t operation =>
          some (perform asciiLowerCase t operation).1)
        [] TrieFunctions.new [.add (.trie2 ['-'])] =
          some (_, _) := rfl
  have hRun : (trieSystem asciiLowerCase).Run _ _ :=
    run_of_execute (Run.start rfl) hExecute
  rcases hAlways _ _ hRun (by unfold AllSupported; decide)
      (by unfold AllTexts; decide) (.trie2 []) (by decide) with
    ⟨keys, strings, _, _, hSmallest, hArray⟩
  have hListed :
      strings.map (fun s => some (TrieElement.trie1 s)) =
        [some (.trie1 [])] := by
    rw [← Answer.elements.injEq, ← hArray]
    rfl
  rcases List.map_eq_singleton_iff.mp hListed with
    ⟨s, rfl, hSame⟩
  cases hSame
  cases hSmallest with
  | cons hFirst _ =>
      have hMem := hFirst.1
      rw [addedSince] at hMem
      split at hMem
      · cases hMem
      · rw [addedSince, List.append_nil, addsUnder,
          Option.mem_toList] at hMem
        split at hMem
        · cases hMem
        · cases hMem

end Trie

end ProgrammingTasks
