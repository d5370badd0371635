import ProgrammingTasks.Trie.Labels

/-
  The trie counts like a finite map from keys to numbers.

  The `count` of a node is a Java `int`.  It agrees with the
  map as long as the map's value for the key stays within the
  range of `int`; one more `add` makes it negative.

  Main declarations:
    * `mapOf`
    * `CountsLike`
    * `count_refines_map`
    * `not_count_refines_map`
-/

------------------------------------------------------------
-- The Map of a Run
------------------------------------------------------------

namespace ProgrammingTasks

namespace Trie

open TransitionSystem

/- A transition of the trie. -/
abbrev Call := Transition TrieFunctions Operation

section Calls

variable (toLowerCase : JavaString → JavaString)

/- The abstract effect of a call on a map from keys. -/
def mapStep (m : List Char → Nat) :
    Operation → List Char → Nat
| .add element =>
    let key := toCharArray toLowerCase element
    Function.update m key (m key + 1)
| .remove element =>
    let key := toCharArray toLowerCase element
    Function.update m key (m key - 1)
| .count _ => m
| .getSortedElements _ => m

/- The map after a run, whose latest call comes first. -/
def mapOf : List Call → List Char → Nat
| [] => fun _ => 0
| call :: calls => mapStep toLowerCase (mapOf calls) call.event

/- The largest Java `int`. -/
def maxInt : Nat := 2147483647

/- The value of the key never exceeds the range of `int`. -/
def InRange (calls : List Call) (letters : List Char) : Prop :=
  ∀ earlier, earlier <:+ calls →
    mapOf toLowerCase earlier letters ≤ maxInt

/- All calls of a run are made with supported keys. -/
def AllSupported (calls : List Call) : Prop :=
  ∀ call ∈ calls,
    Supported (toCharArray toLowerCase call.event.element)

/- No call of the run adds the key. -/
def NeverAdded
    (calls : List Call) (letters : List Char) : Prop :=
  ∀ call ∈ calls, ∀ element,
    call.event = .add element →
      toCharArray toLowerCase element ≠ letters

variable {toLowerCase}

theorem InRange.tail
    {call : Call} {calls : List Call} {letters : List Char}
    (hRange : InRange toLowerCase (call :: calls) letters) :
    InRange toLowerCase calls letters := by
  intro earlier hEarlier
  exact hRange earlier (hEarlier.trans (List.suffix_cons _ _))

theorem InRange.latest
    {calls : List Call} {letters : List Char}
    (hRange : InRange toLowerCase calls letters) :
    mapOf toLowerCase calls letters ≤ maxInt :=
  hRange calls (List.suffix_refl _)

/- A key that is never added has the value 0. -/
theorem mapOf_neverAdded
    {letters : List Char} :
    ∀ {calls : List Call},
      NeverAdded toLowerCase calls letters →
        mapOf toLowerCase calls letters = 0
| [], _ => rfl
| call :: calls, hNever => by
    have hRest : mapOf toLowerCase calls letters = 0 :=
      mapOf_neverAdded
        (fun c hMem => hNever c (List.mem_cons_of_mem _ hMem))
    have hCall := hNever call List.mem_cons_self
    cases hEvent : call.event with
    | add element =>
        have hOther := hCall element hEvent
        simp [mapOf, mapStep, hEvent,
          Function.update_of_ne (Ne.symm hOther), hRest]
    | remove element =>
        by_cases hKey :
            letters = toCharArray toLowerCase element
        · subst hKey
          simp [mapOf, mapStep, hEvent, hRest]
        · simp [mapOf, mapStep, hEvent,
            Function.update_of_ne hKey, hRest]
    | count element =>
        simp [mapOf, mapStep, hEvent, hRest]
    | getSortedElements element =>
        simp [mapOf, mapStep, hEvent, hRest]

------------------------------------------------------------
-- Counters
------------------------------------------------------------

/- The `count` field of a key's node, 0 without a node. -/
def counter (t : TrieFunctions) (letters : List Char) : Int32 :=
  ((labelAt t letters).map NodeData.count).getD 0

/- Within the range of `int` the increment is exact. -/
theorem toInt_increment
    {c : Int32} {n : Nat}
    (hCounter : c.toInt = n)
    (hRange : n + 1 ≤ maxInt) :
    (c + 1).toInt = ((n + 1 : Nat) : Int) := by
  unfold maxInt at hRange
  rw [Int32.toInt_add, hCounter, Int32.toInt_one]
  rw [Int.bmod_eq_of_le (by omega) (by omega)]
  rfl

/- The decrement of `remove` never goes below 0. -/
theorem toInt_decrement
    {c : Int32} {n : Nat}
    (hCounter : c.toInt = n) :
    (if c > 0 then c - 1 else c).toInt =
      ((n - 1 : Nat) : Int) := by
  have hBound := c.toInt_lt
  by_cases hPositive : c > 0
  · have hValue : 0 < n := by
      have hLess := Int32.lt_iff_toInt_lt.mp hPositive
      rw [Int32.toInt_zero, hCounter] at hLess
      omega
    rw [if_pos hPositive, Int32.toInt_sub, hCounter,
      Int32.toInt_one,
      Int.bmod_eq_of_le (by omega) (by omega)]
    omega
  · have hValue : n = 0 := by
      have hNotLess : ¬ (0 : Int32).toInt < c.toInt :=
        fun hLess => hPositive (Int32.lt_iff_toInt_lt.mpr hLess)
      rw [Int32.toInt_zero, hCounter] at hNotLess
      omega
    rw [if_neg hPositive, hCounter, hValue]

theorem count_removeString (data : NodeData) :
    (removeString data).count =
      if data.count > 0 then data.count - 1
      else data.count := by
  unfold removeString
  dsimp only
  split <;> split <;> rfl

/- `add` increments the counter of its key only. -/
theorem counter_add
    {t : TrieFunctions} {element : TrieElement}
    (hRooted : Rooted t)
    (hSupported : Supported (toCharArray toLowerCase element))
    {letters : List Char}
    (hLetters : Supported letters) :
    counter (add toLowerCase t element).1 letters =
      if letters = toCharArray toLowerCase element then
        counter t letters + 1
      else
        counter t letters := by
  rw [counter,
    labelAt_add toLowerCase hRooted hSupported hLetters]
  by_cases hKey : letters = toCharArray toLowerCase element
  · rw [if_pos hKey, if_pos hKey, counter]
    cases labelAt t letters <;> rfl
  · rw [if_neg hKey, if_neg hKey, counter]
    cases labelAt t letters with
    | some data => rfl
    | none =>
        rw [Option.none_or]
        split <;> rfl

/- `remove` decrements the counter of its key only. -/
theorem counter_remove
    (t : TrieFunctions) {element : TrieElement}
    (hSupported : Supported (toCharArray toLowerCase element))
    {letters : List Char}
    (hLetters : Supported letters) :
    counter (remove toLowerCase t element).1 letters =
      if letters = toCharArray toLowerCase element then
        if counter t letters > 0 then counter t letters - 1
        else counter t letters
      else
        counter t letters := by
  rw [counter,
    labelAt_remove toLowerCase t hSupported hLetters]
  by_cases hKey : letters = toCharArray toLowerCase element
  · rw [if_pos hKey, if_pos hKey, counter]
    cases labelAt t letters with
    | none => rfl
    | some data => exact count_removeString data
  · rw [if_neg hKey, if_neg hKey, counter]

------------------------------------------------------------
-- Simulation
------------------------------------------------------------

/- The counters of the trie agree with the map of its run. -/
structure CountsLike
    (toLowerCase : JavaString → JavaString)
    (calls : List Call)
    (t : TrieFunctions) : Prop where
  rooted : Rooted t
  agree :
    AllSupported toLowerCase calls →
      ∀ letters, Supported letters →
        InRange toLowerCase calls letters →
          (counter t letters).toInt =
            mapOf toLowerCase calls letters

/- A fresh object counts 0 everywhere. -/
theorem countsLike_new :
    CountsLike toLowerCase [] TrieFunctions.new where
  rooted := by
    intro hNull
    cases hNull
  agree := by
    intro _ letters _ _
    have hCounter : counter TrieFunctions.new letters = 0 := by
      simp only [counter, labelAt, TrieFunctions.new,
        DigitalTree.lookup_leaf]
      split <;> rfl
    rw [hCounter]
    rfl

/- Every call keeps the agreement. -/
theorem CountsLike.perform
    {calls : List Call} {t : TrieFunctions}
    (hLike : CountsLike toLowerCase calls t)
    (operation : Operation) :
    CountsLike toLowerCase
      (⟨t, operation, (perform toLowerCase t operation).1⟩ ::
        calls)
      (perform toLowerCase t operation).1 where
  rooted := rooted_perform toLowerCase hLike.rooted operation
  agree := by
    intro hAll letters hLetters hRange
    have hCall :
        Supported
          (toCharArray toLowerCase operation.element) :=
      hAll _ List.mem_cons_self
    have hBefore :=
      hLike.agree
        (fun c hMem => hAll c (List.mem_cons_of_mem _ hMem))
        letters hLetters hRange.tail
    have hLatest := hRange.latest
    cases operation with
    | add element =>
        simp only [mapOf, mapStep] at hLatest ⊢
        simp only [Operation.element] at hCall
        rw [Trie.perform,
          counter_add hLike.rooted hCall
            hLetters]
        by_cases hKey :
            letters = toCharArray toLowerCase element
        · subst hKey
          rw [Function.update_self] at hLatest ⊢
          rw [if_pos rfl, toInt_increment hBefore hLatest]
        · rw [if_neg hKey, Function.update_of_ne hKey, hBefore]
    | remove element =>
        simp only [mapOf, mapStep]
        simp only [Operation.element] at hCall
        rw [Trie.perform,
          counter_remove t hCall hLetters]
        by_cases hKey :
            letters = toCharArray toLowerCase element
        · subst hKey
          rw [if_pos rfl, Function.update_self,
            toInt_decrement hBefore]
        · rw [if_neg hKey, Function.update_of_ne hKey, hBefore]
    | count element =>
        exact hBefore
    | getSortedElements element =>
        have hSame :
            counter (getSortedElements toLowerCase t element).1
              letters = counter t letters := by
          rw [counter, labelAt, root_getSortedElements]
          rfl
        simp only [mapOf, mapStep, Trie.perform, hSame]
        exact hBefore

/- The agreement holds along every run. -/
theorem countsLike_of_run
    {calls : List Call} {t : TrieFunctions}
    (hRun : (trieSystem toLowerCase).Run calls t) :
    CountsLike toLowerCase calls t := by
  refine hRun.history_invariant ?_ ?_
  · intro t hNew
    have hFresh : t = TrieFunctions.new := hNew
    rw [hFresh]
    exact countsLike_new
  · intro calls t operation t' _ hLike hStep
    have hNext :
        some (perform toLowerCase t operation).1 = some t' :=
      hStep
    cases hNext
    exact hLike.perform operation

/-
  In every run over supported keys, `count` returns the value
  of the map for each key whose value stayed in the range of
  `int`; for a key that was never added it returns 0.
-/
theorem count_refines_map
    (toLowerCase : JavaString → JavaString)
    {calls : List Call} {t : TrieFunctions}
    (hRun : (trieSystem toLowerCase).Run calls t)
    (hAll : AllSupported toLowerCase calls)
    (element : TrieElement)
    (hElement :
      Supported (toCharArray toLowerCase element)) :
    (InRange toLowerCase calls
        (toCharArray toLowerCase element) →
      ∃ n, count toLowerCase t element = .number n ∧
        n.toInt =
          mapOf toLowerCase calls
            (toCharArray toLowerCase element)) ∧
    (NeverAdded toLowerCase calls
        (toCharArray toLowerCase element) →
      count toLowerCase t element = .number 0) := by
  have hLike := countsLike_of_run hRun
  have hCount := count_eq toLowerCase t hElement
  refine ⟨fun hRange => ⟨_, hCount,
    hLike.agree hAll _ hElement hRange⟩, fun hNever => ?_⟩
  have hRange :
      InRange toLowerCase calls
        (toCharArray toLowerCase element) := by
    intro earlier hEarlier
    have hZero :=
      mapOf_neverAdded (fun call hMem =>
        hNever call (hEarlier.subset hMem))
    rw [hZero]
    exact Nat.zero_le _
  have hAgree := hLike.agree hAll _ hElement hRange
  rw [mapOf_neverAdded hNever] at hAgree
  have hZero :
      counter t (toCharArray toLowerCase element) = 0 :=
    Int32.toInt_inj.mp hAgree
  rw [hCount]
  exact congrArg Answer.number hZero

end Calls

------------------------------------------------------------
-- Short Runs and Long Runs
------------------------------------------------------------

/- `toLowerCase` on strings of ASCII characters. -/
def asciiLowerCase (s : JavaString) : JavaString :=
  s.map Char.toLower

/- A call adds at most one to the value of a key. -/
theorem mapStep_le
    (toLowerCase : JavaString → JavaString)
    (m : List Char → Nat)
    (operation : Operation) (letters : List Char) :
    mapStep toLowerCase m operation letters ≤
      m letters + 1 := by
  cases operation with
  | add element =>
      simp only [mapStep, Function.update_apply]
      split_ifs with hKey
      · exact Nat.le_of_eq (by rw [hKey])
      · omega
  | remove element =>
      simp only [mapStep, Function.update_apply]
      split_ifs with hKey
      · rw [hKey]
        omega
      · omega
  | count element => exact Nat.le_succ _
  | getSortedElements element => exact Nat.le_succ _

/- The value of a key is at most the number of calls. -/
theorem mapOf_le_length
    (toLowerCase : JavaString → JavaString)
    (letters : List Char) :
    ∀ calls, mapOf toLowerCase calls letters ≤ calls.length
| [] => Nat.le_refl 0
| call :: calls => by
    have hRest := mapOf_le_length toLowerCase letters calls
    have hStep :=
      mapStep_le toLowerCase (mapOf toLowerCase calls)
        call.event letters
    rw [List.length_cons, mapOf]
    omega

/- In a run of fewer than `2 ^ 31` calls all keys stay in range. -/
theorem inRange_of_length
    (toLowerCase : JavaString → JavaString)
    {calls : List Call}
    (hLength : calls.length ≤ maxInt)
    (letters : List Char) :
    InRange toLowerCase calls letters := by
  intro earlier hEarlier
  have hShorter := hEarlier.length_le
  have hBound := mapOf_le_length toLowerCase letters earlier
  omega

/- Adding `A`, adding `a` and removing `a` leaves one entry. -/
theorem count_refines_map_three_calls :
    ∃ calls t, (trieSystem asciiLowerCase).Run calls t ∧
      calls.map Transition.event =
        [.remove (.trie1 ['a']), .add (.trie1 ['a']),
          .add (.trie1 ['A'])] ∧
      count asciiLowerCase t (.trie1 ['A']) = .number 1 := by
  have hExecute :
      execute (fun t operation =>
          some (perform asciiLowerCase t operation).1)
        [] TrieFunctions.new
        [.add (.trie1 ['A']), .add (.trie1 ['a']),
          .remove (.trie1 ['a'])] = some (_, _) := rfl
  have hRun : (trieSystem asciiLowerCase).Run _ _ :=
    run_of_execute (Run.start rfl) hExecute
  refine ⟨_, _, hRun, rfl, ?_⟩
  have hCount :=
    (count_refines_map asciiLowerCase hRun
      (by unfold AllSupported; decide)
      (.trie1 ['A']) (by decide)).1
      (inRange_of_length asciiLowerCase (by decide) _)
  rcases hCount with ⟨n, hNumber, hValue⟩
  have hOne : n = 1 := Int32.toInt_inj.mp hValue
  rw [hNumber, hOne]

/- A run that adds one element `n` times. -/
theorem exists_run_of_adds
    (toLowerCase : JavaString → JavaString)
    {element : TrieElement}
    (hElement :
      Supported (toCharArray toLowerCase element)) :
    ∀ n : Nat, ∃ calls t,
      (trieSystem toLowerCase).Run calls t ∧
      AllSupported toLowerCase calls ∧
      mapOf toLowerCase calls
        (toCharArray toLowerCase element) = n ∧
      counter t (toCharArray toLowerCase element) =
        Int32.ofNat n
| 0 =>
    ⟨[], TrieFunctions.new, Run.start rfl,
      fun _ hMem => absurd hMem List.not_mem_nil, rfl, by
        simp only [counter, labelAt, TrieFunctions.new,
          DigitalTree.lookup_leaf]
        split <;> rfl⟩
| n + 1 => by
    rcases exists_run_of_adds toLowerCase hElement n with
      ⟨calls, t, hRun, hAll, hMap, hCounter⟩
    refine ⟨_, _, Run.next (e := .add element) hRun rfl,
      ?_, ?_, ?_⟩
    · intro call hMem
      rcases List.mem_cons.mp hMem with rfl | hEarlier
      · exact hElement
      · exact hAll call hEarlier
    · simp only [mapOf, mapStep, Function.update_self, hMap]
    · have hRooted := (countsLike_of_run hRun).rooted
      simp only [perform]
      rw [counter_add hRooted hElement hElement, if_pos rfl,
        hCounter, Int32.ofNat_add]
      rfl

/-
  After `2 ^ 31` times `add` of the string `a` the map has the
  value `2 ^ 31`, and `count` returns a negative number.
-/
theorem not_count_refines_map :
    ¬ ∀ calls t,
      (trieSystem asciiLowerCase).Run calls t →
      AllSupported asciiLowerCase calls →
      ∀ element,
        Supported (toCharArray asciiLowerCase element) →
        ∃ n, count asciiLowerCase t element = .number n ∧
          n.toInt =
            mapOf asciiLowerCase calls
              (toCharArray asciiLowerCase element) := by
  intro hClaim
  have hElement :
      Supported (toCharArray asciiLowerCase (.trie1 ['a'])) := by
    decide
  rcases exists_run_of_adds asciiLowerCase hElement (2 ^ 31)
    with ⟨calls, t, hRun, hAll, hMap, hCounter⟩
  rcases hClaim calls t hRun hAll _ hElement with
    ⟨n, hNumber, hValue⟩
  rw [count_eq asciiLowerCase t hElement] at hNumber
  injection hNumber with hSame
  have hWrapped : n = Int32.ofNat (2 ^ 31) := by
    rw [← hSame]
    exact hCounter
  rw [hMap, hWrapped] at hValue
  exact absurd hValue (by decide)

end Trie

end ProgrammingTasks
