import ProgrammingTasks.TuringMachine.Interpreter
import Mathlib.Data.List.Basic
import Mathlib.Tactic.Ring

/-
  The machine of `matrice.in` compares two binary words.

  In round `i` the first `i` digits of both words, found
  equal, are erased.  The machine carries the next digit of
  the first word to the second one.  Where the two differ, the
  digit of the second word is the answer and everything else
  is erased; where they agree, both are erased, and the last
  equal digit is replaced by `1`.

  Main declarations:
    * `matrice`
    * `roundConfig`
    * `halts_of_round`
    * `turing_compares_words`
-/

------------------------------------------------------------
-- The Transition Table
------------------------------------------------------------

namespace ProgrammingTasks

namespace TuringMachine

open TapeMachine

/- What `main` stores for an entry `-1` of the file. -/
def undefinedCell : Celula := ⟨-1, 'x', 'x'⟩

/- The matrix that `main` reads from `matrice.in`. -/
def matrice : Matrix :=
  [ [⟨8, '#', 'R'⟩, ⟨1, '#', 'R'⟩, undefinedCell],
    [⟨1, '0', 'R'⟩, ⟨1, '1', 'R'⟩, ⟨2, '#', 'R'⟩],
    [⟨3, '0', 'R'⟩, ⟨10, '#', 'R'⟩, ⟨2, '#', 'R'⟩],
    [⟨4, '#', 'R'⟩, ⟨4, '#', 'R'⟩, ⟨15, '#', 'H'⟩],
    [⟨4, '#', 'R'⟩, ⟨4, '#', 'R'⟩, ⟨5, '#', 'L'⟩],
    [⟨6, '0', 'L'⟩, ⟨6, '1', 'L'⟩, ⟨5, '#', 'L'⟩],
    [⟨7, '#', 'L'⟩, ⟨7, '#', 'L'⟩, ⟨6, '#', 'L'⟩],
    [⟨7, '#', 'L'⟩, ⟨7, '#', 'L'⟩, ⟨15, '#', 'H'⟩],
    [⟨8, '0', 'R'⟩, ⟨8, '1', 'R'⟩, ⟨9, '#', 'R'⟩],
    [⟨10, '#', 'R'⟩, ⟨3, '1', 'R'⟩, ⟨9, '#', 'R'⟩],
    [⟨11, '0', 'L'⟩, ⟨11, '1', 'L'⟩, ⟨14, '#', 'L'⟩],
    [⟨11, '0', 'L'⟩, ⟨11, '1', 'L'⟩, ⟨12, '#', 'L'⟩],
    [⟨13, '0', 'L'⟩, ⟨13, '1', 'L'⟩, ⟨12, '#', 'L'⟩],
    [⟨13, '0', 'L'⟩, ⟨13, '1', 'L'⟩, ⟨0, '#', 'R'⟩],
    [undefinedCell, undefinedCell, ⟨16, '1', 'H'⟩] ]

/- Seventeen states, the last two of them final. -/
abbrev rule : Rule Int Char := tableRule matrice 17 2

------------------------------------------------------------
-- Words on the Tape
------------------------------------------------------------

/- A binary digit as a tape symbol. -/
def digit : Bool → Char
| false => '0'
| true => '1'

/- A binary word as tape symbols. -/
def word (w : List Bool) : List Char := w.map digit

/- A stretch of empty cells. -/
abbrev blank (k : Nat) : List Char := List.replicate k '#'

/- The number that a binary word denotes. -/
def value (w : List Bool) : Nat :=
  w.foldl (fun n b => 2 * n + b.toNat) 0

/- The input tape `# w1 # w2 # #`. -/
def inputTape (w1 w2 : List Bool) : List Char :=
  '#' :: word w1 ++ '#' :: word w2 ++ ['#', '#']

@[simp] theorem word_cons (b : Bool) (w : List Bool) :
    word (b :: w) = digit b :: word w := rfl

@[simp] theorem length_word (w : List Bool) :
    (word w).length = w.length := by
  simp [word]

/- The cells of a word are digits. -/
theorem forall_word
    {P : Char → Prop}
    (hDigit : ∀ b, P (digit b))
    (w : List Bool) :
    ∀ ch ∈ word w, P ch := by
  intro ch hMem
  rcases List.mem_map.mp hMem with ⟨b, _, rfl⟩
  exact hDigit b

/- The cells of an empty stretch are all the same. -/
theorem forall_blank
    {P : Char → Prop}
    (hBlank : P '#')
    (k : Nat) :
    ∀ ch ∈ blank k, P ch := by
  intro ch hMem
  rw [List.eq_of_mem_replicate hMem]
  exact hBlank

/- Erasing a word leaves an empty stretch. -/
theorem erase_word (w : List Bool) :
    (word w).map (fun _ => '#') = blank w.length := by
  rw [List.map_const', length_word]

/- Empty cells may be moved across an empty stretch. -/
theorem blank_append_cons (k : Nat) (cells : List Char) :
    blank k ++ '#' :: cells = '#' :: (blank k ++ cells) := by
  rw [← List.cons_append, ← List.replicate_succ,
    List.replicate_succ', List.append_assoc]
  rfl

/- The word's value by its first digit. -/
theorem value_cons (b : Bool) (w : List Bool) :
    value (b :: w) =
      b.toNat * 2 ^ w.length + value w := by
  have hFold : ∀ (w : List Bool) (n : Nat),
      w.foldl (fun n b => 2 * n + b.toNat) n =
        n * 2 ^ w.length + value w := by
    intro w
    induction w with
    | nil =>
        intro n
        simp [value]
    | cons c w ih =>
        intro n
        simp only [value, List.foldl_cons, List.length_cons]
        rw [ih, ih (2 * 0 + c.toNat), pow_succ]
        ring
  simpa [value] using hFold w (2 * 0 + b.toNat)

/- A word of length `k` denotes a number below `2 ^ k`. -/
theorem value_lt (w : List Bool) :
    value w < 2 ^ w.length := by
  induction w with
  | nil =>
      simp [value]
  | cons b w ih =>
      rw [value_cons, List.length_cons, pow_succ]
      have hBit : b.toNat * 2 ^ w.length ≤ 2 ^ w.length := by
        cases b <;> simp
      omega

/- Words of equal length compare by their first digits. -/
theorem value_lt_iff
    {w1 w2 : List Bool}
    (hLength : w1.length = w2.length)
    (a b : Bool) :
    value (b :: w2) < value (a :: w1) ↔
      (a = true ∧ b = false) ∨
        (a = b ∧ value w2 < value w1) := by
  have h1 := value_lt w1
  have h2 := value_lt w2
  rw [hLength] at h1
  rw [value_cons, value_cons, hLength]
  cases a <;> cases b <;> simp <;> omega

------------------------------------------------------------
-- One Round
------------------------------------------------------------

/-
  The start of round `i`: `i` digits of each word are erased
  and `u1`, `u2` are left.
-/
def roundConfig
    (i : Nat) (u1 u2 : List Bool) : Config Int Char where
  state := 0
  left := blank (i + 1)
  right :=
    word u1 ++ '#' :: (blank i ++ (word u2 ++ ['#', '#']))

/- The state that carries a digit over the first word. -/
def carryState : Bool → Int
| false => 8
| true => 1

/- The state that looks for the digit to compare it with. -/
def seekState : Bool → Int
| false => 9
| true => 2

/- The digit of the second word: erased if it is the same. -/
def comparedCell (a b : Bool) : Char :=
  if a = b then '#' else digit b

/- The state after the comparison. -/
def comparedState (a b : Bool) : Int :=
  if a = b then 10 else 3

/- The tape after the comparison. -/
def comparedConfig
    (i : Nat) (a b : Bool)
    (v1 v2 : List Bool) : Config Int Char where
  state := comparedState a b
  left :=
    comparedCell a b ::
      (blank i ++ '#' :: ((word v1).reverse ++ blank (i + 2)))
  right := word v2 ++ ['#', '#']

/-
  The first half of a round: the digit `a` is erased, carried
  to the second word and compared with `b`.
-/
theorem compare_digit
    (i : Nat) (a b : Bool) (v1 v2 : List Bool) :
    Reaches rule (roundConfig i (a :: v1) (b :: v2))
      (comparedConfig i a b v1 v2) := by
  have hTake :
      rule 0 (digit a) = some ⟨carryState a, '#', .right⟩ := by
    cases a <;> rfl
  have hCarry : ∀ ch ∈ word v1,
      rule (carryState a) ch =
        some ⟨carryState a, id ch, .right⟩ :=
    forall_word
      (by intro b; cases a <;> cases b <;> rfl) v1
  have hCross :
      rule (carryState a) '#' =
        some ⟨seekState a, '#', .right⟩ := by
    cases a <;> rfl
  have hSeek : ∀ ch ∈ blank i,
      rule (seekState a) ch =
        some ⟨seekState a, id ch, .right⟩ :=
    forall_blank (by cases a <;> rfl) i
  have hCompare :
      rule (seekState a) (digit b) =
        some ⟨comparedState a b, comparedCell a b,
          .right⟩ := by
    cases a <;> cases b <;> rfl
  have hOverFirst :=
    sweep_right
      ('#' :: (blank i ++ digit b :: (word v2 ++ ['#', '#'])))
      (word v1) (blank (i + 2)) hCarry
  have hOverBlanks :=
    sweep_right (digit b :: (word v2 ++ ['#', '#']))
      (blank i)
      ('#' :: ((word v1).reverse ++ blank (i + 2))) hSeek
  rw [List.map_id] at hOverFirst
  rw [List.map_id, List.reverse_replicate] at hOverBlanks
  refine Reaches.head (step_right _ _ hTake) ?_
  refine Reaches.trans hOverFirst ?_
  refine Reaches.head (step_right _ _ hCross) ?_
  refine Reaches.trans hOverBlanks ?_
  exact Reaches.head (step_right _ _ hCompare)
    (Reaches.refl _)

/- The last digit of a word is the first one met from behind. -/
theorem reverse_word_cons (c : Bool) (v : List Bool) :
    ∃ e w, w.length = v.length ∧
      (word (c :: v)).reverse = digit e :: word w := by
  cases hReverse : (c :: v).reverse with
  | nil =>
      simp at hReverse
  | cons e w =>
      have hLength := congrArg List.length hReverse
      simp only [List.length_reverse, List.length_cons,
        Nat.add_right_cancel_iff] at hLength
      refine ⟨e, w, hLength.symm, ?_⟩
      rw [word, ← List.map_reverse, hReverse]
      rfl

/-
  Between the two words there are `i + 1` empty cells, then
  the first word from behind.
-/
theorem between_words
    {u : List Bool} {e : Bool} {w : List Bool}
    (hReversed : (word u).reverse = digit e :: word w)
    (i : Nat) :
    blank i ++ '#' :: ((word u).reverse ++ blank (i + 2)) =
      blank (i + 1) ++
        digit e :: (word w ++ blank (i + 2)) := by
  rw [hReversed, blank_append_cons]
  rfl

/-
  The second half after equal digits: the head returns to the
  first word, where the next round starts.
-/
theorem return_to_first
    (i : Nat) (a c d : Bool) (v1 v2 : List Bool) :
    Reaches rule (comparedConfig i a a (c :: v1) (d :: v2))
      (roundConfig (i + 1) (c :: v1) (d :: v2)) := by
  have hTurn :
      rule 10 (digit d) = some ⟨11, digit d, .left⟩ := by
    cases d <;> rfl
  have hEnterBlanks :
      rule 11 '#' = some ⟨12, id '#', .left⟩ := rfl
  have hOverBlanks : ∀ ch ∈ blank (i + 1),
      rule 12 ch = some ⟨12, id ch, .left⟩ :=
    forall_blank (by rfl) (i + 1)
  have hEnterWord : ∀ b,
      rule 12 (digit b) = some ⟨13, id (digit b), .left⟩ := by
    intro b
    cases b <;> rfl
  have hOverWord : ∀ b,
      rule 13 (digit b) = some ⟨13, id (digit b), .left⟩ := by
    intro b
    cases b <;> rfl
  have hStart : rule 13 '#' = some ⟨0, '#', .right⟩ := rfl
  rcases reverse_word_cons c v1 with ⟨e, w, _, hReversed⟩
  have hFirst :=
    sweep_left (digit e) (word w ++ blank (i + 2))
      (blank (i + 1)) 11 '#'
      (digit d :: (word v2 ++ ['#', '#']))
      hEnterBlanks hOverBlanks
  have hSecond :=
    sweep_left '#' (blank (i + 1)) (word w) 12 (digit e)
      (blank (i + 2) ++ digit d :: (word v2 ++ ['#', '#']))
      (hEnterWord e) (forall_word hOverWord w)
  rw [← between_words hReversed, List.map_id,
    ← List.replicate_succ, List.reverse_replicate] at hFirst
  rw [List.map_id, ← hReversed,
    List.reverse_reverse] at hSecond
  have hErased : comparedCell a a = '#' := by
    simp [comparedCell]
  have hEqual : comparedState a a = 10 := by
    simp [comparedState]
  rw [comparedConfig, hErased, hEqual]
  refine Reaches.head (step_left _ _ _ hTurn) ?_
  refine Reaches.trans hFirst ?_
  refine Reaches.trans hSecond ?_
  exact Reaches.head (step_right _ _ hStart)
    (Reaches.refl _)

------------------------------------------------------------
-- The Three Exits
------------------------------------------------------------

/- All cells are empty, except one that holds `ch`. -/
def answerTape (before after : Nat) (ch : Char) : List Char :=
  blank before ++ ch :: blank after

theorem blank_gap (i : Nat) :
    blank i ++ '#' :: blank (i + 2) = blank (2 * i + 3) := by
  rw [← List.replicate_succ, List.replicate_append_replicate]
  congr 1
  omega

/- Both words end equal: the last digit becomes `1`. -/
theorem halts_equal (i : Nat) (a : Bool) :
    Halts matrice 17 2 (comparedConfig i a a [] [])
      (answerTape (2 * i + 3) 2 '1') := by
  have hBack :
      rule 10 '#' = some ⟨14, '#', .left⟩ := rfl
  have hErased : comparedCell a a = '#' := by
    simp [comparedCell]
  have hEqual : comparedState a a = 10 := by
    simp [comparedState]
  have hReaches :
      Reaches rule (comparedConfig i a a [] [])
        ⟨14, blank i ++ '#' :: blank (i + 2),
          '#' :: ['#', '#']⟩ := by
    rw [comparedConfig, hErased, hEqual]
    exact Reaches.head (step_left _ _ _ hBack)
      (Reaches.refl _)
  refine ⟨14, _, '#', ['#', '#'], ⟨16, '1', 'H'⟩, hReaches,
    rfl, by decide, by decide, ?_⟩
  rw [blank_gap, List.reverse_replicate]
  rfl

/- The last digits differ: the second word's digit stays. -/
theorem halts_differ_last
    {a b : Bool}
    (hDiffer : a ≠ b)
    (i : Nat) :
    Halts matrice 17 2 (comparedConfig i a b [] [])
      (answerTape (2 * i + 3) 2 (digit b)) := by
  have hKept : comparedCell a b = digit b := by
    simp [comparedCell, hDiffer]
  have hState : comparedState a b = 3 := by
    simp [comparedState, hDiffer]
  have hReaches :
      Reaches rule (comparedConfig i a b [] [])
        ⟨3, digit b :: (blank i ++ '#' :: blank (i + 2)),
          '#' :: ['#']⟩ := by
    rw [comparedConfig, hKept, hState]
    exact Reaches.refl _
  refine ⟨3, _, '#', ['#'], ⟨15, '#', 'H'⟩, hReaches,
    rfl, by decide, by decide, ?_⟩
  rw [blank_gap, List.reverse_cons, List.reverse_replicate,
    List.append_assoc]
  rfl

/- The digits differ: the rests of both words are erased. -/
theorem erase_rests
    {a b : Bool}
    (hDiffer : a ≠ b)
    (i : Nat) (c d : Bool) (v1 v2 : List Bool) :
    Reaches rule
      (comparedConfig i a b (c :: v1) (d :: v2))
      ⟨7, blank (i + 1),
        '#' :: (blank (v1.length + 1) ++
          (blank (i + 1) ++
            digit b :: blank (v2.length + 3)))⟩ := by
  have hKept : comparedCell a b = digit b := by
    simp [comparedCell, hDiffer]
  have hState : comparedState a b = 3 := by
    simp [comparedState, hDiffer]
  have hErase :
      rule 3 (digit d) = some ⟨4, '#', .right⟩ := by
    cases d <;> rfl
  have hEraseSecond : ∀ ch ∈ word v2,
      rule 4 ch = some ⟨4, '#', .right⟩ :=
    forall_word (by intro b; cases b <;> rfl) v2
  have hTurn : rule 4 '#' = some ⟨5, id '#', .left⟩ := rfl
  have hBack : ∀ ch ∈ blank (v2.length + 1),
      rule 5 ch = some ⟨5, id ch, .left⟩ :=
    forall_blank (by rfl) _
  have hOverAnswer :
      rule 5 (digit b) = some ⟨6, id (digit b), .left⟩ := by
    cases b <;> rfl
  have hOverBlanks : ∀ ch ∈ blank (i + 1),
      rule 6 ch = some ⟨6, id ch, .left⟩ :=
    forall_blank (by rfl) _
  have hEnterFirst : ∀ e,
      rule 6 (digit e) = some ⟨7, '#', .left⟩ := by
    intro e
    cases e <;> rfl
  have hEraseFirst : ∀ e,
      rule 7 (digit e) = some ⟨7, '#', .left⟩ := by
    intro e
    cases e <;> rfl
  rcases reverse_word_cons c v1 with
    ⟨e, w, hLength, hReversed⟩
  let before := word w ++ blank (i + 2)
  have hFirst :=
    sweep_right (f := fun _ => '#') ['#', '#'] (word v2)
      ('#' :: digit b ::
        (blank (i + 1) ++ digit e :: before)) hEraseSecond
  have hSecond :=
    sweep_left (digit b) (blank (i + 1) ++ digit e :: before)
      (blank (v2.length + 1)) 4 '#' ['#'] hTurn hBack
  have hThird :=
    sweep_left (digit e) before (blank (i + 1)) 5 (digit b)
      (blank (v2.length + 3)) hOverAnswer hOverBlanks
  have hFourth :=
    sweep_left (f := fun _ => '#') '#' (blank (i + 1))
      (word w) 6 (digit e)
      (blank (i + 1) ++ digit b :: blank (v2.length + 3))
      (hEnterFirst e) (forall_word hEraseFirst w)
  rw [erase_word, List.reverse_replicate,
    blank_append_cons] at hFirst
  rw [List.map_id, ← List.replicate_succ,
    List.reverse_replicate, List.cons_append,
    ← List.replicate_succ'] at hSecond
  rw [List.map_id, List.reverse_cons, List.reverse_replicate,
    List.cons_append, List.append_assoc] at hThird
  rw [← word_cons, erase_word, List.reverse_replicate,
    List.length_cons, hLength] at hFourth
  rw [comparedConfig, hKept, hState, between_words hReversed]
  refine Reaches.head (step_right _ _ hErase) ?_
  refine Reaches.trans hFirst ?_
  refine Reaches.trans hSecond ?_
  exact Reaches.trans hThird hFourth

/- Behind the erased words the machine halts. -/
theorem halts_differ
    {a b : Bool}
    (hDiffer : a ≠ b)
    (i : Nat) (c d : Bool) (v1 v2 : List Bool) :
    Halts matrice 17 2
      (comparedConfig i a b (c :: v1) (d :: v2))
      (answerTape (2 * i + v1.length + 4) (v2.length + 3)
        (digit b)) := by
  have hReaches := erase_rests hDiffer i c d v1 v2
  refine ⟨7, _, '#', _, ⟨15, '#', 'H'⟩, hReaches,
    rfl, by decide, by decide, ?_⟩
  have hEmpty :
      blank (i + 1) ++
          '#' :: (blank (v1.length + 1) ++ blank (i + 1)) =
        blank (2 * i + v1.length + 4) := by
    rw [blank_append_cons, ← List.append_assoc,
      List.replicate_append_replicate,
      List.replicate_append_replicate, ← List.replicate_succ]
    congr 1
    omega
  rw [List.reverse_replicate, answerTape, ← hEmpty]
  simp only [List.append_assoc, List.cons_append]

/- A round halts or leads to the next one. -/
theorem halts_of_round :
    ∀ (i : Nat) (u1 u2 : List Bool),
      u1.length = u2.length → u1 ≠ [] →
        ∃ before after,
          2 * i + u1.length + 2 ≤ before ∧
          before < 2 * i + 2 * u1.length + 2 ∧
          before + 1 + after = 2 * i + 2 * u1.length + 4 ∧
          Halts matrice 17 2 (roundConfig i u1 u2)
            (answerTape before after
              (if value u2 < value u1 then '0' else '1'))
| _, [], _, _, hNonempty => absurd rfl hNonempty
| _, _ :: _, [], hLength, _ => by
    cases hLength
| i, a :: v1, b :: v2, hLength, _ => by
    have hCompare := compare_digit i a b v1 v2
    have hTails : v1.length = v2.length := by
      simpa using hLength
    by_cases hSame : a = b
    · subst hSame
      cases v1 with
      | nil =>
          have hNil : v2 = [] :=
            List.eq_nil_of_length_eq_zero hTails.symm
          subst hNil
          refine ⟨2 * i + 3, 2, by simp, by simp,
            by simp, ?_⟩
          have hAnswer :
              ¬ value [a] < value [a] := Nat.lt_irrefl _
          rw [if_neg hAnswer]
          exact (halts_equal i a).of_reaches hCompare
      | cons c v1 =>
          cases v2 with
          | nil =>
              cases hTails
          | cons d v2 =>
              rcases halts_of_round (i + 1) (c :: v1)
                  (d :: v2) hTails (List.cons_ne_nil _ _) with
                ⟨before, after, hLow, hHigh, hTotal, hRest⟩
              have hAnswer :
                  value (a :: d :: v2) <
                      value (a :: c :: v1) ↔
                    value (d :: v2) < value (c :: v1) := by
                rw [value_lt_iff hTails]
                cases a <;> simp
              refine ⟨before, after, ?_, ?_, ?_, ?_⟩
              · simp only [List.length_cons] at hLow ⊢
                omega
              · simp only [List.length_cons] at hHigh ⊢
                omega
              · simp only [List.length_cons] at hTotal ⊢
                omega
              · simp only [hAnswer]
                exact (hRest.of_reaches
                  (return_to_first i a c d v1 v2)).of_reaches
                    hCompare
    · have hAnswer :
          (if value (b :: v2) < value (a :: v1)
            then '0' else '1') = digit b := by
        simp only [value_lt_iff hTails, hSame]
        revert hSame
        cases a <;> cases b <;> simp [digit]
      rw [hAnswer]
      cases v1 with
      | nil =>
          have hNil : v2 = [] :=
            List.eq_nil_of_length_eq_zero hTails.symm
          subst hNil
          refine ⟨2 * i + 3, 2, by simp, by simp,
            by simp, ?_⟩
          exact (halts_differ_last hSame i).of_reaches
            hCompare
      | cons c v1 =>
          cases v2 with
          | nil =>
              cases hTails
          | cons d v2 =>
              simp only [List.length_cons] at hTails
              refine ⟨2 * i + v1.length + 4, v2.length + 3,
                ?_, ?_, ?_, ?_⟩
              · simp only [List.length_cons]
                omega
              · simp only [List.length_cons]
                omega
              · simp only [List.length_cons]
                omega
              · exact (halts_differ hSame i c d v1 v2
                  ).of_reaches hCompare

/- One cell of an empty tape set to `ch`. -/
theorem answerTape_eq_set
    (before after : Nat) (ch : Char) :
    answerTape before after ch =
      (blank (before + 1 + after)).set before ch := by
  have hSplit :
      blank (before + 1 + after) =
        blank before ++ '#' :: blank after := by
    rw [Nat.add_right_comm, Nat.add_assoc, blank,
      ← List.replicate_append_replicate]
    rfl
  rw [hSplit, List.set_append_right _ _ (by simp)]
  simp [answerTape]

/-
  The interpreter, run on two words of equal length, stops
  with one cell left on the tape, within the second word: it
  holds `0` if the first word is larger and `1` if not.
-/
theorem turing_compares_words
    (w1 w2 : List Bool)
    (hLength : w1.length = w2.length)
    (hNonempty : 1 ≤ w1.length)
    (index : Int) :
    ∃ steps position,
      w1.length + 2 ≤ position ∧
      position < 2 * w1.length + 2 ∧
      ∀ fuel ≥ steps,
        turing matrice (inputTape w1 w2) 17 2 index fuel =
          some (.banda
            ((blank (2 * w1.length + 4)).set position
              (if value w2 < value w1 then '0' else '1'))) := by
  have hWord : w1 ≠ [] := by
    intro hNil
    simp [hNil] at hNonempty
  rcases halts_of_round 0 w1 w2 hLength hWord with
    ⟨before, after, hLow, hHigh, hTotal, hHalts⟩
  rcases iterate_of_halts hHalts index with ⟨steps, hSteps⟩
  refine ⟨steps, before, by omega, by omega, ?_⟩
  intro fuel hFuel
  have hTotal' :
      before + 1 + after = 2 * w1.length + 4 := by omega
  rw [← hTotal', ← answerTape_eq_set, ← hSteps fuel hFuel]
  have hStart :
      loopOf (roundConfig 0 w1 w2) index =
        { banda := inputTape w1 w2
          cursor := 1
          index := index
          stareUrmatoare := 0 } := by
    simp [loopOf, roundConfig, inputTape]
  rw [hStart, turing]

/- The words `10` and `11` leave a `1` in the second word. -/
theorem turing_compares_two_three :
    ∃ steps position,
      4 ≤ position ∧ position < 6 ∧
      ∀ fuel ≥ steps,
        turing matrice (inputTape [true, false] [true, true])
            17 2 0 fuel =
          some (.banda ((blank 8).set position '1')) :=
  turing_compares_words [true, false] [true, true]
    rfl (by decide) 0

example :
    turing matrice (inputTape [true, true] [true, false])
        17 2 0 60 =
      some (.banda ['#', '#', '#', '#', '#', '0', '#', '#']) := by
  decide

end TuringMachine

end ProgrammingTasks
