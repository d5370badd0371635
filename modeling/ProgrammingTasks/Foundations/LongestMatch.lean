import Mathlib.Computability.Language

/-
  Scanners that take the longest match.

  A scanner has numbered rules with patterns.  It matches the
  longest prefix of the text that some rule matches, by the
  first rule that does.  An automaton whose states stand for
  what is left of the patterns finds it.

  Main declarations:
    * `CharSet`, `Pattern`, `Pattern.language`
    * `Pattern.deriv`, `Pattern.cons_mem_language`
    * `Pattern.isChar`, `Pattern.mem_language_star`
    * `First`, `Longest`, `Longest.unique`
    * `longest`, `Residual`, `longest_cases`
    * `Runs`, `longest_of_runs`
-/

------------------------------------------------------------
-- Patterns
------------------------------------------------------------

open scoped Computability

namespace LongestMatch

/- Ranges of characters, or all characters outside of them. -/
structure CharSet (A : Type) where
  ranges : List (A × A)
  negated : Bool
deriving DecidableEq

inductive Pattern (A : Type)
| empty
| epsilon
| set (s : CharSet A)
| alt (p q : Pattern A)
| seq (p q : Pattern A)
| star (p : Pattern A)
deriving DecidableEq

variable {A : Type}

/- The first character of a sequence. -/
theorem cons_mem_mul
    {l m : Language A} {a : A} {w : List A} :
    a :: w ∈ l * m ↔
      (∃ u v, w = u ++ v ∧ a :: u ∈ l ∧ v ∈ m) ∨
        ([] ∈ l ∧ a :: w ∈ m) := by
  rw [Language.mem_mul]
  constructor
  · rintro ⟨u, hFirst, v, hSecond, hSplit⟩
    cases u with
    | nil => exact .inr ⟨hFirst, hSplit ▸ hSecond⟩
    | cons b u =>
        rw [List.cons_append, List.cons.injEq] at hSplit
        rcases hSplit with ⟨rfl, rfl⟩
        exact .inl ⟨u, v, rfl, hFirst, hSecond⟩
  · rintro (⟨u, v, rfl, hFirst, hSecond⟩ | ⟨hFirst, hSecond⟩)
    · exact ⟨a :: u, hFirst, v, hSecond, rfl⟩
    · exact ⟨[], hFirst, a :: w, hSecond, rfl⟩

/- The first character of a repetition. -/
theorem cons_mem_kstar
    {l : Language A} {a : A} {w : List A} :
    a :: w ∈ l∗ ↔
      ∃ u v, w = u ++ v ∧ a :: u ∈ l ∧ v ∈ l∗ := by
  rw [Language.mem_kstar_iff_exists_nonempty]
  constructor
  · rintro ⟨parts, hParts, hAll⟩
    cases parts with
    | nil => cases hParts
    | cons part parts =>
        rcases hAll part List.mem_cons_self with
          ⟨hPart, hSome⟩
        rcases List.exists_cons_of_ne_nil hSome with
          ⟨b, u, rfl⟩
        rw [List.flatten_cons, List.cons_append,
          List.cons.injEq] at hParts
        rcases hParts with ⟨rfl, rfl⟩
        refine ⟨u, parts.flatten, rfl, hPart, ?_⟩
        rw [Language.mem_kstar_iff_exists_nonempty]
        exact ⟨parts, rfl,
          fun y hMem => hAll y (List.mem_cons_of_mem _ hMem)⟩
  · rintro ⟨u, v, rfl, hFirst, hRest⟩
    rcases Language.mem_kstar_iff_exists_nonempty.mp hRest with
      ⟨parts, rfl, hAll⟩
    refine ⟨(a :: u) :: parts, rfl, ?_⟩
    intro y hMem
    rcases List.mem_cons.mp hMem with rfl | hMem
    · exact ⟨hFirst, nofun⟩
    · exact hAll y hMem

------------------------------------------------------------
-- Automata
------------------------------------------------------------

/- States with the rules that they accept with. -/
structure Automaton (A S I : Type) where
  step : S → A → S
  label : S → Option I
  dead : S → Bool

variable {S I : Type}

/- Remember a state that accepts. -/
def record
    (t : Automaton A S I) (s : S) (n : ℕ)
    (last : Option (ℕ × I)) : Option (ℕ × I) :=
  match t.label s with
  | none => last
  | some i => some (n, i)

/-
  Run until no state is left, and return to the last one that
  accepts.
-/
def longest (t : Automaton A S I) :
    S → List A → ℕ → Option (ℕ × I) → Option (ℕ × I)
| s, [], n, last => record t s n last
| s, a :: text, n, last =>
    if t.dead (t.step s a) then
      record t s n last
    else
      longest t (t.step s a) text (n + 1) (record t s n last)

/- The states on the way from one to another. -/
def Runs (t : Automaton A S I) : S → List A → S → Prop
| s, [], s' => s = s'
| s, a :: w, s' =>
    t.dead (t.step s a) = false ∧ Runs t (t.step s a) w s'

instance decidableRuns [DecidableEq S] (t : Automaton A S I) :
    (s : S) → (w : List A) → (s' : S) → Decidable (Runs t s w s')
| s, [], s' => inferInstanceAs (Decidable (s = s'))
| s, a :: w, s' =>
    have := decidableRuns t (t.step s a) w s'
    inferInstanceAs (Decidable (_ ∧ _))

/- A run that cannot go on has found the longest match. -/
theorem longest_of_runs
    {t : Automaton A S I} {s s' : S} {w rest : List A} {i : I}
    (hRuns : Runs t s w s')
    (hLabel : t.label s' = some i)
    (hStop : ∀ a ∈ rest.head?, t.dead (t.step s' a) = true)
    (n : ℕ) (last : Option (ℕ × I)) :
    longest t s (w ++ rest) n last = some (n + w.length, i) := by
  induction w generalizing s n last with
  | nil =>
      cases hRuns
      have hRecord : record t s' n last = some (n, i) := by
        unfold record
        rw [hLabel]
      cases rest with
      | nil => exact hRecord
      | cons a rest =>
          rw [List.nil_append, longest, if_pos (hStop a rfl)]
          exact hRecord
  | cons a w ih =>
      rcases hRuns with ⟨hAlive, hRuns⟩
      rw [List.cons_append, longest, if_neg (by rw [hAlive]; nofun),
        ih hRuns, List.length_cons, Nat.add_right_comm,
        Nat.add_assoc]

------------------------------------------------------------
-- What Patterns Match
------------------------------------------------------------

variable [LE A] [DecidableLE A]

def CharSet.contains (s : CharSet A) (a : A) : Bool :=
  s.ranges.any (fun r => decide (r.1 ≤ a ∧ a ≤ r.2)) != s.negated

namespace Pattern

/- One or more times. -/
def plus (p : Pattern A) : Pattern A := .seq p (.star p)

/- At most once. -/
def option (p : Pattern A) : Pattern A := .alt p .epsilon

def language : Pattern A → Language A
| .empty => 0
| .epsilon => 1
| .set s => {w | ∃ a, w = [a] ∧ s.contains a = true}
| .alt p q => p.language + q.language
| .seq p q => p.language * q.language
| .star p => p.language∗

def nullable : Pattern A → Bool
| .empty => false
| .epsilon => true
| .set _ => false
| .alt p q => p.nullable || q.nullable
| .seq p q => p.nullable && q.nullable
| .star _ => true

/- A pattern for one character. -/
def isChar : Pattern A → Bool
| .set _ => true
| .alt p q => p.isChar && q.isChar
| _ => false

/- The characters of such a pattern. -/
def hasChar : Pattern A → A → Bool
| .set s, a => s.contains a
| .alt p q, a => p.hasChar a || q.hasChar a
| _, _ => false

section Building

variable [DecidableEq A]

/- An alternative, without patterns that add nothing. -/
def joinAlt (p q : Pattern A) : Pattern A :=
  if p = .empty then q
  else if q = .empty then p
  else if p = q then p
  else .alt p q

/- A sequence, without patterns that add nothing. -/
def joinSeq (p q : Pattern A) : Pattern A :=
  if p = .empty then .empty
  else if p = .epsilon then q
  else .seq p q

/- What is left of a pattern after a character. -/
def deriv (a : A) : Pattern A → Pattern A
| .empty => .empty
| .epsilon => .empty
| .set s => if s.contains a then .epsilon else .empty
| .alt p q => joinAlt (p.deriv a) (q.deriv a)
| .seq p q =>
    if p.nullable then
      joinAlt (joinSeq (p.deriv a) q) (q.deriv a)
    else
      joinSeq (p.deriv a) q
| .star p => joinSeq (p.deriv a) (.star p)

end Building

theorem nil_mem_language (p : Pattern A) :
    [] ∈ p.language ↔ p.nullable = true := by
  induction p with
  | empty => exact ⟨nofun, nofun⟩
  | epsilon => exact ⟨fun _ => rfl, fun _ => rfl⟩
  | set s => exact ⟨nofun, nofun⟩
  | alt p q ihp ihq =>
      rw [language, nullable, Language.mem_add, Bool.or_eq_true,
        ihp, ihq]
  | seq p q ihp ihq =>
      rw [language, nullable, Language.mem_mul, Bool.and_eq_true,
        ← ihp, ← ihq]
      constructor
      · rintro ⟨u, hFirst, v, hSecond, hSplit⟩
        rcases List.append_eq_nil_iff.mp hSplit with ⟨rfl, rfl⟩
        exact ⟨hFirst, hSecond⟩
      · rintro ⟨hFirst, hSecond⟩
        exact ⟨[], hFirst, [], hSecond, rfl⟩
  | star p ih =>
      exact ⟨fun _ => rfl, fun _ => Language.nil_mem_kstar _⟩

/- Patterns for one character match just its characters. -/
theorem mem_language_isChar
    {p : Pattern A}
    (hChar : p.isChar = true)
    (w : List A) :
    w ∈ p.language ↔ ∃ a, w = [a] ∧ p.hasChar a = true := by
  induction p with
  | empty => cases hChar
  | epsilon => cases hChar
  | set s => exact Iff.rfl
  | alt p q ihp ihq =>
      rcases (Bool.and_eq_true _ _).mp hChar with ⟨hp, hq⟩
      rw [language, Language.mem_add, ihp hp, ihq hq]
      simp only [hasChar, Bool.or_eq_true, and_or_left,
        exists_or]
  | seq p q ihp ihq => cases hChar
  | star p ih => cases hChar

/- Any text of such characters is matched by the repetition. -/
theorem mem_language_star
    {p : Pattern A}
    (hChar : p.isChar = true)
    (w : List A) :
    w ∈ (Pattern.star p).language ↔
      ∀ a ∈ w, p.hasChar a = true := by
  rw [language, Language.mem_kstar]
  constructor
  · rintro ⟨texts, rfl, hTexts⟩ a hMem
    rcases List.mem_flatten.mp hMem with ⟨v, hText, hMem⟩
    rcases (mem_language_isChar hChar v).mp (hTexts v hText) with
      ⟨b, rfl, hHas⟩
    rw [List.mem_singleton.mp hMem]
    exact hHas
  · intro hAll
    refine ⟨w.map fun a => [a], ?_, ?_⟩
    · rw [← List.flatMap_def, List.flatMap_singleton']
    · intro v hText
      rcases List.mem_map.mp hText with ⟨a, hMem, rfl⟩
      exact (mem_language_isChar hChar [a]).mpr
        ⟨a, rfl, hAll a hMem⟩

theorem mem_language_plus
    {p : Pattern A}
    (hChar : p.isChar = true)
    (w : List A) :
    w ∈ p.plus.language ↔
      w ≠ [] ∧ ∀ a ∈ w, p.hasChar a = true := by
  rw [plus, language, Language.mem_mul]
  constructor
  · rintro ⟨u, hFirst, v, hOthers, rfl⟩
    rcases (mem_language_isChar hChar u).mp hFirst with
      ⟨a, rfl, hHas⟩
    exact ⟨nofun, List.forall_mem_cons.mpr
      ⟨hHas, (mem_language_star hChar v).mp hOthers⟩⟩
  · rintro ⟨hSome, hAll⟩
    rcases List.exists_cons_of_ne_nil hSome with ⟨a, v, rfl⟩
    rcases List.forall_mem_cons.mp hAll with ⟨hHas, hOthers⟩
    exact ⟨[a], (mem_language_isChar hChar [a]).mpr ⟨a, rfl, hHas⟩,
      v, (mem_language_star hChar v).mpr hOthers, rfl⟩

section Derivatives

variable [DecidableEq A]

theorem language_joinAlt (p q : Pattern A) :
    (joinAlt p q).language = p.language + q.language := by
  unfold joinAlt
  split
  · rename_i hEmpty
    rw [hEmpty, language, zero_add]
  · split
    · rename_i hEmpty
      rw [hEmpty, language, add_zero]
    · split
      · rename_i hSame
        rw [hSame]
        exact (sup_idem _).symm
      · rfl

theorem language_joinSeq (p q : Pattern A) :
    (joinSeq p q).language = p.language * q.language := by
  unfold joinSeq
  split
  · rename_i hEmpty
    rw [hEmpty, language, zero_mul]
  · split
    · rename_i hEpsilon
      rw [hEpsilon, language, one_mul]
    · rfl

/- A pattern after a character matches what is left. -/
theorem cons_mem_language
    (p : Pattern A) (a : A) (w : List A) :
    a :: w ∈ p.language ↔ w ∈ (p.deriv a).language := by
  induction p generalizing w with
  | empty => exact ⟨nofun, nofun⟩
  | epsilon => exact ⟨nofun, nofun⟩
  | set s =>
      unfold deriv
      split
      · rename_i hContains
        constructor
        · rintro ⟨b, hWord, _⟩
          rw [List.cons.injEq] at hWord
          exact hWord.2
        · rintro rfl
          exact ⟨a, rfl, hContains⟩
      · rename_i hOther
        constructor
        · rintro ⟨b, hWord, hContains⟩
          rw [List.cons.injEq] at hWord
          exact (hOther (hWord.1 ▸ hContains)).elim
        · nofun
  | alt p q ihp ihq =>
      rw [deriv, language_joinAlt, language, Language.mem_add,
        Language.mem_add, ihp, ihq]
  | seq p q ihp ihq =>
      have hBoth :
          (∃ u v, w = u ++ v ∧ a :: u ∈ p.language ∧
              v ∈ q.language) ↔
            w ∈ (joinSeq (p.deriv a) q).language := by
        rw [language_joinSeq, Language.mem_mul]
        constructor
        · rintro ⟨u, v, rfl, hFirst, hSecond⟩
          exact ⟨u, (ihp u).mp hFirst, v, hSecond, rfl⟩
        · rintro ⟨u, hFirst, v, hSecond, rfl⟩
          exact ⟨u, v, rfl, (ihp u).mpr hFirst, hSecond⟩
      rw [language, cons_mem_mul, hBoth, nil_mem_language, ihq,
        deriv]
      split
      · rename_i hNullable
        rw [language_joinAlt, Language.mem_add]
        exact or_congr_right (and_iff_right hNullable)
      · rename_i hSome
        exact or_iff_left fun hNullable => hSome hNullable.1
  | star p ih =>
      rw [language, cons_mem_kstar, deriv, language_joinSeq,
        Language.mem_mul]
      constructor
      · rintro ⟨u, v, rfl, hFirst, hRest⟩
        exact ⟨u, (ih u).mp hFirst, v, hRest, rfl⟩
      · rintro ⟨u, hFirst, v, hRest, rfl⟩
        exact ⟨u, v, rfl, (ih u).mpr hFirst, hRest⟩

end Derivatives

end Pattern

------------------------------------------------------------
-- Rules
------------------------------------------------------------

/- The rule that comes first among those that match. -/
def First : List (I × Pattern A) → List A → I → Prop
| [], _, _ => False
| (j, p) :: rules, w, i =>
    (w ∈ p.language ∧ i = j) ∨
      (w ∉ p.language ∧ First rules w i)

/-
  The longest prefix of the text that a rule matches, and the
  first rule that matches it.
-/
def Longest
    (rules : List (I × Pattern A)) (text : List A)
    (n : ℕ) (i : I) : Prop :=
  n ≤ text.length ∧ First rules (text.take n) i ∧
    ∀ m ≤ text.length, n < m → ∀ j,
      ¬ First rules (text.take m) j

/- No rule matches any prefix. -/
def NoMatch
    (rules : List (I × Pattern A)) (text : List A) : Prop :=
  ∀ m ≤ text.length, ∀ j, ¬ First rules (text.take m) j

/- The first rule that matches the empty text. -/
def firstNullable : List (I × Pattern A) → Option I
| [] => none
| (j, p) :: rules =>
    if p.nullable then some j else firstNullable rules

theorem first_unique
    {rules : List (I × Pattern A)} {w : List A} {i j : I}
    (hFirst : First rules w i)
    (hFirst' : First rules w j) :
    i = j := by
  induction rules with
  | nil => cases hFirst
  | cons r rules ih =>
      rcases hFirst with ⟨hMem, rfl⟩ | ⟨hOther, hRest⟩
      · rcases hFirst' with ⟨_, rfl⟩ | ⟨hOther', _⟩
        · rfl
        · exact absurd hMem hOther'
      · rcases hFirst' with ⟨hMem', _⟩ | ⟨_, hRest'⟩
        · exact absurd hMem' hOther
        · exact ih hRest hRest'

/- The rule is one of the list and matches. -/
theorem first_mem
    {rules : List (I × Pattern A)} {w : List A} {i : I}
    (hFirst : First rules w i) :
    ∃ p, (i, p) ∈ rules ∧ w ∈ p.language := by
  induction rules with
  | nil => cases hFirst
  | cons r rules ih =>
      rcases hFirst with ⟨hMem, rfl⟩ | ⟨_, hRest⟩
      · exact ⟨r.2, List.mem_cons_self, hMem⟩
      · rcases ih hRest with ⟨p, hRule, hMem⟩
        exact ⟨p, List.mem_cons_of_mem _ hRule, hMem⟩

theorem first_empty
    {rules : List (I × Pattern A)}
    (hEmpty : ∀ r ∈ rules, r.2 = .empty)
    (w : List A) (i : I) :
    ¬ First rules w i := by
  induction rules with
  | nil => nofun
  | cons r rules ih =>
      rintro (⟨hMem, _⟩ | ⟨_, hRest⟩)
      · rw [hEmpty r List.mem_cons_self] at hMem
        exact hMem
      · exact ih
          (fun x hMem => hEmpty x (List.mem_cons_of_mem _ hMem))
          hRest

theorem Longest.unique
    {rules : List (I × Pattern A)} {text : List A}
    {n m : ℕ} {i j : I}
    (hLongest : Longest rules text n i)
    (hLongest' : Longest rules text m j) :
    n = m ∧ i = j := by
  rcases hLongest with ⟨hFits, hFirst, hMax⟩
  rcases hLongest' with ⟨hFits', hFirst', hMax'⟩
  have hSame : n = m := by
    rcases Nat.lt_trichotomy n m with hLess | hSame | hMore
    · exact absurd hFirst' (hMax m hFits' hLess j)
    · exact hSame
    · exact absurd hFirst (hMax' n hFits hMore i)
  subst hSame
  exact ⟨rfl, first_unique hFirst hFirst'⟩

theorem first_nil
    (rules : List (I × Pattern A)) (i : I) :
    First rules [] i ↔ firstNullable rules = some i := by
  induction rules with
  | nil => exact ⟨nofun, nofun⟩
  | cons r rules ih =>
      unfold First firstNullable
      rw [Pattern.nil_mem_language, ih]
      cases r.2.nullable with
      | true => simp [eq_comm]
      | false => simp

section Automata

variable [DecidableEq A]

/- What is left of the rules after a character. -/
def derivRules (a : A) (rules : List (I × Pattern A)) :
    List (I × Pattern A) :=
  rules.map fun r => (r.1, r.2.deriv a)

theorem first_cons
    (rules : List (I × Pattern A)) (a : A) (w : List A) (i : I) :
    First rules (a :: w) i ↔ First (derivRules a rules) w i := by
  induction rules with
  | nil => exact Iff.rfl
  | cons r rules ih =>
      unfold First
      rw [Pattern.cons_mem_language, ih]
      exact Iff.rfl

theorem Longest.cons
    {rules : List (I × Pattern A)} {a : A} {text : List A}
    {n : ℕ} {i : I}
    (hLongest : Longest (derivRules a rules) text n i) :
    Longest rules (a :: text) (n + 1) i := by
  rcases hLongest with ⟨hFits, hFirst, hMax⟩
  refine ⟨Nat.succ_le_succ hFits, ?_, ?_⟩
  · exact (first_cons rules a _ i).mpr hFirst
  · intro m hLength hMore j hMatch
    rcases m with _ | m
    · cases hMore
    · exact hMax m (Nat.le_of_succ_le_succ hLength)
        (Nat.lt_of_succ_lt_succ hMore) j
        ((first_cons rules a _ j).mp hMatch)

/- When nothing longer matches, the empty text is the longest. -/
theorem longest_zero
    {rules : List (I × Pattern A)} {text : List A} {i : I}
    (hFirst : First rules [] i)
    (hNone :
      ∀ a rest, text = a :: rest →
        NoMatch (derivRules a rules) rest) :
    Longest rules text 0 i := by
  refine ⟨Nat.zero_le _, hFirst, ?_⟩
  intro m hLength hMore j hMatch
  rcases text with _ | ⟨a, rest⟩
  · exact absurd hMore (Nat.not_lt.mpr hLength)
  · rcases m with _ | m
    · cases hMore
    · exact hNone a rest rfl m (Nat.le_of_succ_le_succ hLength)
        j ((first_cons rules a _ j).mp hMatch)

theorem noMatch_of
    {rules : List (I × Pattern A)} {text : List A}
    (hFirst : ∀ j, ¬ First rules [] j)
    (hNone :
      ∀ a rest, text = a :: rest →
        NoMatch (derivRules a rules) rest) :
    NoMatch rules text := by
  intro m hLength j hMatch
  rcases m with _ | m
  · exact hFirst j hMatch
  · rcases text with _ | ⟨a, rest⟩
    · cases hLength
    · exact hNone a rest rfl m (Nat.le_of_succ_le_succ hLength)
        j ((first_cons rules a _ j).mp hMatch)

------------------------------------------------------------
-- Correctness
------------------------------------------------------------

/- The states of a set stand for what is left of the rules. -/
structure Residual
    (t : Automaton A S I) (states : S → Prop)
    (left : S → List (I × Pattern A)) : Prop where
  label : ∀ s, states s → t.label s = firstNullable (left s)
  dead :
    ∀ s a, states s → t.dead (t.step s a) = true →
      ∀ r ∈ derivRules a (left s), r.2 = .empty
  next :
    ∀ s a, states s → t.dead (t.step s a) = false →
      states (t.step s a) ∧
        left (t.step s a) = derivRules a (left s)

section Correctness

variable {t : Automaton A S I} {states : S → Prop}
variable {left : S → List (I × Pattern A)}

theorem record_cases
    (hResidual : Residual t states left)
    {s : S}
    (hState : states s)
    (n : ℕ) (last : Option (ℕ × I)) :
    (∃ i, First (left s) [] i ∧
        record t s n last = some (n, i)) ∨
      (∀ j, ¬ First (left s) [] j) ∧
        record t s n last = last := by
  unfold record
  rw [hResidual.label s hState]
  cases hLabel : firstNullable (left s) with
  | none =>
      refine .inr ⟨?_, rfl⟩
      intro j hFirst
      rw [first_nil, hLabel] at hFirst
      cases hFirst
  | some i =>
      exact .inl ⟨i, (first_nil _ _).mpr hLabel, rfl⟩

/-
  The run finds the longest match; without any match it returns
  what has been remembered.
-/
theorem longest_cases
    (hResidual : Residual t states left)
    {s : S}
    (hState : states s)
    (text : List A) (n : ℕ) (last : Option (ℕ × I)) :
    (∃ m i, Longest (left s) text m i ∧
        longest t s text n last = some (n + m, i)) ∨
      NoMatch (left s) text ∧
        longest t s text n last = last := by
  induction text generalizing s n last with
  | nil =>
      have hNone :
          ∀ a rest, ([] : List A) = a :: rest →
            NoMatch (derivRules a (left s)) rest :=
        nofun
      rcases record_cases hResidual hState n last with
        ⟨i, hFirst, hRecord⟩ | ⟨hNever, hRecord⟩
      · exact .inl ⟨0, i, longest_zero hFirst hNone, hRecord⟩
      · exact .inr ⟨noMatch_of hNever hNone, hRecord⟩
  | cons a text ih =>
      unfold longest
      by_cases hDead : t.dead (t.step s a) = true
      · rw [if_pos hDead]
        have hNone :
            ∀ b rest, a :: text = b :: rest →
              NoMatch (derivRules b (left s)) rest := by
          rintro b rest hSame m _ j
          cases hSame
          exact first_empty (hResidual.dead s a hState hDead) _ j
        rcases record_cases hResidual hState n last with
          ⟨i, hFirst, hRecord⟩ | ⟨hNever, hRecord⟩
        · exact .inl ⟨0, i, longest_zero hFirst hNone, hRecord⟩
        · exact .inr ⟨noMatch_of hNever hNone, hRecord⟩
      · rw [if_neg hDead]
        rcases hResidual.next s a hState
            (Bool.eq_false_iff.mpr hDead) with
          ⟨hNext, hLeft⟩
        rcases ih hNext (n + 1) (record t s n last) with
          ⟨m, i, hLongest, hRun⟩ | ⟨hNoMatch, hRun⟩
        · rw [hLeft] at hLongest
          refine .inl ⟨m + 1, i, hLongest.cons, ?_⟩
          rw [hRun, Nat.add_right_comm, Nat.add_assoc]
        · rw [hLeft] at hNoMatch
          rw [hRun]
          have hNone :
              ∀ b rest, a :: text = b :: rest →
                NoMatch (derivRules b (left s)) rest := by
            rintro b rest hSame
            cases hSame
            exact hNoMatch
          rcases record_cases hResidual hState n last with
            ⟨i, hFirst, hRecord⟩ | ⟨hNever, hRecord⟩
          · exact .inl
              ⟨0, i, longest_zero hFirst hNone, hRecord⟩
          · exact .inr ⟨noMatch_of hNever hNone, hRecord⟩

end Correctness

end Automata

end LongestMatch
