import Mathlib.Data.List.Dedup
import ProgrammingTasks.Foundations.LongestMatch
import ProgrammingTasks.Shell.Words

/-
  The generated scanner (`parser.l`, `parser.yy.c`).

  The rules are those of the source, by their numbers, with the
  default rule of the generator as the last one.  The tables of
  the automaton are those of the generated code.  Each of its
  states is checked against what the rules still match after a
  text that leads to it.

  Main declarations:
    * `StartCondition`, `lexRules`
    * `yyNextState`, `yyMatch`, `yyAction`
    * `flex_residual`
-/

------------------------------------------------------------
-- Rules
------------------------------------------------------------

namespace ProgrammingTasks

namespace Shell

open LongestMatch

inductive StartCondition
| initial
| acceptAny
| acceptAnyAndExpansion
deriving DecidableEq, Repr

/- The characters of the two kinds of quotation marks. -/
def charStateAny : Char := Char.ofNat 39

def charStateAnyAndExpansion : Char := Char.ofNat 34

abbrev CharPattern := Pattern Char

/- One of the listed characters. -/
def oneOf (chars : List Char) : CharPattern :=
  .set ⟨chars.map fun c => (c, c), false⟩

/- Any other character than the listed ones. -/
def noneOf (chars : List Char) : CharPattern :=
  .set ⟨chars.map fun c => (c, c), true⟩

def digit : CharPattern := .set ⟨[('0', '9')], false⟩

def letter : CharPattern :=
  .set ⟨[('a', 'z'), ('A', 'Z')], false⟩

def envVarName : CharPattern :=
  .seq (.alt (oneOf ['_']) letter)
    (.star (.alt (.alt (oneOf ['_']) letter) digit))

def parameterValue : CharPattern :=
  .plus
    (.alt (.alt letter digit)
      (oneOf
        ['-', Char.ofNat 92, '+', ':', '.', '_', '%', '?', '*',
          '~', '/', ',']))

def whitespace : CharPattern := oneOf [' ', '\t']

def newLine : CharPattern :=
  .seq (.option (oneOf ['\r'])) (oneOf ['\n'])

def anyChar : CharPattern :=
  .alt (noneOf ['\n']) (oneOf ['\n'])

/- A fixed text. -/
def literal : List Char → CharPattern
| [] => .epsilon
| [c] => oneOf [c]
| c :: chars => .seq (oneOf [c]) (literal chars)

/- The rules of a start condition, by their numbers. -/
def lexRules : StartCondition → List (Nat × CharPattern)
| .initial =>
    [(1, .seq newLine anyChar), (2, newLine),
      (3, oneOf [charStateAny]),
      (4, oneOf [charStateAnyAndExpansion]),
      (5, literal [';']),
      (6, literal ['|', '|']), (7, literal ['|']),
      (8, literal ['&', '&']), (9, literal ['&', '>']),
      (10, literal ['&']),
      (11, literal ['2', '>', '>']), (12, literal ['>', '>']),
      (13, literal ['2', '>']), (14, literal ['>']),
      (15, literal ['<']),
      (16, .plus whitespace), (17, literal ['=']),
      (18, .seq (literal ['$']) envVarName),
      (19, literal ['$']), (20, parameterValue),
      (27, anyChar), (28, anyChar)]
| .acceptAny =>
    [(21, oneOf [charStateAny]),
      (22, .star (noneOf [charStateAny])),
      (27, anyChar), (28, anyChar)]
| .acceptAnyAndExpansion =>
    [(23, oneOf [charStateAnyAndExpansion]),
      (24, .seq (literal ['$']) envVarName),
      (25, literal ['$']),
      (26, .star (noneOf [charStateAnyAndExpansion, '$'])),
      (27, anyChar), (28, anyChar)]

------------------------------------------------------------
-- Tables
------------------------------------------------------------

def yyAccept : List Nat :=
  [0, 0, 0, 22, 22, 26, 26, 29, 27, 16, 2, 27, 4, 19, 20, 10, 3,
   20, 5, 15, 17, 14, 7, 22, 21, 26, 23, 25, 16, 1, 2, 18, 20,
   8, 9, 13, 12, 6, 22, 26, 24, 18, 11, 24, 0]

def yyEcTable : List Nat :=
  [0, 1, 1, 1, 1, 1, 1, 1, 1, 2, 3, 1, 1, 4, 1, 1, 1, 1, 1, 1,
   1, 1, 1, 1, 1, 1, 1, 1, 1, 1, 1, 1, 2, 1, 5, 1, 6, 7, 8, 9,
   1, 1, 7, 7, 7, 7, 7, 7, 10, 10, 11, 10, 10, 10, 10, 10, 10,
   10, 7, 12, 13, 14, 15, 7, 1, 16, 16, 16, 16, 16, 16, 16, 16,
   16, 16, 16, 16, 16, 16, 16, 16, 16, 16, 16, 16, 16, 16, 16,
   16, 16, 16, 1, 7, 1, 1, 17, 1, 16, 16, 16, 16, 16, 16, 16,
   16, 16, 16, 16, 16, 16, 16, 16, 16, 16, 16, 16, 16, 16, 16,
   16, 16, 16, 16, 1, 18, 1, 7, 1, 1, 1, 1, 1, 1, 1, 1, 1, 1, 1,
   1, 1, 1, 1, 1, 1, 1, 1, 1, 1, 1, 1, 1, 1, 1, 1, 1, 1, 1, 1,
   1, 1, 1, 1, 1, 1, 1, 1, 1, 1, 1, 1, 1, 1, 1, 1, 1, 1, 1, 1,
   1, 1, 1, 1, 1, 1, 1, 1, 1, 1, 1, 1, 1, 1, 1, 1, 1, 1, 1, 1,
   1, 1, 1, 1, 1, 1, 1, 1, 1, 1, 1, 1, 1, 1, 1, 1, 1, 1, 1, 1,
   1, 1, 1, 1, 1, 1, 1, 1, 1, 1, 1, 1, 1, 1, 1, 1, 1, 1, 1, 1,
   1, 1, 1, 1, 1, 1, 1, 1, 1, 1, 1, 1, 1, 1, 1, 1, 1, 1]

def yyMeta : List Nat :=
  [0, 1, 1, 1, 1, 2, 2, 3, 1, 4, 3, 3, 1, 1, 1, 1, 3, 3, 1]

def yyBase : List Nat :=
  [0, 0, 0, 36, 35, 14, 16, 43, 68, 36, 0, 34, 68, 7, 0, 17, 68,
   21, 68, 68, 68, 20, 13, 0, 68, 0, 68, 10, 28, 68, 0, 23, 0,
   68, 68, 14, 68, 68, 0, 0, 31, 0, 68, 0, 68, 48, 52, 56, 25,
   60, 63]

def yyDef : List Nat :=
  [0, 44, 1, 45, 45, 46, 46, 44, 44, 44, 47, 44, 44, 44, 48, 44,
   44, 48, 44, 44, 44, 44, 44, 49, 44, 50, 44, 44, 44, 44, 47,
   44, 48, 44, 44, 44, 44, 44, 49, 50, 44, 31, 44, 40, 0, 44,
   44, 44, 44, 44, 44]

def yyNxt : List Nat :=
  [0, 8, 9, 10, 11, 12, 13, 14, 15, 16, 14, 17, 18, 19, 20, 21,
   14, 14, 22, 26, 27, 26, 27, 31, 31, 33, 40, 40, 32, 42, 28,
   37, 34, 41, 41, 36, 35, 30, 28, 41, 41, 43, 43, 44, 24, 24,
   44, 43, 43, 23, 23, 23, 23, 25, 25, 25, 25, 29, 29, 29, 29,
   38, 38, 38, 39, 44, 39, 39, 7, 44, 44, 44, 44, 44, 44, 44,
   44, 44, 44, 44, 44, 44, 44, 44, 44, 44, 44]

def yyChk : List Nat :=
  [0, 1, 1, 1, 1, 1, 1, 1, 1, 1, 1, 1, 1, 1, 1, 1, 1, 1, 1, 5,
   5, 6, 6, 13, 13, 15, 27, 27, 48, 35, 28, 22, 15, 31, 31, 21,
   17, 11, 9, 31, 31, 40, 40, 7, 4, 3, 0, 40, 40, 45, 45, 45,
   45, 46, 46, 46, 46, 47, 47, 47, 47, 49, 49, 49, 50, 0, 50,
   50, 44, 44, 44, 44, 44, 44, 44, 44, 44, 44, 44, 44, 44, 44,
   44, 44, 44, 44, 44]

/- The state from which there is no way on. -/
def yyJam : Nat := 44

/- The number of the action at the end of the buffer. -/
def yyEndOfBuffer : Nat := 29

/-
  The class of a character of the text; a NUL that is not the
  end of the buffer has the class 1.
-/
def yyEc (c : Char) : Nat :=
  if c.toNat = 0 then 1 else yyEcTable.getD c.toNat 1

------------------------------------------------------------
-- Matching
------------------------------------------------------------

/- The inner loop of `yylex`, from default to default. -/
def yyNextStateFrom : Nat → Nat → Nat → Nat
| 0, _, _ => yyJam
| fuel + 1, state, c =>
    if yyChk.getD (yyBase.getD state 0 + c) 0 = state then
      yyNxt.getD (yyBase.getD state 0 + c) 0
    else
      let state' := yyDef.getD state 0
      yyNextStateFrom fuel state'
        (if 45 ≤ state' then yyMeta.getD c 0 else c)

def yyNextState (state c : Nat) : Nat :=
  yyNextStateFrom yyDef.length state c

/-
  The loop at `yy_match` over the classes of the buffer: the
  last state that accepts, and the position where it did.
-/
def yyMatch :
    Nat → List Nat → Nat → Nat × Nat → Nat × Nat
| _, [], _, last => last
| state, c :: buffer, cp, last =>
    let last :=
      if yyAccept.getD state 0 = 0 then last else (state, cp)
    let state' := yyNextState state c
    if state' = yyJam then
      last
    else
      yyMatch state' buffer (cp + 1) last

/- `yy_get_previous_state`. -/
def yyPreviousState :
    Nat → List Nat → Nat → Nat × Nat → Nat × (Nat × Nat)
| state, [], _, last => (state, last)
| state, c :: buffer, cp, last =>
    yyPreviousState (yyNextState state c) buffer (cp + 1)
      (if yyAccept.getD state 0 = 0 then last else (state, cp))

/- `BEGIN`. -/
def StartCondition.yyStart : StartCondition → Nat
| .initial => 1
| .acceptAny => 3
| .acceptAnyAndExpansion => 5

/-
  The rule that `yylex` takes at the start of the text, and the
  length that it matches; there is none at the end of the text.
  The buffer ends with two NULs.
-/
def yyAction (start : StartCondition) (text : Text) :
    Option (Nat × Nat) :=
  let last :=
    yyMatch start.yyStart (text.map yyEc ++ [0, 0]) 0 (0, 0)
  let yyAct := yyAccept.getD last.1 0
  if yyAct = yyEndOfBuffer then
    if last.2 = 1 then
      none
    else
      let (state, last) :=
        yyPreviousState start.yyStart (text.map yyEc) 0 last
      if yyAccept.getD state 0 = 0 then
        some (yyAccept.getD last.1 0, last.2)
      else
        some (yyAccept.getD state 0, text.length)
  else
    some (yyAct, last.2)

------------------------------------------------------------
-- The Check of the States
------------------------------------------------------------

/- A character of each class. -/
def representative (c : Nat) : Char :=
  ['!', '!', ' ', '\n', '\r', charStateAnyAndExpansion, '$',
    '%', '&', charStateAny, '0', '2', ';', '<', '=', '>', 'A',
    '_', '|'].getD c '!'

/- Classes that lead from the start to each state. -/
def scanPaths : StartCondition → List (Nat × List Nat)
| .initial =>
    [(1, []), (8, [1]), (9, [2]), (10, [3]), (11, [4]),
      (12, [5]), (13, [6]), (14, [7]), (15, [8]), (16, [9]),
      (17, [11]), (18, [12]), (19, [13]), (20, [14]),
      (21, [15]), (22, [18]), (28, [2, 2]), (29, [3, 1]),
      (30, [4, 3]), (31, [6, 16]), (32, [7, 7]), (33, [8, 8]),
      (34, [8, 15]), (35, [11, 15]), (36, [15, 15]),
      (37, [18, 18]), (41, [6, 16, 10]), (42, [11, 15, 15])]
| .acceptAny =>
    [(3, []), (23, [1]), (24, [9]), (38, [1, 1])]
| .acceptAnyAndExpansion =>
    [(5, []), (25, [1]), (26, [5]), (27, [6]), (39, [1, 1]),
      (40, [6, 16]), (43, [6, 16, 10])]

def scanStates (start : StartCondition) : List Nat :=
  (scanPaths start).map Prod.fst

/- What is left of the rules in a state. -/
def leftRules (start : StartCondition) (state : Nat) :
    List (Nat × CharPattern) :=
  (((scanPaths start).lookup state).getD []).foldl
    (fun rules c => derivRules (representative c) rules)
    (lexRules start)

def flexAutomaton : Automaton Char Nat Nat where
  step state a := yyNextState state (yyEc a)
  label state :=
    if yyAccept.getD state 0 = 0 then
      none
    else
      some (yyAccept.getD state 0)
  dead state := state == yyJam

def startConditions : List StartCondition :=
  [.initial, .acceptAny, .acceptAnyAndExpansion]

theorem mem_startConditions (start : StartCondition) :
    start ∈ startConditions := by
  cases start <;> decide

theorem check_labels :
    ∀ start ∈ startConditions, ∀ s ∈ scanStates start,
      flexAutomaton.label s =
        firstNullable (leftRules start s) := by
  decide

theorem check_steps :
    ∀ start ∈ startConditions, ∀ s ∈ scanStates start,
      ∀ c < 19, c ≠ 0 →
        if yyNextState s c = yyJam then
          ∀ r ∈ derivRules (representative c) (leftRules start s),
            r.2 = .empty
        else
          yyNextState s c ∈ scanStates start ∧
            leftRules start (yyNextState s c) =
              derivRules (representative c)
                (leftRules start s) := by
  decide +kernel

------------------------------------------------------------
-- Classes of Characters
------------------------------------------------------------

/- The sets of characters of a pattern. -/
def patternSets : CharPattern → List (CharSet Char)
| .empty => []
| .epsilon => []
| .set s => [s]
| .alt p q => patternSets p ++ patternSets q
| .seq p q => patternSets p ++ patternSets q
| .star p => patternSets p

def ruleSets (start : StartCondition) : List (CharSet Char) :=
  ((lexRules start).flatMap fun r => patternSets r.2).dedup

/- The sets do not tell the characters of a class apart. -/
def Uniform (s : CharSet Char) (a : Char) : Prop :=
  s.contains a = s.contains (representative (yyEc a))

instance (s : CharSet Char) (a : Char) :
    Decidable (Uniform s a) :=
  inferInstanceAs (Decidable (_ = _))

theorem check_sets :
    ∀ start ∈ startConditions, ∀ s ∈ scanStates start,
      ∀ r ∈ leftRules start s, ∀ set ∈ patternSets r.2,
        set ∈ ruleSets start := by
  decide

theorem check_bytes :
    ∀ start ∈ startConditions, ∀ set ∈ ruleSets start,
      ∀ n < 256, Uniform set (Char.ofNat n) := by
  decide +kernel

theorem check_ranges :
    ∀ start ∈ startConditions, ∀ set ∈ ruleSets start,
      ∀ r ∈ set.ranges, r.2.toNat < 256 ∧
        ¬ (r.1 ≤ representative 1 ∧ representative 1 ≤ r.2) := by
  decide

theorem yyEc_of_large
    {a : Char}
    (hLarge : 256 ≤ a.toNat) :
    yyEc a = 1 := by
  have hLength : yyEcTable.length ≤ a.toNat := by
    have hTable : yyEcTable.length = 256 := by
      decide +kernel
    rw [hTable]
    exact hLarge
  unfold yyEc
  split
  · rfl
  · rw [List.getD_eq_getElem?_getD,
      List.getElem?_eq_none hLength]
    rfl

theorem uniform
    {start : StartCondition} {set : CharSet Char}
    (hSet : set ∈ ruleSets start)
    (a : Char) :
    Uniform set a := by
  have hStart := mem_startConditions start
  by_cases hByte : a.toNat < 256
  · have hAll := check_bytes start hStart set hSet a.toNat hByte
    rw [Char.ofNat_toNat] at hAll
    exact hAll
  · have hLarge := Nat.not_lt.mp hByte
    have hRanges := check_ranges start hStart set hSet
    have hNone :
        set.ranges.any
            (fun r => decide (r.1 ≤ a ∧ a ≤ r.2)) = false := by
      rw [List.any_eq_false]
      intro r hMem hInside
      have hBelow : a ≤ r.2 := (decide_eq_true_iff.mp hInside).2
      have hBound := (hRanges r hMem).1
      have hVal : a.toNat ≤ r.2.toNat := hBelow
      omega
    have hNone' :
        set.ranges.any
            (fun r =>
              decide
                (r.1 ≤ representative 1 ∧
                  representative 1 ≤ r.2)) = false := by
      rw [List.any_eq_false]
      intro r hMem hInside
      exact (hRanges r hMem).2 (decide_eq_true_iff.mp hInside)
    unfold Uniform CharSet.contains
    rw [yyEc_of_large hLarge, hNone, hNone']

theorem yyEc_range (a : Char) : yyEc a < 19 ∧ yyEc a ≠ 0 := by
  have hBytes :
      ∀ n < 256,
        yyEc (Char.ofNat n) < 19 ∧ yyEc (Char.ofNat n) ≠ 0 := by
    decide +kernel
  by_cases hByte : a.toNat < 256
  · have hAll := hBytes a.toNat hByte
    rw [Char.ofNat_toNat] at hAll
    exact hAll
  · rw [yyEc_of_large (Nat.not_lt.mp hByte)]
    decide

theorem deriv_congr
    {p : CharPattern} {a b : Char}
    (hSame :
      ∀ set ∈ patternSets p, set.contains a = set.contains b) :
    p.deriv a = p.deriv b := by
  induction p with
  | empty => rfl
  | epsilon => rfl
  | set s =>
      unfold Pattern.deriv
      rw [hSame s List.mem_cons_self]
  | alt p q ihp ihq =>
      have hFirst :=
        ihp fun s hMem => hSame s (List.mem_append_left _ hMem)
      have hSecond :=
        ihq fun s hMem => hSame s (List.mem_append_right _ hMem)
      unfold Pattern.deriv
      rw [hFirst, hSecond]
  | seq p q ihp ihq =>
      have hFirst :=
        ihp fun s hMem => hSame s (List.mem_append_left _ hMem)
      have hSecond :=
        ihq fun s hMem => hSame s (List.mem_append_right _ hMem)
      unfold Pattern.deriv
      rw [hFirst, hSecond]
  | star p ih =>
      unfold Pattern.deriv
      rw [ih hSame]

/- A character leaves of the rules what its class leaves. -/
theorem derivRules_class
    {start : StartCondition} {s : Nat}
    (hState : s ∈ scanStates start)
    (a : Char) :
    derivRules a (leftRules start s) =
      derivRules (representative (yyEc a)) (leftRules start s) := by
  refine List.map_congr_left ?_
  intro r hMem
  have hDeriv :
      r.2.deriv a = r.2.deriv (representative (yyEc a)) := by
    refine deriv_congr ?_
    intro set hSet
    exact uniform
      (check_sets start (mem_startConditions start) s hState r
        hMem set hSet) a
  rw [hDeriv]

/- The states stand for what is left of the rules. -/
theorem flex_residual (start : StartCondition) :
    Residual flexAutomaton (· ∈ scanStates start)
      (leftRules start) where
  label s hState :=
    check_labels start (mem_startConditions start) s hState
  dead s a hState hDead := by
    rcases yyEc_range a with ⟨hClass, hSome⟩
    have hStep :=
      check_steps start (mem_startConditions start) s hState
        (yyEc a) hClass hSome
    have hJam : yyNextState s (yyEc a) = yyJam :=
      beq_iff_eq.mp hDead
    rw [if_pos hJam] at hStep
    rw [derivRules_class hState]
    exact hStep
  next s a hState hAlive := by
    rcases yyEc_range a with ⟨hClass, hSome⟩
    have hStep :=
      check_steps start (mem_startConditions start) s hState
        (yyEc a) hClass hSome
    have hOn : yyNextState s (yyEc a) ≠ yyJam :=
      beq_eq_false_iff_ne.mp hAlive
    rw [if_neg hOn] at hStep
    rw [derivRules_class hState]
    exact hStep

end Shell

end ProgrammingTasks
