import Mathlib.Data.List.Basic
import Mathlib.Logic.Relation
import Mathlib.Order.Nat

/-
  Parsers that are driven by tables of states.

  The parser keeps a stack of states with values.  The state on
  top and the next token decide whether the token is shifted or
  a rule is reduced.  Tables that pass a finite check accept
  only what the grammar derives, need a stack of bounded height
  and end after a number of steps that is linear in the number
  of tokens.

  Main declarations:
    * `Grammar`, `Derives`, `Reads`
    * `Tables`, `step`, `run`, `Reaches`, `step_cases`
    * `Annotation`, `Checked`
    * `Spells`, `Spells.step`, `Spells.outcome`
    * `length_le_of_reaches`, `run_isSome`
    * `derives_of_run`
    * `reaches_before`, `Finishes`, `not_rejected`
-/

------------------------------------------------------------
-- Grammars
------------------------------------------------------------

namespace ShiftReduce

/-
  Tokens `A` of kinds `T`, nonterminals `N` and rules `R`; each
  rule computes its value from those of its right side, unless
  it aborts.
-/
structure Grammar (T N R A V : Type) where
  start : N
  lhs : R → N
  rhs : R → List (T ⊕ N)
  kind : A → T
  value : A → V
  action : R → List V → Option V

variable {T N R A V : Type}

/- What a list of symbols derives, with its values. -/
inductive Derives (g : Grammar T N R A V) :
    List (T ⊕ N) → List A → List V → Prop
| nil : Derives g [] [] []
| token (a : A) {symbols : List (T ⊕ N)} {w : List A}
    {values : List V}
    (hRest : Derives g symbols w values) :
    Derives g (.inl (g.kind a) :: symbols) (a :: w)
      (g.value a :: values)
| rule (r : R) {symbols : List (T ⊕ N)} {w w' : List A}
    {values values' : List V} {v : V}
    (hParts : Derives g (g.rhs r) w values)
    (hAction : g.action r values = some v)
    (hRest : Derives g symbols w' values') :
    Derives g (.inr (g.lhs r) :: symbols) (w ++ w')
      (v :: values')

namespace Derives

variable {g : Grammar T N R A V}

theorem append
    {symbols symbols' : List (T ⊕ N)} {w w' : List A}
    {values values' : List V}
    (hFirst : Derives g symbols w values)
    (hSecond : Derives g symbols' w' values') :
    Derives g (symbols ++ symbols') (w ++ w')
      (values ++ values') := by
  induction hFirst with
  | nil => exact hSecond
  | token a hRest ih => exact .token a ih
  | rule r hParts hAction hRest ihParts ih =>
      rw [List.append_assoc]
      exact .rule r hParts hAction ih

/- The token of a kind. -/
theorem single_token (g : Grammar T N R A V) (a : A) :
    Derives g [.inl (g.kind a)] [a] [g.value a] :=
  .token a .nil

theorem single_rule
    {r : R} {w : List A} {values : List V} {v : V}
    (hParts : Derives g (g.rhs r) w values)
    (hAction : g.action r values = some v) :
    Derives g [.inr (g.lhs r)] w [v] := by
  have hRule := Derives.rule r hParts hAction .nil
  rw [List.append_nil] at hRule
  exact hRule

end Derives

/-
  What the symbols of a list stand for, when `means` says it of
  the nonterminals.
-/
def Reads (g : Grammar T N R A V)
    (means : N → List A → V → Prop) :
    List (T ⊕ N) → List A → List V → Prop
| [], w, values => w = [] ∧ values = []
| .inl k :: symbols, w, values =>
    ∃ a w' values', w = a :: w' ∧ values = g.value a :: values' ∧
      g.kind a = k ∧ Reads g means symbols w' values'
| .inr n :: symbols, w, values =>
    ∃ w' w'' v values', w = w' ++ w'' ∧ values = v :: values' ∧
      means n w' v ∧ Reads g means symbols w'' values'

/- A meaning that the rules keep is that of all derivations. -/
theorem Derives.reads
    {g : Grammar T N R A V}
    {means : N → List A → V → Prop}
    (hRules :
      ∀ r w values v, Reads g means (g.rhs r) w values →
        g.action r values = some v → means (g.lhs r) w v)
    {symbols : List (T ⊕ N)} {w : List A} {values : List V}
    (hDerives : Derives g symbols w values) :
    Reads g means symbols w values := by
  induction hDerives with
  | nil => exact ⟨rfl, rfl⟩
  | token a hRest ih => exact ⟨a, _, _, rfl, rfl, rfl, ih⟩
  | rule r hParts hAction hRest ihParts ih =>
      exact ⟨_, _, _, _, rfl, rfl,
        hRules r _ _ _ ihParts hAction, ih⟩

------------------------------------------------------------
-- Parsers
------------------------------------------------------------

inductive Decision (R : Type)
| shift (state : ℕ)
| reduce (r : R)
| error
deriving DecidableEq

/-
  The decision for a state and the kind of the next token, if
  there is one; the state after a nonterminal; and the rules
  whose reduction ends the parser.
-/
structure Tables (T N R : Type) where
  decision : ℕ → Option T → Decision R
  goto : ℕ → N → ℕ
  accepts : R → Bool

/- The states with their values, the top first. -/
abbrev Stack (V : Type) := List (ℕ × V)

structure Config (A V : Type) where
  stack : Stack V
  rest : List A

inductive Outcome (R A V : Type)
| accepted (v : V)
| rejected (state : ℕ) (rest : List A)
| aborted (r : R)
| broken

/- Below all others there is the state 0. -/
def top : Stack V → ℕ
| [] => 0
| x :: _ => x.1

@[simp]
theorem top_cons (s : ℕ) (v : V) (stack : Stack V) :
    top ((s, v) :: stack) = s :=
  rfl

def step
    (g : Grammar T N R A V) (t : Tables T N R)
    (c : Config A V) : Config A V ⊕ Outcome R A V :=
  match t.decision (top c.stack) (c.rest.head?.map g.kind) with
  | .error => .inr (.rejected (top c.stack) c.rest)
  | .shift state =>
      match c.rest with
      | [] => .inr .broken
      | a :: rest => .inl ⟨(state, g.value a) :: c.stack, rest⟩
  | .reduce r =>
      let popped := c.stack.take (g.rhs r).length
      let stack := c.stack.drop (g.rhs r).length
      if popped.length = (g.rhs r).length then
        match g.action r (popped.reverse.map Prod.snd) with
        | none => .inr (.aborted r)
        | some v =>
            if t.accepts r then
              .inr (.accepted v)
            else
              .inl
                ⟨(t.goto (top stack) (g.lhs r), v) :: stack,
                  c.rest⟩
      else
        .inr .broken

/- The outcome, if it is reached in time. -/
def run (g : Grammar T N R A V) (t : Tables T N R) :
    ℕ → Config A V → Option (Outcome R A V)
| 0, _ => none
| fuel + 1, c =>
    match step g t c with
    | .inl c' => run g t fuel c'
    | .inr outcome => some outcome

/- The configurations that the parser comes to. -/
def Reaches (g : Grammar T N R A V) (t : Tables T N R) :
    Config A V → Config A V → Prop :=
  Relation.ReflTransGen fun c c' => step g t c = .inl c'

section Runs

variable {g : Grammar T N R A V} {t : Tables T N R}

theorem step_shift
    {stack : Stack V} {a : A} {rest : List A} {state : ℕ}
    (hDecision :
      t.decision (top stack) (some (g.kind a)) =
        .shift state) :
    step g t ⟨stack, a :: rest⟩ =
      .inl ⟨(state, g.value a) :: stack, rest⟩ := by
  unfold step
  rw [List.head?_cons, Option.map_some, hDecision]

theorem step_reduce
    {popped stack : Stack V} {rest : List A} {r : R} {v : V}
    (hDecision :
      t.decision (top (popped ++ stack))
        (rest.head?.map g.kind) = .reduce r)
    (hLength : popped.length = (g.rhs r).length)
    (hAction :
      g.action r (popped.reverse.map Prod.snd) = some v) :
    step g t ⟨popped ++ stack, rest⟩ =
      if t.accepts r then .inr (.accepted v)
      else
        .inl
          ⟨(t.goto (top stack) (g.lhs r), v) :: stack,
            rest⟩ := by
  unfold step
  rw [hDecision]
  dsimp only
  rw [List.take_left' hLength, List.drop_left' hLength,
    if_pos hLength, hAction]

/- What a step that goes on can do. -/
theorem step_cases
    {c c' : Config A V}
    (hStep : step g t c = .inl c') :
    (∃ x rest s, c.rest = x :: rest ∧
      t.decision (top c.stack) (some (g.kind x)) = .shift s ∧
      c' = ⟨(s, g.value x) :: c.stack, rest⟩) ∨
    (∃ r v,
      t.decision (top c.stack) (c.rest.head?.map g.kind) =
        .reduce r ∧
      (c.stack.take (g.rhs r).length).length =
        (g.rhs r).length ∧
      g.action r
          ((c.stack.take (g.rhs r).length).reverse.map
            Prod.snd) = some v ∧
      t.accepts r = false ∧
      c' =
        ⟨(t.goto (top (c.stack.drop (g.rhs r).length))
            (g.lhs r), v) :: c.stack.drop (g.rhs r).length,
          c.rest⟩) := by
  rcases c with ⟨stack, rest⟩
  unfold step at hStep
  cases hDecision :
      t.decision (top stack) (rest.head?.map g.kind) with
  | error =>
      rw [hDecision] at hStep
      cases hStep
  | shift s =>
      rw [hDecision] at hStep
      cases rest with
      | nil => cases hStep
      | cons x rest =>
          cases hStep
          exact .inl ⟨x, rest, s, rfl, hDecision, rfl⟩
  | reduce r =>
      rw [hDecision] at hStep
      dsimp only at hStep
      split at hStep
      · rename_i hLength
        cases hAction :
            g.action r
              ((stack.take (g.rhs r).length).reverse.map
                Prod.snd) with
        | none =>
            rw [hAction] at hStep
            cases hStep
        | some v =>
            rw [hAction] at hStep
            cases hAccepts : t.accepts r with
            | true =>
                simp only [hAccepts, if_true] at hStep
                cases hStep
            | false =>
                simp only [hAccepts, Bool.false_eq_true,
                  if_false] at hStep
                cases hStep
                exact .inr
                  ⟨r, v, rfl, hLength, hAction, hAccepts, rfl⟩
      · cases hStep

theorem Reaches.trans
    {c c' c'' : Config A V}
    (hFirst : Reaches g t c c')
    (hSecond : Reaches g t c' c'') :
    Reaches g t c c'' :=
  Relation.ReflTransGen.trans hFirst hSecond

theorem reaches_shift
    {stack : Stack V} {a : A} {state : ℕ}
    (hDecision :
      t.decision (top stack) (some (g.kind a)) = .shift state)
    (rest : List A) :
    Reaches g t ⟨stack, a :: rest⟩
      ⟨(state, g.value a) :: stack, rest⟩ :=
  Relation.ReflTransGen.single (step_shift hDecision)

theorem reaches_reduce
    {popped stack : Stack V} {rest : List A} {r : R} {v : V}
    (hDecision :
      t.decision (top (popped ++ stack))
        (rest.head?.map g.kind) = .reduce r)
    (hLength : popped.length = (g.rhs r).length)
    (hAction :
      g.action r (popped.reverse.map Prod.snd) = some v)
    (hAccepts : t.accepts r = false) :
    Reaches g t ⟨popped ++ stack, rest⟩
      ⟨(t.goto (top stack) (g.lhs r), v) :: stack, rest⟩ := by
  have hStep := step_reduce hDecision hLength hAction
  rw [hAccepts] at hStep
  exact Relation.ReflTransGen.single hStep

/- More time does not change the outcome. -/
theorem run_mono
    {fuel fuel' : ℕ} {c : Config A V}
    {outcome : Outcome R A V}
    (hRun : run g t fuel c = some outcome)
    (hMore : fuel ≤ fuel') :
    run g t fuel' c = some outcome := by
  induction fuel generalizing c fuel' with
  | zero => cases hRun
  | succ fuel ih =>
      rcases fuel' with _ | fuel'
      · cases hMore
      · rw [run] at hRun ⊢
        cases hStep : step g t c with
        | inl c' =>
            rw [hStep] at hRun
            exact ih hRun (Nat.le_of_succ_le_succ hMore)
        | inr outcome' =>
            rw [hStep] at hRun
            exact hRun

theorem run_unique
    {fuel fuel' : ℕ} {c : Config A V}
    {outcome outcome' : Outcome R A V}
    (hRun : run g t fuel c = some outcome)
    (hRun' : run g t fuel' c = some outcome') :
    outcome = outcome' := by
  have hMore := run_mono hRun (Nat.le_max_left fuel fuel')
  have hMore' := run_mono hRun' (Nat.le_max_right fuel fuel')
  exact Option.some.inj (hMore.symm.trans hMore')

/- The outcome is that of any configuration on the way. -/
theorem run_of_reaches
    {c c' : Config A V} {outcome : Outcome R A V}
    (hReaches : Reaches g t c c')
    (hStep : step g t c' = .inr outcome) :
    ∃ fuel, run g t fuel c = some outcome := by
  induction hReaches using
    Relation.ReflTransGen.head_induction_on with
  | refl =>
      refine ⟨1, ?_⟩
      rw [run, hStep]
  | head hFirst _ ih =>
      rcases ih with ⟨fuel, hRun⟩
      refine ⟨fuel + 1, ?_⟩
      rw [run, hFirst]
      exact hRun

/- Any outcome is that of the last configuration reached. -/
theorem reaches_of_run
    {fuel : ℕ} {c : Config A V} {outcome : Outcome R A V}
    (hRun : run g t fuel c = some outcome) :
    ∃ c', Reaches g t c c' ∧ step g t c' = .inr outcome := by
  induction fuel generalizing c with
  | zero => cases hRun
  | succ fuel ih =>
      rw [run] at hRun
      cases hStep : step g t c with
      | inl c' =>
          rw [hStep] at hRun
          rcases ih hRun with ⟨c'', hReaches, hLast⟩
          exact ⟨c'',
            Relation.ReflTransGen.head hStep hReaches, hLast⟩
      | inr outcome' =>
          rw [hStep] at hRun
          cases hRun
          exact ⟨c, Relation.ReflTransGen.refl, hStep⟩

end Runs

------------------------------------------------------------
-- Checked Tables
------------------------------------------------------------

/-
  What is known of the states: those that may be right below a
  state on the stack, the symbol that leads to it, bounds for
  the height of the stack with it on top, and a bound for the
  reductions before the next shift.
-/
structure Annotation (T N : Type) where
  states : List ℕ
  lookaheads : List (Option T)
  below : ℕ → List ℕ
  symbol : ℕ → T ⊕ N
  low : ℕ → ℕ
  high : ℕ → ℕ
  credit : ℕ → ℕ
  price : ℕ

/-
  The states that may be the topmost `n`, each with the state
  that is then below them.
-/
def walks (below : ℕ → List ℕ) : ℕ → ℕ → List (List ℕ × ℕ)
| 0, s => [([], s)]
| n + 1, s =>
    (below s).flatMap fun s' =>
      (walks below n s').map fun w => (s :: w.1, w.2)

section Check

/- The parser may be in this state on top of that one. -/
def Follows
    (a : Annotation T N) (s' : ℕ) (x : T ⊕ N) (s : ℕ) : Prop :=
  s ∈ a.states ∧ s' ∈ a.below s ∧ a.symbol s = x

instance [DecidableEq T] [DecidableEq N]
    (a : Annotation T N) (s' : ℕ) (x : T ⊕ N) (s : ℕ) :
    Decidable (Follows a s' x s) :=
  inferInstanceAs (Decidable (_ ∧ _ ∧ _))

/-
  The symbols that the states stand for are those of the rule,
  and the state after the reduction fits and reduces less.
-/
def ReduceSound
    (g : Grammar T N R A V) (t : Tables T N R)
    (a : Annotation T N) (s : ℕ) (r : R)
    (w : List ℕ × ℕ) : Prop :=
  w.1.map a.symbol = (g.rhs r).reverse ∧
    if t.accepts r then
      w.2 = 0 ∧ g.lhs r = g.start
    else
      Follows a w.2 (.inr (g.lhs r)) (t.goto w.2 (g.lhs r)) ∧
        a.credit (t.goto w.2 (g.lhs r)) < a.credit s

instance [DecidableEq T] [DecidableEq N]
    (g : Grammar T N R A V) (t : Tables T N R)
    (a : Annotation T N) (s : ℕ) (r : R) (w : List ℕ × ℕ) :
    Decidable (ReduceSound g t a s r w) :=
  inferInstanceAs (Decidable (_ ∧ _))

def DecisionSound
    (g : Grammar T N R A V) (t : Tables T N R)
    (a : Annotation T N) (s : ℕ) :
    Option T → Decision R → Prop
| _, .error => True
| none, .shift _ => False
| some k, .shift s' => Follows a s (.inl k) s'
| _, .reduce r =>
    (g.rhs r).length ≤ a.low s ∧
      ∀ w ∈ walks a.below (g.rhs r).length s,
        ReduceSound g t a s r w

instance [DecidableEq T] [DecidableEq N]
    (g : Grammar T N R A V) (t : Tables T N R)
    (a : Annotation T N) (s : ℕ) (k : Option T)
    (d : Decision R) :
    Decidable (DecisionSound g t a s k d) :=
  match k, d with
  | none, .error => inferInstanceAs (Decidable True)
  | some _, .error => inferInstanceAs (Decidable True)
  | none, .shift _ => inferInstanceAs (Decidable False)
  | some k, .shift s' =>
      inferInstanceAs (Decidable (Follows a s (.inl k) s'))
  | none, .reduce _ => inferInstanceAs (Decidable (_ ∧ _))
  | some _, .reduce _ => inferInstanceAs (Decidable (_ ∧ _))

/- The finite check of the tables. -/
structure Checked
    (g : Grammar T N R A V) (t : Tables T N R)
    (a : Annotation T N) : Prop where
  start : 0 ∈ a.states
  bottom : a.below 0 = []
  low_start : a.low 0 = 0
  lookaheads : ∀ k, k ∈ a.lookaheads
  low : ∀ s ∈ a.states, ∀ s' ∈ a.below s, a.low s ≤ a.low s' + 1
  high : ∀ s ∈ a.states, ∀ s' ∈ a.below s, a.high s' < a.high s
  credit : ∀ s ∈ a.states, a.credit s < a.price
  decisions :
    ∀ s ∈ a.states, ∀ k ∈ a.lookaheads,
      DecisionSound g t a s k (t.decision s k)

end Check

------------------------------------------------------------
-- What the Stack Spells
------------------------------------------------------------

/- The entries of the stack derive the tokens read so far. -/
inductive Spells
    (g : Grammar T N R A V) (a : Annotation T N) :
    Stack V → List A → Prop
| nil : Spells g a [] []
| cons {stack : Stack V} {w w' : List A} {s : ℕ} {v : V}
    (hStack : Spells g a stack w)
    (hState : s ∈ a.states)
    (hBelow : top stack ∈ a.below s)
    (hDerives : Derives g [a.symbol s] w' [v]) :
    Spells g a ((s, v) :: stack) (w ++ w')

/- The steps that are paid for. -/
def funds (a : Annotation T N) (c : Config A V) : ℕ :=
  a.credit (top c.stack) + a.price * c.rest.length

namespace Spells

variable {g : Grammar T N R A V} {a : Annotation T N}
variable {stack : Stack V} {w : List A}

/- The topmost entries, for a known number of them. -/
theorem pop
    (hSpells : Spells g a stack w)
    {n : ℕ}
    (hHeight : n ≤ stack.length) :
    ((stack.take n).map Prod.fst, top (stack.drop n)) ∈
        walks a.below n (top stack) ∧
      ∃ w' w'', w = w' ++ w'' ∧
        Spells g a (stack.drop n) w' ∧
        Derives g
          (((stack.take n).map Prod.fst).map a.symbol).reverse
          w'' ((stack.take n).reverse.map Prod.snd) := by
  induction n generalizing stack w with
  | zero =>
      refine ⟨List.mem_singleton.mpr rfl, w, [], ?_, hSpells,
        .nil⟩
      exact (List.append_nil w).symm
  | succ n ih =>
      cases hSpells with
      | nil => cases hHeight
      | cons hStack hState hBelow hDerives =>
          rename_i stack w w' s v
          rcases ih hStack (Nat.le_of_succ_le_succ hHeight) with
            ⟨hWalk, w₁, w₂, rfl, hRest, hTop⟩
          refine ⟨?_, w₁, w₂ ++ w', List.append_assoc .., hRest,
            ?_⟩
          · exact List.mem_flatMap.mpr
              ⟨top stack, hBelow,
                List.mem_map.mpr ⟨_, hWalk, rfl⟩⟩
          · have hAll := hTop.append hDerives
            rw [List.take_succ_cons, List.map_cons, List.map_cons,
              List.reverse_cons, List.reverse_cons,
              List.map_append]
            exact hAll

variable {t : Tables T N R}

theorem top_mem
    (hChecked : Checked g t a)
    (hSpells : Spells g a stack w) :
    top stack ∈ a.states := by
  cases hSpells with
  | nil => exact hChecked.start
  | cons hStack hState hBelow hDerives => exact hState

/- The bounds of the height. -/
theorem low_le
    (hChecked : Checked g t a)
    (hSpells : Spells g a stack w) :
    a.low (top stack) ≤ stack.length := by
  induction hSpells with
  | nil => exact hChecked.low_start.le
  | cons hStack hState hBelow hDerives ih =>
      exact (hChecked.low _ hState _ hBelow).trans
        (Nat.succ_le_succ ih)

theorem length_le
    (hChecked : Checked g t a)
    (hSpells : Spells g a stack w) :
    stack.length ≤ a.high (top stack) := by
  induction hSpells with
  | nil => exact Nat.zero_le _
  | cons hStack hState hBelow hDerives ih =>
      exact Nat.succ_le_of_lt
        (ih.trans_lt (hChecked.high _ hState _ hBelow))

/- Only the empty stack has the state 0 on top. -/
theorem eq_nil_of_top
    (hChecked : Checked g t a)
    (hSpells : Spells g a stack w)
    (hTop : top stack = 0) :
    stack = [] := by
  cases hSpells with
  | nil => rfl
  | cons hStack hState hBelow hDerives =>
      rw [top_cons] at hTop
      rw [hTop, hChecked.bottom] at hBelow
      cases hBelow

/- What the tables were checked for in a configuration. -/
theorem decisionSound
    (hChecked : Checked g t a)
    (hSpells : Spells g a stack w)
    (rest : List A) :
    DecisionSound g t a (top stack) (rest.head?.map g.kind)
      (t.decision (top stack) (rest.head?.map g.kind)) :=
  hChecked.decisions _ (hSpells.top_mem hChecked) _
    (hChecked.lookaheads _)

/- The entries that a reduction takes from the stack. -/
theorem reduceSound
    (hChecked : Checked g t a)
    (hSpells : Spells g a stack w)
    {rest : List A} {r : R}
    (hDecision :
      t.decision (top stack) (rest.head?.map g.kind) =
        .reduce r) :
    (stack.take (g.rhs r).length).length = (g.rhs r).length ∧
      ReduceSound g t a (top stack) r
        ((stack.take (g.rhs r).length).map Prod.fst,
          top (stack.drop (g.rhs r).length)) ∧
      ∃ w' w'', w = w' ++ w'' ∧
        Spells g a (stack.drop (g.rhs r).length) w' ∧
        Derives g (g.rhs r) w''
          ((stack.take (g.rhs r).length).reverse.map
            Prod.snd) := by
  have hSound := hSpells.decisionSound hChecked rest
  rw [hDecision] at hSound
  have hBoth :
      (g.rhs r).length ≤ a.low (top stack) ∧
        ∀ w ∈ walks a.below (g.rhs r).length (top stack),
          ReduceSound g t a (top stack) r w := by
    cases hNext : rest.head?.map g.kind with
    | none =>
        rw [hNext] at hSound
        exact hSound
    | some k =>
        rw [hNext] at hSound
        exact hSound
  have hHeight := hBoth.1.trans (hSpells.low_le hChecked)
  rcases hSpells.pop hHeight with
    ⟨hWalk, w', w'', hSplit, hRest, hDerives⟩
  have hReduce := hBoth.2 _ hWalk
  rw [hReduce.1, List.reverse_reverse] at hDerives
  exact ⟨List.length_take_of_le hHeight, hReduce, w', w'',
    hSplit, hRest, hDerives⟩

/- One step reads on, and is paid for. -/
theorem step
    (hChecked : Checked g t a)
    {c c' : Config A V}
    (hSpells : Spells g a c.stack w)
    (hStep : step g t c = .inl c') :
    (∃ w', w ++ c.rest = w' ++ c'.rest ∧
      Spells g a c'.stack w') ∧
    funds a c' < funds a c := by
  rcases c with ⟨stack, rest⟩
  rcases step_cases hStep with
    ⟨x, rest', s, rfl, hDecision, rfl⟩ |
      ⟨r, v, hDecision, _, hAction, hAccepts, rfl⟩
  · have hSound := hSpells.decisionSound hChecked (x :: rest')
    rw [List.head?_cons, Option.map_some, hDecision] at hSound
    rcases hSound with ⟨hState, hBelow, hSymbol⟩
    have hToken := Derives.single_token g x
    rw [← hSymbol] at hToken
    refine ⟨⟨w ++ [x], ?_,
      .cons hSpells hState hBelow hToken⟩, ?_⟩
    · rw [List.append_assoc]
      rfl
    · have hCredit := hChecked.credit s hState
      simp only [funds, top_cons, List.length_cons,
        Nat.mul_add, Nat.mul_one]
      omega
  · rcases hSpells.reduceSound hChecked hDecision with
      ⟨_, ⟨_, hAfter⟩, w', w'', hSplit, hRest, hDerives⟩
    rw [hAccepts, if_neg Bool.false_ne_true] at hAfter
    rcases hAfter with ⟨⟨hState, hBelow, hSymbol⟩, hCredit⟩
    have hRule := Derives.single_rule hDerives hAction
    rw [← hSymbol] at hRule
    refine ⟨⟨w' ++ w'', by rw [hSplit],
      .cons hRest hState hBelow hRule⟩, ?_⟩
    exact Nat.add_lt_add_right hCredit _

/- What an outcome says of the tokens. -/
theorem outcome
    (hChecked : Checked g t a)
    {c : Config A V} {o : Outcome R A V}
    (hSpells : Spells g a c.stack w)
    (hStep : ShiftReduce.step g t c = .inr o) :
    match o with
    | .accepted v => Derives g [.inr g.start] w [v]
    | .rejected state rest =>
        state = top c.stack ∧ rest = c.rest ∧
          t.decision state (rest.head?.map g.kind) = .error
    | .aborted r =>
        ∃ w' w'' values, w = w' ++ w'' ∧
          Derives g (g.rhs r) w'' values ∧
            g.action r values = none
    | .broken => False := by
  rcases c with ⟨stack, rest⟩
  unfold ShiftReduce.step at hStep
  cases hDecision :
      t.decision (top stack) (rest.head?.map g.kind) with
  | error =>
      rw [hDecision] at hStep
      cases hStep
      exact ⟨rfl, rfl, hDecision⟩
  | shift s =>
      have hSound := hSpells.decisionSound hChecked rest
      rw [hDecision] at hStep hSound
      cases rest with
      | nil => exact hSound.elim
      | cons x rest => cases hStep
  | reduce r =>
      rcases hSpells.reduceSound hChecked hDecision with
        ⟨hLength, ⟨_, hAfter⟩, w', w'', hSplit, hRest, hDerives⟩
      rw [hDecision] at hStep
      dsimp only at hStep
      rw [if_pos hLength] at hStep
      cases hAction :
          g.action r
            ((stack.take (g.rhs r).length).reverse.map
              Prod.snd) with
      | none =>
          rw [hAction] at hStep
          cases hStep
          exact ⟨w', w'', _, hSplit, hDerives, hAction⟩
      | some v =>
          rw [hAction] at hStep
          by_cases hAccepts : t.accepts r = true
          · simp only [if_pos hAccepts] at hStep hAfter
            cases hStep
            have hEmpty := hRest.eq_nil_of_top hChecked hAfter.1
            rw [hEmpty] at hRest
            cases hRest
            have hRule := Derives.single_rule hDerives hAction
            rw [hAfter.2] at hRule
            rw [hSplit]
            exact hRule
          · simp only [if_neg hAccepts] at hStep
            cases hStep

end Spells

------------------------------------------------------------
-- Whole Runs
------------------------------------------------------------

section Whole

variable {g : Grammar T N R A V} {t : Tables T N R}
variable {a : Annotation T N}

/- The stack derives what has been read, all the time. -/
theorem spells_of_reaches
    (hChecked : Checked g t a)
    {tokens : List A} {c : Config A V}
    (hReaches : Reaches g t ⟨[], tokens⟩ c) :
    ∃ w, tokens = w ++ c.rest ∧ Spells g a c.stack w := by
  induction hReaches with
  | refl => exact ⟨[], rfl, .nil⟩
  | tail _ hStep ih =>
      rcases ih with ⟨w, hTokens, hSpells⟩
      rcases hSpells.step hChecked hStep with
        ⟨⟨w', hRead, hNext⟩, _⟩
      exact ⟨w', hTokens.trans hRead, hNext⟩

/- The height of the stack does not depend on the tokens. -/
theorem length_le_of_reaches
    (hChecked : Checked g t a)
    {bound : ℕ}
    (hBound : ∀ s ∈ a.states, a.high s ≤ bound)
    {tokens : List A} {c : Config A V}
    (hReaches : Reaches g t ⟨[], tokens⟩ c) :
    c.stack.length ≤ bound := by
  rcases spells_of_reaches hChecked hReaches with
    ⟨w, _, hSpells⟩
  exact (hSpells.length_le hChecked).trans
    (hBound _ (hSpells.top_mem hChecked))

/- The parser ends before its funds do. -/
theorem run_isSome
    (hChecked : Checked g t a)
    {fuel : ℕ} {c : Config A V} {w : List A}
    (hSpells : Spells g a c.stack w)
    (hFunds : funds a c < fuel) :
    (run g t fuel c).isSome = true := by
  induction fuel generalizing c w with
  | zero => cases hFunds
  | succ fuel ih =>
      rw [run]
      cases hStep : step g t c with
      | inl c' =>
          rcases hSpells.step hChecked hStep with
            ⟨⟨w', _, hNext⟩, hLess⟩
          exact ih hNext
            (hLess.trans_le (Nat.le_of_lt_succ hFunds))
      | inr outcome => rfl

/- What is accepted is derived, with the value returned. -/
theorem derives_of_run
    (hChecked : Checked g t a)
    {fuel : ℕ} {tokens : List A} {v : V}
    (hRun : run g t fuel ⟨[], tokens⟩ = some (.accepted v)) :
    ∃ w rest, tokens = w ++ rest ∧
      Derives g [.inr g.start] w [v] := by
  rcases reaches_of_run hRun with ⟨c, hReaches, hStep⟩
  rcases spells_of_reaches hChecked hReaches with
    ⟨w, hTokens, hSpells⟩
  exact ⟨w, c.rest, hTokens, hSpells.outcome hChecked hStep⟩

/-
  A reduction depends on the next token only, and a shift on
  none after it: the same stack is reached before other tokens.
-/
theorem reaches_before
    (hChecked : Checked g t a)
    {tokens : List A} {c : Config A V}
    (hReaches : Reaches g t ⟨[], tokens⟩ c) :
    ∃ w, tokens = w ++ c.rest ∧
      ∀ rest : List A,
        rest.head?.map g.kind = c.rest.head?.map g.kind ∨
            (∃ k, a.symbol (top c.stack) = .inl k) →
          Reaches g t ⟨[], w ++ rest⟩ ⟨c.stack, rest⟩ := by
  induction hReaches with
  | refl =>
      exact ⟨[], rfl, fun rest _ => Relation.ReflTransGen.refl⟩
  | @tail c c' hBefore hStep ih =>
      rcases ih with ⟨w, hTokens, hSame⟩
      rcases spells_of_reaches hChecked hBefore with
        ⟨w₁, _, hSpells⟩
      rcases c with ⟨stack, rest⟩
      rcases step_cases hStep with
        ⟨x, rest₁, s, rfl, hDecision, rfl⟩ |
          ⟨r, v, hDecision, hLength, hAction, hAccepts, rfl⟩
      · refine ⟨w ++ [x], ?_, ?_⟩
        · rw [hTokens, List.append_assoc]
          rfl
        · intro rest' _
          have hAt := hSame (x :: rest') (.inl rfl)
          rw [List.append_assoc]
          exact hAt.trans (reaches_shift hDecision rest')
      · refine ⟨w, hTokens, ?_⟩
        rcases hSpells.reduceSound hChecked hDecision with
          ⟨_, ⟨_, hAfter⟩, _⟩
        rw [hAccepts, if_neg Bool.false_ne_true] at hAfter
        rintro rest' (hNext | ⟨k, hToken⟩)
        · have hAt := hSame rest' (.inl hNext)
          have hSplit :=
            List.take_append_drop (g.rhs r).length stack
          rw [← hNext, ← hSplit] at hDecision
          have hReduce :=
            reaches_reduce hDecision hLength hAction hAccepts
          rw [hSplit] at hReduce
          exact hAt.trans hReduce
        · rw [top_cons, hAfter.1.2.2] at hToken
          cases hToken

/-
  States that come to an end with the given kinds of tokens,
  and no error on the way.
-/
def Finishes
    (g : Grammar T N R A V) (t : Tables T N R)
    (a : Annotation T N) (ends : ℕ → List T → Prop) : Prop :=
  ∀ s ks, ends s ks →
    match t.decision s ks.head? with
    | .error => False
    | .shift s' => ends s' ks.tail
    | .reduce r =>
        t.accepts r = true ∨
          ∀ w ∈ walks a.below (g.rhs r).length s,
            ends (t.goto w.2 (g.lhs r)) ks

theorem not_rejected
    (hChecked : Checked g t a)
    {ends : ℕ → List T → Prop}
    (hFinishes : Finishes g t a ends)
    {c c' : Config A V} {w : List A}
    (hSpells : Spells g a c.stack w)
    (hEnds : ends (top c.stack) (c.rest.map g.kind))
    (hReaches : Reaches g t c c')
    (state : ℕ) (rest : List A) :
    step g t c' ≠ .inr (.rejected state rest) := by
  have hInv :
      (∃ w, Spells g a c'.stack w) ∧
        ends (top c'.stack) (c'.rest.map g.kind) := by
    induction hReaches with
    | refl => exact ⟨⟨w, hSpells⟩, hEnds⟩
    | @tail c₁ c₂ hBefore hStep ih =>
        rcases ih with ⟨⟨w₁, hSpells₁⟩, hEnds₁⟩
        rcases hSpells₁.step hChecked hStep with
          ⟨⟨w₂, _, hSpells₂⟩, _⟩
        refine ⟨⟨w₂, hSpells₂⟩, ?_⟩
        rcases c₁ with ⟨stack, rest⟩
        have hNext := hFinishes _ _ hEnds₁
        rw [List.head?_map] at hNext
        rcases step_cases hStep with
          ⟨x, rest', s, rfl, hDecision, rfl⟩ |
            ⟨r, v, hDecision, hLength, _, hAccepts, rfl⟩
        · rw [List.head?_cons, Option.map_some, hDecision] at hNext
          exact hNext
        · have hHeight : (g.rhs r).length ≤ stack.length := by
            have hTaken : (stack.take (g.rhs r).length).length =
                (g.rhs r).length := hLength
            rw [List.length_take] at hTaken
            omega
          have hWalk := (hSpells₁.pop hHeight).1
          rw [hDecision] at hNext
          rcases hNext with hNext | hNext
          · rw [hAccepts] at hNext
            cases hNext
          · exact hNext _ hWalk
  rcases hInv with ⟨⟨w', hSpells'⟩, hEnds'⟩
  intro hStep
  rcases hSpells'.outcome hChecked hStep with
    ⟨rfl, rfl, hDecision⟩
  have hNext := hFinishes _ _ hEnds'
  rw [List.head?_map, hDecision] at hNext
  exact hNext

end Whole

end ShiftReduce
