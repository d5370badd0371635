import ProgrammingTasks.Shell.ParserTables
import ProgrammingTasks.Shell.Sentences

/-
  What the generated parser does with a line.

  The words, parameters and redirections of a simple command
  are read one after another.  Between the commands, the stack
  holds the operators that wait for their right operand, and
  the tables complete those that bind as tight as the next one.

  Main declarations:
    * `Parses`, `parses_word`, `parses_redirections`
    * `parses_simple`
    * `Waits`, `parses_items`
    * `yyparse_line`, `yyparse_accepted_iff`
-/

------------------------------------------------------------
-- Lookahead
------------------------------------------------------------

namespace ProgrammingTasks

namespace Shell

open ShiftReduce (Stack top top_cons)

/- The parser comes from one configuration to another. -/
abbrev Parses
    (stack : Stack Value) (tokens : List Token)
    (stack' : Stack Value) (rest : List Token) : Prop :=
  ShiftReduce.Reaches grammar parserTables
    ⟨stack, tokens⟩ ⟨stack', rest⟩

/- The kind of the next token. -/
def next (tokens : List Token) : Option Terminal :=
  tokens.head?.map Token.kind

/- The next token, if there is one, is none of these. -/
def Avoids (kinds : List Terminal) (k : Option Terminal) :
    Prop :=
  ∀ k' ∈ k, k' ∉ kinds

instance (kinds : List Terminal) (k : Option Terminal) :
    Decidable (Avoids kinds k) :=
  inferInstanceAs (Decidable (∀ k' ∈ k, k' ∉ kinds))

/- A property of the lookahead holds if it holds of each. -/
theorem each_lookahead
    {P : Option Terminal → Prop}
    (hAll : ∀ k ∈ none :: terminals.map some, P k)
    (k : Option Terminal) :
    P k :=
  hAll k (parser_checked.lookaheads k)

theorem avoids_of_lexemes
    {kinds : List Terminal} {tokens rest : List Token}
    {lexemes : List Lexeme}
    (hLexemes : tokens.map Token.lexeme = lexemes)
    (hHead : ∀ l ∈ lexemes.head?, l.1 ∉ kinds)
    (hRest : Avoids kinds (next rest)) :
    Avoids kinds (next (tokens ++ rest)) := by
  subst hLexemes
  cases tokens with
  | nil => exact hRest
  | cons t tokens =>
      intro k hKind
      cases hKind
      exact hHead t.lexeme rfl

theorem Avoids.mono
    {kinds kinds' : List Terminal} {k : Option Terminal}
    (hAvoids : Avoids kinds k)
    (hSubset : kinds' ⊆ kinds) :
    Avoids kinds' k :=
  fun k' hMem hIn => hAvoids k' hMem (hSubset hIn)

------------------------------------------------------------
-- Shifting and Reducing
------------------------------------------------------------

theorem parses_shift
    (stack : Stack Value) {t : Token} {state : Nat}
    (hDecision :
      yybackup (top stack) (some t.kind) = .shift state)
    (rest : List Token) :
    Parses stack (t :: rest)
      ((state, .string t.string) :: stack) rest :=
  ShiftReduce.reaches_shift hDecision rest

theorem parses_reduce
    (r : Rule) (popped stack : Stack Value)
    {rest : List Token} {v : Value}
    (hDecision :
      yybackup (top (popped ++ stack)) (next rest) = .reduce r)
    (hLength : popped.length = r.rhs.length)
    (hAction :
      r.action (popped.reverse.map Prod.snd) = some v)
    (hInner : r.lhs ≠ .commandTree) :
    Parses (popped ++ stack) rest
      ((yygoto (top stack) r.lhs, v) :: stack) rest :=
  ShiftReduce.reaches_reduce hDecision hLength hAction
    (decide_eq_false hInner)

------------------------------------------------------------
-- Words
------------------------------------------------------------

/- The tokens of the parts of a word. -/
def partKinds : List Terminal := [.word, .envVar]

/- The states in which a word may start. -/
def wordStart : List Nat :=
  [0, 3, 17, 18, 19, 20, 21, 22, 26, 35, 36, 37, 38, 39, 40, 41,
    43, 45, 47, 49, 51, 53]

theorem shift_firstPart :
    ∀ s ∈ wordStart, ∀ expand : Bool,
      yybackup s (some (partTerminal expand)) =
        .shift (4 + expand.toNat) := by
  decide

theorem reduce_firstPart (expand : Bool) (k : Option Terminal) :
    yybackup (4 + expand.toNat) k =
      .reduce (.oneWord expand) := by
  cases expand <;> rfl

theorem shift_nextPart :
    ∀ s ∈ wordStart, ∀ expand : Bool,
      yybackup (yygoto s .word) (some (partTerminal expand)) =
        .shift (24 + expand.toNat) := by
  decide

theorem reduce_nextPart (expand : Bool) (k : Option Terminal) :
    yybackup (24 + expand.toNat) k =
      .reduce (.moreWord expand) := by
  cases expand <;> rfl

section Words

variable {stack : Stack Value}

theorem part_of_lexeme
    {t : Token} {p : Part}
    (hLexeme : t.lexeme = p.lexeme) :
    t.kind = partTerminal p.expand ∧ t.string = p.string := by
  have hKind : t.kind = partTerminal p.expand :=
    congrArg Prod.fst hLexeme
  have hString := congrArg Prod.snd hLexeme
  unfold Token.lexeme Part.lexeme at hString
  rw [hKind, if_pos (partTerminal_cases p.expand)] at hString
  exact ⟨hKind, hString⟩

/- The further parts of a word. -/
theorem parses_nextParts
    (hTop : top stack ∈ wordStart)
    {tokens : List Token} {parts : List Part}
    (hLexemes :
      tokens.map Token.lexeme = parts.map Part.lexeme)
    (x : Word)
    (rest : List Token) :
    Parses
      ((yygoto (top stack) .word, .word x) :: stack)
      (tokens ++ rest)
      ((yygoto (top stack) .word,
        .word { x with nextParts := x.nextParts ++ parts }) ::
          stack)
      rest := by
  induction parts generalizing x tokens with
  | nil =>
      rw [List.map_eq_nil_iff.mp hLexemes, List.append_nil]
      exact Relation.ReflTransGen.refl
  | cons p parts ih =>
      rcases List.map_eq_cons_iff.mp hLexemes with
        ⟨t, tokens, rfl, hFirst, hRest⟩
      rcases part_of_lexeme hFirst with ⟨hKind, hString⟩
      have hDecision := shift_nextPart _ hTop p.expand
      rw [← hKind] at hDecision
      have hShift :=
        parses_shift ((yygoto (top stack) .word, .word x) :: stack)
          hDecision (tokens ++ rest)
      have hReduce :=
        parses_reduce (.moreWord p.expand)
          [(24 + p.expand.toNat, .string t.string),
            (yygoto (top stack) .word, .word x)]
          stack (reduce_nextPart p.expand (next (tokens ++ rest)))
          rfl rfl nofun
      have hMore := ih hRest (addPartToWord ⟨t.string, p.expand⟩ x)
      have hAll := (hShift.trans hReduce).trans hMore
      rw [hString, addPartToWord, List.append_assoc] at hAll
      exact hAll

/- A word, from a state in which it may start. -/
theorem parses_word
    (stack : Stack Value)
    (hTop : top stack ∈ wordStart)
    {tokens : List Token} {x : Word}
    (hLexemes : tokens.map Token.lexeme = x.lexemes)
    (rest : List Token) :
    Parses stack (tokens ++ rest)
      ((yygoto (top stack) .word, .word x) :: stack) rest := by
  rcases List.map_eq_cons_iff.mp hLexemes with
    ⟨t, tokens, rfl, hFirst, hRest⟩
  rcases part_of_lexeme hFirst with ⟨hKind, hString⟩
  have hDecision := shift_firstPart _ hTop x.first.expand
  rw [← hKind] at hDecision
  have hShift := parses_shift stack hDecision (tokens ++ rest)
  have hReduce :=
    parses_reduce (.oneWord x.first.expand)
      [(4 + x.first.expand.toNat, .string t.string)] stack
      (reduce_firstPart x.first.expand (next (tokens ++ rest)))
      rfl rfl nofun
  have hMore :=
    parses_nextParts hTop hRest
      (onePart t.string x.first.expand) rest
  have hAll := (hShift.trans hReduce).trans hMore
  rw [hString] at hAll
  exact hAll

end Words

------------------------------------------------------------
-- Redirections
------------------------------------------------------------

/- The state after a token that is shifted. -/
def shiftState (state : Nat) (k : Terminal) : Nat :=
  match yybackup state (some k) with
  | .shift state' => state'
  | _ => 0

/- The states in which a redirection may come. -/
def redirectStates : List Nat := [23, 33, 42, 55]

/- The states of a redirection, up to its word and after it. -/
def beforeWord (op : RedirectOp) (before : Bool) : Nat :=
  let state := shiftState 23 op.terminal
  if before then shiftState state .blank else state

def behindWord (op : RedirectOp) (before after : Bool) : Nat :=
  let state := yygoto (beforeWord op before) .word
  if after then shiftState state .blank else state

theorem shift_redirectOp (op : RedirectOp) :
    ∀ s ∈ redirectStates,
      yybackup s (some op.terminal) =
        .shift (beforeWord op false) := by
  cases op <;> decide

theorem shift_before (op : RedirectOp) :
    yybackup (beforeWord op false) (some .blank) =
      .shift (beforeWord op true) := by
  cases op <;> decide

theorem beforeWord_mem (op : RedirectOp) :
    ∀ before, beforeWord op before ∈ wordStart := by
  cases op <;> decide

theorem shift_after (op : RedirectOp) :
    ∀ before,
      yybackup (behindWord op before false) (some .blank) =
        .shift (behindWord op before true) := by
  cases op <;> decide

/- The tokens that go on with a redirection. -/
def blankKinds : List Terminal := [.word, .envVar, .blank]

theorem reduce_redirect (op : RedirectOp) (k : Option Terminal)
    (before after : Bool)
    (hAvoids : after = false → Avoids blankKinds k) :
    yybackup (behindWord op before after) k =
      .reduce (.redirect op before after) := by
  have hAll :
      ∀ k ∈ none :: terminals.map some, ∀ before after : Bool,
        (after = false → Avoids blankKinds k) →
          yybackup (behindWord op before after) k =
            .reduce (.redirect op before after) := by
    cases op <;> decide
  exact each_lookahead hAll k before after hAvoids

section Redirections

variable {stack : Stack Value}

/- A blank that may be left out. -/
theorem parses_optional
    (stack : Stack Value) {given : Bool} {state : Nat}
    (hDecision :
      yybackup (top stack) (some .blank) = .shift state)
    {tokens : List Token}
    (hLexemes :
      tokens.map Token.lexeme = optional given (bare .blank))
    (rest : List Token) :
    ∃ v : Value,
      Parses stack (tokens ++ rest)
        (optional given (state, v) ++ stack) rest := by
  cases given with
  | false =>
      rw [List.map_eq_nil_iff.mp hLexemes]
      exact ⟨.string [], Relation.ReflTransGen.refl⟩
  | true =>
      rcases List.map_eq_cons_iff.mp hLexemes with
        ⟨t, tokens, rfl, hFirst, hNone⟩
      rw [List.map_eq_nil_iff.mp hNone]
      have hKind : t.kind = .blank := congrArg Prod.fst hFirst
      rw [← hKind] at hDecision
      exact ⟨.string t.string, parses_shift stack hDecision rest⟩

theorem length_optional {A : Type} (given : Bool) (a : A) :
    (optional given a).length = given.toNat := by
  cases given <;> rfl

/- The reduction behind the word and the blanks around it. -/
theorem reduces_redirection
    {blanks blanks' : Stack Value} {s₁ s₂ s₃ : Nat}
    {v : Value} {op : RedirectOp} {before after : Bool}
    {x : Word} {r r' : Redirect} {rest : List Token}
    (hLength : blanks.length = before.toNat)
    (hLength' : blanks'.length = after.toNat)
    (hTop :
      top (blanks' ++ (s₃, .word x) ::
          (blanks ++ (s₂, v) :: (s₁, .redirect r) :: stack)) =
        behindWord op before after)
    (hRule : redirectRule r (op, x) = some r')
    (hRest : after = false → Avoids blankKinds (next rest)) :
    Parses
      (blanks' ++ (s₃, .word x) ::
        (blanks ++ (s₂, v) :: (s₁, .redirect r) :: stack))
      rest
      ((yygoto (top stack) .redirect, .redirect r') :: stack)
      rest := by
  have hDecision := reduce_redirect op (next rest) before after hRest
  have hShape :
      blanks' ++ (s₃, .word x) ::
          (blanks ++ (s₂, v) :: (s₁, .redirect r) :: stack) =
        (blanks' ++ (s₃, .word x) ::
          (blanks ++ [(s₂, v), (s₁, .redirect r)])) ++ stack := by
    simp only [List.append_assoc, List.cons_append,
      List.nil_append]
  rw [hShape] at hTop ⊢
  rw [← hTop] at hDecision
  have hHeight :
      (blanks' ++ (s₃, .word x) ::
          (blanks ++ [(s₂, v), (s₁, .redirect r)])).length =
        (Rule.redirect op before after).rhs.length := by
    simp only [List.length_append, List.length_cons, hLength,
      hLength', List.length_nil]
    cases before <;> cases after <;> rfl
  have hBefore :
      (blanks.reverse.map Prod.snd).length = before.toNat := by
    rw [List.length_map, List.length_reverse, hLength]
  have hAction :
      (Rule.redirect op before after).action
          ((blanks' ++ (s₃, .word x) ::
            (blanks ++ [(s₂, v), (s₁, .redirect r)])).reverse.map
              Prod.snd) =
        some (.redirect r') := by
    simp only [List.reverse_append, List.reverse_cons,
      List.reverse_nil, List.map_append, List.map_cons,
      List.append_assoc, List.nil_append,
      List.cons_append, Rule.action,
      List.drop_left' hBefore, hRule, Option.map_some]
  have hInner :
      (Rule.redirect op before after).lhs ≠ .commandTree := by
    intro hSame
    cases hSame
  have hAll :=
    parses_reduce (.redirect op before after) _ stack hDecision
      hHeight hAction hInner
  exact hAll

/- One redirection. -/
theorem parses_redirection
    {state : Nat}
    (hState : state ∈ redirectStates)
    (hGoto : yygoto (top stack) .redirect = state)
    {tokens : List Token} {x : RedirectText}
    (hLexemes : tokens.map Token.lexeme = x.lexemes)
    {r r' : Redirect}
    (hRule : redirectRule r x.redirection = some r')
    {rest : List Token}
    (hRest : Avoids blankKinds (next rest)) :
    Parses ((state, .redirect r) :: stack) (tokens ++ rest)
      ((state, .redirect r') :: stack) rest := by
  rcases List.map_eq_cons_iff.mp hLexemes with
    ⟨t, tokens, rfl, hFirst, hBehind⟩
  rcases List.map_eq_append_iff.mp hBehind with
    ⟨before, _, rfl, hBefore, hBehind⟩
  rcases List.map_eq_append_iff.mp hBehind with
    ⟨parts, after, rfl, hParts, hAfter⟩
  -- the operator
  have hKind : t.kind = x.op.terminal :=
    congrArg Prod.fst hFirst
  have hDecision := shift_redirectOp x.op state hState
  rw [← hKind] at hDecision
  have hOp :=
    parses_shift ((state, .redirect r) :: stack) hDecision
      ((before ++ (parts ++ after)) ++ rest)
  rw [List.append_assoc, List.append_assoc] at hOp
  generalize hHead :
      ((beforeWord x.op false, .string t.string) ::
        (state, .redirect r) :: stack : Stack Value) = head at hOp
  have hTopHead : top head = beforeWord x.op false := by
    rw [← hHead]
    rfl
  -- the word with the blanks around it
  have hShift := shift_before x.op
  rw [← hTopHead] at hShift
  rcases parses_optional head hShift hBefore
      (parts ++ (after ++ rest)) with
    ⟨v, hBlank⟩
  have hTop :
      top (optional x.before (beforeWord x.op true, v) ++ head) =
        beforeWord x.op x.before := by
    cases x.before
    · exact hTopHead
    · rfl
  have hMem := beforeWord_mem x.op x.before
  rw [← hTop] at hMem
  have hWord := parses_word _ hMem hParts (after ++ rest)
  rw [hTop] at hWord
  rcases parses_optional
      ((behindWord x.op x.before false, .word x.word) ::
        (optional x.before (beforeWord x.op true, v) ++ head))
      (shift_after x.op x.before) hAfter rest with
    ⟨v', hBlank'⟩
  have hTop' :
      top (optional x.after (behindWord x.op x.before true, v') ++
          (behindWord x.op x.before false, .word x.word) ::
            (optional x.before (beforeWord x.op true, v) ++
              head)) =
        behindWord x.op x.before x.after := by
    cases x.after <;> rfl
  subst hHead
  have hReduce :=
    reduces_redirection (length_optional _ _)
      (length_optional _ _) hTop' hRule (fun _ => hRest)
  rw [hGoto] at hReduce
  have hBoth := hWord.trans (hBlank'.trans hReduce)
  rw [List.cons_append, List.append_assoc, List.append_assoc]
  exact hOp.trans (hBlank.trans hBoth)

end Redirections


------------------------------------------------------------
-- Simple Commands
------------------------------------------------------------

/- The states in which a command may start. -/
def commandStart : List Nat := [0, 17, 18, 19, 20, 21]

/- The tokens that go on with a simple command. -/
def simpleKinds : List Terminal :=
  [.word, .envVar, .blank, .redirectOE, .redirectO, .redirectE,
    .indirect, .redirectAppendE, .redirectAppendO]

theorem commandStart_gotos :
    ∀ s ∈ commandStart, s ∈ wordStart ∧
      yygoto s .word = 10 ∧ yygoto s .exeName = 9 ∧
        yygoto s .simpleCommand = 8 ∧
          ∃ s' ∈ [3, 26],
            yybackup s (some .blank) = .shift s' := by
  decide

theorem blank_gotos :
    ∀ s ∈ [3, 26], s ∈ wordStart ∧ yygoto s .word = 13 := by
  decide

/- The reductions of a simple command. -/
theorem reduce_exeName
    {k : Option Terminal}
    (hAvoids : Avoids partKinds k) :
    yybackup 10 k = .reduce .exeWord ∧
      yybackup 13 k = .reduce .exeBlankWord := by
  have hAll :
      ∀ k ∈ none :: terminals.map some, Avoids partKinds k →
        yybackup 10 k = .reduce .exeWord ∧
          yybackup 13 k = .reduce .exeBlankWord := by
    decide
  exact each_lookahead hAll k hAvoids

theorem reduce_params
    {k : Option Terminal}
    (hAvoids : Avoids partKinds k) :
    yybackup 34 k = .reduce .oneParam ∧
      yybackup 56 k = .reduce .moreParams := by
  have hAll :
      ∀ k ∈ none :: terminals.map some, Avoids partKinds k →
        yybackup 34 k = .reduce .oneParam ∧
          yybackup 56 k = .reduce .moreParams := by
    decide
  exact each_lookahead hAll k hAvoids

/-
  The states before the redirections, by whether there are
  parameters and a blank behind them.
-/
def gapState (params gap : Bool) : Nat :=
  if params then
    if gap then 41 else 32
  else
    if gap then 22 else 9

theorem reduce_noRedirect
    {k : Option Terminal}
    (params gap : Bool)
    (hAvoids :
      Avoids (if gap then partKinds else [.blank]) k) :
    yybackup (gapState params gap) k = .reduce .noRedirect := by
  have hAll :
      ∀ k ∈ none :: terminals.map some, ∀ params gap : Bool,
        Avoids (if gap then partKinds else [.blank]) k →
          yybackup (gapState params gap) k =
            .reduce .noRedirect := by
    decide
  exact each_lookahead hAll k params gap hAvoids

/- The rule for a simple command. -/
def simpleRule (params gap : Bool) : Rule :=
  if params then
    if gap then .paramsBlankRedirect else .paramsRedirect
  else
    if gap then .blankRedirect else .onlyRedirect

theorem reduce_simple
    {k : Option Terminal}
    (params gap : Bool)
    (hAvoids : Avoids simpleKinds k) :
    yybackup (yygoto (gapState params gap) .redirect) k =
      .reduce (simpleRule params gap) := by
  have hAll :
      ∀ k ∈ none :: terminals.map some, ∀ params gap : Bool,
        Avoids simpleKinds k →
          yybackup (yygoto (gapState params gap) .redirect) k =
            .reduce (simpleRule params gap) := by
    decide
  exact each_lookahead hAll k params gap hAvoids

theorem gapState_mem :
    ∀ params gap : Bool,
      yygoto (gapState params gap) .redirect ∈
        redirectStates := by
  decide

/- What the lists of a simple command start with. -/
theorem paramLexemes_head (params : List Word) :
    ∀ l ∈ (SimpleText.paramLexemes params).head?,
      l.1 ∉ partKinds := by
  cases params with
  | nil => nofun
  | cons x params =>
      rintro l ⟨⟩
      decide

theorem redirectLexemes_head (reds : List RedirectText) :
    ∀ l ∈ (reds.flatMap RedirectText.lexemes).head?,
      l.1 ∉ blankKinds := by
  cases reds with
  | nil => nofun
  | cons x reds =>
      rintro l ⟨⟩
      change x.op.terminal ∉ blankKinds
      cases x.op <;> decide

section Simple

variable {stack : Stack Value}

/- The name of a command and the blank before it. -/
theorem parses_verb
    (hTop : top stack ∈ commandStart)
    {lead : Bool} {verb : Word} {blanks parts rest : List Token}
    (hBlanks :
      blanks.map Token.lexeme = optional lead (bare .blank))
    (hParts : parts.map Token.lexeme = verb.lexemes)
    (hRest : Avoids partKinds (next rest)) :
    Parses stack (blanks ++ (parts ++ rest))
      ((9, .word verb) :: stack) rest := by
  rcases commandStart_gotos _ hTop with
    ⟨hStart, hWordGoto, hGoto, _, s', hBlankState, hShift⟩
  rcases reduce_exeName hRest with ⟨hPlain, hBlank⟩
  cases lead with
  | false =>
      rw [List.map_eq_nil_iff.mp hBlanks]
      have hWord := parses_word stack hStart hParts rest
      rw [hWordGoto] at hWord
      have hReduce :
          Parses ([(10, .word verb)] ++ stack) rest
            ((yygoto (top stack) .exeName, .word verb) :: stack)
            rest :=
        parses_reduce .exeWord [(10, .word verb)] stack hPlain
          rfl rfl nofun
      rw [hGoto] at hReduce
      exact hWord.trans hReduce
  | true =>
      rcases List.map_eq_cons_iff.mp hBlanks with
        ⟨b, _, rfl, hFirst, hNone⟩
      rw [List.map_eq_nil_iff.mp hNone]
      have hKind : b.kind = .blank := congrArg Prod.fst hFirst
      rw [← hKind] at hShift
      have hOpen := parses_shift stack hShift (parts ++ rest)
      rcases blank_gotos s' hBlankState with ⟨hStart', hGoto'⟩
      have hWord :=
        parses_word ((s', .string b.string) :: stack) hStart'
          hParts rest
      rw [top_cons, hGoto'] at hWord
      have hReduce :
          Parses
            ([(13, .word verb), (s', .string b.string)] ++ stack)
            rest
            ((yygoto (top stack) .exeName, .word verb) :: stack)
            rest :=
        parses_reduce .exeBlankWord
          [(13, .word verb), (s', .string b.string)] stack hBlank
          rfl rfl nofun
      rw [hGoto] at hReduce
      exact hOpen.trans (hWord.trans hReduce)

/- A blank and a parameter, after the first one. -/
theorem parses_nextParam
    (stack : Stack Value) (ws : List Word) (v : Value)
    {x : Word} {b : Token} {parts rest : List Token}
    (hBlank : b.kind = .blank)
    (hParts : parts.map Token.lexeme = x.lexemes)
    (hRest : Avoids partKinds (next rest)) :
    Parses ((32, .params ws) :: (22, v) :: stack)
      (b :: (parts ++ rest))
      ((32, .params (ws ++ [x])) :: (22, v) :: stack) rest := by
  have hShift : yybackup 32 (some .blank) = .shift 41 := rfl
  rw [← hBlank] at hShift
  have hOpen :=
    parses_shift ((32, .params ws) :: (22, v) :: stack) hShift
      (parts ++ rest)
  have hWord :=
    parses_word
      ((41, .string b.string) :: (32, .params ws) ::
        (22, v) :: stack)
      (show 41 ∈ wordStart by decide) hParts rest
  have hReduce :=
    parses_reduce .moreParams
      [(56, .word x), (41, .string b.string), (32, .params ws)]
      ((22, v) :: stack) (reduce_params hRest).2 rfl rfl nofun
  exact hOpen.trans (hWord.trans hReduce)

theorem parses_nextParams
    (stack : Stack Value) (ws : List Word) (v : Value)
    {params : List Word} {tokens rest : List Token}
    (hLexemes :
      tokens.map Token.lexeme = SimpleText.paramLexemes params)
    (hRest : Avoids partKinds (next rest)) :
    Parses ((32, .params ws) :: (22, v) :: stack)
      (tokens ++ rest)
      ((32, .params (ws ++ params)) :: (22, v) :: stack)
      rest := by
  induction params generalizing ws tokens with
  | nil =>
      rw [List.map_eq_nil_iff.mp hLexemes, List.append_nil]
      exact Relation.ReflTransGen.refl
  | cons x params ih =>
      rcases List.map_eq_append_iff.mp hLexemes with
        ⟨first, tokens, rfl, hFirst, hMore⟩
      rcases List.map_eq_cons_iff.mp hFirst with
        ⟨b, parts, rfl, hBlank, hParts⟩
      have hKind : b.kind = .blank := congrArg Prod.fst hBlank
      have hNext : Avoids partKinds (next (tokens ++ rest)) := by
        exact avoids_of_lexemes hMore (paramLexemes_head params)
          hRest
      have hParam :=
        parses_nextParam stack ws v hKind hParts hNext
      have hAll := hParam.trans (ih (ws ++ [x]) hMore)
      rw [List.append_assoc] at hAll
      rw [List.append_assoc]
      exact hAll

/-
  The entries of the stack before the redirections give the
  simple command when the redirections are there.
-/
def Opens
    (verb : Word) (params : List Word) (gap : Bool)
    (entries : Stack Value) : Prop :=
  let rule := simpleRule (!params.isEmpty) gap
  entries.length + 1 = rule.rhs.length ∧
    top entries = gapState (!params.isEmpty) gap ∧
      ∀ r : Redirect,
        rule.action
            (entries.reverse.map Prod.snd ++ [.redirect r]) =
          some (.simpleCommand (bindParts verb params r))

theorem top_append
    {entries : Stack Value}
    (hSome : entries ≠ [])
    (stack : Stack Value) :
    top (entries ++ stack) = top entries := by
  cases entries with
  | nil => exact absurd rfl hSome
  | cons x entries => rfl

theorem Opens.ne_nil
    {verb : Word} {params : List Word} {gap : Bool}
    {entries : Stack Value}
    (hOpens : Opens verb params gap entries) :
    entries ≠ [] := by
  rintro rfl
  have hLength := hOpens.1
  cases params <;> cases gap <;> cases hLength

/- The parameters of a command and the blank behind them. -/
theorem parses_params
    (stack : Stack Value) (verb : Word)
    {params : List Word} {gap : Bool}
    {tokens blanks rest : List Token}
    (hLexemes :
      tokens.map Token.lexeme = SimpleText.paramLexemes params)
    (hBlanks :
      blanks.map Token.lexeme = optional gap (bare .blank))
    (hRest : Avoids blankKinds (next rest)) :
    ∃ entries : Stack Value, Opens verb params gap entries ∧
      Parses ((9, .word verb) :: stack)
        (tokens ++ (blanks ++ rest)) (entries ++ stack) rest := by
  cases params with
  | nil =>
      rw [List.map_eq_nil_iff.mp hLexemes, List.nil_append]
      rcases parses_optional ((9, .word verb) :: stack)
          (show yybackup 9 (some .blank) = .shift 22 from rfl)
          hBlanks rest with
        ⟨v, hGap⟩
      refine ⟨optional gap (22, v) ++ [(9, .word verb)], ?_, ?_⟩
      · cases gap <;> exact ⟨rfl, rfl, fun r => rfl⟩
      · rw [List.append_assoc]
        exact hGap
  | cons x params =>
      rcases List.map_eq_append_iff.mp hLexemes with
        ⟨first, tokens, rfl, hFirst, hMore⟩
      rcases List.map_eq_cons_iff.mp hFirst with
        ⟨b, parts, rfl, hBlank, hParts⟩
      have hKind : b.kind = .blank := congrArg Prod.fst hBlank
      have hBehind : Avoids partKinds (next (blanks ++ rest)) := by
        refine avoids_of_lexemes hBlanks ?_
          (hRest.mono (by decide))
        cases gap with
        | false => nofun
        | true =>
            rintro l ⟨⟩
            decide
      have hNext :
          Avoids partKinds (next (tokens ++ (blanks ++ rest))) :=
        avoids_of_lexemes hMore (paramLexemes_head params) hBehind
      -- the first parameter
      have hShift : yybackup 9 (some .blank) = .shift 22 := rfl
      rw [← hKind] at hShift
      have hOpen :=
        parses_shift ((9, .word verb) :: stack) hShift
          (parts ++ (tokens ++ (blanks ++ rest)))
      have hWord :=
        parses_word
          ((22, .string b.string) :: (9, .word verb) :: stack)
          (show 22 ∈ wordStart by decide) hParts
          (tokens ++ (blanks ++ rest))
      have hReduce :=
        parses_reduce .oneParam [(34, .word x)]
          ((22, .string b.string) :: (9, .word verb) :: stack)
          (reduce_params hNext).1 rfl rfl nofun
      -- the other ones and the blank behind them
      have hParams :=
        parses_nextParams ((9, .word verb) :: stack) [x]
          (.string b.string) hMore hBehind
      rcases parses_optional
          ((32, .params ([x] ++ params)) ::
            (22, .string b.string) :: (9, .word verb) :: stack)
          (show yybackup 32 (some .blank) = .shift 41 from rfl)
          hBlanks rest with
        ⟨v, hGap⟩
      refine
        ⟨optional gap (41, v) ++
          [(32, .params (x :: params)), (22, .string b.string),
            (9, .word verb)], ?_, ?_⟩
      · cases gap <;> exact ⟨rfl, rfl, fun r => rfl⟩
      · have hAll :=
          (hOpen.trans (hWord.trans hReduce)).trans
            (hParams.trans hGap)
        simp only [List.append_assoc, List.cons_append,
          List.nil_append] at hAll ⊢
        exact hAll

/- The redirections of a command. -/
theorem parses_redirections
    {stack : Stack Value} {state : Nat}
    (hState : state ∈ redirectStates)
    (hGoto : yygoto (top stack) .redirect = state)
    {reds : List RedirectText} {tokens rest : List Token}
    (hLexemes :
      tokens.map Token.lexeme =
        reds.flatMap RedirectText.lexemes)
    {r r' : Redirect}
    (hRules :
      (reds.map RedirectText.redirection).foldlM redirectRule r =
        some r')
    (hRest : Avoids blankKinds (next rest)) :
    Parses ((state, .redirect r) :: stack) (tokens ++ rest)
      ((state, .redirect r') :: stack) rest := by
  induction reds generalizing tokens r with
  | nil =>
      rw [List.map_eq_nil_iff.mp hLexemes, List.nil_append]
      cases hRules
      exact Relation.ReflTransGen.refl
  | cons x reds ih =>
      rcases List.map_eq_append_iff.mp hLexemes with
        ⟨first, tokens, rfl, hFirst, hMore⟩
      rcases Option.bind_eq_some_iff.mp hRules with
        ⟨r₁, hRule, hRules⟩
      have hNext : Avoids blankKinds (next (tokens ++ rest)) :=
        avoids_of_lexemes hMore (redirectLexemes_head reds) hRest
      have hOne :=
        parses_redirection hState hGoto hFirst hRule hNext
      rw [List.append_assoc]
      exact hOne.trans (ih hMore hRules)

theorem simpleRule_lhs (params gap : Bool) :
    (simpleRule params gap).lhs = .simpleCommand := by
  cases params <;> cases gap <;> rfl

/- A whole simple command. -/
theorem parses_simple
    (hTop : top stack ∈ commandStart)
    {tokens : List Token} {s : SimpleText}
    (hLexemes : tokens.map Token.lexeme = s.lexemes)
    {rest : List Token}
    (hRest : Avoids simpleKinds (next rest)) :
    Parses stack (tokens ++ rest)
      ((yygoto (top stack) .command,
        .command (.simple s.command)) :: stack) rest := by
  rcases List.map_eq_append_iff.mp hLexemes with
    ⟨blanks, _, rfl, hBlanks, hLexemes⟩
  rcases List.map_eq_append_iff.mp hLexemes with
    ⟨verb, _, rfl, hVerb, hLexemes⟩
  rcases List.map_eq_append_iff.mp hLexemes with
    ⟨params, _, rfl, hParams, hLexemes⟩
  rcases List.map_eq_append_iff.mp hLexemes with
    ⟨gap, reds, rfl, hGap, hReds⟩
  -- the lookahead at each place
  have hAtReds : Avoids blankKinds (next (reds ++ rest)) :=
    avoids_of_lexemes hReds (redirectLexemes_head s.reds)
      (hRest.mono (by decide))
  have hAtGap :
      Avoids partKinds (next (gap ++ (reds ++ rest))) := by
    refine avoids_of_lexemes hGap ?_
      (hAtReds.mono (by decide))
    cases s.gap with
    | false => nofun
    | true =>
        rintro l ⟨⟩
        decide
  have hAtParams :
      Avoids partKinds
        (next (params ++ (gap ++ (reds ++ rest)))) :=
    avoids_of_lexemes hParams (paramLexemes_head s.params) hAtGap
  -- the name and the parameters
  have hName := parses_verb hTop hBlanks hVerb hAtParams
  rcases parses_params stack s.verb hParams hGap hAtReds with
    ⟨entries, hOpens, hOpen⟩
  have hSome := hOpens.ne_nil
  rcases hOpens with ⟨hLength, hState, hAction⟩
  rw [← top_append hSome stack] at hState
  -- the redirections
  have hNone :
      yybackup (top (entries ++ stack)) (next (reds ++ rest)) =
        .reduce .noRedirect := by
    rw [hState]
    refine reduce_noRedirect _ _ (hAtReds.mono ?_)
    cases s.gap <;> decide
  have hEmpty :=
    parses_reduce .noRedirect [] (entries ++ stack) hNone rfl rfl
      nofun
  have hMem := gapState_mem (!s.params.isEmpty) s.gap
  rw [← hState] at hMem
  have hRules :
      (s.reds.map RedirectText.redirection).foldlM redirectRule
        emptyRedirect = some s.redirect :=
    (Option.some_get s.legal).symm
  have hRedirect :=
    parses_redirections hMem rfl hReds hRules
      (hRest.mono (by decide))
  -- the reductions to a command
  have hDecision := reduce_simple (!s.params.isEmpty) s.gap hRest
  rw [← hState] at hDecision
  have hPopped :
      ((yygoto (top (entries ++ stack)) .redirect,
        .redirect s.redirect) :: entries).length =
      (simpleRule (!s.params.isEmpty) s.gap).rhs.length :=
    hLength
  have hInner :
      (simpleRule (!s.params.isEmpty) s.gap).lhs ≠
        .commandTree := by
    rw [simpleRule_lhs]
    decide
  have hSimple :=
    parses_reduce (simpleRule (!s.params.isEmpty) s.gap)
      ((yygoto (top (entries ++ stack)) .redirect,
        .redirect s.redirect) :: entries)
      stack hDecision hPopped
      (by
        rw [List.reverse_cons, List.map_append]
        exact hAction s.redirect)
      hInner
  have hGoto := (commandStart_gotos _ hTop).2.2.2.1
  rw [simpleRule_lhs, hGoto] at hSimple
  have hCommand :=
    parses_reduce .newCommand
      [(8, .simpleCommand s.command)] stack
      (show yybackup 8 (next rest) = .reduce .newCommand from rfl)
      rfl rfl nofun
  have hAll :=
    (hName.trans (hOpen.trans hEmpty)).trans
      (hRedirect.trans (hSimple.trans hCommand))
  simp only [List.append_assoc] at hAll ⊢
  exact hAll

end Simple


------------------------------------------------------------
-- Operators
------------------------------------------------------------

/- The state after an operator between commands. -/
def operatorState (op : Operator) : Nat :=
  shiftState 7 op.terminal

/- The end of the parser, with and without a final newline. -/
def endState (eol : Bool) : Nat :=
  shiftState 7 (endTerminal eol)

theorem operatorState_mem (op : Operator) :
    operatorState op ∈ commandStart := by
  cases op <;> decide

theorem shift_operator (op : Operator) :
    yybackup 7 (some op.terminal) =
      .shift (operatorState op) := by
  cases op <;> decide

/-
  With an operator on the stack, the next one is shifted when
  its priority is higher.
-/
theorem operator_decision (op op' : Operator) :
    yybackup (yygoto (operatorState op) .command)
        (some op'.terminal) =
      if op'.level ≤ op.level then
        .reduce (.bindCommands op)
      else
        .shift (operatorState op') := by
  cases op <;> cases op' <;> decide

theorem end_decision (op : Operator) :
    ∀ eol,
      yybackup (yygoto (operatorState op) .command)
          (some (endTerminal eol)) =
        .reduce (.bindCommands op) := by
  cases op <;> decide

abbrev CommandTree := OperatorTree Operator SimpleCommand

/- The operators on the stack that wait, the topmost first. -/
def Waits :
    List (CommandTree × Operator) → Stack Value → Prop
| [], stack => stack = []
| (left, op) :: waiting, stack =>
    ∃ v below, stack =
        (operatorState op, v) ::
          (yygoto (top below) .command,
            .command (Command.ofTree left)) :: below ∧
      Waits waiting below

/- A command on top of the operators that wait. -/
def onTop (tree : CommandTree) (stack : Stack Value) :
    Stack Value :=
  (yygoto (top stack) .command,
    .command (Command.ofTree tree)) :: stack

theorem Waits.commandStart
    {waiting : List (CommandTree × Operator)}
    {stack : Stack Value}
    (hWaits : Waits waiting stack) :
    top stack ∈ commandStart := by
  cases waiting with
  | nil =>
      cases hWaits
      decide
  | cons x waiting =>
      rcases hWaits with ⟨v, below, rfl, _⟩
      exact operatorState_mem x.2

/- The reduction of the topmost operator. -/
theorem parses_bind
    (left tree : CommandTree) (op : Operator) (v : Value)
    (below : Stack Value) (rest : List Token)
    (hDecision :
      yybackup (yygoto (operatorState op) .command) (next rest) =
        .reduce (.bindCommands op)) :
    Parses
      (onTop tree ((operatorState op, v) :: onTop left below))
      rest (onTop (.node op left tree) below) rest := by
  have hAll :=
    parses_reduce (.bindCommands op)
      [(yygoto (operatorState op) .command,
          .command (Command.ofTree tree)),
        (operatorState op, v),
        (yygoto (top below) .command,
          .command (Command.ofTree left))]
      below hDecision rfl rfl nofun
  exact hAll

/- The reductions before an operator is shifted. -/
theorem parses_settle
    {a : Token} {op : Operator}
    (hKind : a.kind = op.terminal)
    {waiting : List (CommandTree × Operator)}
    {stack : Stack Value}
    (hWaits : Waits waiting stack)
    (tree : CommandTree)
    (rest : List Token) :
    ∃ v stack',
      Waits
        (((OperatorTree.settle Operator.level op tree waiting).1,
            op) ::
          (OperatorTree.settle Operator.level op tree waiting).2)
        ((operatorState op, v) :: stack') ∧
      Parses (onTop tree stack) (a :: rest)
        ((operatorState op, v) :: stack') rest := by
  induction waiting generalizing tree stack with
  | nil =>
      cases hWaits
      have hShift := shift_operator op
      rw [← hKind] at hShift
      have hParses := parses_shift (onTop tree []) hShift rest
      exact ⟨.string a.string, onTop tree [],
        ⟨_, [], rfl, rfl⟩, hParses⟩
  | cons x waiting ih =>
      rcases x with ⟨left, op'⟩
      have hBefore := hWaits
      rcases hWaits with ⟨v, below, rfl, hBelow⟩
      have hDecision := operator_decision op' op
      rw [← hKind] at hDecision
      unfold OperatorTree.settle
      split
      · rename_i hTight
        rw [if_pos hTight] at hDecision
        have hBind :=
          parses_bind left tree op' v below (a :: rest) hDecision
        rcases ih hBelow (.node op' left tree) with
          ⟨v', stack', hWaits', hParses⟩
        exact ⟨v', stack', hWaits', hBind.trans hParses⟩
      · rename_i hLooser
        rw [if_neg hLooser] at hDecision
        have hParses :=
          parses_shift
            (onTop tree ((operatorState op', v) ::
              onTop left below))
            hDecision rest
        exact ⟨.string a.string, _, ⟨_, _, rfl, hBefore⟩,
          hParses⟩

theorem itemLexemes_head (items : List (Operator × SimpleText)) :
    ∀ l ∈ (items.flatMap itemLexemes).head?,
      l.1 ∉ simpleKinds := by
  cases items with
  | nil => nofun
  | cons x items =>
      rintro l ⟨⟩
      change x.1.terminal ∉ simpleKinds
      cases x.1 <;> decide

/- Further commands with the operators before them. -/
theorem parses_items
    {items : List (Operator × SimpleText)} {tokens rest : List Token}
    (hLexemes :
      tokens.map Token.lexeme = items.flatMap itemLexemes)
    (hRest : Avoids simpleKinds (next rest))
    {waiting : List (CommandTree × Operator)}
    {stack : Stack Value}
    (hWaits : Waits waiting stack)
    (hRising : OperatorTree.Rising Operator.level waiting)
    (a : SimpleCommand) :
    ∃ waiting' stack' b,
      Waits waiting' stack' ∧
      OperatorTree.close (.leaf b) waiting' =
        OperatorTree.extend Operator.level
          (OperatorTree.close (.leaf a) waiting)
          (items.map fun x => (x.1, x.2.command)) ∧
      Parses (onTop (.leaf a) stack) (tokens ++ rest)
        (onTop (.leaf b) stack') rest := by
  induction items generalizing tokens waiting stack a with
  | nil =>
      rw [List.map_eq_nil_iff.mp hLexemes]
      exact ⟨waiting, stack, a, hWaits, rfl,
        Relation.ReflTransGen.refl⟩
  | cons x items ih =>
      rcases x with ⟨op, s⟩
      rcases List.map_eq_append_iff.mp hLexemes with
        ⟨_, tokens, rfl, hFirst, hMore⟩
      rcases List.map_eq_cons_iff.mp hFirst with
        ⟨t, simple, rfl, hOp, hSimple⟩
      have hKind : t.kind = op.terminal := congrArg Prod.fst hOp
      rcases parses_settle hKind hWaits (.leaf a)
          (simple ++ (tokens ++ rest)) with
        ⟨v, stack₁, hWaits₁, hSettle⟩
      have hNext : Avoids simpleKinds (next (tokens ++ rest)) :=
        avoids_of_lexemes hMore (itemLexemes_head items) hRest
      have hCommand :=
        parses_simple hWaits₁.commandStart hSimple hNext
      have hRising₁ :=
        OperatorTree.rising_cons_settle hRising op (.leaf a)
          (OperatorTree.settle Operator.level op (.leaf a) waiting).1
      rcases ih hMore hWaits₁ hRising₁ s.command with
        ⟨waiting', stack', b, hWaits', hTree, hParses⟩
      refine ⟨waiting', stack', b, hWaits', ?_, ?_⟩
      · have hRoot :
            OperatorTree.AtLeast Operator.level op.level
              (.leaf a : CommandTree) :=
          trivial
        rw [hTree,
          ← OperatorTree.insert_close s.command hRising hRoot]
        rfl
      · have hAll := hSettle.trans (hCommand.trans hParses)
        rw [List.append_assoc]
        exact hAll

/- The reductions at the end of the line. -/
theorem parses_close
    {a : Token} {eol : Bool}
    (hKind : a.kind = endTerminal eol)
    {waiting : List (CommandTree × Operator)}
    {stack : Stack Value}
    (hWaits : Waits waiting stack)
    (tree : CommandTree)
    (rest : List Token) :
    Parses (onTop tree stack) (a :: rest)
      (onTop (OperatorTree.close tree waiting) [])
      (a :: rest) := by
  induction waiting generalizing tree stack with
  | nil =>
      cases hWaits
      exact Relation.ReflTransGen.refl
  | cons x waiting ih =>
      rcases x with ⟨left, op⟩
      rcases hWaits with ⟨v, below, rfl, hBelow⟩
      have hDecision := end_decision op eol
      rw [← hKind] at hDecision
      have hBind :=
        parses_bind left tree op v below (a :: rest) hDecision
      exact hBind.trans (ih hBelow (.node op left tree))

------------------------------------------------------------
-- Whole Lines
------------------------------------------------------------

/- The end of a line after its tree. -/
theorem step_end
    {a : Token} {eol : Bool}
    (hKind : a.kind = endTerminal eol)
    (c : Command SimpleCommand)
    (rest : List Token) :
    ∃ stack,
      Parses [(7, .command c)] (a :: rest) stack rest ∧
        ShiftReduce.step grammar parserTables ⟨stack, rest⟩ =
          .inr (.accepted (.commandRoot (some c))) := by
  have hShift :
      yybackup 7 (some (endTerminal eol)) =
        .shift (endState eol) := by
    cases eol <;> rfl
  rw [← hKind] at hShift
  refine ⟨_, parses_shift [(7, .command c)] hShift rest, ?_⟩
  cases eol <;> rfl

/- A line without commands. -/
theorem yyparse_empty
    {lead eol : Bool} {w : List Token}
    (hLexemes :
      w.map Token.lexeme = (LineText.empty lead eol).lexemes)
    (rest : List Token) :
    yyparse (w ++ rest) =
      some (.accepted (.commandRoot none)) := by
  rcases List.map_eq_append_iff.mp hLexemes with
    ⟨blanks, ends, rfl, hBlanks, hEnds⟩
  rcases List.map_eq_cons_iff.mp hEnds with
    ⟨a, _, rfl, hEnd, hNone⟩
  rw [List.map_eq_nil_iff.mp hNone, List.append_assoc]
  have hKind : a.kind = endTerminal eol :=
    congrArg Prod.fst hEnd
  rcases parses_optional []
      (show yybackup 0 (some .blank) = .shift 3 from rfl)
      hBlanks ([a] ++ rest) with
    ⟨v, hLead⟩
  have hShift :
      ∃ state,
        yybackup (top (optional lead (3, v) ++ []))
            (some (endTerminal eol)) = .shift state ∧
        ShiftReduce.step grammar parserTables
            ⟨(state, .string a.string) ::
              (optional lead (3, v) ++ []), rest⟩ =
          .inr (.accepted (.commandRoot none)) := by
    cases lead <;> cases eol <;> exact ⟨_, rfl, rfl⟩
  rcases hShift with ⟨state, hDecision, hStep⟩
  rw [← hKind] at hDecision
  have hShifted :=
    parses_shift (optional lead (3, v) ++ []) hDecision rest
  exact yyparse_of_reaches (hLead.trans hShifted) hStep

/- A line with its commands. -/
theorem yyparse_commands
    {first : SimpleText} {items : List (Operator × SimpleText)}
    {eol : Bool} {w : List Token}
    (hLexemes :
      w.map Token.lexeme =
        (LineText.commands first items eol).lexemes)
    (rest : List Token) :
    yyparse (w ++ rest) =
      some
        (.accepted
          (.commandRoot
            (LineText.commands first items eol).root)) := by
  rcases List.map_eq_append_iff.mp hLexemes with
    ⟨simple, _, rfl, hSimple, hLexemes⟩
  rcases List.map_eq_append_iff.mp hLexemes with
    ⟨more, ends, rfl, hMore, hEnds⟩
  rcases List.map_eq_cons_iff.mp hEnds with
    ⟨a, _, rfl, hEnd, hNone⟩
  rw [List.map_eq_nil_iff.mp hNone, List.append_assoc,
    List.append_assoc]
  have hKind : a.kind = endTerminal eol :=
    congrArg Prod.fst hEnd
  have hAtEnd : Avoids simpleKinds (next ([a] ++ rest)) := by
    rintro k ⟨⟩
    rw [hKind]
    cases eol <;> decide
  have hAtItems :
      Avoids simpleKinds (next (more ++ ([a] ++ rest))) :=
    avoids_of_lexemes hMore (itemLexemes_head items) hAtEnd
  have hStart : top ([] : Stack Value) ∈ commandStart := by
    decide
  have hFirst := parses_simple hStart hSimple hAtItems
  have hEmpty : Waits [] [] := rfl
  rcases parses_items hMore hAtEnd hEmpty .nil
      first.command with
    ⟨waiting, stack, b, hWaits, hTree, hItems⟩
  have hClose := parses_close hKind hWaits (.leaf b) rest
  rw [hTree] at hClose
  rcases step_end hKind
      (Command.ofTree
        (OperatorTree.assemble Operator.level first.command
          (items.map fun x => (x.1, x.2.command)))) rest with
    ⟨stack', hParses, hStep⟩
  exact yyparse_of_reaches
    (hFirst.trans (hItems.trans (hClose.trans hParses))) hStep

theorem yyparse_line
    {line : LineText} {w : List Token}
    (hLexemes : w.map Token.lexeme = line.lexemes)
    (rest : List Token) :
    yyparse (w ++ rest) =
      some (.accepted (.commandRoot line.root)) := by
  cases line with
  | empty lead eol => exact yyparse_empty hLexemes rest
  | commands first items eol =>
      exact yyparse_commands hLexemes rest

/-
  The parser accepts just the lines of the grammar, and makes
  of them the tree of their priorities.
-/
theorem yyparse_accepted_iff
    {tokens : List Token} {v : Value} :
    yyparse tokens = some (.accepted v) ↔
      ∃ (line : LineText) (w rest : List Token),
        tokens = w ++ rest ∧
          w.map Token.lexeme = line.lexemes ∧
            v = .commandRoot line.root := by
  constructor
  · intro hAccepted
    rcases ShiftReduce.derives_of_run parser_checked hAccepted with
      ⟨w, rest, rfl, hDerives⟩
    rcases lineText_of_derives hDerives with
      ⟨line, _, _, hLexemes⟩
    have hLine := yyparse_line hLexemes rest
    rw [hAccepted] at hLine
    cases hLine
    exact ⟨line, w, rest, rfl, hLexemes, rfl⟩
  · rintro ⟨line, w, rest, rfl, hLexemes, rfl⟩
    exact yyparse_line hLexemes rest

/-
  The parser accepts just when the grammar derives the tokens up
  to some place from its start symbol, in whatever way.
-/
theorem yyparse_accepts_iff (tokens : List Token) :
    (∃ v, yyparse tokens = some (.accepted v)) ↔
      ∃ w rest v, tokens = w ++ rest ∧
        ShiftReduce.Derives grammar [.inr .commandTree] w [v] := by
  constructor
  · rintro ⟨v, hAccepted⟩
    rcases ShiftReduce.derives_of_run parser_checked hAccepted with
      ⟨w, rest, hSplit, hDerives⟩
    exact ⟨w, rest, v, hSplit, hDerives⟩
  · rintro ⟨w, rest, v, rfl, hDerives⟩
    rcases lineText_of_derives hDerives with
      ⟨line, _, _, hLexemes⟩
    exact ⟨_, yyparse_line hLexemes rest⟩

end Shell

end ProgrammingTasks
