import ProgrammingTasks.Foundations.OperatorTrees
import ProgrammingTasks.Shell.Grammar

/-
  The lines that the grammar describes.

  A line is empty or a list of simple commands with operators
  between them, with the blanks that the grammar allows.  The
  operators make it a tree by their priorities.

  Main declarations:
    * `Token.lexeme`
    * `RedirectText`, `SimpleText`, `LineText`
    * `Operator.level`, `Command.tree`, `LineText.root`
    * `lineText_of_derives`
-/

------------------------------------------------------------
-- Lexemes
------------------------------------------------------------

namespace ProgrammingTasks

namespace Shell

abbrev Lexeme := Terminal × Text

/- The kind of a token, with the string where it is used. -/
def Token.lexeme (t : Token) : Lexeme :=
  (t.kind,
    if t.kind = .word ∨ t.kind = .envVar then t.string else [])

/- A token without a string. -/
def bare (k : Terminal) : Lexeme := (k, [])

def Part.lexeme (p : Part) : Lexeme :=
  (partTerminal p.expand, p.string)

def Word.lexemes (w : Word) : List Lexeme :=
  (w.first :: w.nextParts).map Part.lexeme

------------------------------------------------------------
-- Lines
------------------------------------------------------------

/- A redirection and the blanks around its word. -/
structure RedirectText where
  op : RedirectOp
  before : Bool
  word : Word
  after : Bool

def RedirectText.lexemes (r : RedirectText) : List Lexeme :=
  bare r.op.terminal ::
    (optional r.before (bare .blank) ++
      (r.word.lexemes ++ optional r.after (bare .blank)))

def RedirectText.redirection (r : RedirectText) : Redirection :=
  (r.op, r.word)

/-
  A simple command: a blank before its name, its parameters, a
  blank behind them, and redirections that the rules allow.
-/
structure SimpleText where
  lead : Bool
  verb : Word
  params : List Word
  gap : Bool
  reds : List RedirectText
  legal :
    (redirectRules
      (reds.map RedirectText.redirection)).isSome = true

namespace SimpleText

/- The parameters with the blanks before them. -/
def paramLexemes (params : List Word) : List Lexeme :=
  params.flatMap fun w => bare .blank :: w.lexemes

def lexemes (s : SimpleText) : List Lexeme :=
  optional s.lead (bare .blank) ++ (s.verb.lexemes ++
    (paramLexemes s.params ++ (optional s.gap (bare .blank) ++
      s.reds.flatMap RedirectText.lexemes)))

def redirect (s : SimpleText) : Redirect :=
  (redirectRules (s.reds.map RedirectText.redirection)).get
    s.legal

def command (s : SimpleText) : SimpleCommand :=
  bindParts s.verb s.params s.redirect

end SimpleText

/- A line, which ends with `\n` or with the text. -/
inductive LineText
| empty (lead eol : Bool)
| commands (first : SimpleText)
    (rest : List (Operator × SimpleText)) (eol : Bool)

/- The token at the end of a line. -/
def endTerminal (eol : Bool) : Terminal :=
  if eol then .endOfLine else .endOfFile

/- A further command with the operator before it. -/
def itemLexemes (x : Operator × SimpleText) : List Lexeme :=
  bare x.1.terminal :: x.2.lexemes

def LineText.lexemes : LineText → List Lexeme
| .empty lead eol =>
    optional lead (bare .blank) ++ [bare (endTerminal eol)]
| .commands first rest eol =>
    first.lexemes ++ (rest.flatMap itemLexemes ++
      [bare (endTerminal eol)])

------------------------------------------------------------
-- Trees
------------------------------------------------------------

/- The priorities that `%left` gives to the operators. -/
def Operator.level : Operator → Nat
| .sequential => 1
| .parallel => 2
| .conditionalNzero => 3
| .conditionalZero => 3
| .pipe => 4

section Trees

variable {L : Type}

def Command.tree : Command L → OperatorTree Operator L
| .simple scmd => .leaf scmd
| .bind op cmd1 cmd2 => .node op cmd1.tree cmd2.tree

def Command.ofTree : OperatorTree Operator L → Command L
| .leaf scmd => .simple scmd
| .node op left right => .bind op (ofTree left) (ofTree right)

@[simp]
theorem Command.ofTree_tree (c : Command L) :
    Command.ofTree c.tree = c := by
  induction c with
  | simple scmd => rfl
  | bind op cmd1 cmd2 ih1 ih2 => rw [tree, ofTree, ih1, ih2]

@[simp]
theorem Command.tree_ofTree (t : OperatorTree Operator L) :
    (Command.ofTree t).tree = t := by
  induction t with
  | leaf a => rfl
  | node op left right ihLeft ihRight =>
      rw [ofTree, tree, ihLeft, ihRight]

end Trees

/- The tree of the commands of a line, by the priorities. -/
def LineText.root :
    LineText → Option (Command SimpleCommand)
| .empty _ _ => none
| .commands first rest _ =>
    some
      (Command.ofTree
        (OperatorTree.assemble Operator.level first.command
          (rest.map fun x => (x.1, x.2.command))))

------------------------------------------------------------
-- Tokens
------------------------------------------------------------

theorem lexeme_of_kind
    {t : Token} {k : Terminal}
    (hKind : t.kind = k)
    (hNoWord : k ≠ .word ∧ k ≠ .envVar) :
    t.lexeme = bare k := by
  subst hKind
  exact congrArg (Prod.mk t.kind)
    (if_neg (not_or.mpr hNoWord))

theorem partTerminal_cases (expand : Bool) :
    partTerminal expand = .word ∨
      partTerminal expand = .envVar := by
  cases expand
  · exact .inl rfl
  · exact .inr rfl

theorem lexeme_of_part
    {t : Token} {expand : Bool}
    (hKind : t.kind = partTerminal expand) :
    t.lexeme = (⟨t.string, expand⟩ : Part).lexeme := by
  have hString := partTerminal_cases expand
  unfold Token.lexeme Part.lexeme
  rw [hKind, if_pos hString]

theorem operator_ne_word (op : Operator) :
    op.terminal ≠ .word ∧ op.terminal ≠ .envVar := by
  cases op <;> exact ⟨nofun, nofun⟩

theorem redirectOp_ne_word (op : RedirectOp) :
    op.terminal ≠ .word ∧ op.terminal ≠ .envVar := by
  cases op <;> exact ⟨nofun, nofun⟩

theorem endTerminal_ne_word (eol : Bool) :
    endTerminal eol ≠ .word ∧ endTerminal eol ≠ .envVar := by
  cases eol <;> exact ⟨nofun, nofun⟩

------------------------------------------------------------
-- What the Grammar Derives
------------------------------------------------------------

/- The lines of a nonterminal, with the kind of its value. -/
def Stands : Nonterminal → List Token → Value → Prop
| .word, tokens, v =>
    ∃ w : Word, v = .word w ∧ tokens.map Token.lexeme = w.lexemes
| .exeName, tokens, v =>
    ∃ (lead : Bool) (w : Word), v = .word w ∧
      tokens.map Token.lexeme =
        optional lead (bare .blank) ++ w.lexemes
| .params, tokens, v =>
    ∃ (ws : List Word), v = .params ws ∧
      bare .blank :: tokens.map Token.lexeme =
        SimpleText.paramLexemes ws
| .redirect, tokens, v =>
    ∃ (reds : List RedirectText) (r : Redirect), v = .redirect r ∧
      redirectRules (reds.map RedirectText.redirection) = some r ∧
        tokens.map Token.lexeme =
          reds.flatMap RedirectText.lexemes
| .simpleCommand, tokens, v =>
    ∃ s : SimpleText, v = .simpleCommand s.command ∧
      tokens.map Token.lexeme = s.lexemes
| .command, tokens, v =>
    ∃ (first : SimpleText) (rest : List (Operator × SimpleText))
        (c : Command SimpleCommand), v = .command c ∧
      tokens.map Token.lexeme =
        first.lexemes ++ rest.flatMap itemLexemes
| .commandTree, tokens, v =>
    ∃ (line : LineText)
        (root : Option (Command SimpleCommand)),
      v = .commandRoot root ∧
        tokens.map Token.lexeme = line.lexemes

------------------------------------------------------------
-- Rules
------------------------------------------------------------

section Rules

variable {w w' : List Token} {v : Value}

/- A list of commands with the end of the line. -/
theorem stands_commands
    (eol : Bool) {a : Token}
    (hCommand : Stands .command w v)
    (hKind : a.kind = endTerminal eol)
    (root : Option (Command SimpleCommand)) :
    Stands .commandTree (w ++ [a]) (.commandRoot root) := by
  rcases hCommand with ⟨first, rest, c, _, hLexemes⟩
  have hEnd := lexeme_of_kind hKind (endTerminal_ne_word eol)
  refine ⟨.commands first rest eol, root, rfl, ?_⟩
  rw [List.map_append, hLexemes, List.map_singleton, hEnd,
    List.append_assoc]
  rfl

theorem stands_empty
    (eol : Bool) {a : Token}
    (hKind : a.kind = endTerminal eol) :
    Stands .commandTree [a] (.commandRoot none) := by
  have hEnd := lexeme_of_kind hKind (endTerminal_ne_word eol)
  refine ⟨.empty false eol, none, rfl, ?_⟩
  rw [List.map_singleton, hEnd]
  rfl

theorem stands_blank
    (eol : Bool) {a b : Token}
    (hBlank : b.kind = .blank)
    (hKind : a.kind = endTerminal eol) :
    Stands .commandTree [b, a] (.commandRoot none) := by
  have hEnd := lexeme_of_kind hKind (endTerminal_ne_word eol)
  have hLead := lexeme_of_kind hBlank (by decide)
  refine ⟨.empty true eol, none, rfl, ?_⟩
  rw [List.map_cons, List.map_singleton, hEnd, hLead]
  rfl

/- Two lists of commands with an operator between them. -/
theorem stands_bind
    {a : Token} {op : Operator} {v' : Value}
    (hFirst : Stands .command w v)
    (hKind : a.kind = op.terminal)
    (hSecond : Stands .command w' v')
    (c : Command SimpleCommand) :
    Stands .command (w ++ a :: w') (.command c) := by
  rcases hFirst with ⟨first, rest, _, _, hLexemes⟩
  rcases hSecond with ⟨first', rest', _, _, hLexemes'⟩
  have hOp := lexeme_of_kind hKind (operator_ne_word op)
  refine ⟨first, rest ++ (op, first') :: rest', c, rfl, ?_⟩
  rw [List.map_append, List.map_cons, hLexemes, hLexemes', hOp,
    List.flatMap_append, List.flatMap_cons]
  simp only [itemLexemes, List.append_assoc, List.cons_append]

/- The parts of a simple command. -/
theorem stands_simple
    (lead : Bool) {verb : Word} {params : List Word}
    (gap : Bool) {reds : List RedirectText} {r : Redirect}
    (hRules :
      redirectRules (reds.map RedirectText.redirection) =
        some r)
    (hLexemes :
      w.map Token.lexeme =
        optional lead (bare .blank) ++ (verb.lexemes ++
          (SimpleText.paramLexemes params ++
            (optional gap (bare .blank) ++
              reds.flatMap RedirectText.lexemes)))) :
    Stands .simpleCommand w
      (.simpleCommand (bindParts verb params r)) := by
  refine ⟨⟨lead, verb, params, gap, reds, by rw [hRules]; rfl⟩,
    ?_, hLexemes⟩
  simp only [SimpleText.command, SimpleText.redirect, hRules,
    Option.get_some]

/- One more redirection. -/
theorem stands_redirect
    {a : Token} {op : RedirectOp} {before after : Bool}
    {blanks blanks' parts : List Token}
    {r r' : Redirect} {x : Word}
    (hRedirect : Stands .redirect w (.redirect r))
    (hKind : a.kind = op.terminal)
    (hBefore :
      blanks.map Token.lexeme = optional before (bare .blank))
    (hWord : parts.map Token.lexeme = x.lexemes)
    (hAfter :
      blanks'.map Token.lexeme = optional after (bare .blank))
    (hRule : redirectRule r (op, x) = some r') :
    Stands .redirect
      (w ++ a :: (blanks ++ (parts ++ blanks')))
      (.redirect r') := by
  rcases hRedirect with ⟨reds, r₁, hValue, hRules, hLexemes⟩
  cases hValue
  have hOp := lexeme_of_kind hKind (redirectOp_ne_word op)
  refine ⟨reds ++ [⟨op, before, x, after⟩], r', rfl, ?_, ?_⟩
  · rw [redirectRules, List.map_append, List.foldlM_append]
    change (redirectRules _).bind _ = _
    rw [hRules]
    simpa [RedirectText.redirection] using hRule
  · simp only [List.map_append, List.map_cons, hLexemes, hOp,
      hBefore, hWord, hAfter, List.flatMap_append,
      List.flatMap_singleton, RedirectText.lexemes]

theorem stands_moreWord
    {a : Token} {x : Word} {expand : Bool}
    (hWord : w.map Token.lexeme = x.lexemes)
    (hKind : a.kind = partTerminal expand) :
    (w ++ [a]).map Token.lexeme =
      (addPartToWord ⟨a.string, expand⟩ x).lexemes := by
  rw [List.map_append, hWord, List.map_singleton,
    lexeme_of_part hKind]
  simp only [Word.lexemes, addPartToWord, List.map_cons,
    List.map_append, List.map_nil, List.cons_append]

/- A blank that may be left out, and what is behind it. -/
theorem reads_optional
    {given : Bool} {symbols : List GrammarSymbol}
    {values : List Value}
    (hReads :
      ShiftReduce.Reads grammar Stands
        (optional given (.inl .blank) ++ symbols) w values) :
    ∃ blanks w' values₀ values', w = blanks ++ w' ∧
      values = values₀ ++ values' ∧
      values₀.length = given.toNat ∧
      blanks.map Token.lexeme = optional given (bare .blank) ∧
      ShiftReduce.Reads grammar Stands symbols w' values' := by
  cases given with
  | false => exact ⟨[], w, [], values, rfl, rfl, rfl, rfl, hReads⟩
  | true =>
      rcases hReads with
        ⟨b, w', values', rfl, rfl, hBlank, hRest⟩
      have hLexeme := lexeme_of_kind hBlank (by decide)
      refine ⟨[b], w', [.string b.string], values', rfl, rfl,
        rfl, ?_, hRest⟩
      rw [List.map_singleton, hLexeme]
      rfl

/- Each rule keeps what the nonterminals stand for. -/
theorem stands_rule
    (r : Rule) (w : List Token) (values : List Value) (v : Value)
    (hReads : ShiftReduce.Reads grammar Stands r.rhs w values)
    (hAction : r.action values = some v) :
    Stands r.lhs w v := by
  cases r with
  | commandEol =>
      rcases hReads with
        ⟨w₁, _, c, _, rfl, rfl, hCommand,
          a, _, _, rfl, rfl, hKind, rfl, rfl⟩
      rcases hCommand with ⟨first, rest, c, rfl, hLexemes⟩
      cases hAction
      exact stands_commands true
        ⟨first, rest, c, rfl, hLexemes⟩ hKind _
  | commandEof =>
      rcases hReads with
        ⟨w₁, _, c, _, rfl, rfl, hCommand,
          a, _, _, rfl, rfl, hKind, rfl, rfl⟩
      rcases hCommand with ⟨first, rest, c, rfl, hLexemes⟩
      cases hAction
      exact stands_commands false
        ⟨first, rest, c, rfl, hLexemes⟩ hKind _
  | emptyEol =>
      rcases hReads with ⟨a, _, _, rfl, rfl, hKind, rfl, rfl⟩
      cases hAction
      exact stands_empty true hKind
  | emptyEof =>
      rcases hReads with ⟨a, _, _, rfl, rfl, hKind, rfl, rfl⟩
      cases hAction
      exact stands_empty false hKind
  | blankEol =>
      rcases hReads with
        ⟨b, _, _, rfl, rfl, hBlank,
          a, _, _, rfl, rfl, hKind, rfl, rfl⟩
      cases hAction
      exact stands_blank true hBlank hKind
  | blankEof =>
      rcases hReads with
        ⟨b, _, _, rfl, rfl, hBlank,
          a, _, _, rfl, rfl, hKind, rfl, rfl⟩
      cases hAction
      exact stands_blank false hBlank hKind
  | newCommand =>
      rcases hReads with
        ⟨w₁, _, _, _, rfl, rfl, ⟨s, rfl, hLexemes⟩, rfl, rfl⟩
      cases hAction
      refine ⟨s, [], _, rfl, ?_⟩
      rw [List.append_nil, List.flatMap_nil, List.append_nil,
        hLexemes]
  | bindCommands op =>
      rcases hReads with
        ⟨w₁, _, c₁, _, rfl, rfl, hFirst,
          a, _, _, rfl, rfl, hKind,
          w₂, _, c₂, _, rfl, rfl, hSecond, rfl, rfl⟩
      have hBind := stands_bind hFirst hKind hSecond
      rcases hFirst with ⟨_, _, c₁, rfl, _⟩
      rcases hSecond with ⟨_, _, c₂, rfl, _⟩
      cases hAction
      rw [List.append_nil]
      exact hBind _
  | paramsRedirect =>
      rcases hReads with
        ⟨w₁, _, _, _, rfl, rfl, ⟨lead, x, rfl, hVerb⟩,
          b, _, _, rfl, rfl, hBlank,
          w₂, _, _, _, rfl, rfl, ⟨ws, rfl, hParams⟩,
          w₃, _, _, _, rfl, rfl, ⟨reds, r, rfl, hRules, hReds⟩,
          rfl, rfl⟩
      cases hAction
      have hLexeme := lexeme_of_kind hBlank (by decide)
      refine stands_simple lead false hRules ?_
      simp only [List.map_append, List.map_cons, hVerb, hLexeme,
        hReds, List.append_nil, ← hParams, optional,
        List.append_assoc, List.cons_append]
      rfl
  | paramsBlankRedirect =>
      rcases hReads with
        ⟨w₁, _, _, _, rfl, rfl, ⟨lead, x, rfl, hVerb⟩,
          b, _, _, rfl, rfl, hBlank,
          w₂, _, _, _, rfl, rfl, ⟨ws, rfl, hParams⟩,
          b', _, _, rfl, rfl, hBlank',
          w₃, _, _, _, rfl, rfl, ⟨reds, r, rfl, hRules, hReds⟩,
          rfl, rfl⟩
      cases hAction
      have hLexeme := lexeme_of_kind hBlank (by decide)
      have hLexeme' := lexeme_of_kind hBlank' (by decide)
      refine stands_simple lead true hRules ?_
      simp only [List.map_append, List.map_cons, hVerb, hLexeme,
        hLexeme', hReds, List.append_nil, ← hParams, optional,
        List.append_assoc, List.cons_append]
      rfl
  | onlyRedirect =>
      rcases hReads with
        ⟨w₁, _, _, _, rfl, rfl, ⟨lead, x, rfl, hVerb⟩,
          w₃, _, _, _, rfl, rfl, ⟨reds, r, rfl, hRules, hReds⟩,
          rfl, rfl⟩
      cases hAction
      refine stands_simple lead false hRules ?_
      simp only [List.map_append, hVerb, hReds, List.append_nil,
        optional, List.append_assoc]
      rfl
  | blankRedirect =>
      rcases hReads with
        ⟨w₁, _, _, _, rfl, rfl, ⟨lead, x, rfl, hVerb⟩,
          b, _, _, rfl, rfl, hBlank,
          w₃, _, _, _, rfl, rfl, ⟨reds, r, rfl, hRules, hReds⟩,
          rfl, rfl⟩
      cases hAction
      have hLexeme := lexeme_of_kind hBlank (by decide)
      refine stands_simple lead true hRules ?_
      simp only [List.map_append, List.map_cons, hVerb, hLexeme,
        hReds, List.append_nil, optional, List.append_assoc]
      rfl
  | exeWord =>
      rcases hReads with
        ⟨w₁, _, _, _, rfl, rfl, ⟨x, rfl, hWord⟩, rfl, rfl⟩
      cases hAction
      refine ⟨false, x, rfl, ?_⟩
      rw [List.append_nil, hWord]
      rfl
  | exeBlankWord =>
      rcases hReads with
        ⟨b, _, _, rfl, rfl, hBlank,
          w₁, _, _, _, rfl, rfl, ⟨x, rfl, hWord⟩, rfl, rfl⟩
      cases hAction
      have hLexeme := lexeme_of_kind hBlank (by decide)
      refine ⟨true, x, rfl, ?_⟩
      rw [List.append_nil, List.map_cons, hWord, hLexeme]
      rfl
  | moreParams =>
      rcases hReads with
        ⟨w₁, _, _, _, rfl, rfl, ⟨ws, rfl, hParams⟩,
          b, _, _, rfl, rfl, hBlank,
          w₂, _, _, _, rfl, rfl, ⟨x, rfl, hWord⟩, rfl, rfl⟩
      cases hAction
      have hLexeme := lexeme_of_kind hBlank (by decide)
      refine ⟨ws ++ [x], rfl, ?_⟩
      rw [List.append_nil, List.map_append, List.map_cons, hWord,
        hLexeme, ← List.cons_append, hParams]
      simp only [SimpleText.paramLexemes, List.flatMap_append,
        List.flatMap_singleton]
  | oneParam =>
      rcases hReads with
        ⟨w₁, _, _, _, rfl, rfl, ⟨x, rfl, hWord⟩, rfl, rfl⟩
      cases hAction
      refine ⟨[x], rfl, ?_⟩
      rw [List.append_nil, hWord]
      simp only [SimpleText.paramLexemes, List.flatMap_singleton]
  | noRedirect =>
      rcases hReads with ⟨rfl, rfl⟩
      cases hAction
      exact ⟨[], emptyRedirect, rfl, rfl, rfl⟩
  | redirect op before after =>
      rcases hReads with
        ⟨w₁, _, _, _, rfl, rfl, hRedirect,
          a, _, _, rfl, rfl, hKind, hRest⟩
      rcases reads_optional hRest with
        ⟨blanks, _, values₀, _, rfl, rfl, hLength, hBefore,
          parts, _, _, _, rfl, rfl, ⟨x, rfl, hWord⟩, hBehind⟩
      rw [← List.append_nil (optional _ _)] at hBehind
      rcases reads_optional hBehind with
        ⟨blanks', _, _, _, rfl, rfl, _, hAfter, rfl, rfl⟩
      have hStands := hRedirect
      rcases hRedirect with ⟨_, r, rfl, _, _⟩
      simp only [Rule.action, List.drop_left' hLength] at hAction
      rcases Option.map_eq_some_iff.mp hAction with
        ⟨r', hRule, rfl⟩
      rw [List.append_nil]
      exact stands_redirect hStands hKind hBefore hWord hAfter
        hRule
  | moreWord expand =>
      rcases hReads with
        ⟨w₁, _, _, _, rfl, rfl, ⟨x, rfl, hWord⟩,
          a, _, _, rfl, rfl, hKind, rfl, rfl⟩
      cases hAction
      exact ⟨_, rfl, stands_moreWord hWord hKind⟩
  | oneWord expand =>
      rcases hReads with ⟨a, _, _, rfl, rfl, hKind, rfl, rfl⟩
      cases hAction
      refine ⟨_, rfl, ?_⟩
      rw [List.map_singleton, lexeme_of_part hKind]
      rfl

end Rules

/- What is derived as a whole line has the form of a line. -/
theorem lineText_of_derives
    {w : List Token} {v : Value}
    (hDerives :
      ShiftReduce.Derives grammar [.inr .commandTree] w [v]) :
    ∃ (line : LineText)
        (root : Option (Command SimpleCommand)),
      v = .commandRoot root ∧
        w.map Token.lexeme = line.lexemes := by
  have hReads :=
    ShiftReduce.Derives.reads stands_rule hDerives
  rcases hReads with ⟨w₁, _, v₁, _, rfl, hValues, hLine, rfl, rfl⟩
  cases hValues
  rw [List.append_nil]
  exact hLine

end Shell

end ProgrammingTasks
