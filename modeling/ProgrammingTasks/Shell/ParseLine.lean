import ProgrammingTasks.Shell.Parsing
import ProgrammingTasks.Shell.RedirectRule
import ProgrammingTasks.Shell.Scanner
import ProgrammingTasks.Shell.SyntaxErrors

/-
  `parse_line` (`parser.y`).

  The parser reads the tokens of the line.  A line that is
  parsed has the tree of its commands for a result, and any
  other one a message with a place in the line.

  Main declarations:
    * `ParseResult`, `parseLine`
    * `parseLine_parsed_iff`
    * `parseLine_priorities`
    * `parseLine_error`
    * `parseLine_assertion`
-/

------------------------------------------------------------
-- Results
------------------------------------------------------------

namespace ProgrammingTasks

namespace Shell

open ShiftReduce (top)

/-
  The root of the tree, the arguments of `parse_error`, or an
  assertion that fails.
-/
inductive ParseResult
| parsed (root : Option (Command SimpleCommand))
| error (message : String) (column : Nat)
| assertion

/- `yylloc.first_column` at the lookahead. -/
def errorColumn (rest : List Token) : Nat :=
  match rest with
  | [] => 0
  | t :: _ => t.column

/- `parse_line`, with `yyerror`. -/
def parseLine (line : Text) : ParseResult :=
  match yyparse (scanLine line) with
  | some (.accepted (.commandRoot root)) => .parsed root
  | some (.rejected state rest) =>
      .error (yysyntaxError state (next rest)) (errorColumn rest)
  | _ => .assertion

/- The result is a tree. -/
def ParseResult.isTree : ParseResult → Bool
| .parsed (some _) => true
| _ => false

theorem exists_of_isTree
    {result : ParseResult}
    (hTree : result.isTree = true) :
    ∃ c, result = .parsed (some c) := by
  unfold ParseResult.isTree at hTree
  split at hTree
  · exact ⟨_, rfl⟩
  · cases hTree

/- The message of a result, with its place. -/
def ParseResult.message : ParseResult → Option (String × Nat)
| .error message column => some (message, column)
| _ => none

theorem error_of_message
    {result : ParseResult} {message : String} {column : Nat}
    (hMessage : result.message = some (message, column)) :
    result = .error message column := by
  unfold ParseResult.message at hMessage
  split at hMessage
  · cases hMessage
    rfl
  · cases hMessage

/- The result is an assertion that fails. -/
def ParseResult.fails : ParseResult → Bool
| .assertion => true
| _ => false

theorem assertion_of_fails
    {result : ParseResult}
    (hFails : result.fails = true) :
    result = .assertion := by
  unfold ParseResult.fails at hFails
  split at hFails
  · rfl
  · cases hFails

/- A line is parsed as the lines that its tokens make up. -/
theorem parseLine_parsed_iff
    {line : Text} {root : Option (Command SimpleCommand)} :
    parseLine line = .parsed root ↔
      ∃ (text : LineText) (w rest : List Token),
        scanLine line = w ++ rest ∧
          w.map Token.lexeme = text.lexemes ∧
            root = text.root := by
  have hAccepted :
      parseLine line = .parsed root ↔
        yyparse (scanLine line) =
          some (.accepted (.commandRoot root)) := by
    unfold parseLine
    constructor
    · intro hParsed
      split at hParsed
      · rename_i root' hParse
        cases hParsed
        exact hParse
      · cases hParsed
      · cases hParsed
    · intro hParse
      rw [hParse]
  rw [hAccepted, yyparse_accepted_iff]
  constructor
  · rintro ⟨text, w, rest, hSplit, hLexemes, hRoot⟩
    cases hRoot
    exact ⟨text, w, rest, hSplit, hLexemes, rfl⟩
  · rintro ⟨text, w, rest, hSplit, hLexemes, rfl⟩
    exact ⟨text, w, rest, hSplit, hLexemes, rfl⟩

------------------------------------------------------------
-- Priorities
------------------------------------------------------------

/- A node of a tree, or of a tree below it. -/
inductive Within {L : Type} :
    Command L → Command L → Prop
| self (c : Command L) : Within c c
| left (op : Operator) {c c₁ c₂ : Command L}
    (hLeft : Within c c₁) : Within c (.bind op c₁ c₂)
| right (op : Operator) {c c₁ c₂ : Command L}
    (hRight : Within c c₂) : Within c (.bind op c₁ c₂)

/- The operators of a tree from left to right. -/
def Command.operators {L : Type} : Command L → List Operator
| .simple _ => []
| .bind op c₁ c₂ => c₁.operators ++ op :: c₂.operators

/- Its simple commands from left to right. -/
def Command.leaves {L : Type} : Command L → List L
| .simple scmd => [scmd]
| .bind _ c₁ c₂ => c₁.leaves ++ c₂.leaves

/-
  No operator is below one of a higher priority, and to the
  right of an operator there is none of the same priority.
-/
def Prioritized {L : Type} (c : Command L) : Prop :=
  ∀ op c₁ c₂, Within (.bind op c₁ c₂) c →
    (∀ op' ∈ c₁.operators, op.level ≤ op'.level) ∧
      ∀ op' ∈ c₂.operators, op.level < op'.level

section Trees

variable {L : Type}

theorem operators_tree (c : Command L) :
    c.operators = c.tree.items.map Prod.fst := by
  induction c with
  | simple scmd => rfl
  | bind op c₁ c₂ ih₁ ih₂ =>
      rw [Command.operators, Command.tree, OperatorTree.items,
        List.map_append, List.map_cons, ih₁, ih₂]

theorem leaves_tree (c : Command L) :
    c.leaves = c.tree.first :: c.tree.items.map Prod.snd := by
  induction c with
  | simple scmd => rfl
  | bind op c₁ c₂ ih₁ ih₂ =>
      rw [Command.leaves, Command.tree, OperatorTree.items,
        OperatorTree.first, List.map_append, List.map_cons, ih₁,
        ih₂, List.cons_append]

theorem lawful_within
    {c c' : Command L}
    (hWithin : Within c c')
    (hLawful : OperatorTree.Lawful Operator.level c'.tree) :
    OperatorTree.Lawful Operator.level c.tree := by
  induction hWithin with
  | self => exact hLawful
  | left op hLeft ih => exact ih hLawful.2.2.1
  | right op hRight ih => exact ih hLawful.2.2.2

theorem atLeast_of_operators
    {n : Nat} {c : Command L}
    (hAll : ∀ op ∈ c.operators, n ≤ op.level) :
    OperatorTree.AtLeast Operator.level n c.tree := by
  cases c with
  | simple scmd => trivial
  | bind op c₁ c₂ =>
      exact hAll op
        (List.mem_append_right _ List.mem_cons_self)

/- This is what makes a tree of operators lawful. -/
theorem prioritized_iff (c : Command L) :
    Prioritized c ↔
      OperatorTree.Lawful Operator.level c.tree := by
  constructor
  · intro hPrioritized
    induction c with
    | simple scmd => trivial
    | bind op c₁ c₂ ih₁ ih₂ =>
        rcases hPrioritized op c₁ c₂ (.self _) with
          ⟨hLeft, hRight⟩
        have hFirst : Prioritized c₁ :=
          fun op' d₁ d₂ hWithin =>
            hPrioritized op' d₁ d₂ (.left op hWithin)
        have hSecond : Prioritized c₂ :=
          fun op' d₁ d₂ hWithin =>
            hPrioritized op' d₁ d₂ (.right op hWithin)
        exact ⟨atLeast_of_operators hLeft,
          atLeast_of_operators hRight, ih₁ hFirst, ih₂ hSecond⟩
  · intro hLawful op c₁ c₂ hWithin
    rcases lawful_within hWithin hLawful with
      ⟨hLeft, hRight, hBelow, hBelow'⟩
    rw [operators_tree, operators_tree]
    constructor
    · intro op' hMem
      rcases List.mem_map.mp hMem with ⟨x, hItem, rfl⟩
      exact hBelow.le_level hLeft x hItem
    · intro op' hMem
      rcases List.mem_map.mp hMem with ⟨x, hItem, rfl⟩
      exact hBelow'.le_level hRight x hItem

/- The operators and simple commands determine such a tree. -/
theorem Prioritized.unique
    {c c' : Command L}
    (hPrioritized : Prioritized c)
    (hPrioritized' : Prioritized c')
    (hOperators : c.operators = c'.operators)
    (hLeaves : c.leaves = c'.leaves) :
    c = c' := by
  rw [operators_tree, operators_tree] at hOperators
  rw [leaves_tree, leaves_tree, List.cons.injEq] at hLeaves
  have hItems : c.tree.items = c'.tree.items :=
    (List.zip_of_prod hOperators hLeaves.2).trans
      (List.zip_of_prod rfl rfl).symm
  have hTrees :=
    ((prioritized_iff c).mp hPrioritized).unique
      ((prioritized_iff c').mp hPrioritized') hLeaves.1 hItems
  rw [← Command.ofTree_tree c, hTrees, Command.ofTree_tree]

end Trees

theorem prioritized_root
    {text : LineText} {c : Command SimpleCommand}
    (hRoot : text.root = some c) :
    Prioritized c := by
  cases text with
  | empty lead eol => cases hRoot
  | commands first items eol =>
      cases hRoot
      rw [prioritized_iff, Command.tree_ofTree]
      exact OperatorTree.lawful_assemble _ _

theorem operators_ofTree {L : Type} (t : OperatorTree Operator L) :
    (Command.ofTree t).operators = t.items.map Prod.fst := by
  rw [operators_tree, Command.tree_ofTree]

theorem leaves_ofTree {L : Type} (t : OperatorTree Operator L) :
    (Command.ofTree t).leaves =
      t.first :: t.items.map Prod.snd := by
  rw [leaves_tree, Command.tree_ofTree]

/-
  The tree of a line has the operators and the simple commands
  of the line in their order, and obeys the priorities.  There
  is no other such tree.
-/
theorem parseLine_priorities
    (line : Text) (c : Command SimpleCommand) :
    parseLine line = .parsed (some c) ↔
      ∃ (first : SimpleText) (items : List (Operator × SimpleText))
          (eol : Bool) (w rest : List Token),
        scanLine line = w ++ rest ∧
          w.map Token.lexeme =
              (LineText.commands first items eol).lexemes ∧
            c.operators = items.map Prod.fst ∧
              c.leaves =
                  first.command ::
                    items.map (fun x => x.2.command) ∧
                Prioritized c := by
  have hOperators :
      ∀ (first : SimpleText) (items : List (Operator × SimpleText)),
        (Command.ofTree
            (OperatorTree.assemble Operator.level first.command
              (items.map fun x => (x.1, x.2.command)))).operators =
          items.map Prod.fst := by
    intro first items
    rw [operators_ofTree, OperatorTree.items_assemble,
      List.map_map]
    rfl
  have hLeaves :
      ∀ (first : SimpleText) (items : List (Operator × SimpleText)),
        (Command.ofTree
            (OperatorTree.assemble Operator.level first.command
              (items.map fun x => (x.1, x.2.command)))).leaves =
          first.command :: items.map (fun x => x.2.command) := by
    intro first items
    rw [leaves_ofTree, OperatorTree.first_assemble,
      OperatorTree.items_assemble, List.map_map]
    rfl
  rw [parseLine_parsed_iff]
  constructor
  · rintro ⟨text, w, rest, hScan, hLexemes, hRoot⟩
    have hPrioritized := prioritized_root hRoot.symm
    cases text with
    | empty lead eol => cases hRoot
    | commands first items eol =>
        cases hRoot
        exact ⟨first, items, eol, w, rest, hScan, hLexemes,
          hOperators first items, hLeaves first items,
          hPrioritized⟩
  · rintro ⟨first, items, eol, w, rest, hScan, hLexemes, hOps,
      hCommands, hPrioritized⟩
    refine ⟨.commands first items eol, w, rest, hScan, hLexemes,
      ?_⟩
    have hRoot :
        (LineText.commands first items eol).root = some _ :=
      rfl
    rw [hRoot]
    refine congrArg some
      (hPrioritized.unique (prioritized_root hRoot) ?_ ?_)
    · rw [hOps, hOperators]
    · rw [hCommands, hLeaves]

------------------------------------------------------------
-- Errors
------------------------------------------------------------

/- The tokens for the end of the text. -/
def eofKinds : List Terminal := [.endOfFile, .unexpectedEof]

/- The states after them. -/
def eofStates : List Nat := [1, 11, 15]

def eofShift : ShiftReduce.Decision Rule → Bool
| .shift s => decide (s ∈ eofStates)
| _ => true

theorem check_eofShift :
    ∀ s ∈ parserStates, ∀ k ∈ eofKinds,
      eofShift (yybackup s (some k)) = true := by
  decide

theorem check_eofStates (k : Option Terminal) :
    ∀ s ∈ eofStates, acceptSound (yybackup s k) = true := by
  have hAll :
      ∀ k ∈ none :: terminals.map some, ∀ s ∈ eofStates,
        acceptSound (yybackup s k) = true := by
    decide
  exact each_lookahead hAll k

/- The parser accepts when it has read the end of the text. -/
theorem eof_of_reaches
    {tokens : List Token} {c : ParserConfig}
    (hReaches :
      ShiftReduce.Reaches grammar parserTables ⟨[], tokens⟩ c) :
    ∃ w, tokens = w ++ c.rest ∧
      ((∃ t ∈ w, t.kind ∈ eofKinds) →
        top c.stack ∈ eofStates) := by
  induction hReaches with
  | refl =>
      refine ⟨[], rfl, ?_⟩
      rintro ⟨t, hMem, _⟩
      cases hMem
  | @tail c c' hBefore hStep ih =>
      rcases ih with ⟨w, hTokens, hEof⟩
      rcases ShiftReduce.spells_of_reaches parser_checked hBefore
        with ⟨w₁, _, hSpells⟩
      have hState := hSpells.top_mem parser_checked
      have hSound :=
        fun hRead =>
          check_eofStates (next c.rest) (top c.stack) (hEof hRead)
      rcases ShiftReduce.step_cases hStep with
        ⟨x, rest, s, hRest, hDecision, rfl⟩ |
          ⟨r, v, hDecision, _, _, hInner, rfl⟩
      · refine ⟨w ++ [x], ?_, ?_⟩
        · rw [hTokens, hRest, List.append_assoc]
          rfl
        · rintro ⟨t, hMem, hKind⟩
          rcases List.mem_append.mp hMem with hMem | hMem
          · have hAccept := hSound ⟨t, hMem, hKind⟩
            rw [hRest] at hAccept
            change
              acceptSound (yybackup (top c.stack) (some x.kind)) =
                true at hAccept
            rw [show yybackup (top c.stack) (some x.kind) =
              .shift s from hDecision] at hAccept
            cases hAccept
          · rw [List.mem_singleton.mp hMem] at hKind
            have hShift := check_eofShift _ hState _ hKind
            rw [show yybackup (top c.stack) (some x.kind) =
              .shift s from hDecision] at hShift
            exact decide_eq_true_iff.mp hShift
      · refine ⟨w, hTokens, ?_⟩
        intro hRead
        have hAccept := hSound hRead
        rw [show yybackup (top c.stack) (next c.rest) =
          .reduce r from hDecision] at hAccept
        exact absurd hAccept (ne_true_of_eq_false hInner)

/- An error has an unexpected token. -/
theorem rejected_rest
    {line : Text} {state : Nat} {rest : List Token}
    (hRejected :
      yyparse (scanLine line) = some (.rejected state rest)) :
    rest ≠ [] := by
  rintro rfl
  rcases ShiftReduce.reaches_of_run hRejected with
    ⟨c, hReaches, hStep⟩
  rcases ShiftReduce.spells_of_reaches parser_checked hReaches
    with ⟨w₁, _, hSpells⟩
  rcases hSpells.outcome parser_checked hStep with
    ⟨hTop, hRest, hDecision⟩
  rcases eof_of_reaches hReaches with ⟨w, hTokens, hEof⟩
  rcases scanAll_ends ⟨.initial, line, 0, 0⟩ with
    ⟨tokens, t, hEnds, hKind⟩
  have hRead : ∃ t ∈ w, t.kind ∈ eofKinds := by
    refine ⟨t, ?_, ?_⟩
    · rw [← hRest, List.append_nil] at hTokens
      rw [← hTokens]
      change t ∈ scanAll _
      rw [hEnds]
      exact List.mem_append_right _ List.mem_cons_self
    · rcases hKind with hKind | hKind
      · rw [hKind]
        decide
      · rw [hKind]
        decide
  have hAccept := check_eofStates none _ (hEof hRead)
  rw [← hTop] at hAccept
  rw [show yybackup state none = .error from hDecision] at hAccept
  cases hAccept

/-
  An error is reported at the unexpected token, or at the last
  match where the text ends too early.  The tokens that the
  message lists are just those that could have come in its
  place.
-/
theorem parseLine_error
    {line : Text} {message : String} {column : Nat}
    (hError : parseLine line = .error message column) :
    ∃ w t rest state, scanLine line = w ++ t :: rest ∧
      column = t.column ∧
      (Located line t ∨ (rest = [] ∧ EndsAt line w t)) ∧
      message = yysyntaxError state (some t.kind) ∧
      (shownTokens state ≠ [] →
        ∀ k, yytranslate (some k) ∈ shownTokens state ↔
          Continues w k) := by
  unfold parseLine at hError
  split at hError
  · cases hError
  · rename_i state rest hRejected
    cases hError
    rcases List.exists_cons_of_ne_nil
        (rejected_rest hRejected) with
      ⟨t, rest, rfl⟩
    rcases ShiftReduce.reaches_of_run hRejected with
      ⟨c, hReaches, hStep⟩
    rcases ShiftReduce.spells_of_reaches parser_checked hReaches
      with ⟨w, hTokens, hSpells⟩
    rcases hSpells.outcome parser_checked hStep with
      ⟨_, hRest, _⟩
    rw [← hRest] at hTokens
    refine ⟨w, t, rest, state, hTokens, rfl, ?_, rfl, ?_⟩
    · exact located_of_scan hTokens
    · intro hShown
      rcases expected_of_rejected hRejected hShown with
        ⟨w', hTokens', hExact⟩
      have hSame : w' = w :=
        List.append_cancel_right (hTokens'.symm.trans hTokens)
      rw [hSame] at hExact
      exact hExact
  · cases hError

theorem parseLine_error_operators :
    (∃ w t rest state, scanLine ['a', '|', ';'] = w ++ t :: rest ∧
      2 = t.column ∧
      (Located ['a', '|', ';'] t ∨
        (rest = [] ∧ EndsAt ['a', '|', ';'] w t)) ∧
      "syntax error, unexpected SEQUENTIAL, expecting BLANK or WORD or ENV_VAR" =
        yysyntaxError state (some t.kind) ∧
      (shownTokens state ≠ [] →
        ∀ k, yytranslate (some k) ∈ shownTokens state ↔
          Continues w k)) ∧
    ∃ w t rest state,
      scanLine ['a', ' ', '&', '&'] = w ++ t :: rest ∧
      2 = t.column ∧
      (Located ['a', ' ', '&', '&'] t ∨
        (rest = [] ∧ EndsAt ['a', ' ', '&', '&'] w t)) ∧
      "syntax error, unexpected END_OF_FILE, expecting BLANK or WORD or ENV_VAR" =
        yysyntaxError state (some t.kind) ∧
      (shownTokens state ≠ [] →
        ∀ k, yytranslate (some k) ∈ shownTokens state ↔
          Continues w k) :=
  ⟨parseLine_error (error_of_message (by decide)),
    parseLine_error (error_of_message (by decide))⟩

------------------------------------------------------------
-- Assertions
------------------------------------------------------------

/- The rule for redirections fails at a second `&>`. -/
theorem bothCount_of_none
    {reds : List Redirection}
    (hNone : redirectRules reds = none) :
    2 ≤ bothCount reds := by
  induction reds using List.reverseRecOn with
  | nil => cases hNone
  | append_singleton reds red ih =>
      rw [bothCount_append]
      rcases redirectRules_cases reds with
        ⟨hBefore, _⟩ | ⟨r, nodes, hSome, hBuilt⟩
      · exact (ih hBefore).trans (Nat.le_add_right _ _)
      · rw [redirectRules_append, hSome, Option.bind_some] at hNone
        by_cases hSecond :
            red.1 = .redirectOE ∧ nodes.shared = true
        · have hShared := hSecond.2
          rw [hBuilt.names.shared] at hShared
          rw [if_pos hSecond.1]
          exact Nat.succ_le_succ (bothCount_pos hShared)
        · rcases hBuilt.rule red
              (fun hBoth => Bool.eq_false_iff.mpr
                fun hShared => hSecond ⟨hBoth, hShared⟩) with
            ⟨r', hRule, _⟩
          rw [hRule] at hNone
          cases hNone

/- No other action fails. -/
theorem aborted_rule
    {r : Rule} {w : List Token} {values : List Value}
    (hReads : ShiftReduce.Reads grammar Stands r.rhs w values)
    (hNone : r.action values = none) :
    ∃ reds : List RedirectText,
      w.map Token.lexeme = reds.flatMap RedirectText.lexemes ∧
        2 ≤ bothCount (reds.map RedirectText.redirection) := by
  cases r with
  | redirect op before after =>
      rcases hReads with
        ⟨w₁, _, _, _, rfl, rfl, hRedirect,
          a, _, _, rfl, rfl, hKind, hRest⟩
      rcases reads_optional hRest with
        ⟨blanks, _, values₀, _, rfl, rfl, hLength, hBefore,
          parts, _, _, _, rfl, rfl, ⟨x, rfl, hWord⟩, hBehind⟩
      rw [← List.append_nil (optional _ _)] at hBehind
      rcases reads_optional hBehind with
        ⟨blanks', _, _, _, rfl, rfl, _, hAfter, rfl, rfl⟩
      rcases hRedirect with ⟨reds, r, rfl, hRules, hLexemes⟩
      have hOp := lexeme_of_kind hKind (redirectOp_ne_word op)
      simp only [Rule.action, List.drop_left' hLength] at hNone
      have hRule := Option.map_eq_none_iff.mp hNone
      refine ⟨reds ++ [⟨op, before, x, after⟩], ?_, ?_⟩
      · simp only [List.map_append, List.map_cons, hLexemes, hOp,
          hBefore, hWord, hAfter, List.flatMap_append,
          List.flatMap_singleton, RedirectText.lexemes,
          List.append_nil]
      · refine bothCount_of_none ?_
        rw [List.map_append, List.map_singleton,
          redirectRules_append, hRules]
        exact hRule
  | commandEol | commandEof =>
      rcases hReads with
        ⟨_, _, _, _, rfl, rfl, ⟨_, _, c, rfl, _⟩,
          _, _, _, rfl, rfl, _, rfl, rfl⟩
      cases hNone
  | emptyEol | emptyEof =>
      rcases hReads with ⟨_, _, _, rfl, rfl, _, rfl, rfl⟩
      cases hNone
  | blankEol | blankEof =>
      rcases hReads with
        ⟨_, _, _, rfl, rfl, _, _, _, _, rfl, rfl, _, rfl, rfl⟩
      cases hNone
  | newCommand =>
      rcases hReads with
        ⟨_, _, _, _, rfl, rfl, ⟨s, rfl, _⟩, rfl, rfl⟩
      cases hNone
  | bindCommands op =>
      rcases hReads with
        ⟨_, _, _, _, rfl, rfl, ⟨_, _, c, rfl, _⟩,
          _, _, _, rfl, rfl, _,
          _, _, _, _, rfl, rfl, ⟨_, _, c', rfl, _⟩, rfl, rfl⟩
      cases hNone
  | paramsRedirect =>
      rcases hReads with
        ⟨_, _, _, _, rfl, rfl, ⟨_, x, rfl, _⟩,
          _, _, _, rfl, rfl, _,
          _, _, _, _, rfl, rfl, ⟨ws, rfl, _⟩,
          _, _, _, _, rfl, rfl, ⟨_, r, rfl, _⟩, rfl, rfl⟩
      cases hNone
  | paramsBlankRedirect =>
      rcases hReads with
        ⟨_, _, _, _, rfl, rfl, ⟨_, x, rfl, _⟩,
          _, _, _, rfl, rfl, _,
          _, _, _, _, rfl, rfl, ⟨ws, rfl, _⟩,
          _, _, _, rfl, rfl, _,
          _, _, _, _, rfl, rfl, ⟨_, r, rfl, _⟩, rfl, rfl⟩
      cases hNone
  | onlyRedirect =>
      rcases hReads with
        ⟨_, _, _, _, rfl, rfl, ⟨_, x, rfl, _⟩,
          _, _, _, _, rfl, rfl, ⟨_, r, rfl, _⟩, rfl, rfl⟩
      cases hNone
  | blankRedirect =>
      rcases hReads with
        ⟨_, _, _, _, rfl, rfl, ⟨_, x, rfl, _⟩,
          _, _, _, rfl, rfl, _,
          _, _, _, _, rfl, rfl, ⟨_, r, rfl, _⟩, rfl, rfl⟩
      cases hNone
  | exeWord | oneParam =>
      rcases hReads with
        ⟨_, _, _, _, rfl, rfl, ⟨x, rfl, _⟩, rfl, rfl⟩
      cases hNone
  | exeBlankWord =>
      rcases hReads with
        ⟨_, _, _, rfl, rfl, _,
          _, _, _, _, rfl, rfl, ⟨x, rfl, _⟩, rfl, rfl⟩
      cases hNone
  | moreParams =>
      rcases hReads with
        ⟨_, _, _, _, rfl, rfl, ⟨ws, rfl, _⟩,
          _, _, _, rfl, rfl, _,
          _, _, _, _, rfl, rfl, ⟨x, rfl, _⟩, rfl, rfl⟩
      cases hNone
  | noRedirect =>
      rcases hReads with ⟨rfl, rfl⟩
      cases hNone
  | moreWord expand =>
      rcases hReads with
        ⟨_, _, _, _, rfl, rfl, ⟨x, rfl, _⟩,
          _, _, _, rfl, rfl, _, rfl, rfl⟩
      cases hNone
  | oneWord expand =>
      rcases hReads with ⟨_, _, _, rfl, rfl, _, rfl, rfl⟩
      cases hNone

/-
  `parse_line` fails an assertion only at the redirections of
  one command, when `&>` is among them for the second time.
-/
theorem parseLine_assertion
    {line : Text}
    (hAssertion : parseLine line = .assertion) :
    ∃ (w₁ w₂ w₃ : List Token) (reds : List RedirectText),
      scanLine line = w₁ ++ (w₂ ++ w₃) ∧
        w₂.map Token.lexeme = reds.flatMap RedirectText.lexemes ∧
          2 ≤ bothCount (reds.map RedirectText.redirection) := by
  have hAborted :
      ∃ r, yyparse (scanLine line) = some (.aborted r) := by
    unfold parseLine at hAssertion
    have hEnds := yyparse_isSome (scanLine line)
    cases hParse : yyparse (scanLine line) with
    | none =>
        rw [hParse] at hEnds
        cases hEnds
    | some outcome =>
        rw [hParse] at hAssertion
        cases outcome with
        | accepted v =>
            rcases yyparse_accepted_iff.mp hParse with
              ⟨_, _, _, _, _, rfl⟩
            cases hAssertion
        | rejected state rest => cases hAssertion
        | aborted r => exact ⟨r, rfl⟩
        | broken =>
            exact absurd hParse (yyparse_not_broken _)
  rcases hAborted with ⟨r, hAborted⟩
  rcases ShiftReduce.reaches_of_run hAborted with
    ⟨c, hReaches, hStep⟩
  rcases ShiftReduce.spells_of_reaches parser_checked hReaches
    with ⟨w, hTokens, hSpells⟩
  rcases hSpells.outcome parser_checked hStep with
    ⟨w₁, w₂, values, rfl, hDerives, hNone⟩
  have hReads :=
    ShiftReduce.Derives.reads stands_rule hDerives
  rcases aborted_rule hReads hNone with ⟨reds, hLexemes, hTwice⟩
  refine ⟨w₁, w₂, c.rest, reds, ?_, hLexemes, hTwice⟩
  rw [hTokens, List.append_assoc]

theorem parseLine_assertion_twice :
    ∃ (w₁ w₂ w₃ : List Token) (reds : List RedirectText),
      scanLine ['a', '&', '>', 'b', '&', '>', 'c'] =
          w₁ ++ (w₂ ++ w₃) ∧
        w₂.map Token.lexeme = reds.flatMap RedirectText.lexemes ∧
          2 ≤ bothCount (reds.map RedirectText.redirection) :=
  parseLine_assertion (assertion_of_fails (by decide))

end Shell

end ProgrammingTasks
