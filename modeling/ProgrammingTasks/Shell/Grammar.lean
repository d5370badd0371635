import ProgrammingTasks.Foundations.ShiftReduce
import ProgrammingTasks.Shell.Commands

/-
  The grammar of the command lines (`parser.y`).

  The rules are those of the source with their actions.  The
  rules for redirections differ only by the operator and by the
  blanks around the word, and those that join two commands only
  by the operator.

  Main declarations:
    * `Terminal`, `Nonterminal`, `Token`
    * `Rule`, `Rule.lhs`, `Rule.rhs`, `Rule.action`
    * `rules`, `grammar`
-/

------------------------------------------------------------
-- Symbols
------------------------------------------------------------

namespace ProgrammingTasks

namespace Shell

/- The tokens, in the order of their numbers. -/
inductive Terminal
| notAcceptedChar
| invalidEnvironmentVar
| unexpectedEof
| charsAfterEol
| endOfFile
| endOfLine
| blank
| redirectOE
| redirectO
| redirectE
| indirect
| redirectAppendE
| redirectAppendO
| word
| envVar
| sequential
| parallel
| conditionalNzero
| conditionalZero
| pipe
deriving DecidableEq, Repr

inductive Nonterminal
| commandTree
| command
| simpleCommand
| exeName
| params
| redirect
| word
deriving DecidableEq, Repr

abbrev GrammarSymbol := Terminal ⊕ Nonterminal

/-
  What `yylex` returns: the token, `yylval.string_un`, and
  `yylloc.first_column`.
-/
structure Token where
  kind : Terminal
  string : Text
  column : Nat
deriving DecidableEq, Repr

/- `YYSTYPE`, and `command_root`. -/
inductive Value
| string (s : Text)
| word (w : Word)
| params (ws : List Word)
| redirect (r : Redirect)
| simpleCommand (s : SimpleCommand)
| command (c : Command SimpleCommand)
| commandRoot (root : Option (Command SimpleCommand))

------------------------------------------------------------
-- Rules
------------------------------------------------------------

inductive Rule
| commandEol
| commandEof
| emptyEol
| emptyEof
| blankEol
| blankEof
| newCommand
| bindCommands (op : Operator)
| paramsRedirect
| paramsBlankRedirect
| onlyRedirect
| blankRedirect
| exeWord
| exeBlankWord
| moreParams
| oneParam
| noRedirect
| redirect (op : RedirectOp) (before after : Bool)
| moreWord (expand : Bool)
| oneWord (expand : Bool)
deriving DecidableEq, Repr

/- The token of an operator between commands. -/
def Operator.terminal : Operator → Terminal
| .sequential => .sequential
| .parallel => .parallel
| .conditionalZero => .conditionalZero
| .conditionalNzero => .conditionalNzero
| .pipe => .pipe

/- The token of an operator before a word. -/
def RedirectOp.terminal : RedirectOp → Terminal
| .indirect => .indirect
| .redirectO => .redirectO
| .redirectAppendO => .redirectAppendO
| .redirectE => .redirectE
| .redirectAppendE => .redirectAppendE
| .redirectOE => .redirectOE

/- The token of a part of a word. -/
def partTerminal (expand : Bool) : Terminal :=
  if expand then .envVar else .word

/- A blank that may be left out. -/
def optional {A : Type} (given : Bool) (a : A) : List A :=
  if given then [a] else []

namespace Rule

def lhs : Rule → Nonterminal
| commandEol | commandEof | emptyEol | emptyEof
| blankEol | blankEof => .commandTree
| newCommand | bindCommands _ => .command
| paramsRedirect | paramsBlankRedirect
| onlyRedirect | blankRedirect => .simpleCommand
| exeWord | exeBlankWord => .exeName
| moreParams | oneParam => .params
| noRedirect | redirect _ _ _ => .redirect
| moreWord _ | oneWord _ => .word

def rhs : Rule → List GrammarSymbol
| commandEol => [.inr .command, .inl .endOfLine]
| commandEof => [.inr .command, .inl .endOfFile]
| emptyEol => [.inl .endOfLine]
| emptyEof => [.inl .endOfFile]
| blankEol => [.inl .blank, .inl .endOfLine]
| blankEof => [.inl .blank, .inl .endOfFile]
| newCommand => [.inr .simpleCommand]
| bindCommands op =>
    [.inr .command, .inl op.terminal, .inr .command]
| paramsRedirect =>
    [.inr .exeName, .inl .blank, .inr .params, .inr .redirect]
| paramsBlankRedirect =>
    [.inr .exeName, .inl .blank, .inr .params, .inl .blank,
      .inr .redirect]
| onlyRedirect => [.inr .exeName, .inr .redirect]
| blankRedirect =>
    [.inr .exeName, .inl .blank, .inr .redirect]
| exeWord => [.inr .word]
| exeBlankWord => [.inl .blank, .inr .word]
| moreParams => [.inr .params, .inl .blank, .inr .word]
| oneParam => [.inr .word]
| noRedirect => []
| redirect op before after =>
    .inr .redirect :: .inl op.terminal ::
      (optional before (.inl .blank) ++ .inr .word ::
        optional after (.inl .blank))
| moreWord expand =>
    [.inr .word, .inl (partTerminal expand)]
| oneWord expand => [.inl (partTerminal expand)]

end Rule

------------------------------------------------------------
-- Actions
------------------------------------------------------------

/- `new_word` for a part; the word has no other one. -/
def onePart (string : Text) (expand : Bool) : Word :=
  ⟨⟨string, expand⟩, []⟩

/- `add_part_to_word`. -/
def addPartToWord (part : Part) (w : Word) : Word :=
  { w with nextParts := w.nextParts ++ [part] }

/- `bind_parts`. -/
def bindParts
    (exeName : Word) (params : List Word) (red : Redirect) :
    SimpleCommand :=
  ⟨exeName, params, red⟩

/-
  The action of a rule.  Other values than those of its right
  side have no result, nor has a failing assertion.
-/
def Rule.action : Rule → List Value → Option Value
| commandEol, [.command c, _]
| commandEof, [.command c, _] => some (.commandRoot (some c))
| emptyEol, [_]
| emptyEof, [_]
| blankEol, [_, _]
| blankEof, [_, _] => some (.commandRoot none)
| newCommand, [.simpleCommand s] =>
    some (.command (.simple s))
| bindCommands op, [.command c₁, _, .command c₂] =>
    some (.command (.bind op c₁ c₂))
| paramsRedirect, [.word w, _, .params ws, .redirect r]
| paramsBlankRedirect,
    [.word w, _, .params ws, _, .redirect r] =>
    some (.simpleCommand (bindParts w ws r))
| onlyRedirect, [.word w, .redirect r]
| blankRedirect, [.word w, _, .redirect r] =>
    some (.simpleCommand (bindParts w [] r))
| exeWord, [.word w]
| exeBlankWord, [_, .word w] => some (.word w)
| moreParams, [.params ws, _, .word w] =>
    some (.params (ws ++ [w]))
| oneParam, [.word w] => some (.params [w])
| noRedirect, [] => some (.redirect emptyRedirect)
| redirect op before _, .redirect r :: _ :: values =>
    match values.drop before.toNat with
    | .word w :: _ => (redirectRule r (op, w)).map .redirect
    | _ => none
| moreWord expand, [.word w, .string s] =>
    some (.word (addPartToWord ⟨s, expand⟩ w))
| oneWord expand, [.string s] =>
    some (.word (onePart s expand))
| _, _ => none

/- The rules in the order of the source, from number 1 on. -/
def rules : List (Option Rule) :=
  [none, none,
    some .commandEol, some .commandEof, some .emptyEol,
    some .emptyEof, some .blankEol, some .blankEof,
    some .newCommand,
    some (.bindCommands .sequential),
    some (.bindCommands .parallel),
    some (.bindCommands .conditionalZero),
    some (.bindCommands .conditionalNzero),
    some (.bindCommands .pipe),
    some .paramsRedirect, some .paramsBlankRedirect,
    some .onlyRedirect, some .blankRedirect,
    some .exeWord, some .exeBlankWord,
    some .moreParams, some .oneParam,
    some .noRedirect,
    some (.redirect .redirectOE false false),
    some (.redirect .redirectE false false),
    some (.redirect .redirectO false false),
    some (.redirect .redirectAppendE false false),
    some (.redirect .redirectAppendO false false),
    some (.redirect .indirect false false),
    some (.redirect .redirectOE false true),
    some (.redirect .redirectE false true),
    some (.redirect .redirectO false true),
    some (.redirect .redirectAppendE false true),
    some (.redirect .redirectAppendO false true),
    some (.redirect .indirect false true),
    some (.redirect .redirectOE true false),
    some (.redirect .redirectE true false),
    some (.redirect .redirectO true false),
    some (.redirect .redirectAppendE true false),
    some (.redirect .redirectAppendO true false),
    some (.redirect .indirect true false),
    some (.redirect .redirectOE true true),
    some (.redirect .redirectE true true),
    some (.redirect .redirectO true true),
    some (.redirect .redirectAppendO true true),
    some (.redirect .redirectAppendE true true),
    some (.redirect .indirect true true),
    some (.moreWord false), some (.moreWord true),
    some (.oneWord false), some (.oneWord true)]

def grammar :
    ShiftReduce.Grammar Terminal Nonterminal Rule Token Value where
  start := .commandTree
  lhs := Rule.lhs
  rhs := Rule.rhs
  kind := Token.kind
  value token := .string token.string
  action := Rule.action

end Shell

end ProgrammingTasks
