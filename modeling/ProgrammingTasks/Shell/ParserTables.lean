import ProgrammingTasks.Shell.Grammar

/-
  The generated parser (`parser.tab.c`).

  The tables are those of the source.  The numbers of tokens
  start at 3 and those of nonterminals at 24.  The check of the
  tables runs over all states that the parser can enter.

  Main declarations:
    * `yybackup`, `yygoto`, `parserTables`
    * `yyparse`
    * `parserStates`, `parser_checked`
    * `yyparse_isSome`, `yyparse_of_reaches`, `parser_stack`
-/

------------------------------------------------------------
-- Tables
------------------------------------------------------------

namespace ProgrammingTasks

namespace Shell

/- A value that lets the default action be taken. -/
def yypactNinf : Int := -22

def yylast : Int := 130

def yyntokens : Nat := 23

def yyfinal : Nat := 14

/- The size of the stacks that `yyparse` starts with. -/
def yyinitdepth : Nat := 200

def yypact : List Int :=
  [44, -22, -22, 14, -22, -22, 10, -5, -22, 3, 100, -22,
   -22, 100, -22, -22, -22, 9, 9, 9, 9, 9, 113, -6, -22,
   -22, 113, 106, 7, 2, 2, -22, 30, -6, 100, 38, 40, 49, 53,
   55, 58, 113, -6, 113, 64, 113, 67, 113, 69, 113, 73, 113,
   78, 113, 82, -6, 100, 84, -22, 87, -22, 93, -22, 96, -22,
   98, -22, 102, -22, -22, -22, -22, -22, -22, -22]

def yydefact : List Nat :=
  [0, 5, 4, 0, 49, 50, 0, 0, 8, 22, 18, 7, 6, 19, 1, 3, 2,
   0, 0, 0, 0, 0, 22, 16, 47, 48, 0, 9, 10, 12, 11, 13, 22,
   17, 21, 0, 0, 0, 0, 0, 0, 22, 14, 0, 23, 0, 25, 0, 24, 0,
   28, 0, 26, 0, 27, 15, 20, 35, 29, 37, 31, 36, 30, 40, 34,
   38, 32, 39, 33, 41, 43, 42, 46, 45, 44]

def yypgoto : List Int :=
  [-22, -22, 103, -22, -22, -22, -21, -3]

def yydefgoto : List Int :=
  [-1, 6, 7, 8, 9, 32, 23, 10]

def yytable : List Int :=
  [13, 33, 15, 16, 35, 36, 37, 38, 39, 40, 14, 42, 22, 17,
   18, 19, 20, 21, 26, 34, 55, 11, 12, 13, 21, 4, 5, 19, 20,
   21, 4, 5, 44, 46, 48, 50, 52, 54, 56, 41, 57, 0, 59, 0,
   61, 0, 63, 43, 65, 45, 67, 1, 2, 3, 4, 5, 4, 5, 47, 0, 4,
   5, 49, 0, 51, 4, 5, 53, 0, 4, 5, 4, 5, 58, 4, 5, 60, 0,
   62, 0, 24, 25, 64, 24, 25, 24, 25, 66, 0, 24, 25, 68, 0,
   69, 24, 25, 70, 0, 24, 25, 24, 25, 71, 24, 25, 72, 0, 73,
   0, 24, 25, 74, 24, 25, 24, 25, 24, 25, 24, 25, 27, 28,
   29, 30, 31, 18, 19, 20, 21, 4, 5]

def yycheck : List Int :=
  [3, 22, 7, 8, 10, 11, 12, 13, 14, 15, 0, 32, 9, 18, 19,
   20, 21, 22, 9, 22, 41, 7, 8, 26, 22, 16, 17, 20, 21, 22,
   16, 17, 35, 36, 37, 38, 39, 40, 41, 9, 43, -1, 45, -1,
   47, -1, 49, 9, 51, 9, 53, 7, 8, 9, 16, 17, 16, 17, 9, -1,
   16, 17, 9, -1, 9, 16, 17, 9, -1, 16, 17, 16, 17, 9, 16,
   17, 9, -1, 9, -1, 16, 17, 9, 16, 17, 16, 17, 9, -1, 16,
   17, 9, -1, 9, 16, 17, 9, -1, 16, 17, 16, 17, 9, 16, 17,
   9, -1, 9, -1, 16, 17, 9, 16, 17, 16, 17, 16, 17, 16, 17,
   17, 18, 19, 20, 21, 19, 20, 21, 22, 16, 17]

def yystos : List Nat :=
  [0, 7, 8, 9, 16, 17, 24, 25, 26, 27, 30, 7, 8, 30, 0, 7,
   8, 18, 19, 20, 21, 22, 9, 29, 16, 17, 9, 25, 25, 25, 25,
   25, 28, 29, 30, 10, 11, 12, 13, 14, 15, 9, 29, 9, 30, 9,
   30, 9, 30, 9, 30, 9, 30, 9, 30, 29, 30, 30, 9, 30, 9, 30,
   9, 30, 9, 30, 9, 30, 9, 9, 9, 9, 9, 9, 9]

def yyr1 : List Nat :=
  [0, 23, 24, 24, 24, 24, 24, 24, 25, 25, 25, 25, 25, 25,
   26, 26, 26, 26, 27, 27, 28, 28, 29, 29, 29, 29, 29, 29,
   29, 29, 29, 29, 29, 29, 29, 29, 29, 29, 29, 29, 29, 29,
   29, 29, 29, 29, 29, 30, 30, 30, 30]

def yyr2 : List Nat :=
  [0, 2, 2, 2, 1, 1, 2, 2, 1, 3, 3, 3, 3, 3, 4, 5, 2, 3, 1,
   2, 3, 1, 0, 3, 3, 3, 3, 3, 3, 4, 4, 4, 4, 4, 4, 4, 4, 4,
   4, 4, 4, 5, 5, 5, 5, 5, 5, 2, 2, 1, 1]

------------------------------------------------------------
-- Numbers of Symbols
------------------------------------------------------------

/- `yytokentype`. -/
def terminals : List Terminal :=
  [.notAcceptedChar, .invalidEnvironmentVar, .unexpectedEof,
    .charsAfterEol, .endOfFile, .endOfLine, .blank,
    .redirectOE, .redirectO, .redirectE, .indirect,
    .redirectAppendE, .redirectAppendO, .word, .envVar,
    .sequential, .parallel, .conditionalNzero,
    .conditionalZero, .pipe]

def nonterminals : List Nonterminal :=
  [.commandTree, .command, .simpleCommand, .exeName, .params,
    .redirect, .word]

/- `yytranslate`, with 0 when there is no token left. -/
def yytranslate : Option Terminal → Nat
| none => 0
| some k => terminals.idxOf k + 3

def Nonterminal.number (n : Nonterminal) : Nat :=
  nonterminals.idxOf n + 24

/- The symbol of a number, where it has one. -/
def symbolOf (number : Nat) : GrammarSymbol :=
  if number < yyntokens then
    .inl (terminals.getD (number - 3) .notAcceptedChar)
  else
    .inr (nonterminals.getD (number - 24) .commandTree)

/- The rules have the lengths and left sides of the tables. -/
theorem rule_tables :
    rules.length = yyr1.length ∧ rules.length = yyr2.length ∧
      ∀ n < rules.length, ∀ r ∈ rules.getD n none,
        yyr1.getD n 0 = r.lhs.number ∧
          yyr2.getD n 0 = r.rhs.length := by
  decide

------------------------------------------------------------
-- The Automaton
------------------------------------------------------------

/- `yyreduce` for the number of a rule, or `yyerrlab` for 0. -/
def reduceRule (yyn : Nat) : ShiftReduce.Decision Rule :=
  match rules.getD yyn none with
  | none => .error
  | some r => .reduce r

/- `yydefault`. -/
def yydefault (yystate : Nat) : ShiftReduce.Decision Rule :=
  reduceRule (yydefact.getD yystate 0)

/- `yybackup`. -/
def yybackup
    (yystate : Nat) (yytoken : Option Terminal) :
    ShiftReduce.Decision Rule :=
  let yyn := yypact.getD yystate yypactNinf
  if yyn = yypactNinf then
    yydefault yystate
  else
    let yyn := yyn + yytranslate yytoken
    if yyn < 0 ∨ yylast < yyn ∨
        yycheck.getD yyn.toNat (-1) ≠ yytranslate yytoken then
      yydefault yystate
    else
      let yyn := yytable.getD yyn.toNat 0
      if yyn ≤ 0 then
        reduceRule (-yyn).toNat
      else
        .shift yyn.toNat

/- The state after a reduction in `yyreduce`. -/
def yygoto (yystate : Nat) (n : Nonterminal) : Nat :=
  let yyn := n.number - yyntokens
  let next := yypgoto.getD yyn 0 + yystate
  if 0 ≤ next ∧ next ≤ yylast ∧
      yycheck.getD next.toNat (-1) = yystate then
    (yytable.getD next.toNat 0).toNat
  else
    (yydefgoto.getD yyn 0).toNat

/- The rules for `command_tree` end with `YYACCEPT`. -/
def parserTables :
    ShiftReduce.Tables Terminal Nonterminal Rule where
  decision := yybackup
  goto := yygoto
  accepts r := decide (r.lhs = .commandTree)

abbrev ParserConfig := ShiftReduce.Config Token Value

abbrev ParserOutcome := ShiftReduce.Outcome Rule Token Value

/- `yyparse` on the tokens that `yylex` returns. -/
def yyparse (tokens : List Token) : Option ParserOutcome :=
  ShiftReduce.run grammar parserTables
    (10 * (tokens.length + 1)) ⟨[], tokens⟩

------------------------------------------------------------
-- The Check of the Tables
------------------------------------------------------------

/-
  The states that may be below a state on the stack, and the
  bounds for the height of the stack and for the reductions
  before the next shift.
-/
def belowTable : List (List Nat) :=
  [[], [0], [0], [0],
   [0, 3, 17, 18, 19, 20, 21, 22, 26, 35, 36, 37, 38, 39, 40,
    41, 43, 45, 47, 49, 51, 53],
   [0, 3, 17, 18, 19, 20, 21, 22, 26, 35, 36, 37, 38, 39, 40,
    41, 43, 45, 47, 49, 51, 53], [], [0],
   [0, 17, 18, 19, 20, 21], [0, 17, 18, 19, 20, 21],
   [0, 17, 18, 19, 20, 21], [3], [3], [3, 26], [], [7], [7],
   [7], [7, 27], [7, 27, 28], [7, 27, 28],
   [7, 27, 28, 29, 30], [9], [9],
   [10, 13, 34, 44, 46, 48, 50, 52, 54, 56, 57, 59, 61, 63,
    65, 67],
   [10, 13, 34, 44, 46, 48, 50, 52, 54, 56, 57, 59, 61, 63,
    65, 67], [17, 18, 19, 20, 21], [17], [18], [19], [20],
   [21], [22], [22], [22], [23, 33, 42, 55], [23, 33, 42, 55],
   [23, 33, 42, 55], [23, 33, 42, 55], [23, 33, 42, 55],
   [23, 33, 42, 55], [32], [32], [35], [35], [36], [36], [37],
   [37], [38], [38], [39], [39], [40], [40], [41], [41], [43],
   [44], [45], [46], [47], [48], [49], [50], [51], [52], [53],
   [54], [57], [59], [61], [63], [65], [67]]

def lowTable : List Nat :=
  [0, 1, 1, 1, 1, 1, 0, 1, 1, 1, 1, 2, 2, 2, 0, 2, 2, 2, 2,
   2, 2, 2, 2, 2, 2, 2, 3, 3, 3, 3, 3, 3, 3, 3, 3, 3, 3, 3,
   3, 3, 3, 4, 4, 4, 4, 4, 4, 4, 4, 4, 4, 4, 4, 4, 4, 5, 5,
   5, 5, 5, 5, 5, 5, 5, 5, 5, 5, 5, 5, 6, 6, 6, 6, 6, 6]

def highTable : List Nat :=
  [0, 1, 1, 1, 16, 16, 0, 1, 9, 9, 9, 2, 2, 10, 0, 2, 2, 2,
   4, 6, 6, 8, 10, 10, 17, 17, 9, 3, 5, 7, 7, 9, 11, 11, 11,
   14, 14, 14, 14, 14, 14, 12, 12, 15, 15, 15, 15, 15, 15,
   15, 15, 15, 15, 15, 15, 13, 13, 16, 16, 16, 16, 16, 16,
   16, 16, 16, 16, 16, 16, 17, 17, 17, 17, 17, 17]

def creditTable : List Nat :=
  [0, 0, 0, 0, 9, 9, 0, 0, 5, 7, 8, 0, 0, 8, 0, 0, 0, 0, 0,
   0, 0, 0, 7, 6, 9, 9, 0, 1, 2, 3, 3, 4, 7, 6, 8, 0, 0, 0,
   0, 0, 0, 7, 6, 0, 7, 0, 7, 0, 7, 0, 7, 0, 7, 0, 7, 6, 8,
   7, 7, 7, 7, 7, 7, 7, 7, 7, 7, 7, 7, 7, 7, 7, 7, 7, 7]

/- The states 6 and `YYFINAL` are never entered. -/
def parserStates : List Nat :=
  (List.range yypact.length).filter
    fun s => s ≠ 6 ∧ s ≠ yyfinal

def parserAnnotation :
    ShiftReduce.Annotation Terminal Nonterminal where
  states := parserStates
  lookaheads := none :: terminals.map some
  below s := belowTable.getD s []
  symbol s := symbolOf (yystos.getD s 0)
  low s := lowTable.getD s 0
  high s := highTable.getD s 0
  credit s := creditTable.getD s 0
  price := 10

theorem mem_terminals (k : Terminal) : k ∈ terminals := by
  cases k <;> decide

theorem parser_low :
    ∀ s ∈ parserStates, ∀ s' ∈ belowTable.getD s [],
      lowTable.getD s 0 ≤ lowTable.getD s' 0 + 1 := by
  decide

theorem parser_high :
    ∀ s ∈ parserStates, ∀ s' ∈ belowTable.getD s [],
      highTable.getD s' 0 < highTable.getD s 0 := by
  decide

theorem parser_credit :
    ∀ s ∈ parserStates, creditTable.getD s 0 < 10 := by
  decide

theorem parser_decisions :
    ∀ s ∈ parserStates, ∀ k ∈ none :: terminals.map some,
      ShiftReduce.DecisionSound grammar parserTables
        parserAnnotation s k (yybackup s k) := by
  decide +kernel

theorem parser_checked :
    ShiftReduce.Checked grammar parserTables
      parserAnnotation where
  start := by decide
  bottom := rfl
  low_start := rfl
  lookaheads k := by
    cases k with
    | none => exact List.mem_cons_self
    | some k =>
        exact List.mem_cons_of_mem _
          (List.mem_map_of_mem (mem_terminals k))
  low := parser_low
  high := parser_high
  credit := parser_credit
  decisions := parser_decisions

------------------------------------------------------------
-- All Lists of Tokens
------------------------------------------------------------

/- The parser ends after a number of steps that is linear. -/
theorem yyparse_isSome (tokens : List Token) :
    (yyparse tokens).isSome = true := by
  have hFunds :
      ShiftReduce.funds parserAnnotation
          (⟨[], tokens⟩ : ParserConfig) =
        10 * tokens.length :=
    Nat.zero_add _
  refine ShiftReduce.run_isSome parser_checked .nil ?_
  rw [hFunds]
  omega

/- Every decision has a meaning for the stack it is made for. -/
theorem yyparse_not_broken (tokens : List Token) :
    yyparse tokens ≠ some .broken := by
  intro hBroken
  rcases ShiftReduce.reaches_of_run hBroken with
    ⟨c, hReaches, hStep⟩
  rcases ShiftReduce.spells_of_reaches parser_checked hReaches with
    ⟨w, _, hSpells⟩
  exact hSpells.outcome parser_checked hStep

theorem high_le :
    ∀ s ∈ parserStates, highTable.getD s 0 ≤ 17 := by
  decide

/-
  The stack never grows to the size where it is relocated, and
  the parser never comes to `YYFINAL`.
-/
theorem parser_stack
    {tokens : List Token} {c : ParserConfig}
    (hReaches :
      ShiftReduce.Reaches grammar parserTables ⟨[], tokens⟩ c) :
    c.stack.length ≤ 17 ∧
      ShiftReduce.top c.stack ≠ yyfinal := by
  refine ⟨ShiftReduce.length_le_of_reaches parser_checked high_le
    hReaches, ?_⟩
  rcases ShiftReduce.spells_of_reaches parser_checked hReaches with
    ⟨w, _, hSpells⟩
  have hMem := hSpells.top_mem parser_checked
  exact (decide_eq_true_iff.mp (List.mem_filter.mp hMem).2).2

/- The outcome is that of any configuration on the way. -/
theorem yyparse_of_reaches
    {tokens : List Token} {c : ParserConfig}
    {outcome : ParserOutcome}
    (hReaches :
      ShiftReduce.Reaches grammar parserTables ⟨[], tokens⟩ c)
    (hStep :
      ShiftReduce.step grammar parserTables c = .inr outcome) :
    yyparse tokens = some outcome := by
  rcases ShiftReduce.run_of_reaches hReaches hStep with
    ⟨fuel, hRun⟩
  have hEnds := yyparse_isSome tokens
  cases hParse : yyparse tokens with
  | none =>
      rw [hParse] at hEnds
      cases hEnds
  | some outcome' =>
      exact congrArg some (ShiftReduce.run_unique hParse hRun)

/-
  On any tokens the parser ends within the steps of `yyparse`,
  and it does so in one of three ways.  On the way its stack
  keeps a bounded size, and `YYFINAL` is never entered.
-/
theorem yyparse_bounds (tokens : List Token) :
    ((∃ v, yyparse tokens = some (.accepted v)) ∨
        (∃ state rest,
          yyparse tokens = some (.rejected state rest)) ∨
        ∃ r, yyparse tokens = some (.aborted r)) ∧
      ∀ c,
        ShiftReduce.Reaches grammar parserTables ⟨[], tokens⟩ c →
          c.stack.length ≤ 17 ∧
            c.stack.length + 1 < yyinitdepth ∧
              ShiftReduce.top c.stack ≠ yyfinal := by
  constructor
  · have hEnds := yyparse_isSome tokens
    cases hParse : yyparse tokens with
    | none =>
        rw [hParse] at hEnds
        cases hEnds
    | some outcome =>
        cases outcome with
        | accepted v => exact .inl ⟨v, rfl⟩
        | rejected state rest =>
            exact .inr (.inl ⟨state, rest, rfl⟩)
        | aborted r => exact .inr (.inr ⟨r, rfl⟩)
        | broken =>
            exact absurd hParse (yyparse_not_broken tokens)
  · intro c hReaches
    rcases parser_stack hReaches with ⟨hHeight, hTop⟩
    have hRoom : c.stack.length + 1 < yyinitdepth := by
      unfold yyinitdepth
      omega
    exact ⟨hHeight, hRoom, hTop⟩

end Shell

end ProgrammingTasks
