import ProgrammingTasks.Shell.ParserTables

/-
  The messages of the generated parser (`parser.tab.c`).

  The message of an error names the unexpected token and up to
  four tokens that have an action in the state of the parser.
  In general default reductions spoil that list.  In the states
  where this parser shows it, it is exact.

  Main declarations:
    * `yytname`, `expectedTokens`, `yysyntaxError`
    * `Continues`
    * `expected_of_rejected`
-/

------------------------------------------------------------
-- Messages
------------------------------------------------------------

namespace ProgrammingTasks

namespace Shell

open ShiftReduce (top)

/- The names of the tokens, by their numbers. -/
def yytname : List String :=
  ["$end", "error", "$undefined", "NOT_ACCEPTED_CHAR",
    "INVALID_ENVIRONMENT_VAR", "UNEXPECTED_EOF",
    "CHARS_AFTER_EOL", "END_OF_FILE", "END_OF_LINE", "BLANK",
    "REDIRECT_OE", "REDIRECT_O", "REDIRECT_E", "INDIRECT",
    "REDIRECT_APPEND_E", "REDIRECT_APPEND_O", "WORD", "ENV_VAR",
    "SEQUENTIAL", "PARALLEL", "CONDITIONAL_NZERO",
    "CONDITIONAL_ZERO", "PIPE"]

/- The number of the token `error`. -/
def yyterror : Nat := 1

/- The most tokens that a message names. -/
def yyerrorVerboseArgsMaximum : Nat := 5

/- The tokens that have an action in a state. -/
def expectedTokens (yystate : Nat) : List Nat :=
  let yyn := yypact.getD yystate yypactNinf
  if yyn = yypactNinf then
    []
  else
    let yyxbegin := if yyn < 0 then (-yyn).toNat else 0
    let yychecklim := yylast - yyn + 1
    let yyxend :=
      if yychecklim < yyntokens then yychecklim.toNat
      else yyntokens
    (List.range' yyxbegin (yyxend - yyxbegin)).filter fun yyx =>
      yycheck.getD (yyx + yyn).toNat (-1) = yyx ∧ yyx ≠ yyterror

/- None of them when there are too many. -/
def shownTokens (yystate : Nat) : List Nat :=
  if (expectedTokens yystate).length < yyerrorVerboseArgsMaximum then
    expectedTokens yystate
  else
    []

/- `yysyntax_error`. -/
def yysyntaxError
    (yystate : Nat) (yytoken : Option Terminal) : String :=
  let name n := yytname.getD n ""
  let unexpected :=
    "syntax error, unexpected " ++ name (yytranslate yytoken)
  match shownTokens yystate with
  | [] => unexpected
  | n :: ns =>
      ns.foldl (fun message n => message ++ " or " ++ name n)
        (unexpected ++ ", expecting " ++ name n)

example :
    yysyntaxError 26 (some .pipe) =
      "syntax error, unexpected PIPE, expecting WORD or ENV_VAR" := by
  decide

------------------------------------------------------------
-- States with Errors
------------------------------------------------------------

/-
  In a state that may reject a token and shows its list, the
  list has the tokens that are shifted, and the state has been
  entered by a shift.
-/
theorem check_shown :
    ∀ s ∈ parserStates,
      (∃ k ∈ none :: terminals.map some, yybackup s k = .error) →
      shownTokens s ≠ [] →
        (∀ k ∈ terminals,
          if yytranslate (some k) ∈ shownTokens s then
            ∃ s' ∈ parserStates, yybackup s (some k) = .shift s'
          else
            yybackup s (some k) = .error) ∧
        ∃ k ∈ terminals,
          symbolOf (yystos.getD s 0) = .inl k := by
  decide +kernel

/- The states from which the line may end. -/
def finishStates : List Nat :=
  parserStates.filter fun s =>
    yybackup s (some .endOfLine) ≠ .error

/- The states after the end of the line. -/
def acceptStates : List Nat := [2, 12, 16]

/- The kinds of tokens with which the parser ends. -/
def EndsWith (s : Nat) (ks : List Terminal) : Prop :=
  (s ∈ finishStates ∧ ks = [.endOfLine]) ∨
    (s ∈ acceptStates ∧ ks = []) ∨
      (yybackup s (some .word) = .shift 4 ∧
        ks = [.word, .endOfLine])

/- The end of the line leads to no error. -/
def finishSound (s : Nat) : ShiftReduce.Decision Rule → Bool
| .error => false
| .shift s' => decide (s' ∈ acceptStates)
| .reduce r =>
    decide (r.lhs = .commandTree) ||
      (ShiftReduce.walks parserAnnotation.below
          r.rhs.length s).all
        fun w => decide (yygoto w.2 r.lhs ∈ finishStates)

def acceptSound : ShiftReduce.Decision Rule → Bool
| .reduce r => decide (r.lhs = .commandTree)
| _ => false

theorem check_finish :
    ∀ s ∈ finishStates,
      finishSound s (yybackup s (some .endOfLine)) = true := by
  decide

theorem check_accept :
    ∀ s ∈ acceptStates,
      acceptSound (yybackup s none) = true := by
  decide

theorem check_word :
    ∀ s ∈ parserStates,
      s ∈ finishStates ∨ yybackup s (some .word) = .shift 4 := by
  decide

theorem parser_finishes :
    ShiftReduce.Finishes grammar parserTables parserAnnotation
      EndsWith := by
  rintro s _ (⟨hState, rfl⟩ | ⟨hState, rfl⟩ | ⟨hShift, rfl⟩)
  · have hSound := check_finish s hState
    have hAt :
        parserTables.decision s [Terminal.endOfLine].head? =
          yybackup s (some .endOfLine) :=
      rfl
    rw [hAt]
    cases hDecision : yybackup s (some .endOfLine) with
    | error =>
        rw [hDecision] at hSound
        cases hSound
    | shift s' =>
        rw [hDecision] at hSound
        exact .inr (.inl ⟨decide_eq_true_iff.mp hSound, rfl⟩)
    | reduce r =>
        rw [hDecision] at hSound
        rcases (Bool.or_eq_true _ _).mp hSound with hEnd | hOn
        · exact .inl hEnd
        · refine .inr fun w hWalk => .inl ⟨?_, rfl⟩
          exact decide_eq_true_iff.mp
            (List.all_eq_true.mp hOn w hWalk)
  · have hSound := check_accept s hState
    have hAt :
        parserTables.decision s ([] : List Terminal).head? =
          yybackup s none :=
      rfl
    rw [hAt]
    cases hDecision : yybackup s none with
    | error =>
        rw [hDecision] at hSound
        cases hSound
    | shift s' =>
        rw [hDecision] at hSound
        cases hSound
    | reduce r =>
        rw [hDecision] at hSound
        exact .inl hSound
  · have hAt :
        parserTables.decision s
            [Terminal.word, Terminal.endOfLine].head? =
          yybackup s (some .word) :=
      rfl
    rw [hAt, hShift]
    exact .inl ⟨by decide, rfl⟩

------------------------------------------------------------
-- Expected Tokens
------------------------------------------------------------

/-
  A token of this kind may come next: some rest of the line is
  not rejected.
-/
def Continues (w : List Token) (k : Terminal) : Prop :=
  ∃ t u, t.kind = k ∧
    ∀ state rest,
      yyparse (w ++ t :: u) ≠ some (.rejected state rest)

/- From any stack that is reached the line may be completed. -/
theorem exists_completion
    {w : List Token} {stack : ShiftReduce.Stack Value}
    (hReaches :
      ∀ rest, ShiftReduce.Reaches grammar parserTables
        ⟨[], w ++ rest⟩ ⟨stack, rest⟩) :
    ∃ u, ∀ state rest,
      yyparse (w ++ u) ≠ some (.rejected state rest) := by
  have hSpells :=
    fun rest =>
      ShiftReduce.spells_of_reaches parser_checked (hReaches rest)
  have hState : top stack ∈ parserStates := by
    rcases hSpells [] with ⟨w', _, hAt⟩
    exact hAt.top_mem parser_checked
  have hEnds :
      ∃ u : List Token,
        EndsWith (top stack) (u.map Token.kind) := by
    rcases check_word (top stack) hState with hFinish | hWord
    · exact ⟨[⟨.endOfLine, [], 0⟩], .inl ⟨hFinish, rfl⟩⟩
    · exact ⟨[⟨.word, [], 0⟩, ⟨.endOfLine, [], 0⟩],
        .inr (.inr ⟨hWord, rfl⟩)⟩
  rcases hEnds with ⟨u, hEnds⟩
  refine ⟨u, ?_⟩
  intro state rest hRejected
  rcases hSpells u with ⟨w', _, hAt⟩
  -- the run from this stack has an outcome of its own
  have hRun :=
    ShiftReduce.run_isSome parser_checked hAt
      (Nat.lt_succ_self _)
  rcases Option.isSome_iff_exists.mp hRun with ⟨outcome, hRun⟩
  rcases ShiftReduce.reaches_of_run hRun with
    ⟨c, hOn, hStep⟩
  have hParse := yyparse_of_reaches ((hReaches u).trans hOn) hStep
  rw [hRejected, Option.some.injEq] at hParse
  rw [← hParse] at hStep
  exact ShiftReduce.not_rejected parser_checked parser_finishes
    hAt hEnds hOn state rest hStep

/-
  A message that lists tokens lists just those that could have
  come in the place of the unexpected one.
-/
theorem expected_of_rejected
    {tokens rest : List Token} {state : Nat}
    (hRejected :
      yyparse tokens = some (.rejected state rest))
    (hShown : shownTokens state ≠ []) :
    ∃ w, tokens = w ++ rest ∧
      ∀ k, yytranslate (some k) ∈ shownTokens state ↔
        Continues w k := by
  rcases ShiftReduce.reaches_of_run hRejected with
    ⟨⟨stack, rest'⟩, hReaches, hStep⟩
  rcases ShiftReduce.spells_of_reaches parser_checked hReaches with
    ⟨w', _, hSpells⟩
  rcases hSpells.outcome parser_checked hStep with
    ⟨hTop, rfl, hDecision⟩
  dsimp only at hTop hDecision
  have hState := hSpells.top_mem parser_checked
  rw [← hTop] at hState
  rcases check_shown state hState
      ⟨_, parser_checked.lookaheads _, hDecision⟩ hShown with
    ⟨hTokens, k₀, _, hSymbol⟩
  rcases ShiftReduce.reaches_before parser_checked hReaches with
    ⟨w, hSplit, hBefore⟩
  have hSame :
      ∀ rest, ShiftReduce.Reaches grammar parserTables
        ⟨[], w ++ rest⟩ ⟨stack, rest⟩ := by
    intro rest
    refine hBefore rest (.inr ⟨k₀, ?_⟩)
    rw [← hTop]
    exact hSymbol
  refine ⟨w, hSplit, ?_⟩
  intro k
  have hToken := hTokens k (mem_terminals k)
  constructor
  · intro hListed
    rw [if_pos hListed] at hToken
    rcases hToken with ⟨s', _, hShift⟩
    rw [hTop] at hShift
    have hNext :
        ∀ rest, ShiftReduce.Reaches grammar parserTables
          ⟨[], (w ++ [(⟨k, [], 0⟩ : Token)]) ++ rest⟩
          ⟨(s', .string []) :: stack, rest⟩ := by
      intro rest
      rw [List.append_assoc]
      exact (hSame (⟨k, [], 0⟩ :: rest)).trans
        (ShiftReduce.reaches_shift hShift rest)
    rcases exists_completion hNext with ⟨u, hNever⟩
    refine ⟨⟨k, [], 0⟩, u, rfl, ?_⟩
    intro state' rest''
    have hAt := hNever state' rest''
    rw [List.append_assoc] at hAt
    exact hAt
  · rintro ⟨t, u, rfl, hNever⟩
    by_cases hListed :
        yytranslate (some t.kind) ∈ shownTokens state
    · exact hListed
    · rw [if_neg hListed, hTop] at hToken
      refine absurd ?_ (hNever (top stack) (t :: u))
      refine yyparse_of_reaches (hSame (t :: u)) ?_
      unfold ShiftReduce.step
      dsimp only
      have hError :
          parserTables.decision (top stack)
              ((t :: u).head?.map grammar.kind) = .error :=
        hToken
      rw [hError]

end Shell

end ProgrammingTasks
