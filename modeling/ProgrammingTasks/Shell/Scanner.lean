import ProgrammingTasks.Shell.Sentences
import ProgrammingTasks.Shell.ScannerMatch

/-
  The tokens of a line (`parser.l`).

  The actions of the rules return tokens, or change the start
  condition at quotation marks.  The scanner returns one token
  after another up to the one for the end of the text.

  Main declarations:
    * `lexAction`, `Scanner`, `scanTokens`
    * `scanAll`, `scanAll_eq`
    * `scanAll_token`, `scanAll_begin`
    * `Spells`, `spells_token`
    * `Located`, `EndsAt`, `located_of_scan`
-/

------------------------------------------------------------
-- Actions
------------------------------------------------------------

namespace ProgrammingTasks

namespace Shell

open LongestMatch

inductive LexAction
| token (kind : Terminal) (string : Text)
| begin (start : StartCondition)
| echo
deriving DecidableEq

/-
  The action of a rule for the text that it matches.  Only
  words and variables set `yylval.string_un`.
-/
def lexAction (rule : Nat) (yytext : Text) : LexAction :=
  match rule with
  | 1 => .token .charsAfterEol []
  | 2 => .token .endOfLine []
  | 3 => .begin .acceptAny
  | 4 => .begin .acceptAnyAndExpansion
  | 5 => .token .sequential []
  | 6 => .token .conditionalNzero []
  | 7 => .token .pipe []
  | 8 => .token .conditionalZero []
  | 9 => .token .redirectOE []
  | 10 => .token .parallel []
  | 11 => .token .redirectAppendE []
  | 12 => .token .redirectAppendO []
  | 13 => .token .redirectE []
  | 14 => .token .redirectO []
  | 15 => .token .indirect []
  | 16 => .token .blank []
  | 17 => .token .word yytext
  | 18 => .token .envVar (yytext.drop 1)
  | 19 => .token .invalidEnvironmentVar []
  | 20 => .token .word yytext
  | 21 => .begin .initial
  | 22 => .token .word yytext
  | 23 => .begin .initial
  | 24 => .token .envVar (yytext.drop 1)
  | 25 => .token .invalidEnvironmentVar []
  | 26 => .token .word yytext
  | 27 => .token .notAcceptedChar []
  | _ => .echo

/- The action at the end of the text. -/
def eofTerminal : StartCondition → Terminal
| .initial => .endOfFile
| .acceptAny => .unexpectedEof
| .acceptAnyAndExpansion => .unexpectedEof

/- The rest of the text, and the columns of `yylloc`. -/
structure Scanner where
  start : StartCondition
  rest : Text
  firstColumn : Nat
  lastColumn : Nat

/- The matched text, with `UPD_LOCATION`. -/
def Scanner.update (s : Scanner) (yyleng : Nat) : Scanner where
  start := s.start
  rest := s.rest.drop yyleng
  firstColumn := s.lastColumn
  lastColumn := s.lastColumn + yyleng

/- What calls of `yylex` return, up to the end of the text. -/
def scanTokens : Nat → Scanner → List Token
| 0, _ => []
| fuel + 1, s =>
    match yyAction s.start s.rest with
    | none => [⟨eofTerminal s.start, [], s.firstColumn⟩]
    | some (rule, yyleng) =>
        match lexAction rule (s.rest.take yyleng) with
        | .token kind string =>
            ⟨kind, string, s.lastColumn⟩ ::
              scanTokens fuel (s.update yyleng)
        | .begin start =>
            scanTokens fuel { s.update yyleng with start := start }
        | .echo =>
            scanTokens fuel { s with rest := s.rest.drop yyleng }

/- Every match takes a character at least. -/
def scanAll (s : Scanner) : List Token :=
  scanTokens (s.rest.length + 1) s

/- The scanner as `parse_line` starts it. -/
def scanLine (line : Text) : List Token :=
  scanAll ⟨.initial, line, 0, 0⟩

------------------------------------------------------------
-- One Token After Another
------------------------------------------------------------

theorem yyAction_pos
    {start : StartCondition} {text : Text} {rule n : Nat}
    (hAction : yyAction start text = some (rule, n)) :
    0 < n ∧ n ≤ text.length := by
  have hSome : text ≠ [] := by
    rintro rfl
    rw [yyAction_nil] at hAction
    cases hAction
  rcases yyAction_longest start hSome with
    ⟨rule', n', hAction', hLongest, hPositive⟩
  rw [hAction, Option.some.injEq, Prod.mk.injEq] at hAction'
  rw [hAction'.2]
  exact ⟨hPositive, hLongest.1⟩

theorem scanTokens_fuel
    {fuel fuel' : Nat} {s : Scanner}
    (hEnough : s.rest.length < fuel)
    (hEnough' : s.rest.length < fuel') :
    scanTokens fuel s = scanTokens fuel' s := by
  induction fuel generalizing s fuel' with
  | zero => cases hEnough
  | succ fuel ih =>
      rcases fuel' with _ | fuel'
      · cases hEnough'
      · unfold scanTokens
        cases hAction : yyAction s.start s.rest with
        | none => rfl
        | some x =>
            rcases x with ⟨rule, n⟩
            rcases yyAction_pos hAction with ⟨hPositive, hFits⟩
            have hLess :
                (s.rest.drop n).length < s.rest.length := by
              rw [List.length_drop]
              omega
            have hFuel := hLess.trans_le
              (Nat.le_of_lt_succ hEnough)
            have hFuel' := hLess.trans_le
              (Nat.le_of_lt_succ hEnough')
            dsimp only
            cases lexAction rule (s.rest.take n) with
            | token kind string =>
                exact congrArg _
                  (ih (s := s.update n) hFuel hFuel')
            | begin start =>
                exact ih (s := { s.update n with start := start })
                  hFuel hFuel'
            | echo =>
                exact ih
                  (s := { s with rest := s.rest.drop n })
                  hFuel hFuel'

theorem scanAll_eq (s : Scanner) :
    scanAll s =
      match yyAction s.start s.rest with
      | none => [⟨eofTerminal s.start, [], s.firstColumn⟩]
      | some (rule, yyleng) =>
          match lexAction rule (s.rest.take yyleng) with
          | .token kind string =>
              ⟨kind, string, s.lastColumn⟩ ::
                scanAll (s.update yyleng)
          | .begin start =>
              scanAll { s.update yyleng with start := start }
          | .echo =>
              scanAll { s with rest := s.rest.drop yyleng } := by
  unfold scanAll
  rw [scanTokens]
  cases hAction : yyAction s.start s.rest with
  | none => rfl
  | some x =>
      rcases x with ⟨rule, n⟩
      rcases yyAction_pos hAction with ⟨hPositive, hFits⟩
      have hLess : (s.rest.drop n).length < s.rest.length := by
        rw [List.length_drop]
        omega
      dsimp only
      cases lexAction rule (s.rest.take n) with
      | token kind string =>
          exact congrArg _
            (scanTokens_fuel hLess (Nat.lt_succ_self _))
      | begin start =>
          exact scanTokens_fuel hLess (Nat.lt_succ_self _)
      | echo =>
          exact scanTokens_fuel hLess (Nat.lt_succ_self _)

theorem scanAll_token
    {start : StartCondition} {w rest : Text} {rule : Nat}
    {kind : Terminal} {string : Text}
    (hAction :
      yyAction start (w ++ rest) = some (rule, w.length))
    (hToken : lexAction rule w = .token kind string)
    (first last : Nat) :
    scanAll ⟨start, w ++ rest, first, last⟩ =
      ⟨kind, string, last⟩ ::
        scanAll ⟨start, rest, last, last + w.length⟩ := by
  rw [scanAll_eq]
  dsimp only
  rw [hAction]
  dsimp only
  rw [List.take_left, hToken]
  unfold Scanner.update
  dsimp only
  rw [List.drop_left]

theorem scanAll_begin
    {start start' : StartCondition} {w rest : Text} {rule : Nat}
    (hAction :
      yyAction start (w ++ rest) = some (rule, w.length))
    (hBegin : lexAction rule w = .begin start')
    (first last : Nat) :
    scanAll ⟨start, w ++ rest, first, last⟩ =
      scanAll ⟨start', rest, last, last + w.length⟩ := by
  rw [scanAll_eq]
  dsimp only
  rw [hAction]
  dsimp only
  rw [List.take_left, hBegin]
  unfold Scanner.update
  dsimp only
  rw [List.drop_left]

/- The default rule is never taken. -/
theorem yyAction_ne_echo
    {start : StartCondition} {text : Text} {n : Nat} :
    yyAction start text ≠ some (28, n) := by
  have hTable : ∀ s, yyAccept.getD s 0 ≠ 28 := by
    intro s
    rw [List.getD_eq_getElem?_getD]
    cases hEntry : yyAccept[s]? with
    | none => decide
    | some x =>
        have hAll : ∀ x ∈ yyAccept, x ≠ 28 := by
          decide
        exact hAll x (List.mem_of_getElem? hEntry)
  intro hAction
  unfold yyAction at hAction
  dsimp only at hAction
  split at hAction
  · split at hAction
    · cases hAction
    · split at hAction
      · rw [Option.some.injEq, Prod.mk.injEq] at hAction
        exact hTable _ hAction.1
      · rw [Option.some.injEq, Prod.mk.injEq] at hAction
        exact hTable _ hAction.1
  · rw [Option.some.injEq, Prod.mk.injEq] at hAction
    exact hTable _ hAction.1

/- No other rule has its action. -/
theorem echo_rule
    {start : StartCondition} {rule : Nat} {p : CharPattern}
    (hRule : (rule, p) ∈ lexRules start)
    {w : Text}
    (hEcho : lexAction rule w = .echo) :
    rule = 28 := by
  have hNumbers :
      ∀ r ∈ lexRules start, 1 ≤ r.1 ∧ r.1 ≤ 28 := by
    cases start <;> decide
  have hLow : 1 ≤ rule := (hNumbers _ hRule).1
  have hHigh : rule ≤ 28 := (hNumbers _ hRule).2
  unfold lexAction at hEcho
  split at hEcho <;> grind

/- A rule that is taken is active and matches the text. -/
theorem yyAction_rule
    {start : StartCondition} {w rest : Text} {rule : Nat}
    (hAction :
      yyAction start (w ++ rest) = some (rule, w.length)) :
    ∃ p, (rule, p) ∈ lexRules start ∧
      w ∈ p.language := by
  have hSome : w ++ rest ≠ [] := by
    intro hNone
    rw [hNone, yyAction_nil] at hAction
    cases hAction
  rcases yyAction_longest start hSome with
    ⟨rule', n, hAction', hLongest, _⟩
  rw [hAction, Option.some.injEq, Prod.mk.injEq] at hAction'
  rcases hAction' with ⟨rfl, rfl⟩
  have hFirst := hLongest.2.1
  rw [List.take_left] at hFirst
  exact LongestMatch.first_mem hFirst

/-
  A property of a scanner and its tokens holds if it holds at
  the end of the text, and before each match if it holds after
  it.
-/
theorem scanAll_rec
    {motive : Scanner → List Token → Prop}
    (hEnd :
      ∀ start first last,
        motive ⟨start, [], first, last⟩
          [⟨eofTerminal start, [], first⟩])
    (hToken :
      ∀ start w rest first last rule p kind string tokens,
        (rule, p) ∈ lexRules start → w ∈ p.language → w ≠ [] →
        lexAction rule w = .token kind string →
        motive ⟨start, rest, last, last + w.length⟩ tokens →
        motive ⟨start, w ++ rest, first, last⟩
          (⟨kind, string, last⟩ :: tokens))
    (hBegin :
      ∀ start w rest first last rule p start' tokens,
        (rule, p) ∈ lexRules start → w ∈ p.language → w ≠ [] →
        lexAction rule w = .begin start' →
        motive ⟨start', rest, last, last + w.length⟩ tokens →
        motive ⟨start, w ++ rest, first, last⟩ tokens)
    (s : Scanner) :
    motive s (scanAll s) := by
  rcases s with ⟨start, text, first, last⟩
  induction hLength : text.length using Nat.strong_induction_on
    generalizing start text first last with
  | h length ih =>
      subst hLength
      cases hAction : yyAction start text with
      | none =>
          have hNone : text = [] := by
            by_cases hSome : text = []
            · exact hSome
            · rcases yyAction_longest start hSome with
                ⟨rule, n, hAction', _⟩
              rw [hAction] at hAction'
              cases hAction'
          subst hNone
          rw [scanAll_eq]
          dsimp only
          rw [hAction]
          exact hEnd start first last
      | some x =>
          rcases x with ⟨rule, n⟩
          rcases yyAction_pos hAction with ⟨hPositive, hFits⟩
          have hTake : (text.take n).length = n :=
            List.length_take_of_le hFits
          have hSome : text.take n ≠ [] := by
            rw [← List.length_pos_iff, hTake]
            exact hPositive
          have hRest : (text.drop n).length < text.length := by
            rw [List.length_drop]
            omega
          have hSplit := (List.take_append_drop n text).symm
          have hActionAt :
              yyAction start (text.take n ++ text.drop n) =
                some (rule, (text.take n).length) := by
            rw [List.take_append_drop, hTake]
            exact hAction
          rcases yyAction_rule hActionAt with ⟨p, hRule, hMem⟩
          rw [hSplit]
          cases hLex : lexAction rule (text.take n) with
          | token kind string =>
              rw [scanAll_token hActionAt hLex]
              exact hToken start _ _ first last rule p kind string
                _ hRule hMem hSome hLex
                (ih _ hRest start _ _ _ rfl)
          | begin start' =>
              rw [scanAll_begin hActionAt hLex]
              exact hBegin start _ _ first last rule p start' _
                hRule hMem hSome hLex
                (ih _ hRest start' _ _ _ rfl)
          | echo =>
              have hEcho : rule = 28 :=
                echo_rule hRule hLex
              subst hEcho
              exact absurd hAction yyAction_ne_echo

------------------------------------------------------------
-- Texts of Tokens
------------------------------------------------------------

/- The tokens that are always written alike. -/
def bareText : Terminal → Text
| .blank => [' ']
| .redirectOE => ['&', '>']
| .redirectO => ['>']
| .redirectE => ['2', '>']
| .indirect => ['<']
| .redirectAppendE => ['2', '>', '>']
| .redirectAppendO => ['>', '>']
| .sequential => [';']
| .parallel => ['&']
| .conditionalNzero => ['|', '|']
| .conditionalZero => ['&', '&']
| .pipe => ['|']
| .endOfLine => ['\n']
| _ => []

/-
  What a token looks like in the line.  The ends of the text do
  not stand in it.
-/
def Spells (t : Token) (w : Text) : Prop :=
  match t.kind with
  | .word => w = t.string ∧ w ≠ []
  | .envVar => w = '$' :: t.string
  | .invalidEnvironmentVar => w = ['$']
  | .notAcceptedChar => ∃ c, w = [c]
  | .blank => w ≠ [] ∧ ∀ c ∈ w, c = ' ' ∨ c = '\t'
  | .endOfLine => w = ['\n'] ∨ w = ['\r', '\n']
  | .charsAfterEol => ∃ c, w = ['\n', c] ∨ w = ['\r', '\n', c]
  | .endOfFile => False
  | .unexpectedEof => False
  | kind => w = bareText kind

/- The pattern of the rules for a token that is no word. -/
def tokenPattern : Terminal → CharPattern
| .envVar => .seq (literal ['$']) envVarName
| .invalidEnvironmentVar => literal ['$']
| .notAcceptedChar => anyChar
| .blank => .plus whitespace
| .endOfLine => newLine
| .charsAfterEol => .seq newLine anyChar
| .endOfFile => .empty
| .unexpectedEof => .empty
| kind => literal (bareText kind)

/- The quotation marks, by which the start condition changes. -/
def quotationMarks : List Char :=
  [charStateAny, charStateAnyAndExpansion]

def ruleSound (r : Nat × CharPattern) : Bool :=
  match lexAction r.1 [] with
  | .token kind _ =>
      decide (kind = .word ∨ r.2 = tokenPattern kind)
  | .begin _ => quotationMarks.any fun c => r.2 = oneOf [c]
  | .echo => true

theorem check_rules :
    ∀ start ∈ startConditions, ∀ r ∈ lexRules start,
      ruleSound r = true := by
  decide

/- The text of a rule does not change the kind of its action. -/
theorem lexAction_token
    {rule : Nat} {w : Text} {kind : Terminal} {string : Text}
    (hToken : lexAction rule w = .token kind string) :
    (∃ string', lexAction rule [] = .token kind string') ∧
      (kind = .word → string = w) ∧
      (kind = .envVar → string = w.drop 1) := by
  unfold lexAction at hToken ⊢
  split at hToken <;> cases hToken <;>
    exact ⟨⟨_, rfl⟩, by simp, by simp⟩

theorem lexAction_begin
    {rule : Nat} {w : Text} {start : StartCondition}
    (hBegin : lexAction rule w = .begin start) :
    lexAction rule [] = .begin start := by
  unfold lexAction at hBegin ⊢
  split at hBegin <;> cases hBegin <;> rfl

theorem pattern_of_token
    {start : StartCondition} {rule : Nat} {p : CharPattern}
    (hRule : (rule, p) ∈ lexRules start)
    {w : Text} {kind : Terminal} {string : Text}
    (hToken : lexAction rule w = .token kind string)
    (hWord : kind ≠ .word) :
    p = tokenPattern kind := by
  have hSound :=
    check_rules start (mem_startConditions start) _ hRule
  rcases (lexAction_token hToken).1 with ⟨string', hAction⟩
  unfold ruleSound at hSound
  dsimp only at hSound
  rw [hAction] at hSound
  exact (decide_eq_true_iff.mp hSound).resolve_left hWord

theorem mem_oneOf {chars : List Char} {w : Text} :
    w ∈ (oneOf chars).language ↔ ∃ c ∈ chars, w = [c] := by
  have hHas :
      ∀ a, (oneOf chars).hasChar a = true ↔ a ∈ chars := by
    intro a
    have hRange :
        (oneOf chars).hasChar a =
          (chars.map fun c => (c, c)).any
            fun r => decide (r.1 ≤ a ∧ a ≤ r.2) :=
      Bool.bne_false _
    rw [hRange, List.any_map, List.any_eq_true]
    constructor
    · rintro ⟨c, hMem, hRange⟩
      have hBoth := decide_eq_true_iff.mp hRange
      rw [Char.le_antisymm hBoth.2 hBoth.1]
      exact hMem
    · intro hMem
      exact ⟨a, hMem,
        decide_eq_true_iff.mpr ⟨Char.le_refl a, Char.le_refl a⟩⟩
  rw [Pattern.mem_language_isChar rfl]
  constructor
  · rintro ⟨a, rfl, hChar⟩
    exact ⟨a, (hHas a).mp hChar, rfl⟩
  · rintro ⟨a, hMem, rfl⟩
    exact ⟨a, rfl, (hHas a).mpr hMem⟩

theorem mem_literal {chars w : Text} :
    w ∈ (literal chars).language ↔ w = chars := by
  induction chars generalizing w with
  | nil => exact Iff.rfl
  | cons c chars ih =>
      rcases chars with _ | ⟨c', chars⟩
      · rw [literal, mem_oneOf]
        simp only [List.mem_singleton, exists_eq_left]
      · change w ∈ (oneOf [c]).language *
          (literal (c' :: chars)).language ↔ _
        rw [Language.mem_mul]
        constructor
        · rintro ⟨u, hFirst, v, hRest, rfl⟩
          rcases mem_oneOf.mp hFirst with ⟨a, hMem, rfl⟩
          rw [List.mem_singleton.mp hMem, ih.mp hRest]
          rfl
        · rintro rfl
          exact ⟨[c], mem_oneOf.mpr ⟨c, List.mem_cons_self, rfl⟩,
            c' :: chars, ih.mpr rfl, rfl⟩

theorem mem_newLine {w : Text} :
    w ∈ newLine.language ↔ w = ['\n'] ∨ w = ['\r', '\n'] := by
  unfold newLine Pattern.option
  rw [Pattern.language, Language.mem_mul]
  constructor
  · rintro ⟨u, hReturn, v, hEnd, rfl⟩
    rcases mem_oneOf.mp hEnd with ⟨c, hMem, rfl⟩
    rw [List.mem_singleton.mp hMem]
    rcases hReturn with hReturn | rfl
    · rcases mem_oneOf.mp hReturn with ⟨c', hMem', rfl⟩
      rw [List.mem_singleton.mp hMem']
      exact .inr rfl
    · exact .inl rfl
  · have hEnd : ['\n'] ∈ (oneOf ['\n']).language :=
      mem_oneOf.mpr ⟨'\n', List.mem_cons_self, rfl⟩
    rintro (rfl | rfl)
    · exact ⟨[], .inr rfl, _, hEnd, rfl⟩
    · exact ⟨['\r'],
        .inl (mem_oneOf.mpr ⟨'\r', List.mem_cons_self, rfl⟩), _,
        hEnd, rfl⟩

theorem mem_anyChar {w : Text} (hMatch : w ∈ anyChar.language) :
    ∃ c, w = [c] := by
  rcases (Pattern.mem_language_isChar rfl w).mp hMatch with
    ⟨c, rfl, _⟩
  exact ⟨c, rfl⟩

/- The text of a match spells its token. -/
theorem spells_token
    {start : StartCondition} {rule : Nat} {p : CharPattern}
    (hRule : (rule, p) ∈ lexRules start)
    {w : Text}
    (hMatch : w ∈ p.language)
    (hSome : w ≠ [])
    {kind : Terminal} {string : Text}
    (hToken : lexAction rule w = .token kind string)
    (column : Nat) :
    Spells ⟨kind, string, column⟩ w := by
  rcases lexAction_token hToken with ⟨_, hWord, hVar⟩
  by_cases hKind : kind = .word
  · subst hKind
    exact ⟨(hWord rfl).symm, hSome⟩
  · rw [pattern_of_token hRule hToken hKind] at hMatch
    cases kind with
    | word => exact absurd rfl hKind
    | envVar =>
        rw [tokenPattern, Pattern.language, Language.mem_mul]
          at hMatch
        rcases hMatch with ⟨u, hDollar, v, _, rfl⟩
        rw [mem_literal.mp hDollar] at hVar ⊢
        rw [hVar rfl]
        rfl
    | invalidEnvironmentVar => exact mem_literal.mp hMatch
    | notAcceptedChar => exact mem_anyChar hMatch
    | blank =>
        refine ⟨hSome, fun c hMem => ?_⟩
        have hHas :=
          ((Pattern.mem_language_plus rfl w).mp hMatch).2 c hMem
        rcases mem_oneOf.mp
            ((Pattern.mem_language_isChar rfl [c]).mpr
              ⟨c, rfl, hHas⟩) with ⟨c', hBlank, hSame⟩
        cases hSame
        rcases List.mem_cons.mp hBlank with rfl | hBlank
        · exact .inl rfl
        · exact .inr (List.mem_singleton.mp hBlank)
    | endOfLine => exact mem_newLine.mp hMatch
    | charsAfterEol =>
        rw [tokenPattern, Pattern.language, Language.mem_mul]
          at hMatch
        rcases hMatch with ⟨u, hEnd, v, hChar, rfl⟩
        rcases mem_anyChar hChar with ⟨c, rfl⟩
        refine ⟨c, ?_⟩
        rcases mem_newLine.mp hEnd with rfl | rfl
        · exact .inl rfl
        · exact .inr rfl
    | endOfFile => cases hMatch
    | unexpectedEof => cases hMatch
    | _ => exact mem_literal.mp hMatch

theorem mark_of_begin
    {start start' : StartCondition} {rule : Nat}
    {p : CharPattern}
    (hRule : (rule, p) ∈ lexRules start)
    {w : Text}
    (hMatch : w ∈ p.language)
    (hBegin : lexAction rule w = .begin start') :
    ∃ c ∈ quotationMarks, w = [c] := by
  have hSound :=
    check_rules start (mem_startConditions start) _ hRule
  unfold ruleSound at hSound
  dsimp only at hSound
  rw [lexAction_begin hBegin] at hSound
  rcases List.any_eq_true.mp hSound with ⟨c, hMark, hPattern⟩
  rw [decide_eq_true_iff.mp hPattern, mem_oneOf] at hMatch
  rcases hMatch with ⟨c', hMem, rfl⟩
  rw [List.mem_singleton.mp hMem]
  exact ⟨c, hMark, rfl⟩

------------------------------------------------------------
-- Places in the Line
------------------------------------------------------------

/- A token of the text, which stands at its column. -/
def Located (line : Text) (t : Token) : Prop :=
  ∃ before w after, line = before ++ w ++ after ∧
    t.column = before.length ∧ Spells t w

/-
  The column where the last match of a text starts: the last
  token, or a quotation mark behind it.
-/
def LastMatch (text : Text) (tokens : List Token) (column : Nat) :
    Prop :=
  (text = [] ∧ tokens = [] ∧ column = 0) ∨
    ∃ before w, text = before ++ w ∧ column = before.length ∧
      ((∃ t ∈ tokens.getLast?, t.column = column ∧ Spells t w) ∨
        (∃ c ∈ quotationMarks, w = [c]) ∧
          ∀ t ∈ tokens, Located before t)

/-
  The rules for the end of the text leave the location as the
  last match has set it.
-/
def EndsAt (line : Text) (tokens : List Token) (t : Token) :
    Prop :=
  (t.kind = .endOfFile ∨ t.kind = .unexpectedEof) ∧
    LastMatch line tokens t.column

theorem Located.append
    {text : Text} {t : Token}
    (hLocated : Located text t)
    (more : Text) :
    Located (text ++ more) t := by
  rcases hLocated with ⟨before, w, after, rfl, hColumn, hSpells⟩
  exact ⟨before, w, after ++ more, List.append_assoc _ _ _,
    hColumn, hSpells⟩

/- A scanner with the tokens that it has returned. -/
structure Scanned (line : Text) (tokens : List Token)
    (s : Scanner) (text : Text) : Prop where
  split : line = text ++ s.rest
  last : s.lastColumn = text.length
  first : LastMatch text tokens s.firstColumn
  located : ∀ t ∈ tokens, Located text t

theorem Scanned.token
    {line text : Text} {tokens : List Token}
    {start : StartCondition} {w rest : Text} {first last : Nat}
    (hScanned :
      Scanned line tokens ⟨start, w ++ rest, first, last⟩ text)
    {t : Token}
    (hColumn : t.column = last)
    (hSpells : Spells t w) :
    Scanned line (tokens ++ [t])
      ⟨start, rest, last, last + w.length⟩ (text ++ w) where
  split := hScanned.split.trans (List.append_assoc _ _ _).symm
  last := by
    have hLast : last = text.length := hScanned.last
    rw [List.length_append, ← hLast]
  first := by
    refine .inr ⟨text, w, rfl, hScanned.last, .inl ⟨t, ?_,
      hColumn, hSpells⟩⟩
    rw [List.getLast?_concat]
    rfl
  located := by
    have hLast : last = text.length := hScanned.last
    intro t' hMem
    rcases List.mem_append.mp hMem with hMem | hMem
    · exact (hScanned.located t' hMem).append w
    · rw [List.mem_singleton.mp hMem]
      exact ⟨text, w, [], (List.append_nil _).symm,
        hColumn.trans hLast, hSpells⟩

theorem Scanned.mark
    {line text : Text} {tokens : List Token}
    {start : StartCondition} {w rest : Text} {first last : Nat}
    (hScanned :
      Scanned line tokens ⟨start, w ++ rest, first, last⟩ text)
    (hMark : ∃ c ∈ quotationMarks, w = [c])
    (start' : StartCondition) :
    Scanned line tokens
      ⟨start', rest, last, last + w.length⟩ (text ++ w) where
  split := hScanned.split.trans (List.append_assoc _ _ _).symm
  last := by
    have hLast : last = text.length := hScanned.last
    rw [List.length_append, ← hLast]
  first :=
    .inr ⟨text, w, rfl, hScanned.last,
      .inr ⟨hMark, hScanned.located⟩⟩
  located := fun t hMem => (hScanned.located t hMem).append w

/-
  Every token of the text stands at its column, and the end of
  the text is at that of the last match.
-/
theorem located_of_scan
    {line : Text} {tokens rest : List Token} {t : Token}
    (hScan : scanLine line = tokens ++ t :: rest) :
    Located line t ∨ (rest = [] ∧ EndsAt line tokens t) := by
  have hAll :
      ∀ tokens text,
        Scanned line tokens ⟨.initial, line, 0, 0⟩ text →
          ∀ left t right, scanLine line = left ++ t :: right →
            Located line t ∨
              (right = [] ∧ EndsAt line (tokens ++ left) t) := by
    refine scanAll_rec
      (motive := fun s all =>
        ∀ tokens text, Scanned line tokens s text →
          ∀ left t right, all = left ++ t :: right →
            Located line t ∨
              (right = [] ∧ EndsAt line (tokens ++ left) t))
      ?_ ?_ ?_ ⟨.initial, line, 0, 0⟩
    · intro start first last tokens text hScanned left t right
        hTokens
      rcases left with _ | ⟨x, left⟩
      · rw [List.nil_append, List.cons.injEq] at hTokens
        rcases hTokens with ⟨rfl, hRight⟩
        refine .inr ⟨hRight.symm, ?_, ?_⟩
        · cases start
          · exact .inl rfl
          · exact .inr rfl
          · exact .inr rfl
        · rw [List.append_nil, hScanned.split, List.append_nil]
          exact hScanned.first
      · rw [List.cons_append, List.cons.injEq] at hTokens
        cases (List.append_eq_nil_iff.mp hTokens.2.symm).2
    · intro start w rest first last rule p kind string all
        hRule hMatch hSome hToken ih tokens text hScanned left t
        right hTokens
      have hNext :=
        hScanned.token (t := ⟨kind, string, last⟩) rfl
          (spells_token hRule hMatch hSome hToken last)
      rcases left with _ | ⟨x, left⟩
      · rw [List.nil_append, List.cons.injEq] at hTokens
        rw [← hTokens.1, hNext.split]
        exact .inl
          ((hNext.located _
            (List.mem_append_right _ List.mem_cons_self)).append
              rest)
      · rw [List.cons_append, List.cons.injEq] at hTokens
        rcases hTokens with ⟨rfl, hTokens⟩
        have hRest := ih _ _ hNext left t right hTokens
        rw [List.append_assoc] at hRest
        exact hRest
    · intro start w rest first last rule p start' all hRule
        hMatch _ hBegin ih tokens text hScanned
      exact ih tokens _
        (hScanned.mark (mark_of_begin hRule hMatch hBegin) start')
  exact hAll [] []
    ⟨rfl, rfl, .inl ⟨rfl, rfl, rfl⟩, nofun⟩ tokens t rest hScan

theorem located_of_mem
    {line : Text} {t : Token}
    (hMem : t ∈ scanLine line)
    (hText : t.kind ≠ .endOfFile ∧ t.kind ≠ .unexpectedEof) :
    Located line t := by
  rcases List.append_of_mem hMem with ⟨tokens, rest, hScan⟩
  rcases located_of_scan hScan with hLocated | ⟨_, hEnd, _⟩
  · exact hLocated
  · rcases hEnd with hEnd | hEnd
    · exact absurd hEnd hText.1
    · exact absurd hEnd hText.2

/- The last token is the one for the end of the text. -/
theorem scanAll_ends (s : Scanner) :
    ∃ tokens t, scanAll s = tokens ++ [t] ∧
      (t.kind = .endOfFile ∨ t.kind = .unexpectedEof) := by
  refine scanAll_rec
    (motive := fun _ all =>
      ∃ tokens t, all = tokens ++ [t] ∧
        (t.kind = .endOfFile ∨ t.kind = .unexpectedEof))
    ?_ ?_ ?_ s
  · intro start first last
    refine ⟨[], _, rfl, ?_⟩
    cases start
    · exact .inl rfl
    · exact .inr rfl
    · exact .inr rfl
  · intro start w rest first last rule p kind string tokens _ _
      _ _ ih
    rcases ih with ⟨before, t, rfl, hKind⟩
    exact ⟨_ :: before, t, rfl, hKind⟩
  · intro start w rest first last rule p start' tokens _ _
      _ _ ih
    exact ih

end Shell

end ProgrammingTasks
