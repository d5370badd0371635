import ProgrammingTasks.Shell.ParseLine

/-
  Lines for trees of commands (`parse_line`, `parser.l`).

  Every part of a word is written in quotation marks, and the
  scanner reads it back.  Parts that no pair of marks can hold
  are not printed, and neither are empty ones.

  Main declarations:
    * `Part.Printable`, `LineText.Printable`
    * `Lexeme.print`, `LineText.print`
    * `Scans`, `scanLine_print`
    * `parseLine_print`
-/

------------------------------------------------------------
-- Printing
------------------------------------------------------------

namespace ProgrammingTasks

namespace Shell

open LongestMatch

/- A character that is a byte, and not the NUL at the end. -/
def IsByte (c : Char) : Prop :=
  0 < c.toNat ∧ c.toNat < 256

instance : DecidablePred IsByte :=
  fun c => inferInstanceAs (Decidable (0 < c.toNat ∧ c.toNat < 256))

/- The characters of a C string. -/
def IsCString (text : Text) : Prop :=
  ∀ c ∈ text, IsByte c

instance : DecidablePred IsCString :=
  List.decidableBAll IsByte

/- A text that one pair of quotation marks can hold. -/
def Quotable (string : Text) : Prop :=
  string ≠ [] ∧
    (charStateAny ∉ string ∨
      (charStateAnyAndExpansion ∉ string ∧ '$' ∉ string))

/- A part that a line can contain. -/
def Part.Printable (p : Part) : Prop :=
  IsCString p.string ∧
    if p.expand then
      p.string ∈ envVarName.language
    else
      Quotable p.string

def Word.Printable (w : Word) : Prop :=
  ∀ p ∈ w.first :: w.nextParts, p.Printable

/- The words of a simple command from left to right. -/
def SimpleText.words (s : SimpleText) : List Word :=
  s.verb :: (s.params ++ s.reds.map RedirectText.word)

def SimpleText.Printable (s : SimpleText) : Prop :=
  ∀ w ∈ s.words, w.Printable

def LineText.words : LineText → List Word
| .empty _ _ => []
| .commands first rest _ =>
    first.words ++ rest.flatMap fun x => x.2.words

/- The line ends with `\n`, and not with the text. -/
def LineText.eol : LineText → Bool
| .empty _ eol => eol
| .commands _ _ eol => eol

def LineText.Printable (line : LineText) : Prop :=
  ∀ w ∈ line.words, w.Printable

def quoted (mark : Char) (string : Text) : Text :=
  mark :: (string ++ [mark])

/- A lexeme as it is written here. -/
def Lexeme.print (l : Lexeme) : Text :=
  match l.1 with
  | .word =>
      if charStateAny ∈ l.2 then
        quoted charStateAnyAndExpansion l.2
      else
        quoted charStateAny l.2
  | .envVar => quoted charStateAnyAndExpansion ('$' :: l.2)
  | k => bareText k

def printLexemes (ls : List Lexeme) : Text :=
  ls.flatMap Lexeme.print

def LineText.print (line : LineText) : Text :=
  printLexemes line.lexemes

------------------------------------------------------------
-- Classes
------------------------------------------------------------

/- The classes of the quotation marks and of `$`. -/
theorem yyEc_marks :
    yyEc charStateAny = 9 ∧ yyEc charStateAnyAndExpansion = 5 ∧
      yyEc '$' = 6 := by
  decide

/- No other characters have these classes. -/
theorem eq_of_yyEc
    {a : Char}
    (hClass : yyEc a = 9 ∨ yyEc a = 5 ∨ yyEc a = 6) :
    a = representative (yyEc a) := by
  have hBytes :
      ∀ n < 256,
        yyEc (Char.ofNat n) = 9 ∨ yyEc (Char.ofNat n) = 5 ∨
            yyEc (Char.ofNat n) = 6 →
          Char.ofNat n = representative (yyEc (Char.ofNat n)) := by
    decide +kernel
  by_cases hByte : a.toNat < 256
  · have hAll := hBytes a.toNat hByte
    rw [Char.ofNat_toNat] at hAll
    exact hAll hClass
  · rw [yyEc_of_large (Nat.not_lt.mp hByte)] at hClass
    omega

theorem yyEc_ne_quote
    {a : Char}
    (hOther : a ≠ charStateAny) :
    yyEc a ≠ 9 := by
  intro hClass
  have hSame := eq_of_yyEc (.inl hClass)
  rw [hClass] at hSame
  exact hOther hSame

theorem yyEc_ne_doubleQuote
    {a : Char}
    (hOther : a ≠ charStateAnyAndExpansion) :
    yyEc a ≠ 5 := by
  intro hClass
  have hSame := eq_of_yyEc (.inr (.inl hClass))
  rw [hClass] at hSame
  exact hOther hSame

theorem yyEc_ne_dollar
    {a : Char}
    (hOther : a ≠ '$') :
    yyEc a ≠ 6 := by
  intro hClass
  have hSame := eq_of_yyEc (.inr (.inr hClass))
  rw [hClass] at hSame
  exact hOther hSame

------------------------------------------------------------
-- Quotation Marks
------------------------------------------------------------

/- The states with no way on. -/
theorem check_single :
    ∀ s ∈ [12, 16, 24, 26], ∀ c < 19, c ≠ 0 →
      yyNextState s c = yyJam := by
  decide

/- A quotation mark, at the start of a text or of its rest. -/
theorem yyAction_mark
    {start : StartCondition} {mark : Char} {s : Nat}
    (hState : s ∈ [12, 16, 24, 26])
    (hStep : yyNextState start.yyStart (yyEc mark) = s)
    (rest : Text) :
    yyAction start ([mark] ++ rest) =
      some (yyAccept.getD s 0, [mark].length) := by
  have hAccepts :
      ∀ s ∈ [12, 16, 24, 26],
        s ≠ yyJam ∧ yyAccept.getD s 0 ≠ 0 := by
    decide
  rcases hAccepts s hState with ⟨hAlive, hAccept⟩
  refine yyAction_of_runs ⟨?_, ?_⟩ hAccept nofun ?_
  · exact beq_eq_false_iff_ne.mpr
      fun hJam => hAlive (hStep.symm.trans hJam)
  · exact hStep
  · intro a _
    rcases yyEc_range a with ⟨hClass, hSome⟩
    exact check_single s hState (yyEc a) hClass hSome

/- The two kinds of quotation marks. -/
theorem open_quote (rest : Text) :
    yyAction .initial ([charStateAny] ++ rest) = some (3, 1) :=
  yyAction_mark (s := 16) (by decide) (by decide) rest

theorem close_quote (rest : Text) :
    yyAction .acceptAny ([charStateAny] ++ rest) =
      some (21, 1) :=
  yyAction_mark (s := 24) (by decide) (by decide) rest

theorem open_doubleQuote (rest : Text) :
    yyAction .initial ([charStateAnyAndExpansion] ++ rest) =
      some (4, 1) :=
  yyAction_mark (s := 12) (by decide) (by decide) rest

theorem close_doubleQuote (rest : Text) :
    yyAction .acceptAnyAndExpansion
        ([charStateAnyAndExpansion] ++ rest) = some (23, 1) :=
  yyAction_mark (s := 26) (by decide) (by decide) rest

/- A text in quotation marks that is one token. -/
theorem scanAll_quoted
    {start : StartCondition} {mark : Char} {body rest : Text}
    {opening rule closing : Nat} {kind : Terminal}
    {string : Text}
    (hOpen :
      yyAction .initial ([mark] ++ (body ++ ([mark] ++ rest))) =
        some (opening, 1))
    (hBegin : lexAction opening [mark] = .begin start)
    (hBody :
      yyAction start (body ++ ([mark] ++ rest)) =
        some (rule, body.length))
    (hToken : lexAction rule body = .token kind string)
    (hClose :
      yyAction start ([mark] ++ rest) = some (closing, 1))
    (hEnd : lexAction closing [mark] = .begin .initial)
    (first last : Nat) :
    scanAll ⟨.initial, quoted mark body ++ rest, first, last⟩ =
      ⟨kind, string, last + 1⟩ ::
        scanAll ⟨.initial, rest, last + 1 + body.length,
          last + 1 + body.length + 1⟩ := by
  have hText :
      quoted mark body ++ rest =
        [mark] ++ (body ++ ([mark] ++ rest)) := by
    unfold quoted
    rw [List.cons_append, List.append_assoc]
    rfl
  have hFirst := scanAll_begin hOpen hBegin first last
  have hSecond :=
    scanAll_token hBody hToken last (last + 1)
  have hThird :=
    scanAll_begin hClose hEnd (last + 1)
      (last + 1 + body.length)
  rw [hText, hFirst]
  change scanAll ⟨start, _, last, last + 1⟩ = _
  rw [hSecond, hThird]
  rfl

/- The states inside of quotation marks, up to some classes. -/
structure Inside
    (start : StartCondition) (states classes : List Nat)
    (rule : Nat) : Prop where
  enter :
    ∀ c < 19, c ≠ 0 → c ∉ classes →
      yyNextState start.yyStart c ∈ states
  stay :
    ∀ s ∈ states, ∀ c < 19, c ≠ 0 → c ∉ classes →
      yyNextState s c ∈ states
  leave :
    ∀ s ∈ states, ∀ c ∈ classes, yyNextState s c = yyJam
  alive : yyJam ∉ states
  accept :
    ∀ s ∈ states,
      yyAccept.getD s 0 = rule ∧ yyAccept.getD s 0 ≠ 0

theorem inside_quotes :
    Inside .acceptAny [23, 38] [9] 22 where
  enter := by decide
  stay := by decide
  leave := by decide
  alive := by decide
  accept := by decide

theorem inside_doubleQuotes :
    Inside .acceptAnyAndExpansion [25, 39] [5, 6] 26 where
  enter := by decide
  stay := by decide
  leave := by decide
  alive := by decide
  accept := by decide

theorem ne_of_mem_of_notMem
    {states : List Nat} {s : Nat}
    (hMem : s ∈ states)
    (hAlive : yyJam ∉ states) :
    s ≠ yyJam := by
  rintro rfl
  exact hAlive hMem

/- A run that stays in the states over other classes. -/
theorem exists_runs
    {states classes : List Nat}
    (hStay :
      ∀ s ∈ states, ∀ c < 19, c ≠ 0 → c ∉ classes →
        yyNextState s c ∈ states)
    (hAlive : yyJam ∉ states)
    {w : Text}
    (hWord : ∀ a ∈ w, yyEc a ∉ classes)
    {s : Nat}
    (hState : s ∈ states) :
    ∃ s' ∈ states, Runs flexAutomaton s w s' := by
  induction w generalizing s with
  | nil => exact ⟨s, hState, rfl⟩
  | cons a w ih =>
      rcases yyEc_range a with ⟨hClass, hSome⟩
      have hNext :=
        hStay s hState (yyEc a) hClass hSome
          (hWord a List.mem_cons_self)
      rcases ih
          (fun b hMem => hWord b (List.mem_cons_of_mem _ hMem))
          hNext with
        ⟨s', hMem, hRuns⟩
      exact ⟨s', hMem,
        beq_eq_false_iff_ne.mpr
          (ne_of_mem_of_notMem hNext hAlive), hRuns⟩

/- A text between quotation marks is one match. -/
theorem Inside.yyAction
    {start : StartCondition} {states classes : List Nat}
    {rule : Nat}
    (hInside : Inside start states classes rule)
    {string : Text}
    (hSome : string ≠ [])
    (hString : ∀ a ∈ string, yyEc a ∉ classes)
    {mark : Char}
    (hMark : yyEc mark ∈ classes)
    (rest : Text) :
    yyAction start (string ++ ([mark] ++ rest)) =
      some (rule, string.length) := by
  rcases List.exists_cons_of_ne_nil hSome with ⟨a, w, rfl⟩
  rcases yyEc_range a with ⟨hClass, hKnown⟩
  have hFirst :=
    hInside.enter (yyEc a) hClass hKnown
      (hString a List.mem_cons_self)
  rcases exists_runs hInside.stay hInside.alive
      (fun b hMem => hString b (List.mem_cons_of_mem _ hMem))
      hFirst with
    ⟨s', hMem, hRuns⟩
  rcases hInside.accept s' hMem with ⟨hRule, hAccept⟩
  rw [← hRule]
  refine yyAction_of_runs ⟨?_, hRuns⟩ hAccept hSome ?_
  · exact beq_eq_false_iff_ne.mpr
      (ne_of_mem_of_notMem hFirst hInside.alive)
  · rintro b ⟨⟩
    exact hInside.leave s' hMem _ hMark

------------------------------------------------------------
-- Parts
------------------------------------------------------------

/-
  The scanner reads a text as these lexemes, with this text
  behind it.
-/
def Scans (ls : List Lexeme) (rest : Text) : Prop :=
  ∀ first last, ∃ tokens first' last',
    scanAll ⟨.initial, printLexemes ls ++ rest, first, last⟩ =
        tokens ++ scanAll ⟨.initial, rest, first', last'⟩ ∧
      tokens.map Token.lexeme = ls

theorem scans_nil (rest : Text) : Scans [] rest :=
  fun first last => ⟨[], first, last, rfl, rfl⟩

theorem printLexemes_append (ls ls' : List Lexeme) :
    printLexemes (ls ++ ls') = printLexemes ls ++ printLexemes ls' :=
  List.flatMap_append

theorem Scans.append
    {ls ls' : List Lexeme} {rest : Text}
    (hFirst : Scans ls (printLexemes ls' ++ rest))
    (hSecond : Scans ls' rest) :
    Scans (ls ++ ls') rest := by
  intro first last
  rcases hFirst first last with
    ⟨tokens, first', last', hScan, hLexemes⟩
  rcases hSecond first' last' with
    ⟨tokens', first'', last'', hScan', hLexemes'⟩
  refine ⟨tokens ++ tokens', first'', last'', ?_, ?_⟩
  · rw [printLexemes_append, List.append_assoc, hScan, hScan',
      List.append_assoc]
  · rw [List.map_append, hLexemes, hLexemes']

/- One token for a text that begins in the initial condition. -/
theorem scans_of_token
    {l : Lexeme} {rest : Text}
    (hToken :
      ∀ first last, ∃ t first' last',
        scanAll ⟨.initial, l.print ++ rest, first, last⟩ =
            t :: scanAll ⟨.initial, rest, first', last'⟩ ∧
          t.lexeme = l) :
    Scans [l] rest := by
  intro first last
  rcases hToken first last with
    ⟨t, first', last', hScan, hLexeme⟩
  refine ⟨[t], first', last', ?_, ?_⟩
  · rw [printLexemes, List.flatMap_singleton]
    exact hScan
  · rw [List.map_singleton, hLexeme]

/- A text in the first kind of quotation marks. -/
theorem yyAction_quotes
    {string : Text}
    (hSome : string ≠ [])
    (hQuote : charStateAny ∉ string)
    (rest : Text) :
    yyAction .acceptAny (string ++ ([charStateAny] ++ rest)) =
      some (22, string.length) := by
  refine inside_quotes.yyAction hSome ?_ ?_ rest
  · intro a hMem hClass
    have hOther : a ≠ charStateAny := by
      rintro rfl
      exact hQuote hMem
    exact yyEc_ne_quote hOther (List.mem_singleton.mp hClass)
  · exact List.mem_singleton.mpr yyEc_marks.1

/- A text in the second kind of quotation marks. -/
theorem yyAction_doubleQuotes
    {string : Text}
    (hSome : string ≠ [])
    (hQuote : charStateAnyAndExpansion ∉ string)
    (hDollar : '$' ∉ string)
    (rest : Text) :
    yyAction .acceptAnyAndExpansion
        (string ++ ([charStateAnyAndExpansion] ++ rest)) =
      some (26, string.length) := by
  refine inside_doubleQuotes.yyAction hSome ?_ ?_ rest
  · intro a hMem hClass
    rcases List.mem_cons.mp hClass with hClass | hClass
    · have hOther : a ≠ charStateAnyAndExpansion := by
        rintro rfl
        exact hQuote hMem
      exact yyEc_ne_doubleQuote hOther hClass
    · have hOther : a ≠ '$' := by
        rintro rfl
        exact hDollar hMem
      exact yyEc_ne_dollar hOther (List.mem_singleton.mp hClass)
  · rw [yyEc_marks.2.1]
    exact List.mem_cons_self

/- The characters of names. -/
def nameStart : CharPattern := .alt (oneOf ['_']) letter

def nameChar : CharPattern :=
  .alt (.alt (oneOf ['_']) letter) digit

theorem mem_envVarName (w : Text) :
    w ∈ envVarName.language ↔
      ∃ a v, w = a :: v ∧ nameStart.hasChar a = true ∧
        ∀ b ∈ v, nameChar.hasChar b = true := by
  change w ∈ (Pattern.seq nameStart (.star nameChar)).language ↔ _
  rw [Pattern.language, Language.mem_mul]
  constructor
  · rintro ⟨u, hFirst, v, hOthers, rfl⟩
    rcases (Pattern.mem_language_isChar rfl u).mp hFirst with
      ⟨a, rfl, hHas⟩
    exact ⟨a, v, rfl, hHas,
      (Pattern.mem_language_star rfl v).mp hOthers⟩
  · rintro ⟨a, v, rfl, hFirst, hOthers⟩
    exact ⟨[a],
      (Pattern.mem_language_isChar rfl [a]).mpr ⟨a, rfl, hFirst⟩,
      v, (Pattern.mem_language_star rfl v).mpr hOthers, rfl⟩

/- They have their own classes. -/
theorem classes_of_name
    {a : Char} :
    (nameStart.hasChar a = true → yyEc a ∈ [16, 17]) ∧
      (nameChar.hasChar a = true →
        yyEc a ∉ [1, 2, 3, 4, 5, 6, 7, 8, 9, 12, 13, 14, 15,
          18]) := by
  have hClasses :
      ∀ c < 19, c ≠ 0 →
        (nameStart.hasChar (representative c) = true →
          c ∈ [16, 17]) ∧
        (nameChar.hasChar (representative c) = true →
          c ∉ [1, 2, 3, 4, 5, 6, 7, 8, 9, 12, 13, 14, 15,
            18]) := by
    decide
  have hUniform :
      ∀ s ∈ [(⟨[('_', '_')], false⟩ : CharSet Char),
          ⟨[('a', 'z'), ('A', 'Z')], false⟩,
          ⟨[('0', '9')], false⟩],
        s.contains a = s.contains (representative (yyEc a)) := by
    have hSets :
        ∀ s ∈ [(⟨[('_', '_')], false⟩ : CharSet Char),
            ⟨[('a', 'z'), ('A', 'Z')], false⟩,
            ⟨[('0', '9')], false⟩],
          s ∈ ruleSets .initial := by
      decide
    exact fun s hMem => uniform (hSets s hMem) a
  rcases yyEc_range a with ⟨hClass, hSome⟩
  have hAt := hClasses (yyEc a) hClass hSome
  have hUnderscore := hUniform _ (.head _)
  have hLetter := hUniform _ (.tail _ (.head _))
  have hDigit := hUniform _ (.tail _ (.tail _ (.head _)))
  simp only [nameStart, nameChar, Pattern.hasChar, oneOf, letter,
    digit, List.map_cons, List.map_nil] at hAt ⊢
  rw [hUnderscore, hLetter, hDigit]
  exact hAt

/- The states in a name. -/
theorem check_name :
    yyNextState 5 6 = 27 ∧
      (∀ c ∈ [16, 17], yyNextState 27 c ∈ [40, 43]) ∧
      (∀ s ∈ [40, 43], ∀ c < 19, c ≠ 0 →
        c ∉ [1, 2, 3, 4, 5, 6, 7, 8, 9, 12, 13, 14, 15, 18] →
          yyNextState s c ∈ [40, 43]) ∧
      ∀ s ∈ [40, 43], yyNextState s 5 = yyJam ∧
        yyAccept.getD s 0 = 24 := by
  decide

/- A variable in the second kind of quotation marks. -/
theorem yyAction_variable
    {string : Text}
    (hName : string ∈ envVarName.language)
    (rest : Text) :
    yyAction .acceptAnyAndExpansion
        (('$' :: string) ++
          ([charStateAnyAndExpansion] ++ rest)) =
      some (24, ('$' :: string).length) := by
  rcases (mem_envVarName string).mp hName with
    ⟨a, w, rfl, hFirst, hOthers⟩
  rcases check_name with ⟨hDollar, hName, hStay, hLeave⟩
  have hAlive : yyJam ∉ [40, 43] := by
    decide
  have hStart := hName (yyEc a) (classes_of_name.1 hFirst)
  rcases exists_runs hStay hAlive
      (fun b hMem => classes_of_name.2 (hOthers b hMem))
      hStart with
    ⟨s', hMem, hRuns⟩
  rcases hLeave s' hMem with ⟨hStop, hRule⟩
  rw [← hRule]
  refine yyAction_of_runs ?_ ?_ nofun ?_
  · have hNext : flexAutomaton.step 5 '$' = 27 :=
      (congrArg (yyNextState 5) yyEc_marks.2.2).trans hDollar
    change
      flexAutomaton.dead (flexAutomaton.step 5 '$') = false ∧
        flexAutomaton.dead
            (flexAutomaton.step (flexAutomaton.step 5 '$') a) =
          false ∧
          Runs flexAutomaton
            (flexAutomaton.step (flexAutomaton.step 5 '$') a) w s'
    rw [hNext]
    refine ⟨by decide, ?_, hRuns⟩
    exact beq_eq_false_iff_ne.mpr
      (ne_of_mem_of_notMem hStart hAlive)
  · rw [hRule]
    nofun
  · rintro b ⟨⟩
    rw [yyEc_marks.2.1]
    exact hStop

/- A part is read as a token, whatever is behind it. -/
theorem scans_part
    {p : Part}
    (hPrintable : p.Printable)
    (rest : Text) :
    Scans [p.lexeme] rest := by
  refine scans_of_token fun first last => ?_
  rcases p with ⟨string, _ | _⟩
  · rcases hPrintable.2 with ⟨hSome, hMarks⟩
    by_cases hQuote : charStateAny ∈ string
    · rcases hMarks.resolve_left (not_not_intro hQuote) with
        ⟨hOther, hDollar⟩
      have hPrint :
          (⟨string, false⟩ : Part).lexeme.print =
            quoted charStateAnyAndExpansion string :=
        if_pos hQuote
      rw [hPrint]
      exact ⟨_, _, _,
        scanAll_quoted (open_doubleQuote _) rfl
          (yyAction_doubleQuotes hSome hOther hDollar rest) rfl
          (close_doubleQuote rest) rfl first last, rfl⟩
    · have hPrint :
          (⟨string, false⟩ : Part).lexeme.print =
            quoted charStateAny string :=
        if_neg hQuote
      rw [hPrint]
      exact ⟨_, _, _,
        scanAll_quoted (open_quote _) rfl
          (yyAction_quotes hSome hQuote rest) rfl
          (close_quote rest) rfl first last, rfl⟩
  · have hPrint :
        (⟨string, true⟩ : Part).lexeme.print =
          quoted charStateAnyAndExpansion ('$' :: string) :=
      rfl
    rw [hPrint]
    exact ⟨_, _, _,
      scanAll_quoted (open_doubleQuote _) rfl
        (yyAction_variable hPrintable.2 rest) rfl
        (close_doubleQuote rest) rfl first last, rfl⟩

theorem scans_word
    {w : Word}
    (hPrintable : w.Printable)
    (rest : Text) :
    Scans w.lexemes rest := by
  have hParts :
      ∀ parts : List Part, (∀ p ∈ parts, p.Printable) →
        Scans (parts.map Part.lexeme) rest := by
    intro parts hParts
    induction parts with
    | nil => exact scans_nil rest
    | cons p parts ih =>
        rcases List.forall_mem_cons.mp hParts with
          ⟨hFirst, hOthers⟩
        exact (scans_part hFirst _).append (ih hOthers)
  exact hParts _ hPrintable

------------------------------------------------------------
-- Other Tokens
------------------------------------------------------------

/- The tokens that are always written alike. -/
def bareKinds : List Terminal :=
  [.blank, .redirectOE, .redirectO, .redirectE, .indirect,
    .redirectAppendE, .redirectAppendO, .sequential, .parallel,
    .conditionalNzero, .conditionalZero, .pipe, .endOfLine]

/- The classes with which a token would be another one. -/
def fusingClasses : Terminal → List Nat
| .blank => [2]
| .pipe => [18]
| .parallel => [8, 15]
| .redirectO => [15]
| .redirectE => [15]
| .endOfLine => List.range 19
| _ => []

def bareState (k : Terminal) : Nat :=
  (bareText k).foldl flexAutomaton.step
    StartCondition.initial.yyStart

theorem check_bare :
    ∀ k ∈ bareKinds,
      (bare k).print = bareText k ∧
      bareText k ≠ [] ∧
      yyAccept.getD (bareState k) 0 ≠ 0 ∧
      lexAction (yyAccept.getD (bareState k) 0) (bareText k) =
        .token k [] ∧
      ∀ c < 19, c ≠ 0 → c ∉ fusingClasses k →
        yyNextState (bareState k) c = yyJam := by
  decide

/- The text behind a token starts with one of these classes. -/
def Starts (classes : List Nat) (text : Text) : Prop :=
  ∀ a ∈ text.head?, yyEc a ∈ classes

theorem runs_bare :
    ∀ k ∈ bareKinds,
      Runs flexAutomaton StartCondition.initial.yyStart
        (bareText k) (bareState k) := by
  decide

theorem scans_bare
    {k : Terminal} {classes : List Nat} {rest : Text}
    (hKind : k ∈ bareKinds)
    (hStarts : Starts classes rest)
    (hApart : ∀ c ∈ classes, c ∉ fusingClasses k) :
    Scans [bare k] rest := by
  rcases check_bare k hKind with
    ⟨hPrint, hSome, hAccept, hAction, hStop⟩
  have hMatch :
      yyAction .initial (bareText k ++ rest) =
        some (yyAccept.getD (bareState k) 0,
          (bareText k).length) := by
    refine yyAction_of_runs (runs_bare k hKind) hAccept hSome ?_
    intro a hMem
    rcases yyEc_range a with ⟨hClass, hKnown⟩
    exact hStop (yyEc a) hClass hKnown
      (hApart (yyEc a) (hStarts a hMem))
  have hLexeme :
      ∀ column, (⟨k, [], column⟩ : Token).lexeme = bare k :=
    fun column => congrArg (Prod.mk k) (ite_self _)
  refine scans_of_token fun first last => ?_
  rw [hPrint]
  exact ⟨_, _, _, scanAll_token hMatch hAction first last,
    hLexeme last⟩

instance (classes : List Nat) (text : Text) :
    Decidable (Starts classes text) :=
  match text with
  | [] => isTrue nofun
  | a :: _ =>
      decidable_of_iff (yyEc a ∈ classes)
        ⟨by rintro hClass b ⟨⟩; exact hClass,
          fun hStarts => hStarts a rfl⟩

/- The class of the first character of a token. -/
theorem starts_bare
    {k : Terminal} {classes : List Nat}
    (hStarts : Starts classes (bareText k))
    (hKind : k ∈ bareKinds)
    (ls : List Lexeme) (rest : Text) :
    Starts classes (printLexemes (bare k :: ls) ++ rest) := by
  rcases check_bare k hKind with ⟨hPrint, hSome, _⟩
  intro a hMem
  rw [printLexemes, List.flatMap_cons, hPrint,
    List.append_assoc, List.head?_append_of_ne_nil _ hSome]
    at hMem
  exact hStarts a hMem

theorem starts_part
    (p : Part) (ls : List Lexeme) (rest : Text) :
    Starts [5, 9] (printLexemes (p.lexeme :: ls) ++ rest) := by
  have hMark :
      ∃ mark body, p.lexeme.print = mark :: body ∧
        yyEc mark ∈ [5, 9] := by
    rcases p with ⟨string, _ | _⟩
    · by_cases hQuote : charStateAny ∈ string
      · exact ⟨_, _, if_pos hQuote, by decide⟩
      · exact ⟨_, _, if_neg hQuote, by decide⟩
    · exact ⟨_, _, rfl, by decide⟩
  rcases hMark with ⟨mark, body, hPrint, hClass⟩
  intro a hMem
  rw [printLexemes, List.flatMap_cons, hPrint] at hMem
  cases hMem
  exact hClass

theorem Starts.mono
    {classes classes' : List Nat} {text : Text}
    (hStarts : Starts classes text)
    (hMore : classes ⊆ classes') :
    Starts classes' text :=
  fun a hMem => hMore (hStarts a hMem)

------------------------------------------------------------
-- Simple Commands
------------------------------------------------------------

/- What may be behind a simple command or a redirection. -/
def afterClasses : List Nat := [3, 8, 11, 12, 13, 15, 18]

/- A blank that may be left out. -/
theorem scans_optional
    (given : Bool) {classes : List Nat} {rest : Text}
    (hStarts : Starts classes rest)
    (hApart : 2 ∉ classes) :
    Scans (optional given (bare .blank)) rest := by
  cases given with
  | false => exact scans_nil rest
  | true =>
      refine scans_bare (by decide) hStarts ?_
      intro c hMem hFuses
      rw [List.mem_singleton.mp hFuses] at hMem
      exact hApart hMem

theorem starts_blank
    (classes : List Nat) (ls : List Lexeme) (rest : Text) :
    Starts (2 :: classes)
      (printLexemes (bare .blank :: ls) ++ rest) := by
  have hBlank : Starts [2] (bareText .blank) := by
    decide
  exact (starts_bare hBlank (by decide) ls rest).mono
    (List.cons_subset_cons 2 (List.nil_subset classes))

theorem starts_optional
    (given : Bool) {classes : List Nat}
    {ls : List Lexeme} {rest : Text}
    (hStarts : Starts classes (printLexemes ls ++ rest)) :
    Starts (2 :: classes)
      (printLexemes (optional given (bare .blank) ++ ls) ++
        rest) := by
  cases given with
  | false => exact hStarts.mono (List.subset_cons_self 2 classes)
  | true => exact starts_blank classes ls rest

theorem starts_word
    (w : Word) (ls : List Lexeme) (rest : Text) :
    Starts [5, 9] (printLexemes (w.lexemes ++ ls) ++ rest) :=
  starts_part w.first _ rest

theorem scans_params
    {params : List Word}
    (hPrintable : ∀ w ∈ params, w.Printable)
    (rest : Text) :
    Scans (SimpleText.paramLexemes params) rest := by
  induction params with
  | nil => exact scans_nil rest
  | cons w params ih =>
      rcases List.forall_mem_cons.mp hPrintable with
        ⟨hFirst, hOthers⟩
      have hBlank :
          Scans [bare .blank]
            (printLexemes
              (w.lexemes ++ SimpleText.paramLexemes params) ++
                rest) :=
        scans_bare (by decide) (starts_word w _ rest) (by decide)
      exact hBlank.append
        ((scans_word hFirst _).append (ih hOthers))

/- The operators before the words of redirections. -/
theorem check_redirectOp
    (op : RedirectOp) :
    op.terminal ∈ bareKinds ∧
      (∀ c ∈ [2, 5, 9], c ∉ fusingClasses op.terminal) ∧
      Starts afterClasses (bareText op.terminal) := by
  cases op <;> decide

theorem scans_redirect
    {r : RedirectText} {rest : Text}
    (hPrintable : r.word.Printable)
    (hStarts : Starts afterClasses rest) :
    Scans r.lexemes rest := by
  rcases check_redirectOp r.op with ⟨hKind, hApart, _⟩
  have hAfter :=
    scans_optional r.after hStarts (by decide)
  have hWord :=
    scans_word hPrintable
      (printLexemes (optional r.after (bare .blank)) ++ rest)
  have hFirst :=
    starts_word r.word (optional r.after (bare .blank)) rest
  have hBefore :=
    scans_optional r.before hFirst (by decide)
  have hOp :=
    scans_bare hKind (starts_optional r.before hFirst) hApart
  exact hOp.append (hBefore.append (hWord.append hAfter))

theorem scans_redirects
    {reds : List RedirectText} {rest : Text}
    (hPrintable : ∀ r ∈ reds, r.word.Printable)
    (hStarts : Starts afterClasses rest) :
    Scans (reds.flatMap RedirectText.lexemes) rest ∧
      Starts afterClasses
        (printLexemes (reds.flatMap RedirectText.lexemes) ++
          rest) := by
  induction reds with
  | nil => exact ⟨scans_nil rest, hStarts⟩
  | cons r reds ih =>
      rcases List.forall_mem_cons.mp hPrintable with
        ⟨hFirst, hOthers⟩
      rcases ih hOthers with ⟨hScans, hBehind⟩
      rcases check_redirectOp r.op with ⟨hKind, _, hOp⟩
      exact ⟨(scans_redirect hFirst hBehind).append hScans,
        starts_bare hOp hKind _ rest⟩

theorem scans_simple
    {s : SimpleText} {rest : Text}
    (hPrintable : s.Printable)
    (hStarts : Starts afterClasses rest) :
    Scans s.lexemes rest ∧
      Starts [2, 5, 9] (printLexemes s.lexemes ++ rest) := by
  have hWords :
      s.verb.Printable ∧ (∀ w ∈ s.params, w.Printable) ∧
        ∀ r ∈ s.reds, r.word.Printable := by
    refine ⟨hPrintable s.verb List.mem_cons_self, ?_, ?_⟩
    · exact fun w hMem =>
        hPrintable w
          (List.mem_cons_of_mem _ (List.mem_append_left _ hMem))
    · exact fun r hMem =>
        hPrintable r.word
          (List.mem_cons_of_mem _
            (List.mem_append_right _ (List.mem_map_of_mem hMem)))
  rcases hWords with ⟨hVerb, hParams, hReds⟩
  rcases scans_redirects hReds hStarts with
    ⟨hRedirects, hBehind⟩
  have hGap := scans_optional s.gap hBehind (by decide)
  have hFirst :=
    starts_word s.verb
      (SimpleText.paramLexemes s.params ++
        (optional s.gap (bare .blank) ++
          s.reds.flatMap RedirectText.lexemes)) rest
  have hLead := scans_optional s.lead hFirst (by decide)
  exact ⟨hLead.append
      ((scans_word hVerb _).append
        ((scans_params hParams _).append
          (hGap.append hRedirects))),
    starts_optional s.lead hFirst⟩

------------------------------------------------------------
-- Lines
------------------------------------------------------------

/- The operators between simple commands. -/
theorem check_operator
    (op : Operator) :
    op.terminal ∈ bareKinds ∧
      (∀ c ∈ [2, 5, 9], c ∉ fusingClasses op.terminal) ∧
      Starts afterClasses (bareText op.terminal) := by
  cases op <;> decide

theorem scans_items
    {items : List (Operator × SimpleText)} {rest : Text}
    (hPrintable : ∀ x ∈ items, x.2.Printable)
    (hStarts : Starts afterClasses rest) :
    Scans (items.flatMap itemLexemes) rest ∧
      Starts afterClasses
        (printLexemes (items.flatMap itemLexemes) ++ rest) := by
  induction items with
  | nil => exact ⟨scans_nil rest, hStarts⟩
  | cons x items ih =>
      rcases List.forall_mem_cons.mp hPrintable with
        ⟨hFirst, hOthers⟩
      rcases ih hOthers with ⟨hScans, hBehind⟩
      rcases scans_simple hFirst hBehind with
        ⟨hSimple, hHead⟩
      rcases check_operator x.1 with ⟨hKind, hApart, hOp⟩
      have hItem :=
        (scans_bare hKind hHead hApart).append hSimple
      exact ⟨hItem.append hScans, starts_bare hOp hKind _ rest⟩

/- The end of a line, and of the text behind it. -/
theorem scans_end
    (eol : Bool) :
    Starts afterClasses (printLexemes [bare (endTerminal eol)]) ∧
      ∀ first last, ∃ tokens rest,
        scanAll ⟨.initial, printLexemes [bare (endTerminal eol)],
            first, last⟩ = tokens ++ rest ∧
          tokens.map Token.lexeme = [bare (endTerminal eol)] := by
  cases eol with
  | true =>
      refine ⟨by decide, fun first last => ?_⟩
      have hNothing : Starts [] ([] : Text) := nofun
      have hEnd : Scans [bare .endOfLine] [] :=
        scans_bare (by decide) hNothing nofun
      rcases hEnd first last with
        ⟨tokens, first', last', hScan, hLexemes⟩
      rw [List.append_nil] at hScan
      exact ⟨tokens, _, hScan, hLexemes⟩
  | false =>
      refine ⟨nofun, fun first last => ?_⟩
      refine ⟨[⟨.endOfFile, [], first⟩], [], ?_, rfl⟩
      have hPrint : printLexemes [bare (endTerminal false)] = [] :=
        rfl
      rw [hPrint, scanAll_eq]
      dsimp only
      rw [yyAction_nil]
      rfl

theorem printable_commands
    {first : SimpleText} {items : List (Operator × SimpleText)}
    {eol : Bool}
    (hPrintable : (LineText.commands first items eol).Printable) :
    first.Printable ∧ ∀ x ∈ items, x.2.Printable := by
  rcases List.forall_mem_append.mp hPrintable with
    ⟨hFirst, hItems⟩
  refine ⟨hFirst, fun x hItem w hWord => ?_⟩
  exact hItems w (List.mem_flatMap.mpr ⟨x, hItem, hWord⟩)

/- The scanner reads a line as it is printed. -/
theorem scanLine_print
    {line : LineText}
    (hPrintable : line.Printable) :
    ∃ w rest, scanLine line.print = w ++ rest ∧
      w.map Token.lexeme = line.lexemes := by
  -- the tokens before the end of the line
  have hLine :
      ∃ ls eol, line.lexemes = ls ++ [bare (endTerminal eol)] ∧
        Scans ls (printLexemes [bare (endTerminal eol)]) := by
    cases line with
    | empty lead eol =>
        exact ⟨_, eol, rfl,
          scans_optional lead (scans_end eol).1 (by decide)⟩
    | commands first items eol =>
        rcases printable_commands hPrintable with
          ⟨hFirst, hOthers⟩
        rcases scans_items hOthers (scans_end eol).1 with
          ⟨hItems, hStarts⟩
        refine ⟨first.lexemes ++ items.flatMap itemLexemes, eol,
          (List.append_assoc ..).symm, ?_⟩
        exact (scans_simple hFirst hStarts).1.append hItems
  rcases hLine with ⟨ls, eol, hLexemes, hScans⟩
  rcases hScans 0 0 with ⟨tokens, first, last, hScan, hTokens⟩
  rcases (scans_end eol).2 first last with
    ⟨tokens', rest, hEnd, hTokens'⟩
  refine ⟨tokens ++ tokens', rest, ?_, ?_⟩
  · rw [LineText.print, hLexemes, printLexemes_append, scanLine,
      hScan, hEnd, List.append_assoc]
  · rw [List.map_append, hTokens, hTokens', hLexemes]

/-
  A line of printable words is parsed back into the tree that
  it was printed for.
-/
theorem parseLine_print
    (line : LineText)
    (hPrintable : line.Printable) :
    parseLine line.print = .parsed line.root := by
  rcases scanLine_print hPrintable with
    ⟨w, rest, hScan, hLexemes⟩
  exact parseLine_parsed_iff.mpr
    ⟨line, w, rest, hScan, hLexemes, rfl⟩

instance : DecidablePred Quotable :=
  fun _ => inferInstanceAs (Decidable (_ ∧ _))

/- Words with no other variable than `$d` are printable. -/
theorem printable_of_parts
    {line : LineText}
    (hParts :
      ∀ w ∈ line.words, ∀ p ∈ w.first :: w.nextParts,
        IsCString p.string ∧
          if p.expand then p.string = ['d']
          else Quotable p.string) :
    line.Printable := by
  have hName : ['d'] ∈ envVarName.language :=
    ⟨['d'], .inr ⟨'d', rfl, by decide⟩, [],
      Language.nil_mem_kstar _, rfl⟩
  intro w hWord p hPart
  rcases hParts w hWord p hPart with ⟨hBytes, hString⟩
  refine ⟨hBytes, ?_⟩
  split at hString
  · rename_i hExpand
    rw [if_pos hExpand, hString]
    exact hName
  · rename_i hPlain
    rw [if_neg hPlain]
    exact hString

/- A line of one word. -/
def wordLine (string : Text) : LineText :=
  .commands ⟨false, plainWord string, [], false, [], rfl⟩ []
    false

/- ` ls -l a$d > out 2>>err&& wc <out;pwd`. -/
def listLine : LineText :=
  .commands
    ⟨true, plainWord ['l', 's'],
      [plainWord ['-', 'l'], ⟨⟨['a'], false⟩, [⟨['d'], true⟩]⟩],
      true,
      [⟨.redirectO, true, plainWord ['o', 'u', 't'], true⟩,
        ⟨.redirectAppendE, false, plainWord ['e', 'r', 'r'],
          false⟩],
      rfl⟩
    [(.conditionalZero,
        ⟨true, plainWord ['w', 'c'], [], true,
          [⟨.indirect, false, plainWord ['o', 'u', 't'], false⟩],
          rfl⟩),
      (.sequential,
        ⟨false, plainWord ['p', 'w', 'd'], [], false, [], rfl⟩)]
    true

theorem parseLine_print_listLine :
    listLine.Printable ∧
      parseLine listLine.print = .parsed listLine.root ∧
        listLine.root.map Command.operators =
          some [.conditionalZero, .sequential] := by
  have hPrintable : listLine.Printable :=
    printable_of_parts (by decide)
  exact ⟨hPrintable, parseLine_print listLine hPrintable,
    by decide⟩

end Shell

end ProgrammingTasks
