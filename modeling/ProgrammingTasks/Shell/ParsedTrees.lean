import ProgrammingTasks.Shell.Printing

/-
  The trees that `parse_line` returns.

  The words of a scanned line are printable, and every tree of
  printable words that obeys the priorities is printed as a
  line.  So these are the trees of all lines.

  Main declarations:
    * `word_rule`, `held_of_mem`, `printable_of_scan`
    * `SimpleCommand.words`, `words_of_root`
    * `lexeme_cases`, `isCString_print`
    * `parseLine_image`
    * `parseLine_equals`
-/

------------------------------------------------------------
-- What a Line Can Contain
------------------------------------------------------------

namespace ProgrammingTasks

namespace Shell

open LongestMatch

/- What a token of a scan holds. -/
def Token.Held (t : Token) : Prop :=
  (t.kind = .word → Quotable t.string) ∧
    (t.kind = .envVar → t.string ∈ envVarName.language)

/- The rules that return words. -/
theorem word_rule
    {start : StartCondition} {rule : Nat} {p : CharPattern}
    {w string : Text}
    (hRule : (rule, p) ∈ lexRules start)
    (hToken : lexAction rule w = .token .word string) :
    string = w ∧
      if start = .initial then
        p = oneOf ['='] ∨ p = parameterValue
      else
        p = .star (noneOf [charStateAny]) ∨
          p = .star (noneOf [charStateAnyAndExpansion, '$']) := by
  have hRules :
      ∀ start ∈ startConditions, ∀ r ∈ lexRules start,
        r.1 ∈ [17, 20, 22, 26] →
          if start = .initial then
            r.2 = oneOf ['='] ∨ r.2 = parameterValue
          else
            r.2 = .star (noneOf [charStateAny]) ∨
              r.2 = .star
                (noneOf [charStateAnyAndExpansion, '$']) := by
    decide
  have hNumber : rule ∈ [17, 20, 22, 26] := by
    unfold lexAction at hToken
    split at hToken <;> cases hToken <;> decide
  exact ⟨(lexAction_token hToken).2.1 rfl,
    hRules start (mem_startConditions start) _ hRule hNumber⟩

/- A character that a repeated pattern leaves out. -/
theorem not_mem_of_star
    {p : CharPattern} {w : Text}
    (hChar : p.isChar = true)
    (hMatch : w ∈ (Pattern.star p).language)
    {c : Char}
    (hOut : p.hasChar c = false) :
    c ∉ w := by
  intro hMem
  have hHas := (Pattern.mem_language_star hChar w).mp hMatch c hMem
  rw [hOut] at hHas
  cases hHas

theorem not_mem_of_plus
    {p : CharPattern} {w : Text}
    (hChar : p.isChar = true)
    (hMatch : w ∈ (Pattern.plus p).language)
    {c : Char}
    (hOut : p.hasChar c = false) :
    c ∉ w := by
  intro hMem
  have hHas :=
    ((Pattern.mem_language_plus hChar w).mp hMatch).2 c hMem
  rw [hOut] at hHas
  cases hHas

theorem quotable_of_word
    {start : StartCondition} {rule : Nat} {p : CharPattern}
    {w string : Text}
    (hRule : (rule, p) ∈ lexRules start)
    (hMatch : w ∈ p.language)
    (hSome : w ≠ [])
    (hToken : lexAction rule w = .token .word string) :
    Quotable string := by
  rcases word_rule hRule hToken with ⟨rfl, hPattern⟩
  split at hPattern
  · rcases hPattern with rfl | rfl
    · rw [(@mem_literal ['='] _).mp hMatch]
      exact ⟨nofun, .inl (by decide)⟩
    · exact ⟨hSome,
        .inl (not_mem_of_plus rfl hMatch (by decide))⟩
  · rcases hPattern with rfl | rfl
    · exact ⟨hSome,
        .inl (not_mem_of_star rfl hMatch (by decide))⟩
    · exact ⟨hSome,
        .inr ⟨not_mem_of_star rfl hMatch (by decide),
          not_mem_of_star rfl hMatch (by decide)⟩⟩

theorem name_of_variable
    {start : StartCondition} {rule : Nat} {p : CharPattern}
    {w string : Text}
    (hRule : (rule, p) ∈ lexRules start)
    (hMatch : w ∈ p.language)
    (hToken : lexAction rule w = .token .envVar string) :
    string ∈ envVarName.language := by
  rw [pattern_of_token hRule hToken nofun, tokenPattern,
    Pattern.language, Language.mem_mul] at hMatch
  rcases hMatch with ⟨u, hDollar, v, hName, rfl⟩
  rw [(lexAction_token hToken).2.2 rfl, mem_literal.mp hDollar]
  exact hName

theorem held_of_mem
    {line : Text} {t : Token}
    (hMem : t ∈ scanLine line) :
    t.Held := by
  have hAll : ∀ t ∈ scanLine line, t.Held := by
    refine scanAll_rec
      (motive := fun _ tokens => ∀ t ∈ tokens, t.Held)
      ?_ ?_ ?_ ⟨.initial, line, 0, 0⟩
    · intro start first last t hMem
      rw [List.mem_singleton.mp hMem]
      cases start <;> exact ⟨nofun, nofun⟩
    · intro start w rest first last rule p kind string tokens
        hRule hMatch hSome hToken ih t hMem
      rcases List.mem_cons.mp hMem with rfl | hMem
      · constructor
        · rintro rfl
          exact quotable_of_word hRule hMatch hSome hToken
        · rintro rfl
          exact name_of_variable hRule hMatch hToken
      · exact ih t hMem
    · intro start w rest first last rule p start' tokens
        _ _ _ _ ih
      exact ih
  exact hAll t hMem

theorem isCString_of_mem
    {line : Text} {t : Token}
    (hLine : IsCString line)
    (hMem : t ∈ scanLine line)
    (hKind : t.kind = .word ∨ t.kind = .envVar) :
    IsCString t.string := by
  have hToken : t.kind ≠ .endOfFile ∧ t.kind ≠ .unexpectedEof := by
    rcases hKind with hKind | hKind
    · rw [hKind]
      decide
    · rw [hKind]
      decide
  rcases located_of_mem hMem hToken with
    ⟨before, w, after, rfl, _, hSpells⟩
  have hText : ∀ c ∈ t.string, c ∈ w := by
    unfold Spells at hSpells
    rcases hKind with hKind | hKind
    · rw [hKind] at hSpells
      rw [hSpells.1]
      exact fun c hMem => hMem
    · rw [hKind] at hSpells
      rw [hSpells]
      exact fun c hMem => List.mem_cons_of_mem _ hMem
  exact fun c hMem =>
    hLine c
      (List.mem_append_left _
        (List.mem_append_right _ (hText c hMem)))

/- The parts of a line that is scanned are printable. -/
theorem printable_of_scan
    {line : Text} {t : Token} {p : Part}
    (hLine : IsCString line)
    (hMem : t ∈ scanLine line)
    (hLexeme : t.lexeme = p.lexeme) :
    p.Printable := by
  rcases t with ⟨kind, string, column⟩
  have hKind : kind = partTerminal p.expand :=
    congrArg Prod.fst hLexeme
  have hWord : kind = .word ∨ kind = .envVar :=
    hKind ▸ partTerminal_cases p.expand
  have hString : string = p.string :=
    (if_pos hWord).symm.trans (congrArg Prod.snd hLexeme)
  subst hString
  refine ⟨isCString_of_mem hLine hMem hWord, ?_⟩
  have hHeld := held_of_mem hMem
  split
  · rename_i hExpand
    rw [hExpand] at hKind
    exact hHeld.2 hKind
  · rename_i hPlain
    rw [Bool.not_eq_true] at hPlain
    rw [hPlain] at hKind
    exact hHeld.1 hKind

------------------------------------------------------------
-- The Trees of All Lines
------------------------------------------------------------

/- The words of a simple command. -/
def SimpleCommand.words (scmd : SimpleCommand) : List Word :=
  scmd.verb :: (scmd.params ++ scmd.red.words)

/- Redirections add their words in their order. -/
theorem words_redirectRules
    {reds : List Redirection} {r : Redirect}
    (hRules : redirectRules reds = some r) :
    r.words = reds.map Prod.snd := by
  rcases redirectRules_cases reds with
    ⟨hNone, _⟩ | ⟨r', nodes, hSome, hBuilt⟩
  · rw [hNone] at hRules
    cases hRules
  · cases hSome.symm.trans hRules
    exact hBuilt.words

theorem SimpleText.words_command (s : SimpleText) :
    s.command.words = s.words := by
  have hRules :
      redirectRules (s.reds.map RedirectText.redirection) =
        some s.redirect :=
    (Option.some_get s.legal).symm
  have hWords := words_redirectRules hRules
  rw [List.map_map] at hWords
  change s.verb :: (s.params ++ s.redirect.words) = _
  rw [hWords]
  rfl

/- The parts of the words of a line are among its lexemes. -/
theorem lexeme_of_simple
    {s : SimpleText} {w : Word} {p : Part}
    (hWord : w ∈ s.words)
    (hPart : p ∈ w.first :: w.nextParts) :
    p.lexeme ∈ s.lexemes := by
  have hLexeme : p.lexeme ∈ w.lexemes :=
    List.mem_map_of_mem hPart
  simp only [SimpleText.lexemes, SimpleText.paramLexemes,
    List.mem_append, List.mem_flatMap]
  rcases List.mem_cons.mp hWord with rfl | hOther
  · exact .inr (.inl hLexeme)
  · rcases List.mem_append.mp hOther with hParam | hRed
    · exact .inr (.inr (.inl
        ⟨w, hParam, List.mem_cons_of_mem _ hLexeme⟩))
    · rcases List.mem_map.mp hRed with ⟨r, hMem, rfl⟩
      refine .inr (.inr (.inr (.inr ⟨r, hMem, ?_⟩)))
      exact List.mem_cons_of_mem _
        (List.mem_append_right _
          (List.mem_append_left _ hLexeme))

theorem lexeme_of_line
    {line : LineText} {w : Word} {p : Part}
    (hWord : w ∈ line.words)
    (hPart : p ∈ w.first :: w.nextParts) :
    p.lexeme ∈ line.lexemes := by
  cases line with
  | empty lead eol => cases hWord
  | commands first items eol =>
      rw [LineText.lexemes, List.mem_append, List.mem_append]
      rcases List.mem_append.mp hWord with hFirst | hOther
      · exact .inl (lexeme_of_simple hFirst hPart)
      · rcases List.mem_flatMap.mp hOther with ⟨x, hItem, hIn⟩
        exact .inr (.inl (List.mem_flatMap.mpr
          ⟨x, hItem, List.mem_cons_of_mem _
            (lexeme_of_simple hIn hPart)⟩))

/- The words of the tree are those of the line. -/
theorem words_of_root
    {text : LineText} {c : Command SimpleCommand}
    (hRoot : text.root = some c) :
    c.leaves.flatMap SimpleCommand.words = text.words := by
  cases text with
  | empty lead eol => cases hRoot
  | commands first items eol =>
      cases hRoot
      rw [leaves_ofTree, OperatorTree.first_assemble,
        OperatorTree.items_assemble, List.flatMap_cons,
        SimpleText.words_command, List.map_map, List.flatMap_map,
        LineText.words]
      refine congrArg (first.words ++ ·) ?_
      exact List.flatMap_congr
        fun x _ => SimpleText.words_command x.2

/- Its simple commands have redirections that the rules allow. -/
theorem legal_of_root
    {text : LineText} {c : Command SimpleCommand}
    (hRoot : text.root = some c)
    {scmd : SimpleCommand}
    (hLeaf : scmd ∈ c.leaves) :
    ∃ reds, redirectRules reds = some scmd.red := by
  have hLegal :
      ∀ s : SimpleText, s.command = scmd →
        ∃ reds, redirectRules reds = some scmd.red := by
    rintro s rfl
    exact ⟨_, (Option.some_get s.legal).symm⟩
  cases text with
  | empty lead eol => cases hRoot
  | commands first items eol =>
      cases hRoot
      rw [leaves_ofTree, OperatorTree.first_assemble,
        OperatorTree.items_assemble, List.map_map] at hLeaf
      rcases List.mem_cons.mp hLeaf with hFirst | hOther
      · exact hLegal first hFirst.symm
      · rcases List.mem_map.mp hOther with ⟨x, _, hSame⟩
        exact hLegal x.2 hSame

/- A simple command that can be written down. -/
theorem exists_simpleText
    {scmd : SimpleCommand}
    (hLegal : ∃ reds, redirectRules reds = some scmd.red) :
    ∃ s : SimpleText, s.command = scmd := by
  rcases hLegal with ⟨reds, hRules⟩
  let texts : List RedirectText :=
    reds.map fun red => ⟨red.1, false, red.2, false⟩
  have hTexts : texts.map RedirectText.redirection = reds := by
    rw [List.map_map]
    exact List.map_id reds
  refine ⟨⟨false, scmd.verb, scmd.params, false, texts, ?_⟩, ?_⟩
  · rw [hTexts, hRules]
    rfl
  · simp only [SimpleText.command, SimpleText.redirect, hTexts,
      hRules, Option.get_some]
    rfl

theorem exists_items
    {l : List (Operator × SimpleCommand)}
    (hLegal :
      ∀ scmd ∈ l.map Prod.snd,
        ∃ reds, redirectRules reds = some scmd.red) :
    ∃ items : List (Operator × SimpleText),
      items.map (fun x => (x.1, x.2.command)) = l := by
  induction l with
  | nil => exact ⟨[], rfl⟩
  | cons x l ih =>
      rcases List.forall_mem_cons.mp hLegal with
        ⟨hFirst, hOthers⟩
      rcases exists_simpleText hFirst with ⟨s, hCommand⟩
      rcases ih hOthers with ⟨items, rfl⟩
      refine ⟨(x.1, s) :: items, ?_⟩
      rw [List.map_cons, hCommand]

/- Every such tree is that of a line. -/
theorem exists_lineText
    {c : Command SimpleCommand}
    (hPrioritized : Prioritized c)
    (hLegal :
      ∀ scmd ∈ c.leaves,
        ∃ reds, redirectRules reds = some scmd.red) :
    ∃ text : LineText, text.root = some c := by
  rw [leaves_tree] at hLegal
  rcases List.forall_mem_cons.mp hLegal with ⟨hFirst, hOthers⟩
  rcases exists_simpleText hFirst with ⟨first, hCommand⟩
  rcases exists_items hOthers with ⟨items, hItems⟩
  refine ⟨.commands first items true, ?_⟩
  rw [LineText.root, hCommand, hItems,
    ((prioritized_iff c).mp hPrioritized).eq_assemble,
    Command.ofTree_tree]

theorem bare_of_optional
    {given : Bool} {l : Lexeme}
    (hMem : l ∈ optional given (bare .blank)) :
    ∃ k, k ≠ .endOfLine ∧ l = bare k := by
  cases given with
  | false => cases hMem
  | true => exact ⟨.blank, by decide, List.mem_singleton.mp hMem⟩

theorem inner_operator (op : Operator) :
    op.terminal ≠ .endOfLine := by
  cases op <;> exact nofun

theorem inner_redirectOp (op : RedirectOp) :
    op.terminal ≠ .endOfLine := by
  cases op <;> exact nofun

/- The lexemes of a line are parts of words and bare tokens. -/
theorem lexeme_cases_simple
    {s : SimpleText} {l : Lexeme}
    (hMem : l ∈ s.lexemes) :
    (∃ w ∈ s.words, ∃ p ∈ w.first :: w.nextParts,
        l = p.lexeme) ∨
      ∃ k, k ≠ .endOfLine ∧ l = bare k := by
  have hWord :
      ∀ w ∈ s.words, l ∈ w.lexemes →
        (∃ w ∈ s.words, ∃ p ∈ w.first :: w.nextParts,
            l = p.lexeme) ∨
          ∃ k, k ≠ .endOfLine ∧ l = bare k := by
    intro w hIn hLexeme
    rcases List.mem_map.mp hLexeme with ⟨p, hPart, rfl⟩
    exact .inl ⟨w, hIn, p, hPart, rfl⟩
  simp only [SimpleText.lexemes, SimpleText.paramLexemes,
    RedirectText.lexemes, List.mem_append, List.mem_flatMap,
    List.mem_cons] at hMem
  rcases hMem with hLead | hVerb |
    ⟨w, hParam, rfl | hLexeme⟩ | hGap |
    ⟨r, hRed, rfl | hBefore | hLexeme | hAfter⟩
  · exact .inr (bare_of_optional hLead)
  · exact hWord s.verb List.mem_cons_self hVerb
  · exact .inr ⟨.blank, by decide, rfl⟩
  · exact hWord w
      (List.mem_cons_of_mem _ (List.mem_append_left _ hParam))
      hLexeme
  · exact .inr (bare_of_optional hGap)
  · exact .inr ⟨_, inner_redirectOp r.op, rfl⟩
  · exact .inr (bare_of_optional hBefore)
  · exact hWord r.word
      (List.mem_cons_of_mem _
        (List.mem_append_right _ (List.mem_map_of_mem hRed)))
      hLexeme
  · exact .inr (bare_of_optional hAfter)

theorem lexeme_cases
    {line : LineText} {l : Lexeme}
    (hMem : l ∈ line.lexemes) :
    (∃ w ∈ line.words, ∃ p ∈ w.first :: w.nextParts,
        l = p.lexeme) ∨
      ∃ k, (k = .endOfLine → line.eol = true) ∧ l = bare k := by
  have hInner :
      ∀ {eol : Bool}, (∃ k, k ≠ .endOfLine ∧ l = bare k) →
        ∃ k, (k = .endOfLine → eol = true) ∧ l = bare k := by
    rintro eol ⟨k, hOther, hSame⟩
    exact ⟨k, fun hEnd => absurd hEnd hOther, hSame⟩
  have hLast :
      ∀ {eol : Bool}, l ∈ [bare (endTerminal eol)] →
        ∃ k, (k = .endOfLine → eol = true) ∧ l = bare k := by
    intro eol hEnd
    refine ⟨_, ?_, List.mem_singleton.mp hEnd⟩
    cases eol with
    | false => exact nofun
    | true => exact fun _ => rfl
  cases line with
  | empty lead eol =>
      refine .inr ?_
      rcases List.mem_append.mp hMem with hLead | hEnd
      · exact hInner (bare_of_optional hLead)
      · exact hLast hEnd
  | commands first items eol =>
      rw [LineText.lexemes, List.mem_append,
        List.mem_append] at hMem
      rcases hMem with hFirst | hItems | hEnd
      · refine (lexeme_cases_simple hFirst).imp ?_ hInner
        rintro ⟨w, hWord, hPart⟩
        exact ⟨w, List.mem_append_left _ hWord, hPart⟩
      · rcases List.mem_flatMap.mp hItems with ⟨x, hItem, hIn⟩
        rcases List.mem_cons.mp hIn with rfl | hIn
        · exact .inr (hInner ⟨_, inner_operator x.1, rfl⟩)
        · refine (lexeme_cases_simple hIn).imp ?_ hInner
          rintro ⟨w, hWord, hPart⟩
          exact ⟨w, List.mem_append_right _
            (List.mem_flatMap.mpr ⟨x, hItem, hWord⟩), hPart⟩
      · exact .inr (hLast hEnd)

/- A printed line is a C string. -/
theorem isCString_print
    {line : LineText}
    (hPrintable : line.Printable) :
    IsCString line.print := by
  have hBare : ∀ k ∈ terminals, IsCString (bare k).print := by
    decide
  have hQuoted :
      ∀ mark text, IsCString [mark] → IsCString text →
        IsCString (quoted mark text) := by
    intro mark text hMark hText
    exact List.forall_mem_cons.mpr
      ⟨hMark mark List.mem_cons_self,
        List.forall_mem_append.mpr ⟨hText, hMark⟩⟩
  have hQuote : IsCString [charStateAny] := by
    decide
  have hDoubleQuote : IsCString [charStateAnyAndExpansion] := by
    decide
  intro c hMem
  rcases List.mem_flatMap.mp hMem with ⟨l, hLexeme, hIn⟩
  rcases lexeme_cases hLexeme with
    ⟨w, hWord, p, hPart, rfl⟩ | ⟨k, _, rfl⟩
  · rcases hPrintable w hWord p hPart with ⟨hText, -⟩
    rcases p with ⟨string, _ | _⟩
    · have hPrint :
          (⟨string, false⟩ : Part).lexeme.print =
            if charStateAny ∈ string then
              quoted charStateAnyAndExpansion string
            else
              quoted charStateAny string :=
        rfl
      rw [hPrint] at hIn
      split at hIn
      · exact hQuoted _ string hDoubleQuote hText c hIn
      · exact hQuoted _ string hQuote hText c hIn
    · refine hQuoted _ _ hDoubleQuote ?_ c hIn
      exact List.forall_mem_cons.mpr ⟨by decide, hText⟩
  · exact hBare k (mem_terminals k) c hIn

/-
  These are the trees that the parser can return: those that
  obey the priorities, with redirections that the rules allow
  and with words that a line can contain.
-/
theorem parseLine_image (c : Command SimpleCommand) :
    (∃ line, IsCString line ∧ parseLine line = .parsed (some c)) ↔
      Prioritized c ∧
        ∀ scmd ∈ c.leaves,
          (∃ reds, redirectRules reds = some scmd.red) ∧
            ∀ w ∈ scmd.words, w.Printable := by
  constructor
  · rintro ⟨line, hLine, hParsed⟩
    rcases parseLine_parsed_iff.mp hParsed with
      ⟨text, w, rest, hScan, hLexemes, hRoot⟩
    refine ⟨prioritized_root hRoot.symm, fun scmd hLeaf => ?_⟩
    refine ⟨legal_of_root hRoot.symm hLeaf, fun word hWord => ?_⟩
    have hIn : word ∈ text.words := by
      rw [← words_of_root hRoot.symm]
      exact List.mem_flatMap.mpr ⟨scmd, hLeaf, hWord⟩
    intro p hPart
    have hLexeme := lexeme_of_line hIn hPart
    rw [← hLexemes] at hLexeme
    rcases List.mem_map.mp hLexeme with ⟨t, hToken, hSame⟩
    refine printable_of_scan hLine ?_ hSame
    rw [hScan]
    exact List.mem_append_left _ hToken
  · rintro ⟨hPrioritized, hLeaves⟩
    rcases exists_lineText hPrioritized
        (fun scmd hLeaf => (hLeaves scmd hLeaf).1) with
      ⟨text, hRoot⟩
    have hPrintable : text.Printable := by
      intro w hWord
      rw [← words_of_root hRoot] at hWord
      rcases List.mem_flatMap.mp hWord with ⟨scmd, hLeaf, hIn⟩
      exact (hLeaves scmd hLeaf).2 w hIn
    rcases scanLine_print hPrintable with
      ⟨w, rest, hScan, hLexemes⟩
    exact ⟨text.print, isCString_print hPrintable,
      parseLine_parsed_iff.mpr
        ⟨text, w, rest, hScan, hLexemes, hRoot.symm⟩⟩

------------------------------------------------------------
-- Equality Signs
------------------------------------------------------------

/- The text has no quotation marks. -/
def Unquoted (text : Text) : Prop :=
  charStateAny ∉ text ∧ charStateAnyAndExpansion ∉ text

/- Without quotation marks the start condition is kept. -/
theorem begin_quoted
    {rule : Nat} {p : CharPattern} {w : Text}
    {start : StartCondition}
    (hRule : (rule, p) ∈ lexRules .initial)
    (hMatch : w ∈ p.language)
    (hBegin : lexAction rule w = .begin start) :
    ¬ Unquoted w := by
  rintro ⟨hQuote, hDoubleQuote⟩
  rcases mark_of_begin hRule hMatch hBegin with ⟨c, hMark, rfl⟩
  rcases List.mem_cons.mp hMark with rfl | hMark
  · exact hQuote List.mem_cons_self
  · rw [List.mem_singleton.mp hMark] at hDoubleQuote
    exact hDoubleQuote List.mem_cons_self

theorem Unquoted.of_append
    {w rest : Text}
    (hText : Unquoted (w ++ rest)) :
    Unquoted w ∧ Unquoted rest := by
  rcases hText with ⟨hQuote, hDoubleQuote⟩
  rw [List.mem_append, not_or] at hQuote hDoubleQuote
  exact ⟨⟨hQuote.1, hDoubleQuote.1⟩, hQuote.2, hDoubleQuote.2⟩

/- An equality sign is a word of its own. -/
theorem equals_of_mem
    {line : Text} {t : Token}
    (hLine : Unquoted line)
    (hMem : t ∈ scanLine line)
    (hKind : t.kind = .word) :
    t.string = ['='] ∨ '=' ∉ t.string := by
  have hAll :
      StartCondition.initial = .initial → Unquoted line →
        ∀ t ∈ scanLine line, t.kind = .word →
          t.string = ['='] ∨ '=' ∉ t.string := by
    refine scanAll_rec
      (motive := fun s tokens =>
        s.start = .initial → Unquoted s.rest →
          ∀ t ∈ tokens, t.kind = .word →
            t.string = ['='] ∨ '=' ∉ t.string)
      ?_ ?_ ?_ ⟨.initial, line, 0, 0⟩
    · intro start first last _ _ t hMem hKind
      rw [List.mem_singleton.mp hMem] at hKind
      cases start <;> cases hKind
    · intro start w rest first last rule p kind string tokens
        hRule hMatch _ hToken ih hStart hText t hMem
      dsimp only at hStart hText
      subst hStart
      rcases List.mem_cons.mp hMem with rfl | hMem
      · rintro rfl
        rcases word_rule hRule hToken with ⟨rfl, hPattern⟩
        rw [if_pos rfl] at hPattern
        rcases hPattern with rfl | rfl
        · exact .inl ((@mem_literal ['='] _).mp hMatch)
        · exact .inr
            (not_mem_of_plus rfl hMatch (by decide))
      · exact ih rfl hText.of_append.2 t hMem
    · intro start w rest first last rule p start' tokens
        hRule hMatch _ hBegin _ hStart hText
      dsimp only at hStart hText
      subst hStart
      exact absurd hText.of_append.1
        (begin_quoted hRule hMatch hBegin)
  exact hAll rfl hLine t hMem hKind

/-
  Without quotation marks in the line, an equality sign is a
  part of its own in every word of the tree.
-/
theorem parseLine_equals
    {line : Text} {c : Command SimpleCommand}
    (hLine : Unquoted line)
    (hParsed : parseLine line = .parsed (some c)) :
    ∀ scmd ∈ c.leaves, ∀ w ∈ scmd.words,
      ∀ p ∈ w.first :: w.nextParts, p.expand = false →
        p.string = ['='] ∨ '=' ∉ p.string := by
  rcases parseLine_parsed_iff.mp hParsed with
    ⟨text, w, rest, hScan, hLexemes, hRoot⟩
  rintro scmd hLeaf word hWord ⟨string, _⟩ hPart rfl
  have hIn : word ∈ text.words := by
    rw [← words_of_root hRoot.symm]
    exact List.mem_flatMap.mpr ⟨scmd, hLeaf, hWord⟩
  have hLexeme := lexeme_of_line hIn hPart
  rw [← hLexemes] at hLexeme
  rcases List.mem_map.mp hLexeme with ⟨t, hToken, hSame⟩
  have hKind : t.kind = .word := congrArg Prod.fst hSame
  have hString : t.string = string :=
    (if_pos (.inl hKind)).symm.trans (congrArg Prod.snd hSame)
  rw [← hString]
  refine equals_of_mem hLine ?_ hKind
  rw [hScan]
  exact List.mem_append_left _ hToken

theorem parseLine_equals_assignment :
    ∃ c, parseLine ['a', '=', 'b'] = .parsed (some c) ∧
      ∀ scmd ∈ c.leaves, ∀ w ∈ scmd.words,
        ∀ p ∈ w.first :: w.nextParts, p.expand = false →
          p.string = ['='] ∨ '=' ∉ p.string := by
  have hTree : (parseLine ['a', '=', 'b']).isTree = true := by
    decide
  rcases exists_of_isTree hTree with ⟨c, hParsed⟩
  exact ⟨c, hParsed,
    parseLine_equals ⟨by decide, by decide⟩ hParsed⟩

end Shell

end ProgrammingTasks
