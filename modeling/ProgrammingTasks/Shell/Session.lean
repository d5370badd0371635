import ProgrammingTasks.Shell.ParsedTrees
import ProgrammingTasks.Shell.ReadLine

/-
  Sessions of the mini-shell (`main.c`).

  The loop of `start_shell` reads a line of its input, parses
  it and runs its tree.  Whatever trees are typed in as lines,
  the shell runs just these in their order, up to the first
  that ends it.

  Main declarations:
    * `shellLine`, `shellLoop`, `runShell`
    * `LineText.Typable`, `LineText.typed`
    * `readLine_typed`
    * `runShell_typed`
-/

------------------------------------------------------------
-- The Loop of the Shell on its Input
------------------------------------------------------------

namespace ProgrammingTasks

namespace Shell

/- There is no line at the end of the input. -/
theorem readLine_nil : readLine [] = some (none, []) := rfl

-- otherwise the equations of the loop would evaluate them
attribute [local irreducible] parseLine readLine

/- `parse_error`, which writes to `stderr`. -/
def parseError (message : String) (column : Nat) : String :=
  "Parse error near " ++ toString column ++ ": " ++ message ++ "\n"

/-
  What a session leaves: the rest of its input, its process, and
  the reports of `parse_error`.
-/
structure Session where
  rest : Text
  process : Process SimpleCommand
  errors : List String

/-
  The loop of `start_shell` for a line: whether it breaks, with
  the process and the reports.  There is no result if the shell
  dies in a command or in `parse_line`.
-/
def shellLine
    (env : Surroundings SimpleCommand) (line : Text)
    (p : Process SimpleCommand) (errors : List String) :
    Option (Bool × Process SimpleCommand × List String) :=
  match parseLine line with
  | .assertion => none
  | .error message column =>
      some (false, p, errors ++ [parseError message column])
  | .parsed none => some (false, p, errors)
  | .parsed (some root) =>
      (parseCommand env root [] p).map fun (ret, p) =>
        (decide (ret = shellExit), p, errors)

/-
  The loop of `start_shell` on a stream.  The evaluation of each
  line meets its own surroundings.
-/
def shellLoop :
    Nat → (Nat → Surroundings SimpleCommand) → Text →
      Process SimpleCommand → List String → Option Session
| 0, _, _, _, _ => none
| fuel + 1, envs, stream, p, errors =>
    match readLine stream with
    | none => none
    | some (none, stream) => some ⟨stream, p, errors⟩
    | some (some line, stream) =>
        match shellLine (envs 0) line p errors with
        | none => none
        | some (true, p, errors) => some ⟨stream, p, errors⟩
        | some (false, p, errors) =>
            shellLoop fuel (fun n => envs (n + 1)) stream p errors

/- Every line takes a character of the input at least. -/
def runShell
    (envs : Nat → Surroundings SimpleCommand)
    (stream : Text) (p : Process SimpleCommand) :
    Option Session :=
  shellLoop (stream.length + 1) envs stream p []

------------------------------------------------------------
-- Lines of Input
------------------------------------------------------------

/- The line without a token for its end. -/
def LineText.body : LineText → LineText
| .empty lead _ => .empty lead false
| .commands first rest _ => .commands first rest false

/- A line as it is typed. -/
def LineText.typed (line : LineText) : Text :=
  line.body.print ++ ['\n']

/-
  The words are printable and on one line, which does not take
  `read_line` beyond `int`.
-/
structure LineText.Typable (line : LineText) : Prop where
  printable : line.Printable
  oneLine :
    ∀ w ∈ line.words, ∀ p ∈ w.first :: w.nextParts,
      '\n' ∉ p.string
  inRange : lastChunk line.typed + chunkSize + 1 ≤ intMax

@[simp]
theorem LineText.words_body (line : LineText) :
    line.body.words = line.words := by
  cases line <;> rfl

@[simp]
theorem LineText.root_body (line : LineText) :
    line.body.root = line.root := by
  cases line <;> rfl

@[simp]
theorem LineText.eol_body (line : LineText) :
    line.body.eol = false := by
  cases line <;> rfl

/- Quotation marks around a text. -/
theorem mem_quoted
    {mark c : Char} {string : Text}
    (hMem : c ∈ quoted mark string) :
    c = mark ∨ c ∈ string := by
  rcases List.mem_cons.mp hMem with hFirst | hMem
  · exact .inl hFirst
  · rcases List.mem_append.mp hMem with hInside | hLast
    · exact .inr hInside
    · exact .inl (List.mem_singleton.mp hLast)

/- The line stays one line. -/
theorem newline_notMem_print
    {line : LineText}
    (hOneLine :
      ∀ w ∈ line.words, ∀ p ∈ w.first :: w.nextParts,
        '\n' ∉ p.string) :
    '\n' ∉ line.body.print := by
  have hBare :
      ∀ k ∈ terminals, k ≠ .endOfLine →
        '\n' ∉ (bare k).print := by
    decide
  intro hMem
  rcases List.mem_flatMap.mp hMem with ⟨l, hLexeme, hIn⟩
  rcases lexeme_cases hLexeme with
    ⟨w, hWord, p, hPart, rfl⟩ | ⟨k, hEnd, rfl⟩
  · rw [LineText.words_body] at hWord
    have hPlain := hOneLine w hWord p hPart
    rcases p with ⟨string, _ | _⟩
    · have hPrint :
          (⟨string, false⟩ : Part).lexeme.print =
            if charStateAny ∈ string then
              quoted charStateAnyAndExpansion string
            else
              quoted charStateAny string :=
        rfl
      rw [hPrint] at hIn
      split at hIn
      · exact hPlain ((mem_quoted hIn).resolve_left (by decide))
      · exact hPlain ((mem_quoted hIn).resolve_left (by decide))
    · rcases mem_quoted hIn with hMark | hInside
      · revert hMark
        decide
      · rcases List.mem_cons.mp hInside with hDollar | hInside
        · revert hDollar
          decide
        · exact hPlain hInside
  · refine hBare k (mem_terminals k) ?_ hIn
    intro hLast
    have hEol := hEnd hLast
    rw [LineText.eol_body] at hEol
    cases hEol

/- No lexeme ends with a return. -/
theorem getLast_lexeme (l : Lexeme) :
    l.print.getLast? ≠ some '\r' := by
  have hBare :
      ∀ k ∈ terminals, (bareText k).getLast? ≠ some '\r' := by
    decide
  have hQuoted :
      ∀ mark string, mark ≠ '\r' →
        (quoted mark string).getLast? ≠ some '\r' := by
    intro mark string hMark hLast
    have hEnd : (quoted mark string).getLast? = some mark :=
      List.getLast?_concat (l := mark :: string)
    rw [hEnd, Option.some.injEq] at hLast
    exact hMark hLast
  unfold Lexeme.print
  split
  · split
    · exact hQuoted _ _ (by decide)
    · exact hQuoted _ _ (by decide)
  · exact hQuoted _ _ (by decide)
  · exact hBare _ (mem_terminals _)

theorem getLast_printLexemes (ls : List Lexeme) :
    (printLexemes ls).getLast? ≠ some '\r' := by
  induction ls with
  | nil => exact nofun
  | cons l ls ih =>
      rw [printLexemes, List.flatMap_cons, List.getLast?_append]
      intro hLast
      rcases Option.or_eq_some_iff.mp hLast with
        hRest | ⟨_, hFirst⟩
      · exact ih hRest
      · exact getLast_lexeme l hFirst

/- There is no return before the newline. -/
theorem not_return_typed (line : LineText) :
    ¬ ['\r', '\n'] <:+ line.typed := by
  rintro ⟨front, hSplit⟩
  have hBody : front ++ ['\r'] = line.body.print := by
    have hBoth : (front ++ ['\r']) ++ ['\n'] = line.typed := by
      rw [List.append_assoc]
      exact hSplit
    exact List.append_cancel_right hBoth
  refine getLast_printLexemes line.body.lexemes ?_
  change line.body.print.getLast? = some '\r'
  rw [← hBody, List.getLast?_concat]

/- `read_line` returns a typed line as it is printed. -/
theorem readLine_typed
    {line : LineText}
    (hTypable : line.Typable)
    (rest : Text) :
    readLine (line.typed ++ rest) =
      some (some line.body.print, rest) := by
  have hSome : line.typed ≠ [] :=
    List.append_ne_nil_of_right_ne_nil _ nofun
  have hNoReturn := not_return_typed line
  have hSegment : IsSegment line.typed rest := by
    refine ⟨hSome, ?_, .inl List.getLast?_concat⟩
    rw [LineText.typed, List.dropLast_concat]
    exact newline_notMem_print hTypable.oneLine
  have hNewline : ['\n'] <:+ line.typed :=
    List.suffix_append _ _
  have hText : readText line.typed = line.body.print := by
    rw [(readText_eq_iff hSome).mpr
        (fun hReturn => absurd hReturn hNoReturn),
      withoutEnd, if_neg hNoReturn,
      if_pos hNewline]
    exact List.dropLast_concat
  rw [readLine_segment hSegment, if_pos hTypable.inRange, hText]

/- `parse_line` returns its tree. -/
theorem parseLine_typed
    {line : LineText}
    (hTypable : line.Typable) :
    parseLine line.body.print = .parsed line.root := by
  have hPrintable : line.body.Printable := by
    unfold LineText.Printable
    rw [LineText.words_body]
    exact hTypable.printable
  rcases scanLine_print hPrintable with
    ⟨w, rest, hScan, hLexemes⟩
  exact parseLine_parsed_iff.mpr
    ⟨line.body, w, rest, hScan, hLexemes,
      (LineText.root_body line).symm⟩

------------------------------------------------------------
-- Sessions
------------------------------------------------------------

/- The input of a session in which these lines are typed. -/
def typedLines (lines : List LineText) : Text :=
  lines.flatMap LineText.typed

/- The trees of the lines, with what their evaluations meet. -/
def sessionLines :
    (Nat → Surroundings SimpleCommand) → List LineText →
      List (Line SimpleCommand)
| _, [] => []
| envs, line :: lines =>
    ⟨line.root, envs 0⟩ ::
      sessionLines (fun n => envs (n + 1)) lines

@[simp]
theorem length_sessionLines
    (envs : Nat → Surroundings SimpleCommand)
    (lines : List LineText) :
    (sessionLines envs lines).length = lines.length := by
  induction lines generalizing envs with
  | nil => rfl
  | cons line lines ih =>
      rw [sessionLines, List.length_cons, ih, List.length_cons]

/- The last lines, as many as are left. -/
def lastLines (lines : List LineText) (n : Nat) :
    List LineText :=
  lines.drop (lines.length - n)

theorem lastLines_cons
    {line : LineText} {lines : List LineText} {n : Nat}
    (hFewer : n ≤ lines.length) :
    lastLines (line :: lines) n = lastLines lines n := by
  unfold lastLines
  rw [List.length_cons, Nat.succ_sub hFewer, List.drop_succ_cons]

/- The loop leaves some of its lines. -/
theorem length_startShell
    {L : Type} {lines left : List (Line L)} {p p' : Process L}
    (hEnds : startShell lines p = some (left, p')) :
    left.length ≤ lines.length := by
  induction lines generalizing p with
  | nil =>
      cases hEnds
      exact Nat.le_refl 0
  | cons line lines ih =>
      rw [startShell] at hEnds
      split at hEnds
      · exact (ih hEnds).trans (Nat.le_succ _)
      · split at hEnds
        · cases hEnds
        · split at hEnds
          · cases hEnds
            exact Nat.le_succ _
          · exact (ih hEnds).trans (Nat.le_succ _)

/- The rest of the session is left in the input. -/
def sessionOf
    (lines : List LineText) (errors : List String)
    (x : List (Line SimpleCommand) × Process SimpleCommand) :
    Session :=
  ⟨typedLines (lastLines lines x.1.length), x.2, errors⟩

theorem shellLoop_typed
    {lines : List LineText}
    (hTypable : ∀ line ∈ lines, line.Typable)
    {fuel : Nat}
    (hFuel : (typedLines lines).length < fuel)
    (envs : Nat → Surroundings SimpleCommand)
    (p : Process SimpleCommand) (errors : List String) :
    shellLoop fuel envs (typedLines lines) p errors =
      (startShell (sessionLines envs lines) p).map
        (sessionOf lines errors) := by
  induction lines generalizing fuel envs p with
  | nil =>
      rcases fuel with _ | fuel
      · cases hFuel
      · have hText : typedLines [] = [] := rfl
        rw [hText, shellLoop, readLine_nil]
        rfl
  | cons line lines ih =>
      rcases List.forall_mem_cons.mp hTypable with
        ⟨hFirst, hOthers⟩
      rcases fuel with _ | fuel
      · cases hFuel
      · have hText :
            typedLines (line :: lines) =
              line.typed ++ typedLines lines :=
          List.flatMap_cons
        have hLess : (typedLines lines).length < fuel := by
          rw [hText, List.length_append, LineText.typed,
            List.length_append, List.length_singleton] at hFuel
          omega
        -- the session goes on with the other lines
        have hNext :
            ∀ p,
              shellLoop fuel (fun n => envs (n + 1))
                  (typedLines lines) p errors =
                (startShell
                    (sessionLines (fun n => envs (n + 1)) lines)
                    p).map
                  (sessionOf (line :: lines) errors) := by
          intro p
          rw [ih hOthers hLess]
          cases hEnds :
              startShell
                (sessionLines (fun n => envs (n + 1)) lines) p with
          | none => rfl
          | some x =>
              have hLeft := length_startShell hEnds
              rw [length_sessionLines] at hLeft
              rw [Option.map_some, Option.map_some, sessionOf,
                sessionOf, lastLines_cons hLeft]
        rw [hText, shellLoop, readLine_typed hFirst, sessionLines,
          startShell]
        dsimp only
        rw [shellLine, parseLine_typed hFirst]
        cases line.root with
        | none => exact hNext p
        | some root =>
            dsimp only
            cases parseCommand (envs 0) root [] p with
            | none => rfl
            | some x =>
                rcases x with ⟨ret, p'⟩
                dsimp only [Option.map_some]
                by_cases hExit : ret = shellExit
                · have hAll :
                      lastLines (line :: lines) lines.length =
                        lines := by
                    rw [lastLines_cons (Nat.le_refl _), lastLines,
                      Nat.sub_self, List.drop_zero]
                  rw [decide_eq_true hExit, if_pos hExit,
                    Option.map_some, sessionOf,
                    length_sessionLines, hAll]
                · rw [decide_eq_false hExit, if_neg hExit]
                  exact hNext p'

/-
  A session in which lines are typed runs just their trees, in
  their order.  It reports no error, and when a line ends it,
  the lines behind are left in the input.
-/
theorem runShell_typed
    (lines : List LineText)
    (hTypable : ∀ line ∈ lines, line.Typable)
    (envs : Nat → Surroundings SimpleCommand)
    (p : Process SimpleCommand) :
    runShell envs (typedLines lines) p =
      (startShell (sessionLines envs lines) p).map fun x =>
        ⟨typedLines (lastLines lines x.1.length), x.2, []⟩ :=
  shellLoop_typed hTypable (Nat.lt_succ_self _) envs p []

/- The second of three lines ends the shell. -/
theorem runShell_typed_exit :
    let lines :=
      [listLine, wordLine ['e', 'x', 'i', 't'],
        wordLine ['l', 's']]
    let envs : Nat → Surroundings SimpleCommand := fun _ =>
      ⟨parseSimple (fun _ => none) (fun _ _ p => some (0, p)),
        fun _ => 0⟩
    (runShell envs (typedLines lines) ⟨.empty, 0, []⟩).map
        (fun session =>
          (session.rest, session.errors,
            session.process.ran.map fun x => x.2.verb)) =
      some
        (typedLines [wordLine ['l', 's']], [],
          [plainWord ['e', 'x', 'i', 't'],
            plainWord ['p', 'w', 'd'], plainWord ['w', 'c'],
            plainWord ['l', 's']]) := by
  intro lines envs
  have hTypable : ∀ line ∈ lines, line.Typable := by
    have hParts :
        ∀ line ∈ lines, ∀ w ∈ line.words,
          ∀ p ∈ w.first :: w.nextParts,
            (IsCString p.string ∧
              if p.expand then p.string = ['d']
              else Quotable p.string) ∧
            '\n' ∉ p.string := by
      decide
    have hInRange :
        ∀ line ∈ lines,
          lastChunk line.typed + chunkSize + 1 ≤ intMax := by
      decide
    intro line hLine
    exact ⟨printable_of_parts fun w hWord p hPart =>
        (hParts line hLine w hWord p hPart).1,
      fun w hWord p hPart =>
        (hParts line hLine w hWord p hPart).2,
      hInRange line hLine⟩
  rw [runShell_typed lines hTypable envs]
  rfl

end Shell

end ProgrammingTasks
