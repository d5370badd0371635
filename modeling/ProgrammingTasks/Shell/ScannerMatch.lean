import ProgrammingTasks.Shell.ScannerTables

/-
  What the generated scanner matches.

  The loop of `yylex` remembers the last state that accepts.
  When it runs into the end of the buffer it starts again to
  find the state before it.  In both cases the match is the
  longest one of the rules of the start condition.

  Main declarations:
    * `yyMatch_cases`
    * `yyAction_nil`, `yyAction_longest`
    * `yyAction_of_runs`
    * `yyAction_iff`
-/

------------------------------------------------------------
-- The Loop
------------------------------------------------------------

namespace ProgrammingTasks

namespace Shell

open LongestMatch

/- All states but those at the start accept, with a rule. -/
theorem check_accepts :
    ∀ start ∈ startConditions, ∀ s ∈ scanStates start,
      yyAccept.getD s 0 ≠ yyEndOfBuffer ∧
        yyNextState s 0 = 7 ∧
          (s ≠ start.yyStart → yyAccept.getD s 0 ≠ 0) := by
  decide

theorem check_start :
    ∀ start ∈ startConditions,
      start.yyStart ∈ scanStates start ∧
        leftRules start start.yyStart = lexRules start ∧
          ∀ s ∈ scanStates start, ∀ c < 19, c ≠ 0 →
            yyNextState s c ≠ start.yyStart := by
  decide

/- What the position of a state that accepts says. -/
def accepted (last : Nat × Nat) : Option (Nat × Nat) :=
  if yyAccept.getD last.1 0 = 0 then
    none
  else
    some (last.2, yyAccept.getD last.1 0)

theorem record_eq (s n : Nat) (last : Nat × Nat) :
    record flexAutomaton s n (accepted last) =
      accepted
        (if yyAccept.getD s 0 = 0 then last else (s, n)) := by
  unfold record flexAutomaton accepted
  dsimp only
  by_cases hNone : yyAccept.getD s 0 = 0
  · rw [if_pos hNone, if_pos hNone]
  · rw [if_neg hNone, if_neg hNone, if_neg hNone]

/-
  The loop ends inside the text at the last state that accepts,
  or goes on to the end of the buffer.
-/
theorem yyMatch_cases
    {start : StartCondition} {s : Nat}
    (hState : s ∈ scanStates start)
    (text : Text)
    (n : Nat) (last : Nat × Nat)
    (hLast : yyAccept.getD last.1 0 ≠ yyEndOfBuffer) :
    (yyAccept.getD
          (yyMatch s (text.map yyEc ++ [0, 0]) n last).1 0 ≠
        yyEndOfBuffer ∧
      accepted (yyMatch s (text.map yyEc ++ [0, 0]) n last) =
        longest flexAutomaton s text n (accepted last)) ∨
    (yyMatch s (text.map yyEc ++ [0, 0]) n last =
        (7, n + text.length + 1) ∧
      ∃ s' last', s' ∈ scanStates start ∧
        (s ≠ start.yyStart ∨ text ≠ [] →
          s' ≠ start.yyStart) ∧
        (∀ any, ∃ last'',
          yyPreviousState s (text.map yyEc) n any =
            (s', last'')) ∧
        longest flexAutomaton s text n (accepted last) =
          record flexAutomaton s' (n + text.length) last') := by
  have hStart := mem_startConditions start
  rcases check_accepts start hStart s hState with
    ⟨hInside, hEnd, -⟩
  induction text generalizing s n last with
  | nil =>
      refine .inr ⟨?_, s, accepted last, hState, ?_, ?_, rfl⟩
      · have hJam : yyNextState 7 0 = yyJam := by
          decide
        have hAccept : yyAccept.getD 7 0 ≠ 0 := by
          decide
        simp only [List.map_nil, List.nil_append, yyMatch, hEnd,
          hJam, if_neg hAccept]
        rfl
      · rintro (hOther | hSome)
        · exact hOther
        · exact absurd rfl hSome
      · exact fun any => ⟨any, rfl⟩
  | cons a text ih =>
      rcases yyEc_range a with ⟨hClass, hSome⟩
      have hStep :=
        check_steps start hStart s hState (yyEc a) hClass hSome
      have hFresh :=
        (check_start start hStart).2.2 s hState (yyEc a) hClass
          hSome
      have hLast' :
          yyAccept.getD
              (if yyAccept.getD s 0 = 0 then last
                else (s, n)).1 0 ≠ yyEndOfBuffer := by
        split
        · exact hLast
        · exact hInside
      rw [List.map_cons, List.cons_append, yyMatch, longest,
        record_eq]
      by_cases hJam : yyNextState s (yyEc a) = yyJam
      · have hDead :
            flexAutomaton.dead (flexAutomaton.step s a) = true :=
          beq_iff_eq.mpr hJam
        rw [if_pos hDead]
        simp only [if_pos hJam]
        exact .inl ⟨hLast', trivial⟩
      · have hAlive :
            flexAutomaton.dead (flexAutomaton.step s a) ≠ true :=
          fun hDead => hJam (beq_iff_eq.mp hDead)
        rw [if_neg hAlive]
        simp only [if_neg hJam]
        rw [if_neg hJam] at hStep
        have hNext := check_accepts start hStart _ hStep.1
        rcases ih hStep.1 (n + 1) _ hLast' hNext.1 hNext.2.1 with
          hLeft | ⟨hMatch, s', last', hMem, hOther, hBack, hRun⟩
        · exact .inl hLeft
        · refine .inr ⟨?_, s', last', hMem, ?_, ?_, ?_⟩
          · rw [hMatch, List.length_cons, Nat.add_right_comm n 1,
              Nat.add_assoc n]
          · exact fun _ => hOther (.inl hFresh)
          · exact fun any => hBack _
          · rw [List.length_cons, ← Nat.add_assoc,
              Nat.add_right_comm n, ← hRun]
            rfl

------------------------------------------------------------
-- The Longest Match
------------------------------------------------------------

/- The end of the text is its own action. -/
theorem yyAction_nil (start : StartCondition) :
    yyAction start [] = none := by
  cases start <;> decide

/- Any character is matched by some rule. -/
theorem exists_first
    (start : StartCondition) (a : Char) :
    ∃ j, First (lexRules start) [a] j := by
  have hStart := mem_startConditions start
  rcases check_start start hStart with ⟨hMem, hLeft, hOn⟩
  rcases yyEc_range a with ⟨hClass, hSome⟩
  have hNoJam :
      ∀ start ∈ startConditions, ∀ c < 19, c ≠ 0 →
        yyNextState start.yyStart c ≠ yyJam := by
    decide
  have hStep :=
    (flex_residual start).next start.yyStart a hMem
      (beq_eq_false_iff_ne.mpr
        (hNoJam start hStart (yyEc a) hClass hSome))
  have hAccepts :=
    (check_accepts start hStart _ hStep.1).2.2
      (hOn _ hMem (yyEc a) hClass hSome)
  have hLabel := (flex_residual start).label _ hStep.1
  rw [hStep.2, hLeft] at hLabel
  have hFirst := hLabel.symm.trans (if_neg hAccepts)
  exact ⟨_, (first_cons _ a [] _).mpr ((first_nil _ _).mpr hFirst)⟩

/-
  At any other place the scanner takes the longest match of the
  rules of its start condition, which is not empty.
-/
theorem yyAction_longest
    (start : StartCondition) {text : Text}
    (hSome : text ≠ []) :
    ∃ rule n, yyAction start text = some (rule, n) ∧
      Longest (lexRules start) text n rule ∧ 0 < n := by
  have hStart := mem_startConditions start
  rcases check_start start hStart with ⟨hMem, hLeft, _⟩
  have hNone : accepted (0, 0) = none := rfl
  rcases longest_cases (flex_residual start) hMem text 0
      (accepted (0, 0)) with
    ⟨n, rule, hLongest, hRun⟩ | ⟨hNoMatch, _⟩
  · rw [hLeft] at hLongest
    rw [Nat.zero_add] at hRun
    have hPositive : 0 < n := by
      rcases text with _ | ⟨a, rest⟩
      · exact absurd rfl hSome
      · rcases exists_first start a with ⟨j, hFirst⟩
        refine Nat.pos_of_ne_zero ?_
        rintro rfl
        exact hLongest.2.2 1 (Nat.succ_le_succ (Nat.zero_le _))
          Nat.zero_lt_one j hFirst
    refine ⟨rule, n, ?_, hLongest, hPositive⟩
    rcases yyMatch_cases hMem text 0 (0, 0) (by decide) with
      ⟨hInside, hSame⟩ |
        ⟨hMatch, s', last', hMem', hOther, hBack, hSame⟩
    · rw [hRun] at hSame
      unfold accepted at hSame
      split at hSame
      · cases hSame
      · rw [Option.some.injEq, Prod.mk.injEq] at hSame
        unfold yyAction
        dsimp only
        rw [if_neg hInside, hSame.1, hSame.2]
    · have hAccepts :=
        (check_accepts start hStart s' hMem').2.2
          (hOther (.inr hSome))
      have hLength : 0 + text.length + 1 ≠ 1 := by
        have hPos := List.length_pos_iff.mpr hSome
        omega
      rcases hBack (7, 0 + text.length + 1) with
        ⟨last'', hPrevious⟩
      rw [hRun] at hSame
      unfold record flexAutomaton at hSame
      dsimp only at hSame
      rw [if_neg hAccepts, Nat.zero_add, Option.some.injEq,
        Prod.mk.injEq] at hSame
      unfold yyAction
      dsimp only
      have hEnd : yyAccept.getD 7 0 = yyEndOfBuffer := rfl
      rw [hMatch, if_pos hEnd, if_neg hLength, hPrevious]
      dsimp only
      rw [if_neg hAccepts, hSame.1, hSame.2]
  · rcases text with _ | ⟨a, rest⟩
    · exact absurd rfl hSome
    · rcases exists_first start a with ⟨j, hFirst⟩
      rw [hLeft] at hNoMatch
      exact absurd hFirst
        (hNoMatch 1 (Nat.succ_le_succ (Nat.zero_le _)) j)

/- A run that cannot go on is what the scanner matches. -/
theorem yyAction_of_runs
    {start : StartCondition} {w rest : Text} {s : Nat}
    (hRuns : Runs flexAutomaton start.yyStart w s)
    (hAccepts : yyAccept.getD s 0 ≠ 0)
    (hSome : w ≠ [])
    (hStop : ∀ a ∈ rest.head?, yyNextState s (yyEc a) = yyJam) :
    yyAction start (w ++ rest) =
      some (yyAccept.getD s 0, w.length) := by
  have hLabel :
      flexAutomaton.label s = some (yyAccept.getD s 0) :=
    if_neg hAccepts
  have hRun :=
    longest_of_runs hRuns hLabel
      (fun a hMem => beq_iff_eq.mpr (hStop a hMem)) 0 none
  rw [Nat.zero_add] at hRun
  rcases check_start start (mem_startConditions start) with
    ⟨hMem, hLeft, _⟩
  have hText : w ++ rest ≠ [] :=
    List.append_ne_nil_of_left_ne_nil hSome rest
  rcases yyAction_longest start hText with
    ⟨rule, n, hAction, hLongest, _⟩
  rcases longest_cases (flex_residual start) hMem (w ++ rest) 0
      none with
    ⟨m, j, hLongest', hRun'⟩ | ⟨_, hRun'⟩
  · rw [hLeft] at hLongest'
    rcases hLongest.unique hLongest' with ⟨rfl, rfl⟩
    rw [hRun, Nat.zero_add, Option.some.injEq,
      Prod.mk.injEq] at hRun'
    rw [hAction, hRun'.1, hRun'.2]
  · rw [hRun] at hRun'
    cases hRun'

/-
  The scanner takes a rule with a length just when these are
  the longest match of the rules that are active.
-/
theorem yyAction_iff
    (start : StartCondition) (text : Text) (rule n : Nat) :
    yyAction start text = some (rule, n) ↔
      text ≠ [] ∧ Longest (lexRules start) text n rule := by
  constructor
  · intro hAction
    have hSome : text ≠ [] := by
      rintro rfl
      rw [yyAction_nil] at hAction
      cases hAction
    rcases yyAction_longest start hSome with
      ⟨rule', n', hAction', hLongest, _⟩
    rw [hAction, Option.some.injEq, Prod.mk.injEq] at hAction'
    rw [hAction'.1, hAction'.2]
    exact ⟨hSome, hLongest⟩
  · rintro ⟨hSome, hLongest⟩
    rcases yyAction_longest start hSome with
      ⟨rule', n', hAction, hLongest', _⟩
    rcases hLongest.unique hLongest' with ⟨rfl, rfl⟩
    exact hAction

end Shell

end ProgrammingTasks
