import ProgrammingTasks.Shell.Commands

/-
  The evaluation of trees of `;`, `&&` and `||`.

  `evaluate` lists the simple commands that run, in order, and
  gives the value of the tree, for any choice of what a `;`
  node returns.  The reference returns the value of its second
  command; `parse_command` returns a variable without a value.

  Main declarations:
    * `evaluate`, `reference`
    * `parseCommand_eq_evaluate`
    * `ReachesSequential`
    * `exists_differ`
    * `parseCommand_eq_reference_iff`
-/

------------------------------------------------------------
-- Evaluation without Processes
------------------------------------------------------------

namespace ProgrammingTasks

namespace Shell

variable {L : Type}

/- Built with `;`, `&&` and `||` only. -/
def WithoutFork : Command L → Prop
| .simple _ => True
| .bind .sequential cmd1 cmd2 =>
    WithoutFork cmd1 ∧ WithoutFork cmd2
| .bind .conditionalZero cmd1 cmd2 =>
    WithoutFork cmd1 ∧ WithoutFork cmd2
| .bind .conditionalNzero cmd1 cmd2 =>
    WithoutFork cmd1 ∧ WithoutFork cmd2
| .bind .parallel _ _ => False
| .bind .pipe _ _ => False

/- The commands that a call has run, and its value. -/
abbrev Result (L : Type) := List (Path × L) × Int

/- The second operand after the first one, if it is run. -/
def andThen
    (goOn : Prop) [Decidable goOn]
    (r1 r2 : Result L) : Result L :=
  if goOn then (r1.1 ++ r2.1, r2.2) else r1

/-
  The simple commands that are run, and the value returned:
  `status` is the value of a simple command, and `result` that
  of a `;` node from its second command's.
-/
def evaluate
    (status : L → Path → Int)
    (result : Path → Int → Int) :
    Command L → Path → Result L
| .simple scmd, path => ([(path, scmd)], status scmd path)
| .bind .sequential cmd1 cmd2, path =>
    let r1 := evaluate status result cmd1 (false :: path)
    let r2 := evaluate status result cmd2 (true :: path)
    (r1.1 ++ r2.1, result path r2.2)
| .bind .conditionalZero cmd1 cmd2, path =>
    let r1 := evaluate status result cmd1 (false :: path)
    let r2 := evaluate status result cmd2 (true :: path)
    andThen (r1.2 = 0) r1 r2
| .bind .conditionalNzero cmd1 cmd2, path =>
    let r1 := evaluate status result cmd1 (false :: path)
    let r2 := evaluate status result cmd2 (true :: path)
    andThen (r1.2 ≠ 0) r1 r2
| .bind .parallel _ _, _ => ([], 0)
| .bind .pipe _ _, _ => ([], 0)

/-
  The operators' rules: `a;b` runs both, `a&&b` runs `b` if
  `a` returned 0, and `a||b` if it returned another value; the
  value is that of the last simple command.
-/
def reference
    (status : L → Path → Int) :
    Command L → Path → Result L :=
  evaluate status (fun _ ret => ret)

/- Simple commands that only return their status. -/
def statusCommands
    (status : L → Path → Int) (undefined : Path → Int) :
    Surroundings L where
  runSimple scmd path p :=
    some (status scmd path, p.record path scmd)
  undefined := undefined

/- What the evaluation does to the process that runs it. -/
def Process.after
    (p : Process L) (r : Result L) : Outcome L :=
  some (r.2, { p with ran := r.1.reverse ++ p.ran })

theorem Process.after_injective
    {p : Process L} {r r' : Result L}
    (hSame : p.after r = p.after r') :
    r = r' := by
  simp only [Process.after, Option.some.injEq, Prod.mk.injEq,
    Process.mk.injEq, List.append_cancel_right_eq,
    List.reverse_inj, true_and] at hSame
  exact Prod.ext hSame.2 hSame.1

/- `parse_command` returns the undefined value for `;`. -/
theorem parseCommand_eq_evaluate
    {env : Surroundings L}
    {status : L → Path → Int}
    (hSimple :
      ∀ scmd path p,
        env.runSimple scmd path p =
          some (status scmd path, p.record path scmd)) :
    ∀ (cmd : Command L) (path : Path) (p : Process L),
      WithoutFork cmd →
        parseCommand env cmd path p =
          p.after
            (evaluate status (fun path _ => env.undefined path)
              cmd path)
| .simple scmd, path, p, _ => by
    rw [parseCommand, hSimple]
    rfl
| .bind .sequential cmd1 cmd2, path, p, hTree => by
    have h1 :=
      parseCommand_eq_evaluate hSimple cmd1 (false :: path) p
        hTree.1
    rw [parseCommand, h1]
    simp only [Process.after]
    rw [parseCommand_eq_evaluate hSimple cmd2 (true :: path) _
      hTree.2]
    simp [Process.after, evaluate]
| .bind .conditionalZero cmd1 cmd2, path, p, hTree => by
    have h1 :=
      parseCommand_eq_evaluate hSimple cmd1 (false :: path) p
        hTree.1
    rw [parseCommand, h1]
    simp only [Process.after, evaluate, andThen]
    split
    · rw [parseCommand_eq_evaluate hSimple cmd2 (true :: path) _
        hTree.2]
      simp [Process.after]
    · rfl
| .bind .conditionalNzero cmd1 cmd2, path, p, hTree => by
    have h1 :=
      parseCommand_eq_evaluate hSimple cmd1 (false :: path) p
        hTree.1
    rw [parseCommand, h1]
    simp only [Process.after, evaluate, andThen]
    split
    · rw [parseCommand_eq_evaluate hSimple cmd2 (true :: path) _
        hTree.2]
      simp [Process.after]
    · rfl
| .bind .parallel _ _, _, _, hTree => hTree.elim
| .bind .pipe _ _, _, _, hTree => hTree.elim

------------------------------------------------------------
-- Subtrees
------------------------------------------------------------

section Subtrees

variable {status : L → Path → Int}
variable {result result' : Path → Int → Int}

theorem mem_andThen
    {goOn : Prop} [Decidable goOn]
    {r1 r2 : Result L} {x : Path × L}
    (hMem : x ∈ (andThen goOn r1 r2).1) :
    x ∈ r1.1 ∨ (goOn ∧ x ∈ r2.1) := by
  unfold andThen at hMem
  split at hMem
  · rename_i hGoOn
    rcases List.mem_append.mp hMem with h1 | h2
    · exact Or.inl h1
    · exact Or.inr ⟨hGoOn, h2⟩
  · exact Or.inl hMem

theorem andThen_ne_nil
    {goOn : Prop} [Decidable goOn]
    {r1 : Result L} (r2 : Result L)
    (hFirst : r1.1 ≠ []) :
    (andThen goOn r1 r2).1 ≠ [] := by
  unfold andThen
  split
  · exact List.append_ne_nil_of_left_ne_nil hFirst _
  · exact hFirst

/- The commands that run lie below the root of the tree. -/
theorem suffix_of_mem_evaluate :
    ∀ (cmd : Command L) (path : Path) (x : Path × L),
      x ∈ (evaluate status result cmd path).1 →
        path <:+ x.1
| .simple scmd, path, x, hMem => by
    simp only [evaluate, List.mem_singleton] at hMem
    subst hMem
    exact List.suffix_refl path
| .bind op cmd1 cmd2, path, x, hMem => by
    have h1 := suffix_of_mem_evaluate cmd1 (false :: path) x
    have h2 := suffix_of_mem_evaluate cmd2 (true :: path) x
    have hEither :
        x ∈ (evaluate status result cmd1 (false :: path)).1 ∨
          x ∈ (evaluate status result cmd2 (true :: path)).1 := by
      cases op with
      | sequential => exact List.mem_append.mp hMem
      | conditionalZero =>
          exact (mem_andThen hMem).imp_right And.right
      | conditionalNzero =>
          exact (mem_andThen hMem).imp_right And.right
      | parallel => cases hMem
      | pipe => cases hMem
    rcases hEither with hFirst | hSecond
    · exact (List.suffix_cons false path).trans (h1 hFirst)
    · exact (List.suffix_cons true path).trans (h2 hSecond)

/- Every tree runs a simple command. -/
theorem evaluate_ne_nil :
    ∀ (cmd : Command L) (path : Path),
      WithoutFork cmd →
        (evaluate status result cmd path).1 ≠ []
| .simple _, _, _ => List.cons_ne_nil _ _
| .bind .sequential cmd1 _, path, hTree =>
    List.append_ne_nil_of_left_ne_nil
      (evaluate_ne_nil cmd1 (false :: path) hTree.1) _
| .bind .conditionalZero cmd1 _, path, hTree =>
    andThen_ne_nil _
      (evaluate_ne_nil cmd1 (false :: path) hTree.1)
| .bind .conditionalNzero cmd1 _, path, hTree =>
    andThen_ne_nil _
      (evaluate_ne_nil cmd1 (false :: path) hTree.1)
| .bind .parallel _ _, _, hTree => hTree.elim
| .bind .pipe _ _, _, hTree => hTree.elim

/- The two subtrees of a node have no path in common. -/
theorem not_suffix_of_suffix
    {path q : Path} {turn : Bool}
    (hBelow : (turn :: path) <:+ q) :
    ¬ ((!turn) :: path) <:+ q := by
  intro hOther
  rcases List.suffix_of_suffix_length_le hBelow hOther
      (by simp) with ⟨front, hSplit⟩
  have hLength := congrArg List.length hSplit
  cases front with
  | nil =>
      cases turn <;> simp at hSplit
  | cons _ _ =>
      simp at hLength
      omega

end Subtrees

------------------------------------------------------------
-- Trees That Are Evaluated by the Rules
------------------------------------------------------------

/- The evaluation by the rules comes to a `;` node. -/
def ReachesSequential
    (status : L → Path → Int) :
    Command L → Path → Prop
| .simple _, _ => False
| .bind .sequential _ _, _ => True
| .bind .conditionalZero cmd1 cmd2, path =>
    ReachesSequential status cmd1 (false :: path) ∨
      ((reference status cmd1 (false :: path)).2 = 0 ∧
        ReachesSequential status cmd2 (true :: path))
| .bind .conditionalNzero cmd1 cmd2, path =>
    ReachesSequential status cmd1 (false :: path) ∨
      ((reference status cmd1 (false :: path)).2 ≠ 0 ∧
        ReachesSequential status cmd2 (true :: path))
| .bind .parallel _ _, _ => False
| .bind .pipe _ _, _ => False

section Rules

variable {status : L → Path → Int}

theorem andThen_congr
    {goOn : Prop} [Decidable goOn]
    (r1 : Result L) {r2 r2' : Result L}
    (hSecond : goOn → r2 = r2') :
    andThen goOn r1 r2 = andThen goOn r1 r2' := by
  unfold andThen
  split
  · rename_i hGoOn
    rw [hSecond hGoOn]
  · rfl

/- Without a `;` node the evaluation follows the rules. -/
theorem evaluate_eq_reference
    (result : Path → Int → Int) :
    ∀ (cmd : Command L) (path : Path),
      ¬ ReachesSequential status cmd path →
        evaluate status result cmd path =
          reference status cmd path
| .simple _, _, _ => rfl
| .bind .sequential _ _, _, hNone => absurd trivial hNone
| .bind .conditionalZero cmd1 cmd2, path, hNone => by
    simp only [ReachesSequential, not_or, not_and] at hNone
    have h1 := evaluate_eq_reference result cmd1 _ hNone.1
    simp only [evaluate, h1]
    apply andThen_congr
    intro hGoOn
    exact evaluate_eq_reference result cmd2 _ (hNone.2 hGoOn)
| .bind .conditionalNzero cmd1 cmd2, path, hNone => by
    simp only [ReachesSequential, not_or, not_and] at hNone
    have h1 := evaluate_eq_reference result cmd1 _ hNone.1
    simp only [evaluate, h1]
    apply andThen_congr
    intro hGoOn
    exact evaluate_eq_reference result cmd2 _ (hNone.2 hGoOn)
| .bind .parallel _ _, _, _ => rfl
| .bind .pipe _ _, _, _ => rfl

/-
  A visible difference between two evaluations: of the simple
  commands, or of the value as the operators test it.
-/
def Differ (r r' : Result L) : Prop :=
  r.1 ≠ r'.1 ∨ ¬ (r.2 = 0 ↔ r'.2 = 0)

/- The commands of a first operand, among those of the node. -/
theorem filter_first_operand
    {result : Path → Int → Int}
    (goOn : Prop) [Decidable goOn]
    (cmd1 cmd2 : Command L) (path : Path) :
    (andThen goOn
        (evaluate status result cmd1 (false :: path))
        (evaluate status result cmd2 (true :: path))).1.filter
          (fun x => (false :: path).isSuffixOf x.1) =
      (evaluate status result cmd1 (false :: path)).1 := by
  have h1 :
      (evaluate status result cmd1 (false :: path)).1.filter
          (fun x => (false :: path).isSuffixOf x.1) =
        (evaluate status result cmd1 (false :: path)).1 := by
    apply List.filter_eq_self.mpr
    intro x hMem
    rw [List.isSuffixOf_iff_suffix]
    exact suffix_of_mem_evaluate cmd1 _ x hMem
  have h2 :
      (evaluate status result cmd2 (true :: path)).1.filter
          (fun x => (false :: path).isSuffixOf x.1) =
        [] := by
    apply List.filter_eq_nil_iff.mpr
    intro x hMem
    rw [List.isSuffixOf_iff_suffix]
    exact not_suffix_of_suffix
      (suffix_of_mem_evaluate cmd2 _ x hMem)
  unfold andThen
  split
  · rw [List.filter_append, h1, h2, List.append_nil]
  · exact h1

/-
  A difference in the first operand shows in the node, as no
  command belongs to both operands.
-/
theorem differ_of_first
    {result result' : Path → Int → Int}
    {cmd1 cmd2 : Command L} {path : Path}
    (hTree2 : WithoutFork cmd2)
    (goOn : Int → Prop) [DecidablePred goOn]
    (hTest : ∀ v w, (goOn v ↔ goOn w) ↔ (v = 0 ↔ w = 0))
    (hDiffer :
      Differ (evaluate status result cmd1 (false :: path))
        (evaluate status result' cmd1 (false :: path))) :
    Differ
      (andThen
        (goOn (evaluate status result cmd1 (false :: path)).2)
        (evaluate status result cmd1 (false :: path))
        (evaluate status result cmd2 (true :: path)))
      (andThen
        (goOn (evaluate status result' cmd1 (false :: path)).2)
        (evaluate status result' cmd1 (false :: path))
        (evaluate status result' cmd2 (true :: path))) := by
  apply Or.inl
  intro hSame
  have hFirst :
      ∀ result'' : Path → Int → Int,
        (andThen
          (goOn (evaluate status result'' cmd1 (false :: path)).2)
          (evaluate status result'' cmd1 (false :: path))
          (evaluate status result'' cmd2 (true :: path))).1.filter
            (fun x => (false :: path).isSuffixOf x.1) =
          (evaluate status result'' cmd1 (false :: path)).1 :=
    fun result'' => filter_first_operand _ cmd1 cmd2 path
  have hRan :
      (evaluate status result cmd1 (false :: path)).1 =
        (evaluate status result' cmd1 (false :: path)).1 := by
    rw [← hFirst result, ← hFirst result', hSame]
  rcases hDiffer with hRan' | hValue
  · exact hRan' hRan
  · rw [← hTest] at hValue
    have hNonempty :
        ∀ result'' : Path → Int → Int,
          (evaluate status result'' cmd2 (true :: path)).1 ≠ [] :=
      fun _ => evaluate_ne_nil cmd2 (true :: path) hTree2
    unfold andThen at hSame
    split at hSame
    · rename_i hGoes
      split at hSame
      · rename_i hGoes'
        exact hValue (iff_of_true hGoes hGoes')
      · rw [← hRan] at hSame
        exact hNonempty result (List.append_right_eq_self.mp hSame)
    · rename_i hStops
      split at hSame
      · rw [← hRan] at hSame
        exact hNonempty result'
          (List.append_right_eq_self.mp hSame.symm)
      · rename_i hStops'
        exact hValue (iff_of_false hStops hStops')

/- A difference in a second operand that is run shows, too. -/
theorem differ_of_second
    {goOn : Prop} [Decidable goOn]
    {r1 r2 r2' : Result L}
    (hGoOn : goOn)
    (hDiffer : Differ r2 r2') :
    Differ (andThen goOn r1 r2) (andThen goOn r1 r2') := by
  simp only [andThen, if_pos hGoOn]
  rcases hDiffer with hRan | hValue
  · exact Or.inl (fun hSame => hRan (List.append_cancel_left hSame))
  · exact Or.inr hValue

/-
  When the evaluation by the rules comes to a `;` node, some
  undefined values lead away from the rules.
-/
theorem exists_differ :
    ∀ (cmd : Command L) (path : Path),
      WithoutFork cmd →
      ReachesSequential status cmd path →
        ∃ undefined : Path → Int,
          Differ
            (evaluate status (fun q _ => undefined q) cmd path)
            (reference status cmd path)
| .simple _, _, _, hReaches => hReaches.elim
| .bind .sequential cmd1 cmd2, path, _, _ => by
    -- the value of a `;` node is free: test it the other way
    refine ⟨fun _ =>
      if (reference status (.bind .sequential cmd1 cmd2) path).2 = 0
        then 1 else 0, Or.inr ?_⟩
    simp only [evaluate]
    split
    · rename_i hZero
      simp [hZero]
    · rename_i hNonzero
      simp [hNonzero]
| .bind .conditionalZero cmd1 cmd2, path, hTree, hReaches => by
    by_cases h1 : ReachesSequential status cmd1 (false :: path)
    · rcases exists_differ cmd1 _ hTree.1 h1 with
        ⟨undefined, hDiffer⟩
      exact ⟨undefined,
        differ_of_first hTree.2 (fun v => v = 0)
          (fun v w => Iff.rfl) hDiffer⟩
    · have h2 := hReaches.resolve_left h1
      rcases exists_differ cmd2 _ hTree.2 h2.2 with
        ⟨undefined, hDiffer⟩
      refine ⟨undefined, ?_⟩
      simp only [evaluate, reference]
      rw [evaluate_eq_reference _ cmd1 _ h1]
      exact differ_of_second h2.1 hDiffer
| .bind .conditionalNzero cmd1 cmd2, path, hTree, hReaches => by
    by_cases h1 : ReachesSequential status cmd1 (false :: path)
    · rcases exists_differ cmd1 _ hTree.1 h1 with
        ⟨undefined, hDiffer⟩
      exact ⟨undefined,
        differ_of_first hTree.2 (fun v => v ≠ 0)
          (fun v w => not_iff_not) hDiffer⟩
    · have h2 := hReaches.resolve_left h1
      rcases exists_differ cmd2 _ hTree.2 h2.2 with
        ⟨undefined, hDiffer⟩
      refine ⟨undefined, ?_⟩
      simp only [evaluate, reference]
      rw [evaluate_eq_reference _ cmd1 _ h1]
      exact differ_of_second h2.1 hDiffer

end Rules

------------------------------------------------------------
-- The Rules and the Shell
------------------------------------------------------------

/-
  `parse_command` evaluates a tree by the operators' rules,
  whatever the undefined values are, exactly if the evaluation
  by the rules comes to no `;` node.
-/
theorem parseCommand_eq_reference_iff
    (status : L → Path → Int)
    (cmd : Command L)
    (hTree : WithoutFork cmd) :
    (∀ (undefined : Path → Int) (p : Process L),
      parseCommand (statusCommands status undefined) cmd [] p =
        p.after (reference status cmd [])) ↔
      ¬ ReachesSequential status cmd [] := by
  have hEvaluate :
      ∀ (undefined : Path → Int) (p : Process L),
        parseCommand (statusCommands status undefined) cmd [] p =
          p.after
            (evaluate status (fun path _ => undefined path)
              cmd []) :=
    fun undefined p =>
      parseCommand_eq_evaluate (fun _ _ _ => rfl) cmd [] p hTree
  constructor
  · intro hRules hReaches
    rcases exists_differ cmd [] hTree hReaches with
      ⟨undefined, hDiffer⟩
    have hSame := hRules undefined ⟨.empty, 0, []⟩
    rw [hEvaluate] at hSame
    have hResult := Process.after_injective hSame
    rcases hDiffer with hRan | hValue
    · exact hRan (congrArg Prod.fst hResult)
    · have hSecond := congrArg Prod.snd hResult
      exact hValue (by rw [hSecond])
  · intro hNone undefined p
    rw [hEvaluate, evaluate_eq_reference _ cmd [] hNone]

/- `false && true || true`, by the values of the commands. -/
def falseAndOr : Command Int :=
  .bind .conditionalNzero
    (.bind .conditionalZero (.simple 1) (.simple 0)) (.simple 0)

/- The first command and the last one run. -/
theorem parseCommand_eq_reference_falseAndOr :
    reference (fun value _ => value) falseAndOr [] =
        ([([false, false], 1), ([true], 0)], 0) ∧
      ∀ (undefined : Path → Int) (p : Process Int),
        parseCommand
            (statusCommands (fun value _ => value) undefined)
            falseAndOr [] p =
          p.after
            (reference (fun value _ => value) falseAndOr []) := by
  refine ⟨by decide, ?_⟩
  refine (parseCommand_eq_reference_iff (fun value _ => value)
    falseAndOr ⟨⟨trivial, trivial⟩, trivial⟩).mpr ?_
  rintro ((hReaches | ⟨_, hReaches⟩) | ⟨_, hReaches⟩)
  · exact hReaches
  · exact hReaches
  · exact hReaches

/-
  The value of `a;b` is undefined: with `a` and `b` returning
  0 the shell may see 1.
-/
theorem not_parseCommand_eq_reference_always :
    ¬ ∀ (status : Unit → Path → Int) (cmd : Command Unit),
      WithoutFork cmd →
      (∀ scmd path, status scmd path ≠ shellExit) →
      ∀ (undefined : Path → Int) (p : Process Unit),
        parseCommand (statusCommands status undefined) cmd [] p =
          p.after (reference status cmd []) := by
  intro hAlways
  have hSame :=
    hAlways (fun _ _ => 0)
      (.bind .sequential (.simple ()) (.simple ()))
      ⟨trivial, trivial⟩ (fun _ _ => by decide)
      (fun _ => 1) ⟨.empty, 0, []⟩
  have hValue := congrArg (Option.map Prod.fst) hSame
  revert hValue
  decide

end Shell

end ProgrammingTasks
