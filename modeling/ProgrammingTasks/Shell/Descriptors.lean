import ProgrammingTasks.Shell.Evaluation
import ProgrammingTasks.Shell.StaleDescriptor

/-
  What evaluating a tree does to the shell's descriptors.

  Children have tables of their own.  The shell itself runs
  both operands of `;`, `&&` and `||`, as far as it comes to
  the second one, the first command of a pipe with another
  standard output, and no operand of `&`.  So its table is
  left as it was, but for the redirections of a `cd` that the
  shell comes to run.

  Main declarations:
    * `runCommand`, `shellSurroundings`
    * `leaveWriter_spec`
    * `Call`, `shellCalls`, `Call.Kept`
    * `kept_of_leaves`
    * `preserves_iff_harmless`
-/

------------------------------------------------------------
-- Simple Commands of the Shell
------------------------------------------------------------

namespace ProgrammingTasks

namespace Shell

/- `cd` in `parse_simple`. -/
def isChangeDirectory
    (env : Environment) (s : SimpleCommand) : Bool :=
  isCommand ['c', 'd'] (getWord env s.verb)

/- The part behind the name of the verb starts with `=`. -/
def isAssignment (s : SimpleCommand) : Bool :=
  match s.verb.nextParts with
  | [] => false
  | part :: _ => isCommand ['='] part.string

/-
  `setenv` for an assignment; the process ends if it fails, or
  if there is no part to read the value from.
-/
def assign
    (calls : Calls) (s : SimpleCommand) (path : Path)
    (p : Process SimpleCommand) :
    Outcome SimpleCommand :=
  match s.verb.nextParts with
  | _ :: _ :: _ => if calls.setenv path then some (0, p) else none
  | _ => none

/-
  `parse_simple` behind the path of `exit`.  For an external
  command the shell waits for a child, which redirects and
  executes with a table of its own.
-/
def runCommand
    (calls : Calls) (s : SimpleCommand) (path : Path)
    (p : Process SimpleCommand) :
    Outcome SimpleCommand :=
  if isChangeDirectory (calls.env path) s then
    if s.params = [] then
      some (calls.ret path, p)
    else
      changeDirectory calls s path p
  else if isAssignment s ∧ s.verb.first.string ≠ [] then
    assign calls s path p
  else
    some (calls.status path, p)

/- The simple commands as the shell runs them. -/
def shellSurroundings (calls : Calls) :
    Surroundings SimpleCommand where
  runSimple s path p :=
    parseSimple (calls.env path) (runCommand calls) s path p
  undefined := calls.ret

/- The command is a `cd` that redirects in the shell. -/
def RedirectsShell
    (env : Environment) (s : SimpleCommand) : Prop :=
  isExit env s = false ∧ isChangeDirectory env s = true ∧
    s.params ≠ []

/- A simple command either redirects or leaves the table. -/
theorem runSimple_cases
    (calls : Calls) (s : SimpleCommand) (path : Path)
    (p : Process SimpleCommand) :
    (RedirectsShell (calls.env path) s ∧
        (shellSurroundings calls).runSimple s path p =
          changeDirectory calls s path (p.record path s)) ∨
      (¬ RedirectsShell (calls.env path) s ∧
        ∀ ret p',
          (shellSurroundings calls).runSimple s path p =
              some (ret, p') →
            p'.fds = p.fds) := by
  have hTable : (p.record path s).fds = p.fds := rfl
  simp only [shellSurroundings, parseSimple]
  cases hExit : isExit (calls.env path) s with
  | true =>
      refine Or.inr ⟨?_, ?_⟩
      · rintro ⟨hNoExit, _⟩
        rw [hExit] at hNoExit
        cases hNoExit
      · intro ret p' hReturns
        cases hReturns
        rfl
  | false =>
      simp only [Bool.false_eq_true, if_false, runCommand]
      by_cases hCd : isChangeDirectory (calls.env path) s = true
      · rw [if_pos hCd]
        by_cases hParams : s.params = []
        · refine Or.inr ⟨?_, ?_⟩
          · exact fun hRedirects => hRedirects.2.2 hParams
          · intro ret p' hReturns
            rw [if_pos hParams] at hReturns
            cases hReturns
            rfl
        · rw [if_neg hParams]
          exact Or.inl ⟨⟨hExit, hCd, hParams⟩, rfl⟩
      · rw [if_neg hCd]
        refine Or.inr ⟨fun hRedirects => hCd hRedirects.2.1, ?_⟩
        intro ret p' hReturns
        split at hReturns
        · unfold assign at hReturns
          split at hReturns
          · split at hReturns
            · cases hReturns
              rfl
            · cases hReturns
          · cases hReturns
        · cases hReturns
          rfl

------------------------------------------------------------
-- The Writer of a Pipe
------------------------------------------------------------

section Writer

variable {L : Type} {p : Process L}

/- The two ends of a pipe get numbers that were free. -/
theorem pipe_spec (p : Process L) :
    ∃ (readEnd writeEnd : Nat) (f f' : OpenFile)
      (q : Process L),
      p.pipe = ((readEnd : Int), (writeEnd : Int), q) ∧
        p.fds.file readEnd = none ∧
        p.fds.file writeEnd = none ∧
        (readEnd : Int) ≠ writeEnd ∧
        q.fds.file =
          Function.update
            (Function.update p.fds.file readEnd (some f))
            writeEnd (some f') := by
  refine ⟨p.fds.lowestFree,
    (p.fds.put p.fds.lowestFree
      ⟨p.opened, [], .pipe⟩).lowestFree,
    ⟨p.opened, [], .pipe⟩, ⟨p.opened + 1, [], .pipe⟩, _, rfl,
    p.fds.file_lowestFree,
    p.fds.file_lowestFree_put _, ?_, rfl⟩
  apply DescriptorTable.ne_lowestFree_of_isOpen
  rw [DescriptorTable.IsOpen, DescriptorTable.file_put,
    Function.update_self]
  exact Option.some_ne_none _

/- The writer has its own standard output, and a copy. -/
theorem enterWriter_spec
    {q : Process L} {readEnd writeEnd : Nat} {f f' : OpenFile}
    (hStandard : Standard p.fds)
    (hRead : p.fds.file readEnd = none)
    (hWrite : p.fds.file writeEnd = none)
    (hOther : (readEnd : Int) ≠ writeEnd)
    (hFile :
      q.fds.file =
        Function.update
          (Function.update p.fds.file readEnd (some f))
          writeEnd (some f')) :
    ∃ (saved : Nat) (q' : Process L),
      enterWriter q readEnd writeEnd = ((saved : Int), q') ∧
        p.fds.file saved = none ∧
        q'.fds.file =
          Function.update
            (Function.update p.fds.file saved
              (p.fds.file stdoutFileno))
            stdoutFileno (some f') := by
  have hStdout : p.fds.file stdoutFileno ≠ none :=
    hStandard stdoutFileno (by decide)
  have hReadApart : (stdoutFileno : Int) ≠ readEnd := by
    intro hSame
    rw [hSame] at hStdout
    exact hStdout hRead
  have hWriteApart : (stdoutFileno : Int) ≠ writeEnd := by
    intro hSame
    rw [hSame] at hStdout
    exact hStdout hWrite
  rcases Option.ne_none_iff_exists'.mp hStdout with ⟨g, hG⟩
  -- the read end is closed before `dup`
  obtain ⟨t, hT⟩ :
      ∃ t, t = q.fds.close readEnd := ⟨_, rfl⟩
  have hTable :
      t.file =
        Function.update p.fds.file writeEnd (some f') := by
    rw [hT, DescriptorTable.file_close, hFile,
      Function.update_comm hOther, Function.update_idem,
      Function.update_comm hOther.symm, ← hRead,
      Function.update_eq_self]
  have hOut : t.file stdoutFileno = some g := by
    rw [hTable, Function.update_of_ne hWriteApart, hG]
  have hEnd : t.file writeEnd = some f' := by
    rw [hTable, Function.update_self]
  have hSavedWrite : (writeEnd : Int) ≠ t.lowestFree := by
    apply DescriptorTable.ne_lowestFree_of_isOpen
    rw [DescriptorTable.IsOpen, hEnd]
    exact Option.some_ne_none f'
  have hSaved : p.fds.file t.lowestFree = none := by
    have hFree := t.file_lowestFree
    rwa [hTable, Function.update_of_ne hSavedWrite.symm]
      at hFree
  have hEnd' :
      (t.put t.lowestFree g).file writeEnd = some f' := by
    rw [DescriptorTable.file_put,
      Function.update_of_ne hSavedWrite, hEnd]
  refine ⟨t.lowestFree,
    { q with
      fds :=
        ((t.put t.lowestFree g).put stdoutFileno f').close
          writeEnd }, ?_, hSaved, ?_⟩
  · simp only [enterWriter, Process.close, ← hT, Process.dup,
      DescriptorTable.dup_of_file hOut,
      DescriptorTable.allocate, Process.dup2,
      DescriptorTable.dup2_of_file hEnd', Option.getD_some]
  · simp only [DescriptorTable.file_close,
      DescriptorTable.file_put, hTable]
    rw [hG, Function.update_comm hWriteApart,
      Function.update_comm hSavedWrite.symm,
      Function.update_idem, ← hWrite, Function.update_eq_self]

/- Leaving undoes what entering has done. -/
theorem leaveWriter_spec
    {q : Process L} {saved : Nat} {f : OpenFile}
    (hStandard : Standard p.fds)
    (hSaved : p.fds.file saved = none)
    (hFile :
      q.fds.file =
        Function.update
          (Function.update p.fds.file saved
            (p.fds.file stdoutFileno))
          stdoutFileno (some f)) :
    (leaveWriter q saved).fds.file = p.fds.file := by
  have hStdout : p.fds.file stdoutFileno ≠ none :=
    hStandard stdoutFileno (by decide)
  have hApart : (saved : Int) ≠ stdoutFileno := by
    intro hSame
    rw [← hSame] at hStdout
    exact hStdout hSaved
  rcases Option.ne_none_iff_exists'.mp hStdout with ⟨g, hG⟩
  have hCopy : q.fds.file saved = some g := by
    rw [hFile, Function.update_of_ne hApart,
      Function.update_self, hG]
  rw [leaveWriter, if_pos (by omega)]
  simp only [Process.close, Process.dup2,
    DescriptorTable.dup2_of_file hCopy, Option.getD_some,
    DescriptorTable.file_close, DescriptorTable.file_put, hFile]
  rw [Function.update_idem, ← hG,
    Function.update_comm hApart.symm, Function.update_idem,
    ← hSaved, Function.update_eq_self, Function.update_eq_self]

end Writer

------------------------------------------------------------
-- Trees
------------------------------------------------------------

/- A call of `parse_command`: its command, place and process. -/
structure Call where
  cmd : Command SimpleCommand
  path : Path
  process : Process SimpleCommand

/- The shell goes on to the second operand after the status. -/
def goesOn : Operator → Int → Bool
| .sequential, _ => true
| .conditionalZero, ret => ret = 0
| .conditionalNzero, ret => ret ≠ 0
| .parallel, _ => false
| .pipe, _ => false

/- The process with which the first command of a pipe is run. -/
def writer (p : Process SimpleCommand) : Process SimpleCommand :=
  let (readEnd, writeEnd, p) := p.pipe
  (enterWriter p readEnd writeEnd).2

/-
  The calls that `parse_command` makes in the shell itself in
  the evaluation of a tree, that for the tree included.
-/
def shellCalls (calls : Calls) :
    Command SimpleCommand → Path → Process SimpleCommand →
      List Call
| .simple s, path, p => [⟨.simple s, path, p⟩]
| .bind op cmd1 cmd2, path, p =>
    ⟨.bind op cmd1 cmd2, path, p⟩ ::
      match op with
      | .parallel => []
      | .pipe => shellCalls calls cmd1 (false :: path) (writer p)
      | .sequential | .conditionalZero | .conditionalNzero =>
          shellCalls calls cmd1 (false :: path) p ++
            match
              parseCommand (shellSurroundings calls) cmd1
                (false :: path) p with
            | none => []
            | some (ret, p) =>
                if goesOn op ret then
                  shellCalls calls cmd2 (true :: path) p
                else
                  []

/- If the call returns, the table is as it was at the call. -/
def Call.Kept (calls : Calls) (x : Call) : Prop :=
  ∀ (ret : Int) (p' : Process SimpleCommand),
    parseCommand (shellSurroundings calls) x.cmd x.path
        x.process = some (ret, p') →
      p'.fds.file = x.process.fds.file

/- The call is no `cd` whose redirections may leave a trace. -/
def Call.IsHarmless (calls : Calls) (x : Call) : Prop :=
  ∀ s, x.cmd = .simple s →
    RedirectsShell (calls.env x.path) s → Harmless s.entries

/-
  A property of all calls that the shell makes for a tree, from
  a table with 0, 1 and 2 open; for all results of the calls of
  the system, and undefined values.
-/
def AtCalls
    (P : Calls → Call → Prop) (env : Path → Environment)
    (cmd : Command SimpleCommand) (path : Path) : Prop :=
  ∀ calls : Calls,
    calls.env = env →
      ∀ p : Process SimpleCommand,
        Standard p.fds →
          ∀ x ∈ shellCalls calls cmd path p, P calls x

section Trees

variable {calls : Calls}

/- A table with the same files is open alike. -/
theorem Standard.congr
    {t t' : DescriptorTable OpenFile}
    (hStandard : Standard t)
    (hSame : t'.file = t.file) :
    Standard t' := by
  intro d hDescriptor
  rw [DescriptorTable.IsOpen, hSame]
  exact hStandard d hDescriptor

/- The three operators whose operands the shell runs. -/
theorem parseCommand_bind
    {op : Operator}
    (hParallel : op ≠ .parallel)
    (hPipe : op ≠ .pipe)
    (cmd1 cmd2 : Command SimpleCommand)
    (path : Path) (p : Process SimpleCommand) :
    parseCommand (shellSurroundings calls) (.bind op cmd1 cmd2)
        path p =
      (parseCommand (shellSurroundings calls) cmd1
          (false :: path) p).bind
        (fun x =>
          if goesOn op x.1 then
            (parseCommand (shellSurroundings calls) cmd2
                (true :: path) x.2).map
              (fun y =>
                (if op = .sequential then calls.ret path else y.1,
                  y.2))
          else
            some x) := by
  cases op with
  | parallel => exact absurd rfl hParallel
  | pipe => exact absurd rfl hPipe
  | sequential =>
      rw [parseCommand]
      cases parseCommand (shellSurroundings calls) cmd1
          (false :: path) p with
      | none => rfl
      | some x =>
          simp only [Option.bind_some, goesOn, if_true]
          cases parseCommand (shellSurroundings calls) cmd2
              (true :: path) x.2 with
          | none => rfl
          | some y => rfl
  | conditionalZero =>
      rw [parseCommand]
      cases parseCommand (shellSurroundings calls) cmd1
          (false :: path) p with
      | none => rfl
      | some x =>
          simp [goesOn]
  | conditionalNzero =>
      rw [parseCommand]
      cases parseCommand (shellSurroundings calls) cmd1
          (false :: path) p with
      | none => rfl
      | some x =>
          simp [goesOn]

/- The calls for these operators. -/
theorem shellCalls_bind
    {op : Operator}
    (hParallel : op ≠ .parallel)
    (hPipe : op ≠ .pipe)
    (cmd1 cmd2 : Command SimpleCommand)
    (path : Path) (p : Process SimpleCommand) :
    shellCalls calls (.bind op cmd1 cmd2) path p =
      ⟨.bind op cmd1 cmd2, path, p⟩ ::
        (shellCalls calls cmd1 (false :: path) p ++
          match
            parseCommand (shellSurroundings calls) cmd1
              (false :: path) p with
          | none => []
          | some (ret, p) =>
              if goesOn op ret then
                shellCalls calls cmd2 (true :: path) p
              else
                []) := by
  cases op with
  | parallel => exact absurd rfl hParallel
  | pipe => exact absurd rfl hPipe
  | sequential => rfl
  | conditionalZero => rfl
  | conditionalNzero => rfl

theorem self_mem_shellCalls
    (cmd : Command SimpleCommand) (path : Path)
    (p : Process SimpleCommand) :
    ⟨cmd, path, p⟩ ∈ shellCalls calls cmd path p := by
  cases cmd with
  | simple s => exact List.mem_cons_self
  | bind op cmd1 cmd2 => exact List.mem_cons_self

/- A call is that of the tree, or for one of the operands. -/
theorem mem_shellCalls_bind
    {op : Operator}
    (hParallel : op ≠ .parallel)
    (hPipe : op ≠ .pipe)
    {cmd1 cmd2 : Command SimpleCommand}
    {path : Path} {p : Process SimpleCommand} {x : Call} :
    x ∈ shellCalls calls (.bind op cmd1 cmd2) path p ↔
      x = ⟨.bind op cmd1 cmd2, path, p⟩ ∨
        x ∈ shellCalls calls cmd1 (false :: path) p ∨
        ∃ ret p₁,
          parseCommand (shellSurroundings calls) cmd1
              (false :: path) p = some (ret, p₁) ∧
            goesOn op ret = true ∧
            x ∈ shellCalls calls cmd2 (true :: path) p₁ := by
  rw [shellCalls_bind hParallel hPipe, List.mem_cons,
    List.mem_append]
  cases hFirst :
      parseCommand (shellSurroundings calls) cmd1
        (false :: path) p with
  | none => simp
  | some y =>
      rcases y with ⟨ret, p₁⟩
      cases hGoes : goesOn op ret <;>
      simp [hGoes]

------------------------------------------------------------
-- From the Leaves to All Calls
------------------------------------------------------------

/- The writer has 0, 1 and 2 open, and what it leaves is undone. -/
theorem writer_spec
    {p : Process SimpleCommand}
    (hStandard : Standard p.fds) :
    Standard (writer p).fds ∧
      ∀ (run1 run2 : Process SimpleCommand →
          Outcome SimpleCommand) (ret : Int)
        (p' : Process SimpleCommand),
        doOnPipe run1 run2 p = some (ret, p') →
          ∃ ret₁ p₁,
            run1 (writer p) = some (ret₁, p₁) ∧
              (p₁.fds.file = (writer p).fds.file →
                p'.fds.file = p.fds.file) := by
  rcases pipe_spec p with
    ⟨readEnd, writeEnd, f, f', q, hPipe, hRead, hWrite, hOther,
      hFile⟩
  rcases enterWriter_spec hStandard hRead hWrite hOther hFile with
    ⟨saved, q', hEnter, hSaved, hFile'⟩
  have hWriter : writer p = q' := by
    simp only [writer, hPipe, hEnter]
  rw [hWriter]
  refine ⟨?_, ?_⟩
  · intro d hDescriptor
    rw [DescriptorTable.IsOpen, hFile']
    by_cases hOut : (d : Int) = stdoutFileno
    · rw [hOut, Function.update_self]
      exact Option.some_ne_none f'
    · have hApart : (d : Int) ≠ saved := by
        intro hSame
        apply hStandard d hDescriptor
        rw [hSame]
        exact hSaved
      rw [Function.update_of_ne hOut,
        Function.update_of_ne hApart]
      exact hStandard d hDescriptor
  · intro run1 run2 ret p' hReturns
    simp only [doOnPipe, hPipe, hEnter] at hReturns
    cases hRun : run1 q' with
    | none =>
        rw [hRun] at hReturns
        cases hReturns
    | some result =>
        rcases result with ⟨ret₁, p₁⟩
        rw [hRun] at hReturns
        cases hReturns
        refine ⟨ret₁, p₁, rfl, fun hSame => ?_⟩
        apply leaveWriter_spec hStandard hSaved (f := f')
        rw [hSame]
        exact hFile'

/- The tree's own call is kept if those for its operands are. -/
theorem kept_bind
    {op : Operator}
    (hParallel : op ≠ .parallel)
    (hPipe : op ≠ .pipe)
    {cmd1 cmd2 : Command SimpleCommand}
    {path : Path} {p : Process SimpleCommand}
    (hFirst : Call.Kept calls ⟨cmd1, false :: path, p⟩)
    (hSecond :
      ∀ ret p₁,
        parseCommand (shellSurroundings calls) cmd1
            (false :: path) p = some (ret, p₁) →
          goesOn op ret = true →
            Call.Kept calls ⟨cmd2, true :: path, p₁⟩) :
    Call.Kept calls ⟨.bind op cmd1 cmd2, path, p⟩ := by
  intro ret p' hReturns
  rw [parseCommand_bind hParallel hPipe] at hReturns
  rcases Option.bind_eq_some_iff.mp hReturns with
    ⟨⟨ret₁, p₁⟩, hRun1, hRest⟩
  have hSame₁ := hFirst ret₁ p₁ hRun1
  split at hRest
  · rename_i hGoes
    rcases Option.map_eq_some_iff.mp hRest with
      ⟨⟨ret₂, p₂⟩, hRun2, hSame⟩
    cases hSame
    exact (hSecond ret₁ p₁ hRun1 hGoes ret₂ p₂ hRun2).trans hSame₁
  · cases hRest
    exact hSame₁

/-
  If the calls for simple commands are kept, all calls are, and
  each meets 0, 1 and 2 open.
-/
def KeptByLeaves
    (calls : Calls) (cmd : Command SimpleCommand) (path : Path)
    (p : Process SimpleCommand) : Prop :=
  Standard p.fds →
    (∀ x ∈ shellCalls calls cmd path p,
      ∀ s, x.cmd = .simple s →
        Standard x.process.fds → x.Kept calls) →
      ∀ x ∈ shellCalls calls cmd path p,
        Standard x.process.fds ∧ x.Kept calls

/- Both operands, where the shell goes on to the second one. -/
theorem keptByLeaves_bind
    {op : Operator}
    (hParallel : op ≠ .parallel)
    (hPipe : op ≠ .pipe)
    {cmd1 cmd2 : Command SimpleCommand}
    {path : Path} {p : Process SimpleCommand}
    (ih1 : KeptByLeaves calls cmd1 (false :: path) p)
    (ih2 : ∀ p₁, KeptByLeaves calls cmd2 (true :: path) p₁) :
    KeptByLeaves calls (.bind op cmd1 cmd2) path p := by
  intro hStandard hLeaves
  have hMem := fun x =>
    @mem_shellCalls_bind calls op hParallel hPipe cmd1 cmd2
      path p x
  have hAll1 := ih1 hStandard
    (fun y hY => hLeaves y ((hMem y).mpr (Or.inr (Or.inl hY))))
  have hKept1 := (hAll1 _ (self_mem_shellCalls cmd1 _ p)).2
  have hAll2 :
      ∀ ret p₁,
        parseCommand (shellSurroundings calls) cmd1
            (false :: path) p = some (ret, p₁) →
          goesOn op ret = true →
            ∀ x ∈ shellCalls calls cmd2 (true :: path) p₁,
              Standard x.process.fds ∧ x.Kept calls := by
    intro ret p₁ hRun1 hGoes
    apply ih2 p₁ (hStandard.congr (hKept1 ret p₁ hRun1))
    intro y hY
    exact hLeaves y
      ((hMem y).mpr (Or.inr (Or.inr ⟨ret, p₁, hRun1, hGoes, hY⟩)))
  intro x hX
  rcases (hMem x).mp hX with
    rfl | hFirst | ⟨ret, p₁, hRun1, hGoes, hSecond⟩
  · refine ⟨hStandard, kept_bind hParallel hPipe hKept1 ?_⟩
    intro ret p₁ hRun1 hGoes
    exact (hAll2 ret p₁ hRun1 hGoes _
      (self_mem_shellCalls cmd2 _ p₁)).2
  · exact hAll1 x hFirst
  · exact hAll2 ret p₁ hRun1 hGoes x hSecond

/- The writer runs in the shell itself, with another `stdout`. -/
theorem keptByLeaves_pipe
    {cmd1 cmd2 : Command SimpleCommand}
    {path : Path} {p : Process SimpleCommand}
    (ih1 : KeptByLeaves calls cmd1 (false :: path) (writer p)) :
    KeptByLeaves calls (.bind .pipe cmd1 cmd2) path p := by
  intro hStandard hLeaves x hMem
  rcases writer_spec hStandard with ⟨hWriter, hUndone⟩
  have hAll1 := ih1 hWriter
    (fun y hY => hLeaves y (List.mem_cons_of_mem _ hY))
  rcases List.mem_cons.mp hMem with rfl | hFirst
  · refine ⟨hStandard, ?_⟩
    intro ret p' hReturns
    rw [parseCommand] at hReturns
    rcases hUndone _ _ ret p' hReturns with
      ⟨ret₁, p₁, hRun1, hSame⟩
    exact hSame
      ((hAll1 _ (self_mem_shellCalls cmd1 _ _)).2 ret₁ p₁ hRun1)
  · exact hAll1 x hFirst

theorem kept_of_leaves :
    ∀ (cmd : Command SimpleCommand) (path : Path)
      (p : Process SimpleCommand),
      KeptByLeaves calls cmd path p
| .simple s, path, p => by
    intro hStandard hLeaves x hMem
    have hKept := hLeaves x hMem s
    rw [List.mem_singleton.mp hMem] at hKept ⊢
    exact ⟨hStandard, hKept rfl hStandard⟩
| .bind .parallel cmd1 cmd2, path, p => by
    intro hStandard _ x hMem
    rw [List.mem_singleton.mp hMem]
    refine ⟨hStandard, ?_⟩
    intro ret p' hReturns
    rw [parseCommand, doInParallel] at hReturns
    cases hReturns
    rfl
| .bind .pipe cmd1 cmd2, path, p =>
    keptByLeaves_pipe
      (kept_of_leaves cmd1 (false :: path) (writer p))
| .bind .sequential cmd1 cmd2, path, p =>
    keptByLeaves_bind (by decide) (by decide)
      (kept_of_leaves cmd1 (false :: path) p)
      (kept_of_leaves cmd2 (true :: path))
| .bind .conditionalZero cmd1 cmd2, path, p =>
    keptByLeaves_bind (by decide) (by decide)
      (kept_of_leaves cmd1 (false :: path) p)
      (kept_of_leaves cmd2 (true :: path))
| .bind .conditionalNzero cmd1 cmd2, path, p =>
    keptByLeaves_bind (by decide) (by decide)
      (kept_of_leaves cmd1 (false :: path) p)
      (kept_of_leaves cmd2 (true :: path))

/- A harmless call for a simple command is kept. -/
theorem kept_of_isHarmless
    {x : Call} {s : SimpleCommand}
    (hCmd : x.cmd = .simple s)
    (hStandard : Standard x.process.fds)
    (hHarmless : x.IsHarmless calls) :
    x.Kept calls := by
  rcases x with ⟨cmd, path, p⟩
  simp only at hCmd hStandard
  subst hCmd
  intro ret p' hReturns
  rw [parseCommand] at hReturns
  rcases runSimple_cases calls s path p with
    ⟨hRedirects, hRuns⟩ | ⟨_, hRuns⟩
  · rw [hRuns, changeDirectory_eq] at hReturns
    rcases Option.map_eq_some_iff.mp hReturns with
      ⟨p'', hRun, hSame⟩
    cases hSame
    have hStandard' : Standard (p.record path s).fds := hStandard
    have hRestores :=
      (restores_iff (calls.env path) hStandard' s.red.redFlags
        ⟨s.red.wordsI, s.red.wordsO, s.red.wordsE⟩).mpr
        (hHarmless s rfl hRedirects)
    exact hRestores (calls.canOpen path) (calls.fd path) p' hRun
  · rw [hRuns ret p' hReturns]

/- An evaluation whose calls are harmless keeps the table. -/
theorem kept_of_harmless
    {cmd : Command SimpleCommand} {path : Path}
    {p : Process SimpleCommand}
    (hStandard : Standard p.fds)
    (hHarmless :
      ∀ x ∈ shellCalls calls cmd path p, x.IsHarmless calls)
    {x : Call} (hMem : x ∈ shellCalls calls cmd path p) :
    x.Kept calls :=
  (kept_of_leaves cmd path p hStandard
    (fun y hY _ hCmd hStandard' =>
      kept_of_isHarmless hCmd hStandard' (hHarmless y hY))
    x hMem).2

------------------------------------------------------------
-- Other Results of a Single Call
------------------------------------------------------------

/- The same results but for the files and `fd` at a path. -/
def Calls.changed
    (calls : Calls) (q : Path) (canOpen : CanOpen) (fd : Int) :
    Calls :=
  { calls with
    canOpen := Function.update calls.canOpen q canOpen
    fd := Function.update calls.fd q fd }

/- A path that is not at or above `q` is not a path to it. -/
theorem not_suffix_cons
    {q path : Path}
    (hAbove : ¬ path <:+ q) (turn : Bool) :
    ¬ (turn :: path) <:+ q :=
  fun hBelow => hAbove ((List.suffix_cons turn path).trans hBelow)

theorem runSimple_changed
    {q path : Path} (canOpen : CanOpen) (fd : Int)
    (hOther : path ≠ q)
    (s : SimpleCommand) (p : Process SimpleCommand) :
    (shellSurroundings (calls.changed q canOpen fd)).runSimple s
        path p =
      (shellSurroundings calls).runSimple s path p := by
  simp only [shellSurroundings, parseSimple, runCommand, assign,
    changeDirectory_eq, Calls.changed,
    Function.update_of_ne hOther]
  rfl

/- A tree at another place is evaluated alike. -/
theorem parseCommand_changed
    {q : Path} (canOpen : CanOpen) (fd : Int) :
    ∀ (cmd : Command SimpleCommand) (path : Path)
      (p : Process SimpleCommand),
      ¬ path <:+ q →
        parseCommand
            (shellSurroundings (calls.changed q canOpen fd)) cmd
            path p =
          parseCommand (shellSurroundings calls) cmd path p
| .simple s, path, p, hAbove => by
    apply runSimple_changed
    rintro rfl
    exact hAbove (List.suffix_refl path)
| .bind op cmd1 cmd2, path, p, hAbove => by
    have ih1 := fun p' => parseCommand_changed canOpen fd cmd1
      (false :: path) p' (not_suffix_cons hAbove false)
    have ih2 := fun p' => parseCommand_changed canOpen fd cmd2
      (true :: path) p' (not_suffix_cons hAbove true)
    have hUndefined :
        (shellSurroundings
            (calls.changed q canOpen fd)).undefined =
          (shellSurroundings calls).undefined := rfl
    cases op with
    | sequential =>
        simp only [parseCommand, ih1, ih2, hUndefined]
    | conditionalZero => simp only [parseCommand, ih1, ih2]
    | conditionalNzero => simp only [parseCommand, ih1, ih2]
    | parallel =>
        simp only [parseCommand, doInParallel, ih2]
    | pipe => simp only [parseCommand, doOnPipe, ih1, ih2]

/- The calls for a tree lie at or below its place. -/
theorem suffix_of_mem_shellCalls :
    ∀ (cmd : Command SimpleCommand) (path : Path)
      (p : Process SimpleCommand) (x : Call),
      x ∈ shellCalls calls cmd path p → path <:+ x.path
| .simple s, path, p, x, hMem => by
    cases List.mem_singleton.mp hMem
    exact List.suffix_refl path
| .bind op cmd1 cmd2, path, p, x, hMem => by
    have ih1 := fun p' hFirst =>
      (List.suffix_cons false path).trans
        (suffix_of_mem_shellCalls cmd1 (false :: path) p' x
          hFirst)
    have ih2 := fun p' hSecond =>
      (List.suffix_cons true path).trans
        (suffix_of_mem_shellCalls cmd2 (true :: path) p' x
          hSecond)
    by_cases hParallel : op = .parallel
    · subst hParallel
      cases List.mem_singleton.mp hMem
      exact List.suffix_refl path
    · by_cases hPipe : op = .pipe
      · subst hPipe
        rcases List.mem_cons.mp hMem with rfl | hFirst
        · exact List.suffix_refl path
        · exact ih1 _ hFirst
      · rcases (mem_shellCalls_bind hParallel hPipe).mp hMem with
          rfl | hFirst | ⟨ret, p₁, _, _, hSecond⟩
        · exact List.suffix_refl path
        · exact ih1 _ hFirst
        · exact ih2 _ hSecond

/- What happens in a call is no matter for its being made. -/
theorem mem_shellCalls_changed
    (canOpen : CanOpen) (fd : Int) {x : Call} :
    ∀ (cmd : Command SimpleCommand) (path : Path)
      (p : Process SimpleCommand),
      x ∈ shellCalls calls cmd path p →
        x ∈ shellCalls (calls.changed x.path canOpen fd) cmd path
          p
| .simple s, path, p, hMem => hMem
| .bind op cmd1 cmd2, path, p, hMem => by
    by_cases hParallel : op = .parallel
    · subst hParallel
      exact hMem
    · by_cases hPipe : op = .pipe
      · subst hPipe
        rcases List.mem_cons.mp hMem with hSame | hFirst
        · rw [hSame]
          exact List.mem_cons_self
        · exact List.mem_cons_of_mem _
            (mem_shellCalls_changed canOpen fd cmd1 _ _ hFirst)
      · rcases (mem_shellCalls_bind hParallel hPipe).mp hMem with
          hSame | hFirst | ⟨ret, p₁, hRun1, hGoes, hSecond⟩
        · exact (mem_shellCalls_bind hParallel hPipe).mpr
            (Or.inl hSame)
        · exact (mem_shellCalls_bind hParallel hPipe).mpr
            (Or.inr (Or.inl
              (mem_shellCalls_changed canOpen fd cmd1 _ _ hFirst)))
        · have hBelow :=
            suffix_of_mem_shellCalls cmd2 _ _ x hSecond
          have hSame :
              parseCommand
                  (shellSurroundings (calls.changed x.path canOpen fd))
                  cmd1 (false :: path) p =
                parseCommand (shellSurroundings calls) cmd1
                  (false :: path) p :=
            parseCommand_changed canOpen fd cmd1 (false :: path) p
              (not_suffix_of_suffix hBelow)
          have hRun1' := hSame.trans hRun1
          exact (mem_shellCalls_bind hParallel hPipe).mpr
            (Or.inr (Or.inr ⟨ret, p₁, hRun1', hGoes,
              mem_shellCalls_changed canOpen fd cmd2 _ _
                hSecond⟩))

/- Where every change is kept, the redirections are undone. -/
theorem restores_of_kept
    {s : SimpleCommand} {path : Path}
    {p : Process SimpleCommand}
    (hRedirects : RedirectsShell (calls.env path) s)
    (hKept :
      ∀ canOpen fd,
        Call.Kept (calls.changed path canOpen fd)
          ⟨.simple s, path, p⟩) :
    Restores (calls.env path) (p.record path s) s.entries := by
  intro canOpen fd p' hRun
  obtain ⟨changed, hChanged⟩ :
      ∃ changed, changed = calls.changed path canOpen fd :=
    ⟨_, rfl⟩
  have hEnv : changed.env = calls.env := by rw [hChanged]; rfl
  have hCanOpen : changed.canOpen path = canOpen := by
    rw [hChanged]
    exact Function.update_self ..
  have hFd : changed.fd path = fd := by
    rw [hChanged]
    exact Function.update_self ..
  have hReturns :
      parseCommand (shellSurroundings changed) (.simple s) path
          p = some (shellCd (changed.chdir path), p') := by
    rcases runSimple_cases changed s path p with
      ⟨_, hRuns⟩ | ⟨hOther, _⟩
    · rw [parseCommand, hRuns, changeDirectory_eq, hCanOpen, hFd,
        hEnv, hRun]
      rfl
    · rw [hEnv] at hOther
      exact absurd hRedirects hOther
  have hSame := hKept canOpen fd
  rw [← hChanged] at hSame
  exact hSame _ p' hReturns

/-
  Whenever a call that the shell makes for a tree returns, its
  table is identical to that at the call, exactly if every `cd`
  that the shell comes to run for the tree is harmless.
-/
theorem preserves_iff_harmless
    (env : Path → Environment)
    (cmd : Command SimpleCommand) (path : Path) :
    AtCalls Call.Kept env cmd path ↔
      AtCalls Call.IsHarmless env cmd path := by
  constructor
  · rintro hKept calls rfl p hStandard x hMem s hCmd hRedirects
    have hProcess :=
      (kept_of_leaves cmd path p hStandard
        (fun y hY _ _ _ => hKept calls rfl p hStandard y hY)
        x hMem).1
    rw [SimpleCommand.entries,
      ← restores_iff (calls.env x.path)
        (p := x.process.record x.path s) hProcess]
    apply restores_of_kept hRedirects
    intro canOpen fd
    rw [← hCmd]
    exact hKept (calls.changed x.path canOpen fd) rfl p hStandard
      x (mem_shellCalls_changed canOpen fd cmd path p hMem)
  · intro hHarmless calls hEnv p hStandard x hMem
    exact kept_of_harmless hStandard
      (hHarmless calls hEnv p hStandard) hMem

end Trees

/- The command `cd d >> a 2>> b`. -/
def cdAppending : SimpleCommand where
  verb := plainWord ['c', 'd']
  params := [plainWord ['d']]
  red :=
    (redirectRules
      [(.redirectAppendO, plainWord ['a']),
        (.redirectAppendE, plainWord ['b'])]).getD emptyRedirect

/- No file is opened for it, and `fd` may hold 1. -/
theorem not_preserves_always :
    ¬ ∀ (env : Path → Environment)
        (cmd : Command SimpleCommand) (path : Path),
        AtCalls Call.Kept env cmd path := by
  intro hAlways
  have hKept :=
    hAlways (fun _ _ => none) (.simple cdAppending) []
  obtain ⟨calls, hCalls⟩ :
      ∃ calls : Calls,
        calls =
          { env := fun _ _ => none
            canOpen := fun _ _ _ _ => true
            fd := fun _ => 1
            ret := fun _ => 0
            chdir := fun _ => true
            setenv := fun _ => true
            status := fun _ => 0 } := ⟨_, rfl⟩
  have hReturns :
      ∃ p',
        parseCommand (shellSurroundings calls)
            (.simple cdAppending) [] ⟨terminal, 3, []⟩ =
          some (0, p') ∧
          p'.fds.file 1 = none := by
    rw [hCalls]
    exact ⟨_, rfl, rfl⟩
  rcases hReturns with ⟨p', hReturns, hClosed⟩
  have hSame :=
    hKept calls (by rw [hCalls]) ⟨terminal, 3, []⟩
      standard_terminal _ (self_mem_shellCalls _ _ _) 0 p' hReturns
  rw [hSame] at hClosed
  exact standard_terminal 1 (by omega) hClosed

end Shell

end ProgrammingTasks
