import ProgrammingTasks.Shell.Descriptors

/-
  The assignment of variables (`cmd.c`).

  `parse_simple` stores the text of the part behind `=` as it
  is written, and looks at no other part.  A verb that starts
  with the name of a command of the shell never gets there.

  Main declarations:
    * `setenv`, `parseSimpleEnv`
    * `AssignmentLaw`, `Stores`
    * `assignmentLaw_iff`
-/

------------------------------------------------------------
-- Environments
------------------------------------------------------------

namespace ProgrammingTasks

namespace Shell

/-
  `setenv` with overwriting.  It fails for an empty name and
  for one that contains `=`.
-/
def setenv
    (name value : Text) (env : Environment) :
    Option Environment :=
  if name = [] ∨ '=' ∈ name then
    none
  else
    some (Function.update env name (some value))

/-
  The environment after the assignment.  There is none if
  `setenv` fails, or if the part that it is to read the value
  from is NULL.
-/
def assignedEnv
    (env : Environment) (s : SimpleCommand) :
    Option Environment :=
  match s.verb.nextParts with
  | _ :: part :: _ =>
      setenv s.verb.first.string part.string env
  | _ => none

/- `parse_simple` comes to the assignment. -/
def assigns (env : Environment) (s : SimpleCommand) : Bool :=
  !isExit env s && !isChangeDirectory env s &&
    (isAssignment s && s.verb.first.string ≠ [])

/-
  `parse_simple` with the environment that it leaves.  Only an
  assignment writes to that of the shell itself; its `setenv`
  succeeds if it gives an environment.
-/
def parseSimpleEnv
    (calls : Calls) (s : SimpleCommand) (path : Path)
    (p : Process SimpleCommand) :
    Option (Int × Process SimpleCommand × Environment) :=
  let env := calls.env path
  let assigned := assignedEnv env s
  let calls :=
    { calls with setenv := fun _ => assigned.isSome }
  (parseSimple env (runCommand calls) s path p).map
    (fun r =>
      (r.1, r.2,
        if assigns env s then assigned.getD env else env))

------------------------------------------------------------
-- The Law of Assignments
------------------------------------------------------------

/- The expansions of some parts, one after the other. -/
def expansion (env : Environment) (parts : List Part) : Text :=
  parts.flatMap (Part.text env)

/- The word `name=` with further parts. -/
def assignmentWord (name : Text) (further : List Part) : Word :=
  ⟨⟨name, false⟩, ⟨['='], false⟩ :: further⟩

/-
  The command returns, whatever the calls of the system, and
  leaves the environment with the expanded value of the name.
-/
def AssignmentLaw
    (env : Environment) (s : SimpleCommand)
    (name : Text) (further : List Part) : Prop :=
  ∀ (calls : Calls) (path : Path) (p : Process SimpleCommand),
    calls.env path = env →
      ∃ ret p',
        parseSimpleEnv calls s path p =
          some (ret, p',
            Function.update env name
              (some (expansion env further)))

/- The name makes the verb an `exit` or a `quit`. -/
def startsExit (name : Text) : Bool :=
  isCommand ['e', 'x', 'i', 't'] name ||
    isCommand ['q', 'u', 'i', 't'] name

/- The name makes the verb a `cd`. -/
def startsCd (name : Text) : Bool :=
  isCommand ['c', 'd'] name

/-
  When the law holds: the first part of the value, as it is
  written, is the whole value, and the name has no `=`.  If
  the name starts with that of a command of the shell, the
  variable must have its value already, and a `cd` must not
  redirect.
-/
def Stores
    (env : Environment) (s : SimpleCommand)
    (name : Text) (further : List Part) : Prop :=
  if startsExit name then
    env name = some (expansion env further)
  else if startsCd name then
    env name = some (expansion env further) ∧
      (s.params = [] ∨ s.entries = [])
  else
    '=' ∉ name ∧
      ∃ part rest,
        further = part :: rest ∧
          part.string = expansion env further

------------------------------------------------------------
-- The Paths of an Assignment
------------------------------------------------------------

/- What stands behind `=` does not matter for a prefix. -/
theorem isCommand_append :
    ∀ {text : Text} (name rest : Text),
      '=' ∉ text →
        isCommand text (name ++ '=' :: rest) =
          isCommand text name
| [], _, _, _ => by
    simp [isCommand]
| c :: text, [], rest, hText => by
    have hFirst : c ≠ '=' := fun hSame =>
      hText (hSame ▸ List.mem_cons_self)
    simp [isCommand, List.isPrefixOf, hFirst]
| c :: text, d :: name, rest, hText => by
    have hRest :=
      isCommand_append name rest
        (fun hMem => hText (List.mem_cons_of_mem c hMem))
    simp only [isCommand, List.cons_append,
      List.isPrefixOf_cons_cons] at hRest ⊢
    rw [hRest]

theorem getWord_assignmentWord
    (env : Environment) (name : Text) (further : List Part) :
    getWord env (assignmentWord name further) =
      name ++ '=' :: expansion env further := by
  simp [getWord, assignmentWord, expansion, Part.text]

section Paths

variable {env : Environment} {s : SimpleCommand}
variable {name : Text} {further : List Part}

theorem isExit_assignment
    (hVerb : s.verb = assignmentWord name further) :
    isExit env s = startsExit name := by
  rw [isExit, startsExit, hVerb, getWord_assignmentWord,
    isCommand_append _ _ (by decide),
    isCommand_append _ _ (by decide)]

theorem isChangeDirectory_assignment
    (hVerb : s.verb = assignmentWord name further) :
    isChangeDirectory env s = startsCd name := by
  rw [isChangeDirectory, startsCd, hVerb,
    getWord_assignmentWord, isCommand_append _ _ (by decide)]

theorem isAssignment_assignment
    (hVerb : s.verb = assignmentWord name further) :
    isAssignment s = true := by
  rw [isAssignment, hVerb]
  rfl

/- With the name of a command nothing is assigned. -/
theorem assigns_of_starts
    (hVerb : s.verb = assignmentWord name further)
    (hStarts : startsExit name = true ∨ startsCd name = true) :
    assigns env s = false := by
  rw [assigns, isExit_assignment hVerb,
    isChangeDirectory_assignment hVerb]
  rcases hStarts with hExit | hCd
  · simp [hExit]
  · simp [hCd]

/- A table has no descriptor -1 to install. -/
theorem redirectTo_dies
    {d : Nat} {request : Request} {st : Redirecting}
    (hFd : st.fd = -1) :
    redirectTo (fun _ _ _ => false) env d request st = none := by
  have hClosed :
      ∀ t : DescriptorTable OpenFile, t.dup2 (-1) d = none := by
    intro t
    rw [DescriptorTable.dup2, t.negative (-1) (by decide)]
  have hSaved : (saveDescriptor d st).fd = -1 := by
    rw [← hFd]
    unfold saveDescriptor
    split <;> rfl
  cases request with
  | none =>
      simp only [redirectTo, opens, Option.map_none, openTarget,
        Option.bind_some, installFile, hSaved, hClosed]
  | some r =>
      simp [redirectTo, opens, openTarget]

/- A `cd` that redirects dies if no file can be opened. -/
theorem runEntries_eq_none
    {entries : List Entry}
    (hEntries : entries ≠ [])
    (p : Process SimpleCommand) :
    runEntries (fun _ _ _ => false) env entries (-1) p =
      none := by
  rcases List.exists_cons_of_ne_nil hEntries with
    ⟨x, rest, rfl⟩
  rw [runEntries, redirectAll, List.foldlM_cons,
    redirectTo_dies rfl]
  rfl

/- A `cd` that does not redirect returns. -/
theorem runEntries_nil
    (canOpen : CanOpen) (fd : Int)
    (p : Process SimpleCommand) :
    runEntries canOpen env [] fd p = some p := by
  rfl

/- An assignment of a value that is there changes nothing. -/
theorem update_eq_iff {value : Text} :
    Function.update env name (some value) = env ↔
      env name = some value := by
  rw [Function.update_eq_self_iff]
  exact eq_comm

end Paths

/- Calls under which no file can be opened. -/
def closedCalls (env : Environment) : Calls where
  env _ := env
  canOpen _ _ _ _ := false
  fd _ := -1
  ret _ := 0
  chdir _ := true
  setenv _ := true
  status _ := 0

def emptyProcess : Process SimpleCommand :=
  ⟨DescriptorTable.empty, 0, []⟩

/- The environment of a call that returns. -/
theorem env_of_returns
    {ret ret' : Int} {p p' : Process SimpleCommand}
    {env env' : Environment}
    (hReturns : some (ret, p, env) = some (ret', p', env')) :
    env = env' := by
  simp only [Option.some.injEq, Prod.mk.injEq] at hReturns
  exact hReturns.2.2

section Law

variable {env : Environment} {s : SimpleCommand}
variable {name : Text} {further : List Part}

/- The path of `exit` leaves the environment as it is. -/
theorem assignmentLaw_exit_iff
    (hVerb : s.verb = assignmentWord name further)
    (hExit : startsExit name = true) :
    AssignmentLaw env s name further ↔
      env name = some (expansion env further) := by
  have hResult :
      ∀ (calls : Calls) (path : Path)
        (p : Process SimpleCommand),
        calls.env path = env →
          parseSimpleEnv calls s path p =
            some (shellExit, p.record path s, env) := by
    rintro calls path p rfl
    simp only [parseSimpleEnv, parseSimple,
      isExit_assignment hVerb, hExit, if_true,
      assigns_of_starts hVerb (Or.inl hExit),
      Bool.false_eq_true, if_false, Option.map_some]
  rw [← update_eq_iff]
  constructor
  · intro hLaw
    rcases hLaw (closedCalls env) [] emptyProcess rfl with
      ⟨ret, p', hReturns⟩
    rw [hResult (closedCalls env) [] emptyProcess rfl]
      at hReturns
    exact (env_of_returns hReturns).symm
  · intro hSame calls path p hEnv
    exact ⟨shellExit, p.record path s, by
      rw [hResult calls path p hEnv, hSame]⟩

/- The path of `cd` leaves the environment as it is. -/
theorem assignmentLaw_cd_iff
    (hVerb : s.verb = assignmentWord name further)
    (hExit : startsExit name = false)
    (hCd : startsCd name = true) :
    AssignmentLaw env s name further ↔
      env name = some (expansion env further) ∧
        (s.params = [] ∨ s.entries = []) := by
  have hResult :
      ∀ (calls : Calls) (path : Path)
        (p : Process SimpleCommand),
        calls.env path = env →
          parseSimpleEnv calls s path p =
            (if s.params = [] then
              some (calls.ret path, p.record path s)
            else
              (runEntries (calls.canOpen path) env s.entries
                (calls.fd path) (p.record path s)).map
                (fun p => (shellCd (calls.chdir path), p))).map
              (fun r => (r.1, r.2, env)) := by
    rintro calls path p rfl
    simp only [parseSimpleEnv, parseSimple, runCommand,
      isExit_assignment hVerb, hExit, Bool.false_eq_true,
      if_false, isChangeDirectory_assignment hVerb, hCd,
      if_true, changeDirectory_eq,
      assigns_of_starts hVerb (Or.inr hCd)]
  rw [← update_eq_iff]
  constructor
  · intro hLaw
    rcases hLaw (closedCalls env) [] emptyProcess rfl with
      ⟨ret, p', hReturns⟩
    rw [hResult (closedCalls env) [] emptyProcess rfl]
      at hReturns
    by_cases hParams : s.params = []
    · rw [if_pos hParams] at hReturns
      exact ⟨(env_of_returns hReturns).symm, Or.inl hParams⟩
    · rw [if_neg hParams] at hReturns
      by_cases hEntries : s.entries = []
      · rw [hEntries, runEntries_nil] at hReturns
        exact ⟨(env_of_returns hReturns).symm, Or.inr hEntries⟩
      · have hDies :
            runEntries ((closedCalls env).canOpen []) env
                s.entries ((closedCalls env).fd [])
                (emptyProcess.record [] s) = none :=
          runEntries_eq_none hEntries _
        rw [hDies] at hReturns
        cases hReturns
  · rintro ⟨hSame, hReturns⟩ calls path p hEnv
    rw [hResult calls path p hEnv, hSame]
    by_cases hParams : s.params = []
    · rw [if_pos hParams]
      exact ⟨_, _, rfl⟩
    · rw [if_neg hParams, hReturns.resolve_left hParams,
        runEntries_nil]
      exact ⟨_, _, rfl⟩

/- What the assignment path returns. -/
theorem parseSimpleEnv_assign
    (hVerb : s.verb = assignmentWord name further)
    (hName : name ≠ [])
    (hExit : startsExit name = false)
    (hCd : startsCd name = false)
    (calls : Calls) (path : Path) (p : Process SimpleCommand)
    (hEnv : calls.env path = env) :
    parseSimpleEnv calls s path p =
      (assignedEnv env s).map
        (fun env' => (0, p.record path s, env')) := by
  subst hEnv
  have hFirst : s.verb.first.string = name := by
    rw [hVerb]
    rfl
  have hAssigns : assigns (calls.env path) s = true := by
    simp [assigns, isExit_assignment hVerb, hExit,
      isChangeDirectory_assignment hVerb, hCd,
      isAssignment_assignment hVerb, hFirst, hName]
  simp only [parseSimpleEnv, parseSimple, runCommand,
    isExit_assignment hVerb, hExit, Bool.false_eq_true,
    if_false, isChangeDirectory_assignment hVerb, hCd,
    isAssignment_assignment hVerb, hFirst, hName, ne_eq,
    not_false_eq_true, and_self, if_true, hAssigns]
  cases further with
  | nil => simp [assign, assignedEnv, hVerb, assignmentWord]
  | cons part rest =>
      simp only [assign, hVerb, assignmentWord]
      cases assignedEnv (calls.env path) s with
      | none => rfl
      | some env' => rfl

/- The value that is stored is the text of the first part. -/
theorem assignedEnv_eq_iff
    (hVerb : s.verb = assignmentWord name further)
    (hName : name ≠ []) :
    assignedEnv env s =
        some (Function.update env name
          (some (expansion env further))) ↔
      '=' ∉ name ∧
        ∃ part rest,
          further = part :: rest ∧
            part.string = expansion env further := by
  cases further with
  | nil => simp [assignedEnv, hVerb, assignmentWord]
  | cons part rest =>
      have hAssigned :
          assignedEnv env s = setenv name part.string env := by
        simp only [assignedEnv, hVerb, assignmentWord]
      rw [hAssigned, setenv]
      by_cases hEquals : '=' ∈ name
      · simp [hEquals]
      · rw [if_neg (by simp [hName, hEquals])]
        constructor
        · intro hSame
          have hValue :=
            congrFun (Option.some.inj hSame) name
          rw [Function.update_self, Function.update_self]
            at hValue
          exact ⟨hEquals, part, rest, rfl,
            Option.some.inj hValue⟩
        · rintro ⟨_, part', rest', hFurther, hValue⟩
          cases hFurther
          rw [hValue]

/- The assignment itself stores the first part. -/
theorem assignmentLaw_assign_iff
    (hVerb : s.verb = assignmentWord name further)
    (hName : name ≠ [])
    (hExit : startsExit name = false)
    (hCd : startsCd name = false) :
    AssignmentLaw env s name further ↔
      '=' ∉ name ∧
        ∃ part rest,
          further = part :: rest ∧
            part.string = expansion env further := by
  have hResult :=
    @parseSimpleEnv_assign env s name further hVerb hName
      hExit hCd
  rw [← assignedEnv_eq_iff hVerb hName]
  constructor
  · intro hLaw
    rcases hLaw (closedCalls env) [] emptyProcess rfl with
      ⟨ret, p', hReturns⟩
    rw [hResult (closedCalls env) [] emptyProcess rfl]
      at hReturns
    rcases Option.map_eq_some_iff.mp hReturns with
      ⟨env', hAssigned, hSame⟩
    cases hSame
    exact hAssigned
  · intro hAssigned calls path p hEnv
    rw [hResult calls path p hEnv, hAssigned]
    exact ⟨_, _, rfl⟩

/-
  For every environment and every command whose verb has the
  parts of an assignment, the expanded value is stored exactly
  under the condition.
-/
theorem assignmentLaw_iff
    (hVerb : s.verb = assignmentWord name further)
    (hName : name ≠ []) :
    AssignmentLaw env s name further ↔
      Stores env s name further := by
  unfold Stores
  cases hExit : startsExit name with
  | true =>
      rw [if_pos rfl]
      exact assignmentLaw_exit_iff hVerb hExit
  | false =>
      rw [if_neg Bool.false_ne_true]
      cases hCd : startsCd name with
      | true =>
          rw [if_pos rfl]
          exact assignmentLaw_cd_iff hVerb hExit hCd
      | false =>
          rw [if_neg Bool.false_ne_true]
          exact assignmentLaw_assign_iff hVerb hName hExit hCd

end Law

/- A command with the verb only. -/
def assignCommand (verb : Word) : SimpleCommand where
  verb := verb
  params := []
  red := emptyRedirect

/-
  `x=ab$y` with an undefined `y` stores the first part of the
  value, which is all of it.
-/
theorem assignmentLaw_undefined :
    AssignmentLaw (fun _ => none)
      (assignCommand
        (assignmentWord ['x'] [⟨['a', 'b'], false⟩, ⟨['y'], true⟩]))
      ['x'] [⟨['a', 'b'], false⟩, ⟨['y'], true⟩] := by
  refine (assignmentLaw_iff rfl (by decide)).mpr ?_
  unfold Stores
  rw [if_neg (by decide), if_neg (by decide)]
  exact ⟨by decide, _, _, rfl, by decide⟩

/- `x=` without a value has no part to read. -/
theorem not_assignmentLaw_always :
    ¬ ∀ (env : Environment) (s : SimpleCommand)
        (name : Text) (further : List Part),
      s.verb = assignmentWord name further → name ≠ [] →
        AssignmentLaw env s name further := by
  intro hAlways
  have hLaw :=
    hAlways (fun _ => none)
      (assignCommand (assignmentWord ['x'] [])) ['x'] [] rfl
      (by decide)
  rcases hLaw (closedCalls (fun _ => none)) [] emptyProcess
      rfl with
    ⟨ret, p', hReturns⟩
  cases hReturns

end Shell

end ProgrammingTasks
