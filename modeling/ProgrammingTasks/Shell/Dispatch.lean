import ProgrammingTasks.Shell.Assignment

/-
  Which way a verb takes through `parse_simple` (`cmd.c`).

  The names of the commands of the shell are compared with the
  start of the expanded verb only.  For an external command
  the child gets the expanded words; the name of the program
  has been freed if the verb looked like an assignment.

  Main declarations:
    * `getArgv`, `SimplePath`, `simplePath`
    * `parseSimple_eq_simplePath`
    * `Dispatches`, `NamesItsPath`
    * `dispatches_iff`
-/

------------------------------------------------------------
-- The Ways Through `parse_simple`
------------------------------------------------------------

namespace ProgrammingTasks

namespace Shell

/- The loop of `get_argv` over the parameters. -/
def appendParams (env : Environment) :
    List Word → List (Option Text) → List (Option Text)
| [], argv => argv
| param :: params, argv =>
    appendParams env params (argv ++ [some (getWord env param)])

/- `get_argv`: the list ends with NULL. -/
def getArgv
    (env : Environment) (s : SimpleCommand) :
    List (Option Text) :=
  appendParams env s.params [some (getWord env s.verb)] ++ [none]

/-
  The ways of a command.  An external one is executed as
  `file`, which may be NULL.
-/
inductive SimplePath
| exit
| changeDirectory
| assignment
| external (file : Option Text) (argv : List (Option Text))
deriving DecidableEq, Repr

/- The tests of `parse_simple` in their order. -/
def simplePath
    (env : Environment) (s : SimpleCommand) : SimplePath :=
  if isExit env s then
    .exit
  else if isChangeDirectory env s then
    .changeDirectory
  else if isAssignment s then
    -- `int_cmd` is NULL from here on
    if s.verb.first.string ≠ [] then
      .assignment
    else
      .external none (getArgv env s)
  else
    .external (some (getWord env s.verb)) (getArgv env s)

/- What the shell does on each of the ways. -/
def followPath
    (calls : Calls) (s : SimpleCommand) (path : Path)
    (p : Process SimpleCommand) :
    SimplePath → Outcome SimpleCommand
| .exit => some (shellExit, p)
| .changeDirectory =>
    if s.params = [] then
      some (calls.ret path, p)
    else
      changeDirectory calls s path p
| .assignment => assign calls s path p
| .external _ _ => some (calls.status path, p)

theorem parseSimple_eq_simplePath
    (calls : Calls) (s : SimpleCommand) (path : Path)
    (p : Process SimpleCommand) :
    parseSimple (calls.env path) (runCommand calls) s path p =
      followPath calls s path (p.record path s)
        (simplePath (calls.env path) s) := by
  unfold parseSimple runCommand simplePath
  dsimp only
  by_cases hExit : isExit (calls.env path) s = true
  · rw [if_pos hExit, if_pos hExit, followPath]
  · rw [if_neg hExit, if_neg hExit]
    by_cases hCd : isChangeDirectory (calls.env path) s = true
    · rw [if_pos hCd, if_pos hCd, followPath]
    · rw [if_neg hCd, if_neg hCd]
      by_cases hAssign : isAssignment s = true
      · rw [if_pos hAssign]
        by_cases hName : s.verb.first.string = []
        · rw [if_neg (fun hBoth => hBoth.2 hName),
            if_neg (fun hNot => hNot hName), followPath]
        · rw [if_pos ⟨hAssign, hName⟩, if_pos hName, followPath]
      · rw [if_neg (fun hBoth => hAssign hBoth.1),
          if_neg hAssign, followPath]

/- The arguments are the expanded words in their order. -/
theorem appendParams_eq (env : Environment) :
    ∀ (params : List Word) (argv : List (Option Text)),
      appendParams env params argv =
        argv ++ params.map (fun param => some (getWord env param))
| [], argv => by
    rw [appendParams, List.map_nil, List.append_nil]
| param :: params, argv => by
    rw [appendParams, appendParams_eq env params,
      List.append_assoc, List.map_cons]
    rfl

theorem getArgv_eq
    (env : Environment) (s : SimpleCommand) :
    getArgv env s =
      (s.verb :: s.params).map
          (fun word => some (getWord env word)) ++ [none] := by
  rw [getArgv, appendParams_eq]
  rfl

------------------------------------------------------------
-- The Law and Its Condition
------------------------------------------------------------

def exitText : Text := ['e', 'x', 'i', 't']

def quitText : Text := ['q', 'u', 'i', 't']

def cdText : Text := ['c', 'd']

/- The second part of the verb is `=` as it is written. -/
def HasEquals (s : SimpleCommand) : Prop :=
  s.verb.nextParts.head? = some ⟨['='], false⟩

/-
  The whole expanded verb decides, and the arguments of an
  external command are the expanded words.
-/
structure Dispatches
    (env : Environment) (s : SimpleCommand) : Prop where
  exit :
    simplePath env s = .exit ↔
      getWord env s.verb = exitText ∨
        getWord env s.verb = quitText
  changeDirectory :
    simplePath env s = .changeDirectory ↔
      getWord env s.verb = cdText
  assignment :
    simplePath env s = .assignment ↔ HasEquals s
  external :
    getWord env s.verb ≠ exitText →
      getWord env s.verb ≠ quitText →
        getWord env s.verb ≠ cdText → ¬ HasEquals s →
          simplePath env s =
            .external (some (getWord env s.verb))
              ((s.verb :: s.params).map
                (fun word => some (getWord env word)) ++ [none])

/-
  A verb that starts with the name of a command is that name.
  For any other verb, a second part that starts with `=` is
  `=` as it is written, and the first part is not empty.
-/
def NamesItsPath
    (env : Environment) (s : SimpleCommand) : Prop :=
  if startsExit (getWord env s.verb) then
    getWord env s.verb = exitText ∨
      getWord env s.verb = quitText
  else if startsCd (getWord env s.verb) then
    getWord env s.verb = cdText
  else
    isAssignment s = true →
      HasEquals s ∧ s.verb.first.string ≠ []

section Law

variable {env : Environment} {s : SimpleCommand}

/- A verb with `=` in it is no command of the shell. -/
theorem equals_mem_verb
    (hEquals : HasEquals s) :
    '=' ∈ getWord env s.verb := by
  rcases List.head?_eq_some_iff.mp hEquals with ⟨rest, hParts⟩
  simp [getWord, hParts, Part.text]

theorem not_hasEquals
    {name : Text}
    (hVerb : getWord env s.verb = name)
    (hName : '=' ∉ name) :
    ¬ HasEquals s := by
  intro hEquals
  apply hName
  rw [← hVerb]
  exact equals_mem_verb hEquals

theorem isAssignment_of_equals
    (hEquals : HasEquals s) :
    isAssignment s = true := by
  rcases List.head?_eq_some_iff.mp hEquals with ⟨rest, hParts⟩
  rw [isAssignment, hParts]
  rfl

/- The tests of the verb look at its expanded text only. -/
theorem simplePath_eq
    (env : Environment) (s : SimpleCommand) :
    simplePath env s =
      if startsExit (getWord env s.verb) then .exit
      else if startsCd (getWord env s.verb) then
        .changeDirectory
      else if isAssignment s then
        if s.verb.first.string ≠ [] then .assignment
        else .external none (getArgv env s)
      else
        .external (some (getWord env s.verb))
          (getArgv env s) :=
  rfl

theorem startsExit_of_exit
    (hWhole :
      getWord env s.verb = exitText ∨
        getWord env s.verb = quitText) :
    startsExit (getWord env s.verb) = true := by
  rcases hWhole with hExit | hQuit
  · rw [hExit]
    decide
  · rw [hQuit]
    decide

theorem not_exit_of_startsExit
    (hNoExit : startsExit (getWord env s.verb) = false) :
    ¬ (getWord env s.verb = exitText ∨
        getWord env s.verb = quitText) := by
  intro hWhole
  rw [startsExit_of_exit hWhole] at hNoExit
  cases hNoExit

/- On the path of `exit`. -/
theorem dispatches_exit_iff
    (hStarts : startsExit (getWord env s.verb) = true) :
    Dispatches env s ↔
      getWord env s.verb = exitText ∨
        getWord env s.verb = quitText := by
  have hPath : simplePath env s = .exit := if_pos hStarts
  constructor
  · exact fun hLaw => hLaw.exit.mp hPath
  · intro hWhole
    have hNoEquals : ¬ HasEquals s := by
      rcases hWhole with hVerb | hVerb
      · exact not_hasEquals hVerb (by decide)
      · exact not_hasEquals hVerb (by decide)
    have hNoCd : getWord env s.verb ≠ cdText := by
      intro hCd
      rw [hCd] at hStarts
      exact absurd hStarts (by decide)
    refine ⟨iff_of_true hPath hWhole, ?_, ?_, ?_⟩
    · exact iff_of_false (by rw [hPath]; exact nofun) hNoCd
    · exact iff_of_false (by rw [hPath]; exact nofun) hNoEquals
    · intro hNoExit hNoQuit
      exact (hWhole.elim hNoExit hNoQuit).elim

/- On the path of `cd`. -/
theorem dispatches_cd_iff
    (hNoExit : startsExit (getWord env s.verb) = false)
    (hStarts : startsCd (getWord env s.verb) = true) :
    Dispatches env s ↔ getWord env s.verb = cdText := by
  have hPath : simplePath env s = .changeDirectory := by
    rw [simplePath_eq, hNoExit, hStarts]
    rfl
  have hNotExit := not_exit_of_startsExit hNoExit
  constructor
  · exact fun hLaw => hLaw.changeDirectory.mp hPath
  · intro hCd
    have hNoEquals : ¬ HasEquals s :=
      not_hasEquals hCd (by decide)
    refine ⟨?_, iff_of_true hPath hCd, ?_, ?_⟩
    · exact iff_of_false (by rw [hPath]; exact nofun) hNotExit
    · exact iff_of_false (by rw [hPath]; exact nofun) hNoEquals
    · exact fun _ _ hNoCd => absurd hCd hNoCd

/- On the paths of the other verbs. -/
theorem dispatches_other_iff
    (hNoExit : startsExit (getWord env s.verb) = false)
    (hNoCd : startsCd (getWord env s.verb) = false) :
    Dispatches env s ↔
      (isAssignment s = true →
        HasEquals s ∧ s.verb.first.string ≠ []) := by
  have hPath :
      simplePath env s =
        if isAssignment s then
          if s.verb.first.string ≠ [] then .assignment
          else .external none (getArgv env s)
        else
          .external (some (getWord env s.verb))
            (getArgv env s) := by
    rw [simplePath_eq, hNoExit, hNoCd]
    rfl
  have hNotExit := not_exit_of_startsExit hNoExit
  have hNotCd : getWord env s.verb ≠ cdText := by
    intro hCd
    rw [hCd] at hNoCd
    exact absurd hNoCd (by decide)
  cases hAssign : isAssignment s with
  | false =>
      rw [hAssign, if_neg Bool.false_ne_true] at hPath
      refine iff_of_true ⟨?_, ?_, ?_, ?_⟩ nofun
      · exact iff_of_false (by rw [hPath]; exact nofun) hNotExit
      · exact iff_of_false (by rw [hPath]; exact nofun) hNotCd
      · refine iff_of_false (by rw [hPath]; exact nofun) ?_
        intro hEquals
        rw [isAssignment_of_equals hEquals] at hAssign
        cases hAssign
      · intro _ _ _ _
        rw [hPath, getArgv_eq]
  | true =>
      rw [hAssign, if_pos rfl] at hPath
      by_cases hName : s.verb.first.string = []
      · -- the program is NULL, whatever the second part is
        rw [if_neg (fun hNot => hNot hName)] at hPath
        refine iff_of_false ?_ (fun hBoth => (hBoth rfl).2 hName)
        intro hLaw
        by_cases hEquals : HasEquals s
        · have hAgain := hLaw.assignment.mpr hEquals
          rw [hPath] at hAgain
          cases hAgain
        · have hAgain :=
            hLaw.external (fun h => hNotExit (Or.inl h))
              (fun h => hNotExit (Or.inr h)) hNotCd hEquals
          rw [hPath] at hAgain
          cases hAgain
      · rw [if_pos hName] at hPath
        constructor
        · exact fun hLaw _ => ⟨hLaw.assignment.mp hPath, hName⟩
        · intro hBoth
          have hEquals := (hBoth rfl).1
          refine ⟨?_, ?_, iff_of_true hPath hEquals, ?_⟩
          · exact iff_of_false (by rw [hPath]; exact nofun)
              hNotExit
          · exact iff_of_false (by rw [hPath]; exact nofun)
              hNotCd
          · exact fun _ _ _ hNoEquals =>
              absurd hEquals hNoEquals

/-
  For every environment and every command, the verb is treated
  by its whole word exactly under the condition.
-/
theorem dispatches_iff
    (env : Environment) (s : SimpleCommand) :
    Dispatches env s ↔ NamesItsPath env s := by
  unfold NamesItsPath
  cases hExit : startsExit (getWord env s.verb) with
  | true =>
      rw [if_pos rfl]
      exact dispatches_exit_iff hExit
  | false =>
      rw [if_neg Bool.false_ne_true]
      cases hCd : startsCd (getWord env s.verb) with
      | true =>
          rw [if_pos rfl]
          exact dispatches_cd_iff hExit hCd
      | false =>
          rw [if_neg Bool.false_ne_true]
          exact dispatches_other_iff hExit hCd

end Law

/- The program `exitcode` is taken for the command `exit`. -/
theorem not_dispatches_always :
    ¬ ∀ (env : Environment) (s : SimpleCommand),
        Dispatches env s := by
  intro hAlways
  have hLaw :=
    hAlways (fun _ => none)
      (assignCommand (plainWord "exitcode".toList))
  have hWhole := hLaw.exit.mp (by decide)
  revert hWhole
  decide

end Shell

end ProgrammingTasks
