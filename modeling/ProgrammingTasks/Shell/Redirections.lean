import ProgrammingTasks.Shell.Commands

/-
  The function `redirections` (`cmd.c`).

  Its loop takes a word of one of the three lists, or of two
  of them at once, opens the file, and installs it.  Each
  descriptor that is installed is recorded with the file that
  was opened for it in the same iteration, if any was: for
  some flags the loop opens none and installs the descriptor
  that the local `fd` holds from before.

  Main declarations:
    * `Redirecting`, `redirectTo`
    * `redirectOnce`, `redirections`
    * `schedule`
    * `redirections_eq_schedule`
-/

------------------------------------------------------------
-- The Loop
------------------------------------------------------------

namespace ProgrammingTasks

namespace Shell

/-
  Whether `open` succeeds, by the number of files opened so
  far, the name and the mode.
-/
abbrev CanOpen := Nat → Text → OpenMode → Bool

/- A call of `dup2` with what its iteration opened for it. -/
structure Install where
  descriptor : Nat
  opened : Option (Text × OpenMode)
deriving DecidableEq, Repr

/- The process and the local variables `fd` and `io_fds`. -/
structure Redirecting where
  process : Process SimpleCommand
  fd : Int
  ioFds : Nat → Int
  installs : List Install

/- A word and the mode in which its file is to be opened. -/
abbrev Request := Option (Word × OpenMode)

/- The file of a request. -/
def opens
    (env : Environment) (request : Request) :
    Option (Text × OpenMode) :=
  request.map (fun r => (getWord env r.1, r.2))

/- Open the file, and die if that fails. -/
def openTarget
    (canOpen : CanOpen) (file : Option (Text × OpenMode))
    (st : Redirecting) : Option Redirecting :=
  match file with
  | none => some st
  | some (name, mode) =>
      if canOpen st.process.opened name mode then
        let (fd, p) := st.process.openFile name mode
        some { st with fd := fd, process := p }
      else
        none

/- Save a descriptor in `io_fds` before it is redirected. -/
def saveDescriptor (d : Nat) (st : Redirecting) : Redirecting :=
  if st.ioFds d = -1 then
    let (saved, p) := st.process.dup d
    { st with
      process := p
      ioFds := Function.update st.ioFds d saved }
  else
    st

/- `dup2` and `close` of `fd`; die if it is not open. -/
def installFile
    (d : Nat) (file : Option (Text × OpenMode))
    (st : Redirecting) : Option Redirecting :=
  match st.process.fds.dup2 st.fd d with
  | none => none
  | some fds =>
      some
        { st with
          process := { st.process with fds := fds.close st.fd }
          installs := st.installs ++ [⟨d, file⟩] }

/- The common part of the branches of `redirections`. -/
def redirectTo
    (canOpen : CanOpen) (env : Environment)
    (d : Nat) (request : Request)
    (st : Redirecting) : Option Redirecting :=
  (openTarget canOpen (opens env request) st).bind
    (fun st =>
      installFile d (opens env request) (saveDescriptor d st))

/- The branch for standard output opens by these flags. -/
def outRequest (ioFlags : Nat) (w : Word) : Request :=
  if ioFlags = ioRegular then
    some (w, .trunc)
  else if ioFlags = ioOutAppend then
    some (w, .append)
  else
    none

/- The branch for standard error opens by these flags. -/
def errRequest (ioFlags : Nat) (w : Word) : Request :=
  if ioFlags = ioRegular then
    some (w, .trunc)
  else if ioFlags = ioErrAppend then
    some (w, .append)
  else
    none

/- The lists `s->in`, `s->out` and `s->err` that are left. -/
structure Pending where
  listI : List Word
  listO : List Word
  listE : List Word
deriving DecidableEq

/- `strcmp` of the first parts of two words. -/
def sameString (w w' : Word) : Prop :=
  w.first.string = w'.first.string

instance (w w' : Word) : Decidable (sameString w w') := by
  unfold sameString
  infer_instance

section Loop

variable (canOpen : CanOpen) (env : Environment)
variable (ioFlags : Nat)

/- One iteration. -/
def redirectOnce (s : Pending) (st : Redirecting) :
    Option (Pending × Redirecting) :=
  match s.listI, s.listO, s.listE with
  | w :: listI, _, _ =>
      (redirectTo canOpen env stdinFileno (some (w, .read)) st).map
        (fun st => ({ s with listI := listI }, st))
  | [], o :: listO, e :: listE =>
      if sameString o e then
        ((redirectTo canOpen env stdoutFileno
            (some (o, .append)) st).bind
          (redirectTo canOpen env stderrFileno
            (some (o, .trunc)))).map
          (fun st => ({ s with listO := listO, listE := listE }, st))
      else
        (redirectTo canOpen env stdoutFileno
            (outRequest ioFlags o) st).map
          (fun st => ({ s with listO := listO }, st))
  | [], o :: listO, [] =>
      (redirectTo canOpen env stdoutFileno
          (outRequest ioFlags o) st).map
        (fun st => ({ s with listO := listO }, st))
  | [], [], e :: listE =>
      (redirectTo canOpen env stderrFileno
          (errRequest ioFlags e) st).map
        (fun st => ({ s with listE := listE }, st))
  | [], [], [] => some (s, st)

/-
  The loop: nothing if the fuel is used up, and no state if
  the process has died.
-/
def redirectionsLoop :
    Nat → Pending → Redirecting → Option (Option Redirecting)
| 0, _, _ => none
| fuel + 1, s, st =>
    match redirectOnce canOpen env ioFlags s st with
    | none => some none
    | some (s, st) =>
        if s.listI = [] ∧ s.listO = [] ∧ s.listE = [] then
          some (some st)
        else
          redirectionsLoop fuel s st

end Loop

/- `redirections`; `fd` is the value of the local at first. -/
def redirections
    (canOpen : CanOpen) (env : Environment)
    (r : Redirect) (fd : Int) (fuel : Nat)
    (p : Process SimpleCommand) :
    Option (Option Redirecting) :=
  redirectionsLoop canOpen env r.redFlags fuel
    ⟨r.wordsI, r.wordsO, r.wordsE⟩ ⟨p, fd, fun _ => -1, []⟩

------------------------------------------------------------
-- The Order of the Redirections
------------------------------------------------------------

/- A descriptor and what is requested for it. -/
abbrev Entry := Nat × Request

/- The requests for output and error, in the loop's order. -/
def scheduleOE (ioFlags : Nat) :
    List Word → List Word → List Entry
| [], listE =>
    listE.map (fun e => (stderrFileno, errRequest ioFlags e))
| o :: listO, [] =>
    (stdoutFileno, outRequest ioFlags o) ::
      scheduleOE ioFlags listO []
| o :: listO, e :: listE =>
    if sameString o e then
      (stdoutFileno, some (o, .append)) ::
        (stderrFileno, some (o, .trunc)) ::
          scheduleOE ioFlags listO listE
    else
      (stdoutFileno, outRequest ioFlags o) ::
        scheduleOE ioFlags listO (e :: listE)

/- All requests in the loop's order. -/
def schedule (ioFlags : Nat) (s : Pending) : List Entry :=
  s.listI.map (fun w => (stdinFileno, some (w, .read))) ++
    scheduleOE ioFlags s.listO s.listE

/- The number of words that are left. -/
def Pending.size (s : Pending) : Nat :=
  s.listI.length + s.listO.length + s.listE.length

section Schedule

variable (canOpen : CanOpen) (env : Environment)
variable (ioFlags : Nat)

/- Redirect for each entry. -/
def redirectAll
    (entries : List Entry) (st : Redirecting) :
    Option Redirecting :=
  entries.foldlM
    (fun st x => redirectTo canOpen env x.1 x.2 st) st

/- An iteration takes the first entries of the schedule. -/
theorem redirectOnce_eq
    (s : Pending) (st : Redirecting)
    (hSome : s.size ≠ 0) :
    ∃ entries s',
      redirectOnce canOpen env ioFlags s st =
          (redirectAll canOpen env entries st).map
            (fun st => (s', st)) ∧
        schedule ioFlags s = entries ++ schedule ioFlags s' ∧
        s'.size < s.size := by
  rcases s with ⟨listI, listO, listE⟩
  cases listI with
  | cons w listI =>
      refine ⟨[(stdinFileno, some (w, .read))],
        ⟨listI, listO, listE⟩, ?_, rfl, ?_⟩
      · simp [redirectOnce, redirectAll]
      · simp [Pending.size]
  | nil =>
      cases listO with
      | nil =>
          cases listE with
          | nil => exact absurd rfl hSome
          | cons e listE =>
              refine ⟨[(stderrFileno, errRequest ioFlags e)],
                ⟨[], [], listE⟩, ?_, rfl, ?_⟩
              · simp [redirectOnce, redirectAll]
              · simp [Pending.size]
      | cons o listO =>
          cases listE with
          | nil =>
              refine ⟨[(stdoutFileno, outRequest ioFlags o)],
                ⟨[], listO, []⟩, ?_, rfl, ?_⟩
              · simp [redirectOnce, redirectAll]
              · simp [Pending.size]
          | cons e listE =>
              by_cases hSame : sameString o e
              · refine ⟨[(stdoutFileno, some (o, .append)),
                  (stderrFileno, some (o, .trunc))],
                  ⟨[], listO, listE⟩, ?_, ?_, ?_⟩
                · simp [redirectOnce, redirectAll, hSame]
                · simp [schedule, scheduleOE, hSame]
                · simp [Pending.size]
                  omega
              · refine ⟨[(stdoutFileno, outRequest ioFlags o)],
                  ⟨[], listO, e :: listE⟩, ?_, ?_, ?_⟩
                · simp [redirectOnce, redirectAll, hSame]
                · simp [schedule, scheduleOE, hSame]
                · simp [Pending.size]

/- With enough fuel the loop runs the schedule. -/
theorem redirectionsLoop_eq :
    ∀ (fuel : Nat) (s : Pending) (st : Redirecting),
      s.size < fuel →
        redirectionsLoop canOpen env ioFlags fuel s st =
          some (redirectAll canOpen env (schedule ioFlags s) st)
| 0, _, _, hFuel => by
    cases hFuel
| fuel + 1, s, st, hFuel => by
    by_cases hNone : s.size = 0
    · rcases s with ⟨listI, listO, listE⟩
      simp only [Pending.size, Nat.add_eq_zero_iff,
        List.length_eq_zero_iff] at hNone
      rcases hNone with ⟨⟨rfl, rfl⟩, rfl⟩
      rfl
    · rcases redirectOnce_eq canOpen env ioFlags s st hNone with
        ⟨entries, s', hOnce, hSchedule, hSize⟩
      have hRest := fun st' =>
        redirectionsLoop_eq fuel s' st' (by omega)
      rw [hSchedule, redirectAll, List.foldlM_append]
      simp only [redirectionsLoop, hOnce]
      cases hAll : redirectAll canOpen env entries st with
      | none =>
          rw [redirectAll] at hAll
          rw [hAll]
          rfl
      | some st' =>
          have hAll' := hAll
          rw [redirectAll] at hAll'
          rw [hAll']
          simp only [Option.map_some]
          split
          · rename_i hDone
            rcases s' with ⟨listI, listO, listE⟩
            rcases hDone with ⟨rfl, rfl, rfl⟩
            rfl
          · exact hRest st'

/- More fuel does not change what the loop ends with. -/
theorem redirectionsLoop_mono :
    ∀ {fuel fuel' : Nat} {s : Pending} {st : Redirecting}
      {result : Option Redirecting},
      fuel ≤ fuel' →
      redirectionsLoop canOpen env ioFlags fuel s st =
          some result →
        redirectionsLoop canOpen env ioFlags fuel' s st =
          some result
| 0, _, _, _, _, _, hLoop => by
    cases hLoop
| _ + 1, 0, _, _, _, hFuel, _ => by
    cases hFuel
| fuel + 1, fuel' + 1, s, st, result, hFuel, hLoop => by
    simp only [redirectionsLoop] at hLoop ⊢
    cases hOnce : redirectOnce canOpen env ioFlags s st with
    | none =>
        rw [hOnce] at hLoop
        exact hLoop
    | some next =>
        rw [hOnce] at hLoop
        rcases next with ⟨s', st'⟩
        simp only at hLoop ⊢
        split
        · rename_i hDone
          rw [if_pos hDone] at hLoop
          exact hLoop
        · rename_i hMore
          rw [if_neg hMore] at hLoop
          exact redirectionsLoop_mono
            (Nat.le_of_succ_le_succ hFuel) hLoop

end Schedule

/- `redirections` ends and has run its schedule. -/
theorem redirections_eq_schedule
    (canOpen : CanOpen) (env : Environment)
    (r : Redirect) (fd : Int)
    (p : Process SimpleCommand)
    {fuel : Nat}
    (hFuel :
      r.wordsI.length + r.wordsO.length + r.wordsE.length <
        fuel) :
    redirections canOpen env r fd fuel p =
      some
        (redirectAll canOpen env
          (schedule r.redFlags ⟨r.wordsI, r.wordsO, r.wordsE⟩)
          ⟨p, fd, fun _ => -1, []⟩) :=
  redirectionsLoop_eq canOpen env r.redFlags fuel _ _ hFuel

/- Whenever `redirections` ends, it has run its schedule. -/
theorem redirections_of_some
    {canOpen : CanOpen} {env : Environment}
    {r : Redirect} {fd : Int} {fuel : Nat}
    {p : Process SimpleCommand} {result : Option Redirecting}
    (hEnds :
      redirections canOpen env r fd fuel p = some result) :
    result =
      redirectAll canOpen env
        (schedule r.redFlags ⟨r.wordsI, r.wordsO, r.wordsE⟩)
        ⟨p, fd, fun _ => -1, []⟩ := by
  have hMore :=
    redirectionsLoop_mono canOpen env r.redFlags
      (Nat.le_add_right fuel
        (r.wordsI.length + r.wordsO.length +
          r.wordsE.length + 1)) hEnds
  have hSchedule :=
    redirections_eq_schedule canOpen env r fd p
      (show _ < fuel + (r.wordsI.length + r.wordsO.length +
        r.wordsE.length + 1) by omega)
  exact Option.some.inj (hMore.symm.trans hSchedule)

------------------------------------------------------------
-- The Effect of a Redirection
------------------------------------------------------------

/-
  A descriptor gets a file; its old file is saved under a free
  number, unless it has been saved before.
-/
structure Moved
    (d : Nat) (f : OpenFile) (st st' : Redirecting) : Prop where
  keeps :
    st.ioFds d ≠ -1 →
      st'.process.fds.file =
          Function.update st.process.fds.file d (some f) ∧
        st'.ioFds = st.ioFds
  saves :
    st.ioFds d = -1 →
      ∃ saved : Nat,
        st.process.fds.file saved = none ∧
          saved ≠ st.process.fds.lowestFree ∧
          st'.process.fds.file =
            Function.update
              (Function.update st.process.fds.file saved
                (st.process.fds.file d))
              d (some f) ∧
          st'.ioFds = Function.update st.ioFds d saved

/- The state after `open`. -/
def afterOpen
    (f : OpenFile) (st : Redirecting) : Redirecting :=
  { st with
    fd := st.process.fds.lowestFree
    process :=
      { st.process with
        fds := st.process.fds.put st.process.fds.lowestFree f
        opened := st.process.opened + 1 } }

/- The state after `dup` into `io_fds`. -/
def afterSave
    (d : Nat) (g : OpenFile) (st : Redirecting) : Redirecting :=
  { st with
    process :=
      { st.process with
        fds := st.process.fds.put st.process.fds.lowestFree g }
    ioFds :=
      Function.update st.ioFds d st.process.fds.lowestFree }

/- The state after `dup2` and `close`. -/
def afterInstall
    (d : Nat) (f : OpenFile)
    (file : Option (Text × OpenMode))
    (st : Redirecting) : Redirecting :=
  { st with
    process :=
      { st.process with
        fds := (st.process.fds.put d f).close st.fd }
    installs := st.installs ++ [⟨d, file⟩] }

theorem saveDescriptor_of_file
    {d : Nat} {g : OpenFile} {st : Redirecting}
    (hFile : st.process.fds.file d = some g)
    (hUnsaved : st.ioFds d = -1) :
    saveDescriptor d st = afterSave d g st := by
  simp [saveDescriptor, hUnsaved, Process.dup,
    DescriptorTable.dup_of_file hFile, DescriptorTable.allocate,
    afterSave]

theorem installFile_of_file
    {d : Nat} {f : OpenFile} {st : Redirecting}
    {file : Option (Text × OpenMode)}
    (hFile : st.process.fds.file st.fd = some f) :
    installFile d file st = some (afterInstall d f file st) := by
  simp only [installFile, DescriptorTable.dup2_of_file hFile,
    afterInstall]

/- Redirecting an open descriptor to a file that is opened. -/
theorem redirectTo_opened
    (canOpen : CanOpen) (env : Environment)
    {d : Nat} (w : Word) (mode : OpenMode)
    {st : Redirecting}
    (hOpen : st.process.fds.IsOpen d) :
    ∃ st',
      redirectTo canOpen env d (some (w, mode)) st =
          (if canOpen st.process.opened (getWord env w) mode then
            some st' else none) ∧
        Moved d ⟨st.process.opened, getWord env w, mode⟩ st st' := by
  obtain ⟨f, hf⟩ :
      ∃ f : OpenFile,
        f = ⟨st.process.opened, getWord env w, mode⟩ := ⟨_, rfl⟩
  have hRedirect :
      redirectTo canOpen env d (some (w, mode)) st =
        if canOpen st.process.opened (getWord env w) mode then
          installFile d (some (getWord env w, mode))
            (saveDescriptor d (afterOpen f st))
        else none := by
    simp only [redirectTo, opens, Option.map_some, openTarget]
    split
    · rw [hf]
      rfl
    · rfl
  have hNew : (afterOpen f st).process.fds.file
      (afterOpen f st).fd = some f :=
    Function.update_self ..
  have hApart := DescriptorTable.ne_lowestFree_of_isOpen hOpen
  rcases Option.ne_none_iff_exists'.mp hOpen with ⟨g, hFile⟩
  have hFile' : (afterOpen f st).process.fds.file d = some g := by
    rw [← hFile]
    exact Function.update_of_ne hApart ..
  rw [← hf, hRedirect]
  by_cases hUnsaved : st.ioFds d = -1
  · rw [saveDescriptor_of_file hFile' hUnsaved]
    have hNew' :
        (afterSave d g (afterOpen f st)).process.fds.file
          (afterSave d g (afterOpen f st)).fd = some f := by
      rw [← hNew]
      apply Function.update_of_ne
      apply DescriptorTable.ne_lowestFree_of_isOpen
      rw [DescriptorTable.IsOpen]
      exact ne_of_eq_of_ne hNew (Option.some_ne_none f)
    rw [installFile_of_file hNew']
    refine ⟨_, rfl, fun hOther => absurd hUnsaved hOther,
      fun _ => ?_⟩
    refine ⟨_, DescriptorTable.file_lowestFree_put _ f, ?_, ?_, rfl⟩
    · apply Ne.symm
      have hFirst : (afterOpen f st).process.fds.IsOpen
          st.process.fds.lowestFree := by
        rw [DescriptorTable.IsOpen]
        exact ne_of_eq_of_ne hNew (Option.some_ne_none f)
      have hSaved :=
        DescriptorTable.ne_lowestFree_of_isOpen hFirst
      exact fun hSame => hSaved (congrArg Int.ofNat hSame)
    rw [hFile]
    exact DescriptorTable.file_install_saved hOpen f g
  · have hSame :
        saveDescriptor d (afterOpen f st) = afterOpen f st := by
      unfold saveDescriptor
      exact if_neg hUnsaved
    rw [hSame, installFile_of_file hNew]
    exact ⟨_, rfl,
      fun _ => ⟨DescriptorTable.file_install hOpen f, rfl⟩,
      fun hOther => absurd hOther hUnsaved⟩

end Shell

end ProgrammingTasks
