import ProgrammingTasks.Shell.RedirectLaw

/-
  The command `cd`, which the shell runs itself (`cmd.c`).

  It redirects its descriptors like any other command, and
  restores them afterwards from the copies in `io_fds`.  If a
  file was opened for every redirection, nothing is left; the
  other cases turn on the number that the local `fd` held.

  Main declarations:
    * `Calls`, `changeDirectory`
    * `restoreAll`, `runEntries`
    * `Saves`, `runEntries_restores`
-/

------------------------------------------------------------
-- The Command
------------------------------------------------------------

namespace ProgrammingTasks

namespace Shell

/-
  What the calls of the system return, and the undefined
  values, in the evaluation of a simple command.
-/
structure Calls where
  env : Path → Environment
  canOpen : Path → CanOpen
  fd : Path → Int
  ret : Path → Int
  chdir : Path → Bool
  setenv : Path → Bool
  status : Path → Int

/- `shell_cd`: what `chdir` returns. -/
def shellCd (changed : Bool) : Int :=
  if changed then 0 else -1

/- Restore a descriptor; die if its copy is not open. -/
def restoreDescriptor
    (ioFds : Nat → Int) (d : Nat)
    (p : Process SimpleCommand) :
    Option (Process SimpleCommand) :=
  if ioFds d ≠ -1 then
    (p.fds.dup2 (ioFds d) d).map
      (fun fds => { p with fds := fds.close (ioFds d) })
  else
    some p

/- Restore the three descriptors in their order. -/
def restoreAll
    (ioFds : Nat → Int) (p : Process SimpleCommand) :
    Option (Process SimpleCommand) :=
  [stdinFileno, stdoutFileno, stderrFileno].foldlM
    (fun p d => restoreDescriptor ioFds d p) p

/- The path of `cd` with parameters. -/
def changeDirectory
    (calls : Calls) (s : SimpleCommand) (path : Path)
    (p : Process SimpleCommand) :
    Outcome SimpleCommand :=
  let pending : Pending :=
    ⟨s.red.wordsI, s.red.wordsO, s.red.wordsE⟩
  match
    redirections (calls.canOpen path) (calls.env path) s.red
      (calls.fd path) (pending.size + 1) p with
  | none => none
  | some none => none
  | some (some st) =>
      (restoreAll st.ioFds st.process).map
        (fun p => (shellCd (calls.chdir path), p))

/- Redirect for the entries and restore the descriptors. -/
def runEntries
    (canOpen : CanOpen) (env : Environment)
    (entries : List Entry) (fd : Int)
    (p : Process SimpleCommand) :
    Option (Process SimpleCommand) :=
  (redirectAll canOpen env entries
    ⟨p, fd, fun _ => -1, []⟩).bind
      (fun st => restoreAll st.ioFds st.process)

/- The entries of a command. -/
def SimpleCommand.entries (s : SimpleCommand) : List Entry :=
  schedule s.red.redFlags
    ⟨s.red.wordsI, s.red.wordsO, s.red.wordsE⟩

theorem changeDirectory_eq
    (calls : Calls) (s : SimpleCommand) (path : Path)
    (p : Process SimpleCommand) :
    changeDirectory calls s path p =
      (runEntries (calls.canOpen path) (calls.env path) s.entries
        (calls.fd path) p).map
        (fun p => (shellCd (calls.chdir path), p)) := by
  have hEnds :=
    redirections_eq_schedule (calls.canOpen path)
      (calls.env path) s.red (calls.fd path) p
      (Nat.lt_succ_self _)
  unfold changeDirectory runEntries SimpleCommand.entries
  simp only [Pending.size, hEnds]
  cases redirectAll (calls.canOpen path) (calls.env path)
      (schedule s.red.redFlags
        ⟨s.red.wordsI, s.red.wordsO, s.red.wordsE⟩)
      ⟨p, calls.fd path, fun _ => -1, []⟩ with
  | none => rfl
  | some st => rfl

------------------------------------------------------------
-- Restoring What Was Saved
------------------------------------------------------------

/-
  From `low` on, a descriptor has its file from before or has
  been saved; the copies have numbers of their own that were
  free before.
-/
structure Saves
    (low : Nat) (before after : Int → Option OpenFile)
    (ioFds : Nat → Int) : Prop where
  kept :
    ∀ d : Nat, low ≤ d → d < 3 →
      ioFds d = -1 → after d = before d
  saved :
    ∀ d : Nat, low ≤ d → d < 3 →
      ioFds d ≠ -1 →
        3 ≤ ioFds d ∧
          before (ioFds d) = none ∧ after (ioFds d) = before d
  apart :
    ∀ d d' : Nat, low ≤ d → d < 3 → low ≤ d' → d' < 3 →
      d ≠ d' → ioFds d ≠ -1 → ioFds d ≠ ioFds d'
  others :
    ∀ n : Int,
      (∀ d : Nat, low ≤ d → d < 3 →
          n ≠ d ∧ (ioFds d ≠ -1 → n ≠ ioFds d)) →
        after n = before n

/- The descriptors from `low` on are open. -/
def OpenFrom
    (low : Nat) (file : Int → Option OpenFile) : Prop :=
  ∀ d : Nat, low ≤ d → d < 3 → file d ≠ none

namespace Saves

variable {low : Nat} {before after : Int → Option OpenFile}
variable {ioFds : Nat → Int}

protected theorem refl
    (low : Nat) (file : Int → Option OpenFile) :
    Saves low file file (fun _ => -1) :=
  ⟨fun _ _ _ _ => rfl, fun _ _ _ hSaved => absurd rfl hSaved,
    fun _ _ _ _ _ _ _ hSaved => absurd rfl hSaved,
    fun _ _ => rfl⟩

/- A saved descriptor may get any file. -/
theorem update
    (hSaves : Saves low before after ioFds)
    {d : Nat} (hLow : low ≤ d) (hDescriptor : d < 3)
    (hSaved : ioFds d ≠ -1)
    (f : Option OpenFile) :
    Saves low before (Function.update after d f) ioFds := by
  refine ⟨?_, ?_, hSaves.apart, ?_⟩
  · intro d' hLow' hDescriptor' hUnsaved
    have hOther : d' ≠ d := by
      rintro rfl
      exact hSaved hUnsaved
    rw [Function.update_of_ne (by omega)]
    exact hSaves.kept d' hLow' hDescriptor' hUnsaved
  · intro d' hLow' hDescriptor' hSaved'
    rcases hSaves.saved d' hLow' hDescriptor' hSaved' with
      ⟨hLarge, hFree, hCopy⟩
    refine ⟨hLarge, hFree, ?_⟩
    rw [Function.update_of_ne (by omega)]
    exact hCopy
  · intro n hOthers
    rw [Function.update_of_ne (hOthers d hLow hDescriptor).1]
    exact hSaves.others n hOthers

/- A free number is no copy. -/
theorem ne_copy
    (hSaves : Saves low before after ioFds)
    (hOpen : OpenFrom low before)
    {saved : Nat} (hFree : after saved = none)
    {d : Nat} (hLow : low ≤ d) (hDescriptor : d < 3) :
    (saved : Int) ≠ ioFds d := by
  intro hSame
  by_cases hUnsaved : ioFds d = -1
  · omega
  · have hCopy := (hSaves.saved d hLow hDescriptor hUnsaved).2.2
    rw [← hSame, hFree] at hCopy
    exact hOpen d hLow hDescriptor hCopy.symm

/- A descriptor is saved under a free number. -/
theorem save
    (hSaves : Saves low before after ioFds)
    (hOpen : OpenFrom low before)
    {d : Nat} (hLow : low ≤ d) (hDescriptor : d < 3)
    (hUnsaved : ioFds d = -1)
    {saved : Nat}
    (hLarge : 3 ≤ saved)
    (hFree : after saved = none) :
    Saves low before (Function.update after saved (after d))
      (Function.update ioFds d saved) := by
  have hNoCopy := fun d' hLow' hDescriptor' =>
    hSaves.ne_copy hOpen hFree (d := d') hLow' hDescriptor'
  have hBefore : before saved = none := by
    rw [← hFree]
    exact (hSaves.others saved
      (fun d' hLow' hDescriptor' =>
        ⟨by omega,
          fun _ => hNoCopy d' hLow' hDescriptor'⟩)).symm
  refine ⟨?_, ?_, ?_, ?_⟩
  · intro d' hLow' hDescriptor' hUnsaved'
    by_cases hSame : d' = d
    · rw [hSame, Function.update_self] at hUnsaved'
      omega
    · rw [Function.update_of_ne hSame] at hUnsaved'
      rw [Function.update_of_ne (by omega)]
      exact hSaves.kept d' hLow' hDescriptor' hUnsaved'
  · intro d' hLow' hDescriptor' hSaved
    by_cases hSame : d' = d
    · subst hSame
      rw [Function.update_self, Function.update_self]
      exact ⟨by omega, hBefore,
        hSaves.kept d' hLow' hDescriptor' hUnsaved⟩
    · rw [Function.update_of_ne hSame] at hSaved ⊢
      rcases hSaves.saved d' hLow' hDescriptor' hSaved with
        ⟨hLarge', hFree', hCopy⟩
      refine ⟨hLarge', hFree', ?_⟩
      rw [Function.update_of_ne
        (hNoCopy d' hLow' hDescriptor').symm]
      exact hCopy
  · intro d₁ d₂ hLow₁ hDescriptor₁ hLow₂ hDescriptor₂ hOther
      hSaved
    by_cases hFirst : d₁ = d
    · subst hFirst
      rw [Function.update_self, Function.update_of_ne hOther.symm]
      exact hNoCopy d₂ hLow₂ hDescriptor₂
    · rw [Function.update_of_ne hFirst] at hSaved ⊢
      by_cases hSecond : d₂ = d
      · subst hSecond
        rw [Function.update_self]
        exact (hNoCopy d₁ hLow₁ hDescriptor₁).symm
      · rw [Function.update_of_ne hSecond]
        exact hSaves.apart d₁ d₂ hLow₁ hDescriptor₁ hLow₂
          hDescriptor₂ hOther hSaved
  · intro n hOthers
    have hCopy := (hOthers d hLow hDescriptor).2
    rw [Function.update_self] at hCopy
    rw [Function.update_of_ne (hCopy (by omega))]
    apply hSaves.others n
    intro d' hLow' hDescriptor'
    refine ⟨(hOthers d' hLow' hDescriptor').1, ?_⟩
    by_cases hSame : d' = d
    · rw [hSame]
      exact fun hSaved => absurd hUnsaved hSaved
    · have hOther := (hOthers d' hLow' hDescriptor').2
      rw [Function.update_of_ne hSame] at hOther
      exact hOther

/- Restoring a saved descriptor takes its copy away. -/
theorem restore
    (hSaves : Saves low before after ioFds)
    {d : Nat} (hLow : low ≤ d) (hDescriptor : d < 3)
    (hSaved : ioFds d ≠ -1) :
    Saves low before
      (Function.update (Function.update after d (before d))
        (ioFds d) none)
      (Function.update ioFds d (-1)) := by
  rcases hSaves.saved d hLow hDescriptor hSaved with
    ⟨hLarge, hFree, _⟩
  have hUnsaves :
      ∀ {d' : Nat}, Function.update ioFds d (-1) d' ≠ -1 →
        d' ≠ d ∧ ioFds d' ≠ -1 := by
    intro d' hSaved'
    by_cases hSame : d' = d
    · rw [hSame, Function.update_self] at hSaved'
      exact absurd rfl hSaved'
    · rw [Function.update_of_ne hSame] at hSaved'
      exact ⟨hSame, hSaved'⟩
  refine ⟨?_, ?_, ?_, ?_⟩
  · intro d' hLow' hDescriptor' hUnsaved
    rw [Function.update_of_ne (by omega)]
    by_cases hSame : d' = d
    · rw [hSame, Function.update_self]
    · rw [Function.update_of_ne hSame] at hUnsaved
      rw [Function.update_of_ne (by omega)]
      exact hSaves.kept d' hLow' hDescriptor' hUnsaved
  · intro d' hLow' hDescriptor' hSaved'
    rcases hUnsaves hSaved' with ⟨hOther, hOld⟩
    rcases hSaves.saved d' hLow' hDescriptor' hOld with
      ⟨hLarge', hFree', hCopy⟩
    rw [Function.update_of_ne hOther]
    refine ⟨hLarge', hFree', ?_⟩
    rw [Function.update_of_ne
        (hSaves.apart d' d hLow' hDescriptor' hLow hDescriptor
          hOther hOld),
      Function.update_of_ne (by omega)]
    exact hCopy
  · intro d₁ d₂ hLow₁ hDescriptor₁ hLow₂ hDescriptor₂ hOther
      hSaved₁
    rcases hUnsaves hSaved₁ with ⟨hFirst, hOld⟩
    rw [Function.update_of_ne hFirst]
    by_cases hSecond : d₂ = d
    · rw [hSecond, Function.update_self]
      exact hOld
    · rw [Function.update_of_ne hSecond]
      exact hSaves.apart d₁ d₂ hLow₁ hDescriptor₁ hLow₂
        hDescriptor₂ hOther hOld
  · intro n hOthers
    by_cases hCopy : n = ioFds d
    · rw [hCopy, Function.update_self, hFree]
    · rw [Function.update_of_ne hCopy,
        Function.update_of_ne (hOthers d hLow hDescriptor).1]
      apply hSaves.others n
      intro d' hLow' hDescriptor'
      refine ⟨(hOthers d' hLow' hDescriptor').1, fun hOld => ?_⟩
      by_cases hSame : d' = d
      · rw [hSame]
        exact hCopy
      · have hOther := (hOthers d' hLow' hDescriptor').2
        rw [Function.update_of_ne hSame] at hOther
        exact hOther hOld

/- With nothing saved the table is as before. -/
theorem eq_of_unsaved
    (hSaves : Saves low before after ioFds)
    (hUnsaved : ∀ d : Nat, low ≤ d → d < 3 → ioFds d = -1) :
    after = before := by
  funext n
  by_cases hStandard : ∃ d : Nat, low ≤ d ∧ d < 3 ∧ n = d
  · rcases hStandard with ⟨d, hLow, hDescriptor, rfl⟩
    exact hSaves.kept d hLow hDescriptor
      (hUnsaved d hLow hDescriptor)
  · apply hSaves.others
    intro d hLow hDescriptor
    refine ⟨fun hSame =>
      hStandard ⟨d, hLow, hDescriptor, hSame⟩, ?_⟩
    exact fun hSaved =>
      absurd (hUnsaved d hLow hDescriptor) hSaved

end Saves

/- Restoring the descriptors of a list, from their copies. -/
theorem restoreAll_saves
    {low : Nat} {before : Int → Option OpenFile}
    {ioFds : Nat → Int}
    (hOpen : OpenFrom low before) :
    ∀ (ds : List Nat) (p : Process SimpleCommand)
      (left : Nat → Int),
      ds.Nodup →
      (∀ d ∈ ds, low ≤ d ∧ d < 3 ∧ left d = ioFds d) →
      Saves low before p.fds.file left →
        ∃ p',
          ds.foldlM (fun p d => restoreDescriptor ioFds d p) p =
              some p' ∧
            Saves low before p'.fds.file
              (fun d => if d ∈ ds then -1 else left d)
| [], p, left, _, _, hSaves => by
    exact ⟨p, rfl, by simpa using hSaves⟩
| d :: ds, p, left, hNodup, hLeft, hSaves => by
    rw [List.nodup_cons] at hNodup
    rcases hLeft d List.mem_cons_self with
      ⟨hLow, hDescriptor, hSame⟩
    have hRestored :
        ∃ p',
          restoreDescriptor ioFds d p = some p' ∧
            Saves low before p'.fds.file
              (Function.update left d (-1)) := by
      by_cases hSaved : left d = -1
      · refine ⟨p, ?_, ?_⟩
        · rw [restoreDescriptor, ← hSame, hSaved]
          rfl
        · rw [← hSaved, Function.update_eq_self]
          exact hSaves
      · have hRestore := hSaves.restore hLow hDescriptor hSaved
        have hCopy :=
          (hSaves.saved d hLow hDescriptor hSaved).2.2
        rcases Option.ne_none_iff_exists'.mp
            (hOpen d hLow hDescriptor) with ⟨f, hFile⟩
        rw [hFile] at hCopy hRestore
        refine
          ⟨{ p with fds := (p.fds.put d f).close (left d) },
            ?_, hRestore⟩
        rw [restoreDescriptor, ← hSame, if_pos hSaved,
          DescriptorTable.dup2_of_file hCopy]
        rfl
    rcases hRestored with ⟨p', hFirst, hSaves'⟩
    have hLeft' :
        ∀ d' ∈ ds,
          low ≤ d' ∧ d' < 3 ∧
            Function.update left d (-1) d' = ioFds d' := by
      intro d' hMem
      have hOther : d' ≠ d := by
        rintro rfl
        exact hNodup.1 hMem
      rw [Function.update_of_ne hOther]
      exact hLeft d' (List.mem_cons_of_mem _ hMem)
    rcases restoreAll_saves hOpen ds p' _ hNodup.2 hLeft'
        hSaves' with ⟨p'', hRest, hSaves''⟩
    refine ⟨p'', ?_, ?_⟩
    · rw [List.foldlM_cons, hFirst]
      exact hRest
    · have hEntry :
          (fun d' => if d' ∈ d :: ds then -1 else left d') =
            fun d' =>
              if d' ∈ ds then -1
              else Function.update left d (-1) d' := by
        funext d'
        by_cases hSame' : d' = d
        · simp [hSame']
        · simp [hSame']
      rw [hEntry]
      exact hSaves''

------------------------------------------------------------
-- Redirecting to Opened Files
------------------------------------------------------------

section Entries

variable {canOpen : CanOpen} {env : Environment}

/- A redirection to an opened file, unless it dies. -/
theorem redirectTo_moved
    {d : Nat} {request : Request} {st st' : Redirecting}
    (hDescriptor : st.process.fds.IsOpen d)
    (hOpens : request ≠ none)
    (hRedirect :
      redirectTo canOpen env d request st = some st') :
    ∃ f, Moved d f st st' := by
  rcases Option.ne_none_iff_exists'.mp hOpens with
    ⟨⟨w, mode⟩, rfl⟩
  rcases redirectTo_opened canOpen env w mode hDescriptor with
    ⟨st₁, hOpened, hMoved⟩
  rw [hOpened] at hRedirect
  split at hRedirect
  · cases hRedirect
    exact ⟨_, hMoved⟩
  · cases hRedirect

/- Opened files keep what is needed to restore. -/
theorem Moved.keeps_saves
    {low d : Nat} {f : OpenFile} {st st' : Redirecting}
    {before : Int → Option OpenFile}
    (hMoved : Moved d f st st')
    (hLow : low ≤ d) (hDescriptor : d < 3)
    (hOpen : OpenFrom low before)
    (hFree :
      ∀ n : Nat, st.process.fds.file n = none →
        n ≠ st.process.fds.lowestFree → 3 ≤ n)
    (hSaves : Saves low before st.process.fds.file st.ioFds) :
    Saves low before st'.process.fds.file st'.ioFds := by
  by_cases hUnsaved : st.ioFds d = -1
  · rcases hMoved.saves hUnsaved with
      ⟨saved, hNumber, hOther, hFile, hIoFds⟩
    have hCopy :=
      hSaves.save hOpen hLow hDescriptor hUnsaved
        (hFree saved hNumber hOther) hNumber
    rw [hFile, hIoFds]
    apply hCopy.update hLow hDescriptor
    rw [Function.update_self]
    omega
  · rcases hMoved.keeps hUnsaved with ⟨hFile, hIoFds⟩
    rw [hFile, hIoFds]
    exact hSaves.update hLow hDescriptor hUnsaved _

theorem redirectAll_saves
    {before : Int → Option OpenFile}
    (hOpen : OpenFrom 0 before) :
    ∀ (entries : List Entry) (st st' : Redirecting),
      (∀ x ∈ entries, x.1 < 3 ∧ x.2 ≠ none) →
      redirectAll canOpen env entries st = some st' →
      Standard st.process.fds →
      Saves 0 before st.process.fds.file st.ioFds →
        Saves 0 before st'.process.fds.file st'.ioFds
| [], st, st', _, hAll, _, hSaves => by
    cases hAll
    exact hSaves
| x :: entries, st, st', hEntries, hAll, hStandard, hSaves => by
    rcases hEntries x List.mem_cons_self with
      ⟨hDescriptor, hOpens⟩
    rw [redirectAll, List.foldlM_cons] at hAll
    rcases Option.bind_eq_some_iff.mp hAll with
      ⟨st₁, hFirst, hRest⟩
    rcases redirectTo_moved (hStandard x.1 hDescriptor) hOpens
        hFirst with ⟨f, hMoved⟩
    have hFree :
        ∀ n : Nat, st.process.fds.file n = none →
          n ≠ st.process.fds.lowestFree → 3 ≤ n := by
      intro n hNumber _
      by_contra hSmall
      exact hStandard n (by omega) hNumber
    exact redirectAll_saves hOpen entries st₁ st'
      (fun y hMem => hEntries y (List.mem_cons_of_mem x hMem))
      hRest (hMoved.keeps_standard hStandard)
      (hMoved.keeps_saves (Nat.zero_le _) hDescriptor hOpen
        hFree hSaves)

theorem mem_descriptors
    {d : Nat} (hDescriptor : d < 3) :
    d ∈ [stdinFileno, stdoutFileno, stderrFileno] := by
  simp only [stdinFileno, stdoutFileno, stderrFileno,
    List.mem_cons, List.not_mem_nil, or_false]
  omega

/- If every file is opened, the table is as before. -/
theorem runEntries_restores
    {entries : List Entry} {fd : Int}
    {p p' : Process SimpleCommand}
    (hEntries : ∀ x ∈ entries, x.1 < 3)
    (hOpens : AllOpen entries)
    (hStandard : Standard p.fds)
    (hRun : runEntries canOpen env entries fd p = some p') :
    p'.fds.file = p.fds.file := by
  have hOpen : OpenFrom 0 p.fds.file :=
    fun d _ hDescriptor => hStandard d hDescriptor
  rcases Option.bind_eq_some_iff.mp hRun with
    ⟨st, hAll, hRestore⟩
  have hSaves :=
    redirectAll_saves hOpen entries _ st
      (fun x hMem => ⟨hEntries x hMem, hOpens x hMem⟩) hAll
      hStandard (Saves.refl 0 p.fds.file)
  have hDescriptors :
      ∀ d ∈ [stdinFileno, stdoutFileno, stderrFileno], d < 3 := by
    decide
  rcases restoreAll_saves hOpen
      [stdinFileno, stdoutFileno, stderrFileno] st.process
      st.ioFds (by decide)
      (fun d hMem =>
        ⟨Nat.zero_le d, hDescriptors d hMem, rfl⟩) hSaves with
    ⟨p₁, hRestore', hSaves'⟩
  cases hRestore.symm.trans hRestore'
  apply hSaves'.eq_of_unsaved
  intro d _ hDescriptor
  exact if_pos (mem_descriptors hDescriptor)

end Entries

end Shell

end ProgrammingTasks
