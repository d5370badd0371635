import ProgrammingTasks.Shell.ChangeDirectory

/-
  `cd` with redirections for which no file is opened.

  Such a redirection installs the number that `fd` holds.  The
  number is closed after the first redirection, so that a
  later one fails, unless `dup` has just returned the number;
  then the copy is closed, and restoring from it fails.  What
  is left are the cases in which the first redirection meets
  the number that `fd` held by chance.

  Main declarations:
    * `Almost`, `redirectTo_almost`
    * `Settled`, `redirectTo_settled`
    * `runEntries_dies`, `runEntries_leaks`
    * `Harmless`, `restores_iff`
-/

------------------------------------------------------------
-- One Redirection
------------------------------------------------------------

namespace ProgrammingTasks

namespace Shell

section Step

variable {canOpen : CanOpen} {env : Environment}
variable {d : Nat} {request : Request} {st st' : Redirecting}

/- The parts of a redirection that survives. -/
theorem redirectTo_eq_some
    (hRedirect :
      redirectTo canOpen env d request st = some st') :
    ∃ st₁ f,
      openTarget canOpen (opens env request) st = some st₁ ∧
        (saveDescriptor d st₁).process.fds.file st₁.fd =
          some f ∧
        st'.process.fds =
          ((saveDescriptor d st₁).process.fds.put d f).close
            st₁.fd ∧
        st'.fd = st₁.fd ∧
        st'.ioFds = (saveDescriptor d st₁).ioFds := by
  rcases Option.bind_eq_some_iff.mp hRedirect with
    ⟨st₁, hOpen, hInstall⟩
  have hSame : (saveDescriptor d st₁).fd = st₁.fd := by
    unfold saveDescriptor
    split <;> rfl
  unfold installFile at hInstall
  rw [hSame] at hInstall
  cases hFile :
      (saveDescriptor d st₁).process.fds.file st₁.fd with
  | none => simp [DescriptorTable.dup2, hFile] at hInstall
  | some f =>
      rw [DescriptorTable.dup2_of_file hFile] at hInstall
      cases hInstall
      exact ⟨st₁, f, hOpen, hFile, rfl, rfl, rfl⟩

/- What saving a descriptor does. -/
theorem saveDescriptor_cases (d : Nat) (st : Redirecting) :
    (st.ioFds d ≠ -1 ∧ saveDescriptor d st = st) ∨
      (st.ioFds d = -1 ∧ st.process.fds.file d = none ∧
        (saveDescriptor d st).process = st.process ∧
        (saveDescriptor d st).ioFds = st.ioFds) ∨
      ∃ g,
        st.ioFds d = -1 ∧ st.process.fds.file d = some g ∧
          (saveDescriptor d st).process.fds =
            st.process.fds.put st.process.fds.lowestFree g ∧
          (saveDescriptor d st).ioFds =
            Function.update st.ioFds d
              st.process.fds.lowestFree := by
  by_cases hUnsaved : st.ioFds d = -1
  · refine Or.inr ?_
    cases hFile : st.process.fds.file d with
    | none =>
        refine Or.inl ⟨hUnsaved, rfl, ?_, ?_⟩
        · simp [saveDescriptor, hUnsaved, Process.dup,
            DescriptorTable.dup, hFile]
        · simp only [saveDescriptor, hUnsaved, if_true,
            Process.dup, DescriptorTable.dup, hFile]
          rw [← hUnsaved, Function.update_eq_self]
    | some g =>
        refine Or.inr ⟨g, hUnsaved, rfl, ?_⟩
        rw [saveDescriptor_of_file hFile hUnsaved]
        exact ⟨rfl, rfl⟩
  · refine Or.inl ⟨hUnsaved, ?_⟩
    unfold saveDescriptor
    exact if_neg hUnsaved

/- What opening the file does. -/
theorem openTarget_cases
    (hOpen :
      openTarget canOpen (opens env request) st = some st') :
    (request = none ∧ st' = st) ∨
      ∃ f,
        request ≠ none ∧
          st'.process.fds =
            st.process.fds.put st.process.fds.lowestFree f ∧
          st'.fd = st.process.fds.lowestFree ∧
          st'.ioFds = st.ioFds := by
  cases request with
  | none =>
      cases hOpen
      exact Or.inl ⟨rfl, rfl⟩
  | some r =>
      simp only [opens, Option.map_some, openTarget] at hOpen
      split at hOpen
      · cases hOpen
        exact Or.inr ⟨_, Option.some_ne_none r, rfl, rfl, rfl⟩
      · cases hOpen

/- The table after `dup2` and `close`. -/
theorem isOpen_installed
    {t : DescriptorTable OpenFile} {f : OpenFile} {n m : Int}
    (hOther : m ≠ n)
    (hOpen : m = d ∨ t.IsOpen m) :
    ((t.put d f).close n).IsOpen m := by
  rw [DescriptorTable.IsOpen, DescriptorTable.file_close,
    Function.update_of_ne hOther, DescriptorTable.file_put]
  by_cases hSame : m = d
  · rw [hSame, Function.update_self]
    exact Option.some_ne_none f
  · rw [Function.update_of_ne hSame]
    exact hOpen.resolve_left hSame

/- Saving a descriptor keeps what is open. -/
theorem isOpen_saved
    {d : Nat} {st : Redirecting} {n : Int}
    (hOpen : st.process.fds.IsOpen n) :
    (saveDescriptor d st).process.fds.IsOpen n := by
  rcases saveDescriptor_cases d st with
    ⟨_, hSame⟩ | ⟨_, _, hSame, _⟩ | ⟨g, _, _, hFds, _⟩
  · rw [hSame]
    exact hOpen
  · rw [hSame]
    exact hOpen
  · rw [hFds]
    exact hOpen.put _ g

/- Every standard descriptor is open, or its number is in `fd`. -/
def Almost (st : Redirecting) : Prop :=
  ∀ d : Nat, d < 3 →
    (d : Int) = st.fd ∨ st.process.fds.IsOpen d

theorem almost_of_standard
    (hStandard : Standard st.process.fds) :
    Almost st :=
  fun d hDescriptor => Or.inr (hStandard d hDescriptor)

/- After the file is opened all standard descriptors are open. -/
theorem standard_opened
    {f : OpenFile}
    (hAlmost : Almost st) :
    Standard (st.process.fds.put st.process.fds.lowestFree f) := by
  intro d hDescriptor
  by_cases hLowest : d = st.process.fds.lowestFree
  · rw [DescriptorTable.IsOpen, DescriptorTable.file_put,
      ← hLowest, Function.update_self]
    exact Option.some_ne_none f
  · by_cases hOpen : st.process.fds.IsOpen d
    · exact hOpen.put _ f
    · exfalso
      -- the lowest free number is below, and is also in `fd`
      have hBelow : st.process.fds.lowestFree < d := by
        by_contra hAbove
        exact hOpen (st.process.fds.isOpen_of_lt_lowestFree
          (by omega))
      have hFd := (hAlmost d hDescriptor).resolve_right hOpen
      rcases hAlmost st.process.fds.lowestFree (by omega) with
        hSame | hOther
      · omega
      · exact hOther st.process.fds.file_lowestFree

/- What an iteration leaves of the number in `fd`. -/
theorem redirectTo_almost
    (hAlmost : Almost st)
    (hDescriptor : d < 3)
    (hReady :
      st.process.fds.IsOpen d ∨
        st.process.fds.file st.fd = none)
    (hRedirect :
      redirectTo canOpen env d request st = some st') :
    Almost st' ∧ st'.process.fds.file st'.fd = none ∧
      st'.ioFds d ≠ -1 ∧
      ∀ d', st.ioFds d' ≠ -1 → st'.ioFds d' = st.ioFds d' := by
  rcases redirectTo_eq_some hRedirect with
    ⟨st₁, f, hOpen, hFile, hFds, hFd, hIoFds⟩
  have hOpened :
      Almost st₁ ∧ st₁.ioFds = st.ioFds ∧
        (st₁.process.fds.IsOpen d ∨
          st₁.process.fds.file st₁.fd = none) := by
    rcases openTarget_cases hOpen with
      ⟨_, rfl⟩ | ⟨g, _, hFds₁, hFd₁, hIoFds₁⟩
    · exact ⟨hAlmost, rfl, hReady⟩
    · have hStandard : Standard st₁.process.fds := by
        rw [hFds₁]
        exact standard_opened hAlmost
      exact ⟨almost_of_standard hStandard, hIoFds₁,
        Or.inl (hStandard d hDescriptor)⟩
  rcases hOpened with ⟨hAlmost₁, hIoFds₁, hReady₁⟩
  rw [hIoFds, ← hIoFds₁, hFds, hFd]
  refine ⟨?_, Function.update_self .., ?_⟩
  · intro d' hDescriptor'
    by_cases hSame : (d' : Int) = st₁.fd
    · rw [hFd]
      exact Or.inl hSame
    · refine Or.inr ?_
      rw [hFds]
      apply isOpen_installed hSame
      refine Or.inr (isOpen_saved ?_)
      exact (hAlmost₁ d' hDescriptor').resolve_left hSame
  · rcases saveDescriptor_cases d st₁ with
      ⟨hSaved, hSame⟩ | ⟨_, hNone, hSame, _⟩ |
        ⟨g, hUnsaved, _, _, hSave⟩
    · rw [hSame]
      exact ⟨hSaved, fun _ _ => rfl⟩
    · exfalso
      rcases hReady₁ with hIsOpen | hClosed
      · exact hIsOpen hNone
      · rw [hSame, hClosed] at hFile
        cases hFile
    · rw [hSave, Function.update_self]
      refine ⟨by omega, ?_⟩
      intro d' hSaved
      apply Function.update_of_ne
      rintro rfl
      exact hSaved hUnsaved

/- A second redirection without a file fails. -/
theorem redirectTo_stale
    (hClosed : st.process.fds.file st.fd = none)
    (hSaved : st.ioFds d ≠ -1) :
    redirectTo canOpen env d none st = none := by
  have hSame : saveDescriptor d st = st := by
    unfold saveDescriptor
    exact if_neg hSaved
  simp [redirectTo, opens, openTarget, installFile, hSame,
    DescriptorTable.dup2, hClosed]

end Step

------------------------------------------------------------
-- Redirections That Fail
------------------------------------------------------------

section Fails

variable {canOpen : CanOpen} {env : Environment}

/- All descriptors of the entries have been saved. -/
theorem redirectAll_saved :
    ∀ (entries : List Entry) (st st' : Redirecting),
      (∀ x ∈ entries, x.1 < 3) →
      redirectAll canOpen env entries st = some st' →
      Almost st →
      st.process.fds.file st.fd = none →
        st'.process.fds.file st'.fd = none ∧
          (∀ d, st.ioFds d ≠ -1 → st'.ioFds d ≠ -1) ∧
          ∀ x ∈ entries, st'.ioFds x.1 ≠ -1
| [], st, st', _, hAll, _, hClosed => by
    cases hAll
    exact ⟨hClosed, fun _ hSaved => hSaved,
      fun x hMem => by cases hMem⟩
| x :: entries, st, st', hEntries, hAll, hAlmost, hClosed => by
    rw [redirectAll, List.foldlM_cons] at hAll
    rcases Option.bind_eq_some_iff.mp hAll with
      ⟨st₁, hFirst, hRest⟩
    rcases redirectTo_almost hAlmost
        (hEntries x List.mem_cons_self) (Or.inr hClosed)
        hFirst with ⟨hAlmost₁, hClosed₁, hSaved, hKeeps⟩
    rcases redirectAll_saved entries st₁ st'
        (fun y hMem => hEntries y (List.mem_cons_of_mem x hMem))
        hRest hAlmost₁ hClosed₁ with
      ⟨hClosed', hKeeps', hSaved'⟩
    refine ⟨hClosed', ?_, ?_⟩
    · intro d hBefore
      apply hKeeps'
      rw [hKeeps d hBefore]
      exact hBefore
    · intro y hMem
      rcases List.mem_cons.mp hMem with rfl | hOther
      · exact hKeeps' y.1 hSaved
      · exact hSaved' y hOther

/- Without a file for a descriptor that was redirected. -/
theorem redirectAll_repeated
    {st : Redirecting} {x : Entry} {d : Nat}
    {middle rest : List Entry}
    (hEntries :
      ∀ y ∈ x :: middle ++ (d, none) :: rest, y.1 < 3)
    (hStandard : Standard st.process.fds)
    (hMem : d ∈ (x :: middle).map Prod.fst) :
    redirectAll canOpen env (x :: middle ++ (d, none) :: rest)
      st = none := by
  cases hAll : redirectAll canOpen env
      (x :: middle ++ (d, none) :: rest) st with
  | none => rfl
  | some st' =>
      exfalso
      rw [redirectAll, List.foldlM_append, List.foldlM_cons]
        at hAll
      rcases Option.bind_eq_some_iff.mp hAll with
        ⟨st₂, hBefore, hAfter⟩
      rcases Option.bind_eq_some_iff.mp hBefore with
        ⟨st₁, hFirst, hMiddle⟩
      have hDescriptor := hEntries x List.mem_cons_self
      rcases redirectTo_almost (almost_of_standard hStandard)
          hDescriptor (Or.inl (hStandard x.1 hDescriptor))
          hFirst with ⟨hAlmost₁, hClosed₁, hSaved, _⟩
      rcases redirectAll_saved middle st₁ st₂
          (fun y hMem' => hEntries y (by simp [hMem']))
          hMiddle hAlmost₁ hClosed₁ with
        ⟨hClosed₂, hKeeps₂, hSaved₂⟩
      have hSavedBefore : st₂.ioFds d ≠ -1 := by
        rcases List.mem_cons.mp hMem with rfl | hOther
        · exact hKeeps₂ x.1 hSaved
        · rcases List.mem_map.mp hOther with ⟨y, hY, rfl⟩
          exact hSaved₂ y hY
      rw [List.foldlM_cons] at hAfter
      rcases Option.bind_eq_some_iff.mp hAfter with
        ⟨st₃, hStale, _⟩
      rw [redirectTo_stale hClosed₂ hSavedBefore] at hStale
      cases hStale

/- The number in `fd` is the lowest free one, and no standard. -/
structure Settled (st : Redirecting) : Prop where
  fd : st.fd = st.process.fds.lowestFree
  large : 3 ≤ st.process.fds.lowestFree

theorem settled_installed
    {d n : Nat} {f : OpenFile} {st₁ st' : Redirecting}
    (hLarge : 3 ≤ n)
    (hFd₁ : st₁.fd = n)
    (hOpen : ∀ m : Nat, m < n → st₁.process.fds.IsOpen m)
    (hFds :
      st'.process.fds =
        ((saveDescriptor d st₁).process.fds.put d f).close
          st₁.fd)
    (hFd : st'.fd = st₁.fd) :
    Settled st' ∧ st'.fd = n := by
  have hLowest : st'.process.fds.lowestFree = n := by
    rw [hFds, hFd₁]
    apply DescriptorTable.lowestFree_close
    intro m hLess
    exact (isOpen_saved (hOpen m hLess)).put d f
  rw [hFd₁] at hFd
  refine ⟨⟨?_, ?_⟩, hFd⟩
  · rw [hFd, hLowest]
  · rw [hLowest]
    exact hLarge

/- After a file has been opened, with all descriptors open. -/
theorem redirectTo_settles
    {d : Nat} {request : Request} {st st' : Redirecting}
    (hStandard : Standard st.process.fds)
    (hOpens : request ≠ none)
    (hRedirect :
      redirectTo canOpen env d request st = some st') :
    Settled st' := by
  rcases redirectTo_eq_some hRedirect with
    ⟨st₁, f, hOpen, _, hFds, hFd, _⟩
  rcases openTarget_cases hOpen with
    ⟨hNone, _⟩ | ⟨g, _, hFds₁, hFd₁, _⟩
  · exact absurd hNone hOpens
  · refine (settled_installed hStandard.le_lowestFree
      hFd₁ ?_ hFds hFd).1
    intro m hLess
    rw [hFds₁]
    exact (st.process.fds.isOpen_of_lt_lowestFree hLess).put _ g

/- From then on the number in `fd` stays. -/
theorem redirectTo_settled
    {d : Nat} {request : Request} {st st' : Redirecting}
    (hSettled : Settled st)
    (hDescriptor : d < 3)
    (hRedirect :
      redirectTo canOpen env d request st = some st') :
    Settled st' ∧ st'.fd = st.fd ∧
      (request = none → st'.ioFds d = st.fd) ∧
      ∀ d', st.ioFds d' = st.fd → st'.ioFds d' = st.fd := by
  have hBelow : ∀ m : Nat, m < st.process.fds.lowestFree →
      st.process.fds.IsOpen m :=
    fun m hLess => st.process.fds.isOpen_of_lt_lowestFree hLess
  have hStandard : Standard st.process.fds := by
    intro d' hDescriptor'
    have hLarge := hSettled.large
    exact hBelow d' (by omega)
  have hKeeps :=
    (redirectTo_almost (almost_of_standard hStandard)
      hDescriptor (Or.inl (hStandard d hDescriptor))
      hRedirect).2.2.2
  rcases redirectTo_eq_some hRedirect with
    ⟨st₁, f, hOpen, hFile, hFds, hFd, hIoFds⟩
  have hCopies :
      ∀ d', st.ioFds d' = st.fd → st'.ioFds d' = st.fd := by
    intro d' hCopy
    rw [hKeeps d' (by rw [hCopy, hSettled.fd]; omega)]
    exact hCopy
  rcases openTarget_cases hOpen with
    ⟨hNone, rfl⟩ | ⟨g, hOpens, hFds₁, hFd₁, _⟩
  · have hInstalled := settled_installed hSettled.large
      hSettled.fd hBelow hFds hFd
    refine ⟨hInstalled.1, hFd, fun _ => ?_, hCopies⟩
    have hClosed : st₁.process.fds.file st₁.fd = none := by
      rw [hSettled.fd]
      exact st₁.process.fds.file_lowestFree
    rcases saveDescriptor_cases d st₁ with
      ⟨_, hSame⟩ | ⟨_, _, hSame, _⟩ | ⟨g, _, _, _, hSave⟩
    · rw [hSame, hClosed] at hFile
      cases hFile
    · rw [hSame, hClosed] at hFile
      cases hFile
    · rw [hIoFds, hSave, Function.update_self, hSettled.fd]
  · have hInstalled := settled_installed hSettled.large
      hFd₁ (by
        intro m hLess
        rw [hFds₁]
        exact (hBelow m hLess).put _ g) hFds hFd
    refine ⟨hInstalled.1, ?_, fun hNone => absurd hNone hOpens,
      hCopies⟩
    rw [hInstalled.2, hSettled.fd]

/- A copy whose number is closed. -/
def Doomed (st : Redirecting) : Prop :=
  Settled st ∧ ∃ d : Nat, d < 3 ∧ st.ioFds d = st.fd

theorem redirectAll_settled :
    ∀ (entries : List Entry) (st st' : Redirecting),
      (∀ x ∈ entries, x.1 < 3) →
      redirectAll canOpen env entries st = some st' →
      Settled st →
        Settled st' ∧
          (Doomed st ∨ ¬ AllOpen entries → Doomed st')
| [], st, st', _, hAll, hSettled => by
    cases hAll
    refine ⟨hSettled, ?_⟩
    rintro (hDoomed | hNone)
    · exact hDoomed
    · exact absurd (fun x hMem => by cases hMem) hNone
| x :: entries, st, st', hEntries, hAll, hSettled => by
    rw [redirectAll, List.foldlM_cons] at hAll
    rcases Option.bind_eq_some_iff.mp hAll with
      ⟨st₁, hFirst, hRest⟩
    have hDescriptor := hEntries x List.mem_cons_self
    rcases redirectTo_settled hSettled hDescriptor hFirst with
      ⟨hSettled₁, hFd, hStale, hCopies⟩
    rcases redirectAll_settled entries st₁ st'
        (fun y hMem => hEntries y (List.mem_cons_of_mem x hMem))
        hRest hSettled₁ with ⟨hSettled', hDoomed'⟩
    refine ⟨hSettled', ?_⟩
    rintro (⟨_, d, hDescriptor', hCopy⟩ | hNone)
    · apply hDoomed'
      refine Or.inl ⟨hSettled₁, d, hDescriptor', ?_⟩
      rw [hFd]
      exact hCopies d hCopy
    · apply hDoomed'
      by_cases hOpens : x.2 = none
      · refine Or.inl ⟨hSettled₁, x.1, hDescriptor, ?_⟩
        rw [hFd]
        exact hStale hOpens
      · refine Or.inr fun hRestOpens => hNone ?_
        exact (allOpen_cons x.1 x.2 entries).mpr
          ⟨hOpens, hRestOpens⟩

/- Restoring keeps a number closed that is no standard. -/
theorem restoreDescriptor_closed
    {ioFds : Nat → Int} {d : Nat} {n : Int}
    {p p' : Process SimpleCommand}
    (hOther : n ≠ d)
    (hClosed : p.fds.file n = none)
    (hRestore : restoreDescriptor ioFds d p = some p') :
    p'.fds.file n = none := by
  unfold restoreDescriptor at hRestore
  split at hRestore
  · rcases Option.map_eq_some_iff.mp hRestore with
      ⟨fds, hDup, rfl⟩
    rw [DescriptorTable.dup2] at hDup
    split at hDup
    · cases hDup
    · cases hDup
      rw [DescriptorTable.file_close]
      by_cases hCopy : n = ioFds d
      · rw [hCopy, Function.update_self]
      · rw [Function.update_of_ne hCopy,
          DescriptorTable.file_put, Function.update_of_ne hOther]
        exact hClosed
  · cases hRestore
    exact hClosed

/- Restoring from a copy that is closed fails. -/
theorem restore_closed
    {ioFds : Nat → Int} {d : Nat} {n : Int}
    (hLarge : 3 ≤ n)
    (hCopy : ioFds d = n) :
    ∀ (ds : List Nat) (p : Process SimpleCommand),
      d ∈ ds →
      (∀ d' ∈ ds, d' < 3) →
      p.fds.file n = none →
        ds.foldlM (fun p d => restoreDescriptor ioFds d p) p =
          none
| [], _, hMem, _, _ => by
    cases hMem
| d' :: ds, p, hMem, hSmall, hClosed => by
    rw [List.foldlM_cons]
    by_cases hSame : d = d'
    · subst hSame
      have hSaved : ioFds d ≠ -1 := by omega
      rw [restoreDescriptor, if_pos hSaved, hCopy,
        DescriptorTable.dup2, hClosed]
      rfl
    · have hDescriptor := hSmall d' List.mem_cons_self
      cases hFirst : restoreDescriptor ioFds d' p with
      | none => rfl
      | some p' =>
          exact restore_closed hLarge hCopy ds p'
            ((List.mem_cons.mp hMem).resolve_left hSame)
            (fun d'' hMem' =>
              hSmall d'' (List.mem_cons_of_mem d' hMem'))
            (restoreDescriptor_closed (by omega) hClosed hFirst)

/- Some file is not opened, but the first one is. -/
theorem runEntries_dies
    {x : Entry} {rest : List Entry} {fd : Int}
    {p : Process SimpleCommand}
    (hEntries : ∀ y ∈ x :: rest, y.1 < 3)
    (hStandard : Standard p.fds)
    (hOpens : x.2 ≠ none)
    (hNone : ¬ AllOpen rest) :
    runEntries canOpen env (x :: rest) fd p = none := by
  cases hAll : redirectAll canOpen env (x :: rest)
      ⟨p, fd, fun _ => -1, []⟩ with
  | none =>
      rw [runEntries, hAll]
      rfl
  | some st' =>
      rw [runEntries, hAll, Option.bind_some]
      rw [redirectAll, List.foldlM_cons] at hAll
      rcases Option.bind_eq_some_iff.mp hAll with
        ⟨st₁, hFirst, hRest⟩
      have hSettled := redirectTo_settles hStandard hOpens hFirst
      rcases (redirectAll_settled rest st₁ st'
          (fun y hMem => hEntries y (List.mem_cons_of_mem x hMem))
          hRest hSettled).2 (Or.inr hNone) with
        ⟨hSettled', d, hDescriptor, hCopy⟩
      have hClosed : st'.process.fds.file st'.fd = none := by
        rw [hSettled'.fd]
        exact st'.process.fds.file_lowestFree
      have hLarge : 3 ≤ st'.fd := by
        have hLowest := hSettled'.large
        rw [hSettled'.fd]
        omega
      exact restore_closed hLarge hCopy _ st'.process
        (mem_descriptors hDescriptor) (by decide) hClosed

end Fails

------------------------------------------------------------
-- Redirections That Leave a Descriptor Closed
------------------------------------------------------------

section Leaks

variable {canOpen : CanOpen} {env : Environment}

/- Of the standard descriptors only 0 is closed, and not saved. -/
structure Leaking (st : Redirecting) : Prop where
  closed : st.process.fds.file 0 = none
  others : OpenFrom 1 st.process.fds.file
  unsaved : st.ioFds 0 = -1

theorem Leaking.lowestFree
    {st : Redirecting}
    (hLeaking : Leaking st) :
    st.process.fds.lowestFree = 0 := by
  rw [DescriptorTable.lowestFree_eq_iff]
  refine ⟨hLeaking.closed, ?_⟩
  intro m hLess
  omega

theorem Moved.leaking
    {d : Nat} {f : OpenFile} {st st' : Redirecting}
    (hMoved : Moved d f st st')
    (hLow : 1 ≤ d)
    (hLeaking : Leaking st) :
    Leaking st' := by
  have hLowest := hLeaking.lowestFree
  by_cases hUnsaved : st.ioFds d = -1
  · rcases hMoved.saves hUnsaved with
      ⟨saved, hFree, hOther, hFile, hIoFds⟩
    refine ⟨?_, ?_, ?_⟩
    · rw [hFile, Function.update_of_ne (by omega),
        Function.update_of_ne (by omega)]
      exact hLeaking.closed
    · intro d' hLow' hDescriptor'
      have hOpen := hLeaking.others d' hLow' hDescriptor'
      have hSaved : (d' : Int) ≠ saved := by
        intro hSame
        rw [hSame] at hOpen
        exact hOpen hFree
      rw [hFile]
      by_cases hSame : (d' : Int) = d
      · rw [hSame, Function.update_self]
        exact Option.some_ne_none f
      · rw [Function.update_of_ne hSame,
          Function.update_of_ne hSaved]
        exact hOpen
    · rw [hIoFds, Function.update_of_ne (by omega)]
      exact hLeaking.unsaved
  · rcases hMoved.keeps hUnsaved with ⟨hFile, hIoFds⟩
    refine ⟨?_, ?_, ?_⟩
    · rw [hFile, Function.update_of_ne (by omega)]
      exact hLeaking.closed
    · intro d' hLow' hDescriptor'
      rw [hFile]
      by_cases hSame : (d' : Int) = d
      · rw [hSame, Function.update_self]
        exact Option.some_ne_none f
      · rw [Function.update_of_ne hSame]
        exact hLeaking.others d' hLow' hDescriptor'
    · rw [hIoFds]
      exact hLeaking.unsaved

theorem redirectAll_leaks
    {before : Int → Option OpenFile}
    (hOpen : OpenFrom 1 before)
    (hCanOpen : ∀ n name mode, canOpen n name mode = true) :
    ∀ (entries : List Entry) (st : Redirecting),
      (∀ x ∈ entries, 1 ≤ x.1 ∧ x.1 < 3 ∧ x.2 ≠ none) →
      Leaking st →
      Saves 1 before st.process.fds.file st.ioFds →
        ∃ st',
          redirectAll canOpen env entries st = some st' ∧
            Leaking st' ∧
            Saves 1 before st'.process.fds.file st'.ioFds
| [], st, _, hLeaking, hSaves => by
    exact ⟨st, rfl, hLeaking, hSaves⟩
| (d, request) :: entries, st, hEntries, hLeaking, hSaves => by
    rcases hEntries (d, request) List.mem_cons_self with
      ⟨hLow, hDescriptor, hOpens⟩
    rcases Option.ne_none_iff_exists'.mp hOpens with
      ⟨⟨w, mode⟩, hRequest⟩
    simp only at hLow hDescriptor hRequest
    subst hRequest
    rcases redirectTo_opened canOpen env w mode
        (hLeaking.others d hLow hDescriptor) with
      ⟨st₁, hFirst, hMoved⟩
    rw [if_pos (hCanOpen ..)] at hFirst
    have hFree :
        ∀ n : Nat, st.process.fds.file n = none →
          n ≠ st.process.fds.lowestFree → 3 ≤ n := by
      intro n hNumber hOther
      rw [hLeaking.lowestFree] at hOther
      by_contra hSmall
      exact hLeaking.others n (by omega) (by omega) hNumber
    rcases redirectAll_leaks hOpen hCanOpen entries st₁
        (fun y hMem => hEntries y (List.mem_cons_of_mem _ hMem))
        (hMoved.leaking hLow hLeaking)
        (hMoved.keeps_saves hLow hDescriptor hOpen hFree
          hSaves) with
      ⟨st', hRest, hLeaking', hSaves'⟩
    refine ⟨st', ?_, hLeaking', hSaves'⟩
    rw [redirectAll, List.foldlM_cons, hFirst]
    exact hRest

/- The open files without that of 0. -/
def withoutStdin
    (file : Int → Option OpenFile) : Int → Option OpenFile :=
  Function.update file 0 none

theorem openFrom_withoutStdin
    {t : DescriptorTable OpenFile}
    (hStandard : Standard t) :
    OpenFrom 1 (withoutStdin t.file) := by
  intro d hLow hDescriptor
  rw [withoutStdin, Function.update_of_ne (by omega)]
  exact hStandard d hDescriptor

/- A redirection that opens no file uses what `fd` holds. -/
theorem redirectTo_none
    {d : Nat} {f g : OpenFile} {st : Redirecting}
    (hFile : st.process.fds.file d = some g)
    (hUnsaved : st.ioFds d = -1)
    (hHeld :
      (afterSave d g st).process.fds.file (afterSave d g st).fd =
        some f) :
    redirectTo canOpen env d none st =
      some (afterInstall d f none (afterSave d g st)) := by
  rw [redirectTo]
  simp only [opens, Option.map_none, openTarget,
    Option.bind_some]
  rw [saveDescriptor_of_file hFile hUnsaved]
  exact installFile_of_file hHeld

/- The first redirection takes the file of 0, and closes 0. -/
theorem redirectTo_leaks
    {p : Process SimpleCommand}
    (hStandard : Standard p.fds)
    {d : Nat} (hLow : 1 ≤ d) (hDescriptor : d < 3) :
    ∃ st,
      redirectTo canOpen env d none ⟨p, 0, fun _ => -1, []⟩ =
          some st ∧
        Leaking st ∧
        Saves 1 (withoutStdin p.fds.file) st.process.fds.file
          st.ioFds := by
  obtain ⟨st₀, hSt₀⟩ :
      ∃ st₀ : Redirecting, st₀ = ⟨p, 0, fun _ => -1, []⟩ :=
    ⟨_, rfl⟩
  have hFds : st₀.process.fds = p.fds := by rw [hSt₀]
  have hFd : st₀.fd = 0 := by rw [hSt₀]
  have hIoFds : st₀.ioFds = fun _ => -1 := by rw [hSt₀]
  have hLarge := hStandard.le_lowestFree
  have hFree := p.fds.file_lowestFree
  obtain ⟨saved, hSaved⟩ : ∃ saved, saved = p.fds.lowestFree :=
    ⟨_, rfl⟩
  rw [← hSaved] at hLarge hFree
  rcases Option.ne_none_iff_exists'.mp
      (hStandard d hDescriptor) with ⟨g, hFile⟩
  rcases Option.ne_none_iff_exists'.mp
      (hStandard 0 (by omega)) with ⟨f, hStdin⟩
  have hStdin' :
      (afterSave d g st₀).process.fds.file
        (afterSave d g st₀).fd = some f := by
    rw [afterSave, hFds, ← hSaved, hFd, DescriptorTable.file_put,
      Function.update_of_ne (by omega)]
    exact hStdin
  have hTable :
      (afterInstall d f none (afterSave d g st₀)).process.fds.file =
        Function.update
          (Function.update (withoutStdin p.fds.file) saved
            (withoutStdin p.fds.file d)) d (some f) := by
    have hSelf : withoutStdin p.fds.file d = some g := by
      rw [withoutStdin, Function.update_of_ne (by omega)]
      exact hFile
    simp only [afterInstall, afterSave, hFds, hFd, ← hSaved,
      DescriptorTable.file_close, DescriptorTable.file_put]
    rw [hSelf, withoutStdin,
      Function.update_comm (show (d : Int) ≠ 0 by omega),
      Function.update_comm (show (saved : Int) ≠ 0 by omega)]
  have hCopies :
      (afterInstall d f none (afterSave d g st₀)).ioFds =
        Function.update (fun _ => -1) d saved := by
    simp only [afterInstall, afterSave, hFds, hIoFds, hSaved]
  refine ⟨afterInstall d f none (afterSave d g st₀), ?_, ?_, ?_⟩
  · rw [← hSt₀]
    exact redirectTo_none (by rw [hFds]; exact hFile)
      (by rw [hIoFds]) hStdin'
  · refine ⟨?_, ?_, ?_⟩
    · rw [hTable, Function.update_of_ne (by omega),
        Function.update_of_ne (by omega)]
      rfl
    · intro d' hLow' hDescriptor'
      rw [hTable]
      by_cases hSame : (d' : Int) = d
      · rw [hSame, Function.update_self]
        exact Option.some_ne_none f
      · rw [Function.update_of_ne hSame,
          Function.update_of_ne (by omega)]
        exact openFrom_withoutStdin hStandard d' hLow' hDescriptor'
    · rw [hCopies, Function.update_of_ne (by omega)]
  · rw [hTable, hCopies]
    apply ((Saves.refl 1 (withoutStdin p.fds.file)).save
      (openFrom_withoutStdin hStandard) hLow hDescriptor rfl
      hLarge ?_).update hLow hDescriptor
    · rw [Function.update_self]
      omega
    · rw [withoutStdin, Function.update_of_ne (by omega)]
      exact hFree

/- Only the first file is not opened: 0 stays closed. -/
theorem runEntries_leaks
    (hCanOpen : ∀ n name mode, canOpen n name mode = true)
    {p : Process SimpleCommand}
    (hStandard : Standard p.fds)
    {d : Nat} {rest : List Entry}
    (hEntries :
      ∀ x ∈ (d, none) :: rest, 1 ≤ x.1 ∧ x.1 < 3)
    (hOpens : AllOpen rest) :
    ∃ p',
      runEntries canOpen env ((d, none) :: rest) 0 p =
          some p' ∧
        p'.fds.file = withoutStdin p.fds.file := by
  rcases hEntries (d, none) List.mem_cons_self with
    ⟨hLow, hDescriptor⟩
  rcases redirectTo_leaks hStandard hLow hDescriptor with
    ⟨st₁, hFirst, hLeaking₁, hSaves₁⟩
  have hOpen := openFrom_withoutStdin hStandard
  rcases redirectAll_leaks hOpen
      hCanOpen rest st₁
      (fun x hMem =>
        have hDescriptors :=
          hEntries x (List.mem_cons_of_mem _ hMem)
        ⟨hDescriptors.1, hDescriptors.2, hOpens x hMem⟩)
      hLeaking₁ hSaves₁ with ⟨st, hRest, hLeaking, hSaves⟩
  have hDescriptors :
      ∀ d ∈ [stdoutFileno, stderrFileno], 1 ≤ d ∧ d < 3 := by
    decide
  rcases restoreAll_saves
      hOpen [stdoutFileno, stderrFileno]
      st.process st.ioFds (by decide)
      (fun d hMem =>
        ⟨(hDescriptors d hMem).1, (hDescriptors d hMem).2, rfl⟩)
      hSaves with ⟨p', hRestore, hSaves'⟩
  refine ⟨p', ?_, ?_⟩
  · have hAll :
        redirectAll canOpen env ((d, none) :: rest)
          ⟨p, 0, fun _ => -1, []⟩ = some st := by
      rw [redirectAll, List.foldlM_cons, hFirst]
      exact hRest
    have hSkip :
        restoreDescriptor st.ioFds stdinFileno st.process =
          some st.process :=
      if_neg (not_not.mpr hLeaking.unsaved)
    rw [runEntries, hAll, Option.bind_some, restoreAll,
      List.foldlM_cons, hSkip]
    exact hRestore
  · apply hSaves'.eq_of_unsaved
    intro d' hLow' hDescriptor'
    have hMem : d' ∈ [stdoutFileno, stderrFileno] := by
      simp only [stdoutFileno, stderrFileno, List.mem_cons,
        List.not_mem_nil, or_false]
      omega
    exact if_pos hMem

/- Restoring a descriptor whose copy is open. -/
theorem restoreDescriptor_of_file
    {ioFds : Nat → Int} {d : Nat} {f : OpenFile}
    {p : Process SimpleCommand}
    (hSaved : ioFds d ≠ -1)
    (hCopy : p.fds.file (ioFds d) = some f) :
    restoreDescriptor ioFds d p =
      some { p with fds := (p.fds.put d f).close (ioFds d) } := by
  rw [restoreDescriptor, if_pos hSaved,
    DescriptorTable.dup2_of_file hCopy]
  rfl

/-
  Neither of two files is opened, and `fd` holds 1: the copy of
  standard error is 1, which is closed again.
-/
theorem redirectAll_pair
    {p : Process SimpleCommand}
    (hStandard : Standard p.fds)
    {f₁ f₂ : OpenFile}
    (hStdout : p.fds.file 1 = some f₁)
    (hStderr : p.fds.file 2 = some f₂) :
    ∃ st,
      redirectAll canOpen env
          [(stdoutFileno, none), (stderrFileno, none)]
          ⟨p, 1, fun _ => -1, []⟩ = some st ∧
        st.process.fds.file =
          Function.update
            (Function.update
              (Function.update p.fds.file p.fds.lowestFree
                (some f₁)) 2 (some f₂)) 1 none ∧
        st.ioFds =
          Function.update
            (Function.update (fun _ => -1) 1 p.fds.lowestFree) 2
            1 := by
  have hLarge := hStandard.le_lowestFree
  obtain ⟨saved, hSaved⟩ : ∃ saved, saved = p.fds.lowestFree :=
    ⟨_, rfl⟩
  rw [← hSaved] at hLarge ⊢
  -- the state after the first redirection
  obtain ⟨st₁, hSt₁⟩ :
      ∃ st₁ : Redirecting,
        st₁ =
          afterInstall 1 f₁ none
            (afterSave 1 f₁ ⟨p, 1, fun _ => -1, []⟩) := ⟨_, rfl⟩
  have hFirst :
      redirectTo canOpen env stdoutFileno none
          ⟨p, 1, fun _ => -1, []⟩ = some st₁ := by
    rw [hSt₁]
    refine redirectTo_none hStdout rfl ?_
    simp only [afterSave, ← hSaved, DescriptorTable.file_put]
    rw [Function.update_of_ne (by omega)]
    exact hStdout
  have hFile₁ :
      st₁.process.fds.file =
        Function.update
          (Function.update p.fds.file saved (some f₁)) 1
          none := by
    rw [hSt₁]
    simp only [afterInstall, afterSave, ← hSaved,
      DescriptorTable.file_close, DescriptorTable.file_put]
    exact Function.update_idem ..
  have hCopies₁ :
      st₁.ioFds = Function.update (fun _ => -1) 1 saved := by
    rw [hSt₁]
    simp only [afterInstall, afterSave, ← hSaved]
  have hFd₁ : st₁.fd = 1 := by rw [hSt₁]; rfl
  have hLowest₁ : st₁.process.fds.lowestFree = 1 := by
    rw [DescriptorTable.lowestFree_eq_iff]
    refine ⟨by rw [hFile₁]; exact Function.update_self .., ?_⟩
    intro m hLess
    have hZero : m = 0 := by omega
    rw [hZero, DescriptorTable.IsOpen, hFile₁,
      Function.update_of_ne (by omega),
      Function.update_of_ne (by omega)]
    exact hStandard 0 (by omega)
  have hStderr₁ : st₁.process.fds.file 2 = some f₂ := by
    rw [hFile₁, Function.update_of_ne (by omega),
      Function.update_of_ne (by omega)]
    exact hStderr
  have hSecond :
      redirectTo canOpen env stderrFileno none st₁ =
        some (afterInstall 2 f₂ none (afterSave 2 f₂ st₁)) := by
    refine redirectTo_none hStderr₁ (by rw [hCopies₁]; rfl) ?_
    simp only [afterSave, hLowest₁, hFd₁,
      DescriptorTable.file_put]
    exact Function.update_self ..
  refine
    ⟨afterInstall 2 f₂ none (afterSave 2 f₂ st₁), ?_, ?_, ?_⟩
  · rw [redirectAll, List.foldlM_cons, hFirst]
    simp only [Option.bind_eq_bind, Option.bind_some,
      List.foldlM_cons, List.foldlM_nil, hSecond]
    rfl
  · simp only [afterInstall, afterSave, hLowest₁, hFd₁,
      DescriptorTable.file_close, DescriptorTable.file_put,
      hFile₁]
    rw [show ((1 : Nat) : Int) = 1 from rfl, Function.update_idem,
      Function.update_comm (show (1 : Int) ≠ (2 : Nat) by omega),
      Function.update_idem]
    rfl
  · simp only [afterInstall, afterSave, hLowest₁, hCopies₁]
    rfl

/- The new file of 1 is moved to 2 when that is restored. -/
theorem runEntries_pair
    {p : Process SimpleCommand}
    (hStandard : Standard p.fds) :
    ∃ p',
      runEntries canOpen env
          [(stdoutFileno, none), (stderrFileno, none)] 1 p =
          some p' ∧
        p'.fds.file 1 = none := by
  have hLarge := hStandard.le_lowestFree
  rcases Option.ne_none_iff_exists'.mp
      (hStandard 1 (by omega)) with ⟨f₁, hStdout⟩
  rcases Option.ne_none_iff_exists'.mp
      (hStandard 2 (by omega)) with ⟨f₂, hStderr⟩
  obtain ⟨st, hAll, hFile, hCopies⟩ :
      ∃ st,
        redirectAll canOpen env
            [(stdoutFileno, none), (stderrFileno, none)]
            ⟨p, 1, fun _ => -1, []⟩ = some st ∧ _ ∧ _ :=
    redirectAll_pair hStandard hStdout hStderr
  have hStdinFree : st.ioFds stdinFileno = -1 := by
    rw [hCopies]
    rfl
  have hStdoutCopy : st.ioFds stdoutFileno = p.fds.lowestFree := by
    rw [hCopies]
    rfl
  have hStderrCopy : st.ioFds stderrFileno = 1 := by
    rw [hCopies]
    rfl
  have hCopy :
      st.process.fds.file p.fds.lowestFree = some f₁ := by
    rw [hFile, Function.update_of_ne (by omega),
      Function.update_of_ne (by omega), Function.update_self]
  have hRestored :
      ((st.process.fds.put stdoutFileno f₁).close
          p.fds.lowestFree).file 1 = some f₁ := by
    rw [DescriptorTable.file_close,
      Function.update_of_ne (by omega), DescriptorTable.file_put]
    exact Function.update_self ..
  have hSkip :
      restoreDescriptor st.ioFds stdinFileno st.process =
        some st.process :=
    if_neg (not_not.mpr hStdinFree)
  refine
    ⟨{ st.process with
        fds :=
          (((st.process.fds.put stdoutFileno f₁).close
            p.fds.lowestFree).put stderrFileno f₁).close 1 }, ?_,
      by rw [DescriptorTable.file_close, Function.update_self]⟩
  rw [runEntries, hAll, Option.bind_some, restoreAll]
  simp only [List.foldlM_cons, List.foldlM_nil, hSkip,
    Option.bind_eq_bind, Option.bind_some]
  rw [restoreDescriptor_of_file (by rw [hStdoutCopy]; omega)
      (by rw [hStdoutCopy]; exact hCopy), Option.bind_some,
    restoreDescriptor_of_file (by rw [hStderrCopy]; omega)
      (by rw [hStderrCopy, hStdoutCopy]; exact hRestored),
    hStdoutCopy, hStderrCopy]
  rfl

end Leaks

------------------------------------------------------------
-- Harmless Redirections
------------------------------------------------------------

/-
  Not only the first redirection lacks a file, and they are
  not one of output and one of error that both lack one.
-/
def Harmless (entries : List Entry) : Prop :=
  (∀ d rest, entries = (d, none) :: rest → ¬ AllOpen rest) ∧
    entries ≠ [(stdoutFileno, none), (stderrFileno, none)]

/- Another redirection without a file repeats a descriptor. -/
def Repeats (d : Nat) (rest : List Entry) : Prop :=
  ∃ middle d' post,
    rest = middle ++ (d', none) :: post ∧
      d' ∈ d :: middle.map Prod.fst

theorem repeats_of_mem
    {d : Nat} {rest : List Entry}
    (hMem : (d, none) ∈ rest) :
    Repeats d rest := by
  rcases List.append_of_mem hMem with ⟨middle, post, rfl⟩
  exact ⟨middle, d, post, rfl, List.mem_cons_self⟩

theorem exists_none_of_not_allOpen
    {entries : List Entry}
    (hNone : ¬ AllOpen entries) :
    ∃ d, (d, none) ∈ entries := by
  simp only [AllOpen, not_forall, not_not] at hNone
  rcases hNone with ⟨⟨d, request⟩, hMem, hRequest⟩
  simp only at hRequest
  subst hRequest
  exact ⟨d, hMem⟩

/- The words of error alone are all for one descriptor. -/
theorem scheduleOE_nil_fst
    {ioFlags : Nat} {listE : List Word} {x : Entry}
    (hMem : x ∈ scheduleOE ioFlags [] listE) :
    x.1 = stderrFileno := by
  rw [scheduleOE, List.mem_map] at hMem
  rcases hMem with ⟨e, _, rfl⟩
  rfl

/- And so are the words of output. -/
theorem scheduleOE_fst_nil
    {ioFlags : Nat} {listO : List Word} {x : Entry}
    (hMem : x ∈ scheduleOE ioFlags listO []) :
    x.1 = stdoutFileno := by
  induction listO with
  | nil => cases hMem
  | cons o listO ih =>
      rcases List.mem_cons.mp hMem with rfl | hRest
      · rfl
      · exact ih hRest

/- After the first word of output has found no file. -/
theorem repeats_after_out
    {ioFlags : Nat} {listO listE : List Word} {e : Word}
    (hSkips : skipsOut ioFlags)
    (hNone : ¬ AllOpen (scheduleOE ioFlags listO (e :: listE)))
    (hOther :
      scheduleOE ioFlags listO (e :: listE) ≠
        [(stderrFileno, none)]) :
    Repeats stdoutFileno
      (scheduleOE ioFlags listO (e :: listE)) := by
  have hOut : ∀ w, outRequest ioFlags w = none :=
    fun w => (outRequest_eq_none_iff ioFlags w).mpr hSkips
  cases listO with
  | nil =>
      rcases exists_none_of_not_allOpen hNone with ⟨d, hMem⟩
      rw [scheduleOE, List.mem_map] at hMem
      rcases hMem with ⟨e', _, hEntry⟩
      have hSkipsErr : skipsErr ioFlags :=
        (errRequest_eq_none_iff ioFlags e').mp
          (congrArg Prod.snd hEntry)
      have hErr : ∀ w, errRequest ioFlags w = none :=
        fun w => (errRequest_eq_none_iff ioFlags w).mpr hSkipsErr
      cases listE with
      | nil =>
          exfalso
          apply hOther
          simp [scheduleOE, hErr]
      | cons e₂ listE =>
          refine ⟨[(stderrFileno, none)], stderrFileno,
            listE.map (fun _ => (stderrFileno, none)), ?_, ?_⟩
          · simp [scheduleOE, hErr]
          · simp
  | cons o listO =>
      by_cases hSame : sameString o e
      · have hSchedule :
            scheduleOE ioFlags (o :: listO) (e :: listE) =
              (stdoutFileno, some (o, .append)) ::
                (stderrFileno, some (o, .trunc)) ::
                  scheduleOE ioFlags listO listE := by
          rw [scheduleOE, if_pos hSame]
        rw [hSchedule, allOpen_cons, allOpen_cons] at hNone
        have hRest :
            ¬ AllOpen (scheduleOE ioFlags listO listE) :=
          fun hOpens => hNone
            ⟨Option.some_ne_none _, Option.some_ne_none _, hOpens⟩
        rcases exists_none_of_not_allOpen hRest with ⟨d, hMem⟩
        rcases List.append_of_mem hMem with ⟨middle, post, hSplit⟩
        refine ⟨(stdoutFileno, some (o, .append)) ::
          (stderrFileno, some (o, .trunc)) :: middle, d, post,
          ?_, ?_⟩
        · rw [hSchedule, hSplit]
          rfl
        · have hRequested :=
            requested_of_mem ioFlags listO listE _ hMem
          generalize hEntry : (d, (none : Request)) = entry
            at hRequested
          cases hRequested with
          | out o' =>
              rw [show d = stdoutFileno from
                congrArg Prod.fst hEntry]
              exact List.mem_cons_self
          | err e' =>
              rw [show d = stderrFileno from
                congrArg Prod.fst hEntry]
              simp
          | pairOut x _ => cases congrArg Prod.snd hEntry
          | pairErr x _ => cases congrArg Prod.snd hEntry
      · apply repeats_of_mem
        rw [scheduleOE, if_neg hSame, hOut]
        exact List.mem_cons_self

/- The first word found no file, and a later one neither. -/
theorem repeats_of_schedule
    {ioFlags d : Nat} {s : Pending} {rest : List Entry}
    (hSchedule : schedule ioFlags s = (d, none) :: rest)
    (hNone : ¬ AllOpen rest)
    (hHarmless : Harmless (schedule ioFlags s)) :
    Repeats d rest := by
  rcases s with ⟨listI, listO, listE⟩
  have hOther := hHarmless.2
  rw [hSchedule] at hOther
  cases listI with
  | cons w listI => cases hSchedule
  | nil =>
      rw [schedule, List.map_nil, List.nil_append] at hSchedule
      simp only at hSchedule
      rcases exists_none_of_not_allOpen hNone with ⟨d', hMem⟩
      have hMem' : (d', none) ∈ scheduleOE ioFlags listO listE := by
        rw [hSchedule]
        exact List.mem_cons_of_mem _ hMem
      have hFirst : (d, none) ∈ scheduleOE ioFlags listO listE := by
        rw [hSchedule]
        exact List.mem_cons_self
      cases listO with
      | nil =>
          have hSame : d' = d :=
            (scheduleOE_nil_fst hMem').trans
              (scheduleOE_nil_fst hFirst).symm
          rw [hSame] at hMem
          exact repeats_of_mem hMem
      | cons o listO =>
          cases listE with
          | nil =>
              have hSame : d' = d :=
                (scheduleOE_fst_nil hMem').trans
                  (scheduleOE_fst_nil hFirst).symm
              rw [hSame] at hMem
              exact repeats_of_mem hMem
          | cons e listE =>
              by_cases hSame : sameString o e
              · rw [scheduleOE, if_pos hSame] at hSchedule
                cases hSchedule
              · rw [scheduleOE, if_neg hSame] at hSchedule
                rcases List.cons.inj hSchedule with
                  ⟨hEntry, hRest⟩
                have hSkips : skipsOut ioFlags :=
                  (outRequest_eq_none_iff ioFlags o).mp
                    (congrArg Prod.snd hEntry)
                have hDescriptor : stdoutFileno = d :=
                  congrArg Prod.fst hEntry
                subst hDescriptor
                rw [← hRest] at hNone hOther ⊢
                apply repeats_after_out hSkips hNone
                intro hPair
                rw [hPair] at hOther
                exact hOther rfl

/- Without a word of input no entry is for 0. -/
theorem le_descriptor
    {ioFlags d : Nat} {s : Pending} {rest : List Entry}
    (hSchedule : schedule ioFlags s = (d, none) :: rest)
    {x : Entry} (hMem : x ∈ (d, none) :: rest) :
    1 ≤ x.1 := by
  rcases s with ⟨listI, listO, listE⟩
  cases listI with
  | cons w listI => cases hSchedule
  | nil =>
      rw [schedule, List.map_nil, List.nil_append] at hSchedule
      rw [← hSchedule] at hMem
      cases requested_of_mem ioFlags _ _ x hMem with
      | out o => exact Nat.le_refl 1
      | err e => exact Nat.le_succ 1
      | pairOut y _ => exact Nat.le_refl 1
      | pairErr y _ => exact Nat.le_succ 1

/- The redirections are undone, or the process has died. -/
def Restores
    (env : Environment) (p : Process SimpleCommand)
    (entries : List Entry) : Prop :=
  ∀ (canOpen : CanOpen) (fd : Int)
    (p' : Process SimpleCommand),
    runEntries canOpen env entries fd p = some p' →
      p'.fds.file = p.fds.file

/- Exactly the harmless redirections are undone. -/
theorem restores_iff
    (env : Environment) {p : Process SimpleCommand}
    (hStandard : Standard p.fds)
    (ioFlags : Nat) (s : Pending) :
    Restores env p (schedule ioFlags s) ↔
      Harmless (schedule ioFlags s) := by
  constructor
  · intro hRestores
    refine ⟨?_, ?_⟩
    · intro d rest hSchedule hOpens
      rw [hSchedule] at hRestores
      have hEntries :
          ∀ x ∈ (d, none) :: rest, 1 ≤ x.1 ∧ x.1 < 3 := by
        intro x hMem
        refine ⟨le_descriptor hSchedule hMem, ?_⟩
        rw [← hSchedule] at hMem
        exact descriptor_lt hMem
      have hCanOpen :
          ∀ n name mode,
            (fun _ _ _ => true : Nat → Text → OpenMode → Bool)
              n name mode = true :=
        fun _ _ _ => rfl
      rcases runEntries_leaks hCanOpen hStandard hEntries hOpens
        with ⟨p', hRun, hFile⟩
      have hSame := hRestores _ 0 p' hRun
      rw [hFile] at hSame
      have hStdin := congrFun hSame 0
      rw [withoutStdin, Function.update_self] at hStdin
      exact hStandard 0 (by omega) hStdin.symm
    · intro hPair
      rw [hPair] at hRestores
      obtain ⟨p', hRun, hClosed⟩ :
          ∃ p',
            runEntries (fun _ _ _ => true) env
                [(stdoutFileno, none), (stderrFileno, none)] 1
                p = some p' ∧
              p'.fds.file 1 = none :=
        runEntries_pair hStandard
      rw [hRestores _ 1 p' hRun] at hClosed
      exact hStandard 1 (by omega) hClosed
  · intro hHarmless canOpen fd p' hRun
    have hSmall :
        ∀ x ∈ schedule ioFlags s, x.1 < 3 :=
      fun x hMem => descriptor_lt hMem
    by_cases hOpens : AllOpen (schedule ioFlags s)
    · exact runEntries_restores hSmall hOpens hStandard hRun
    · exfalso
      cases hSchedule : schedule ioFlags s with
      | nil =>
          rw [hSchedule] at hOpens
          exact hOpens (fun x hMem => by cases hMem)
      | cons x rest =>
          rcases x with ⟨d, request⟩
          have hHarmless' := hHarmless
          rw [hSchedule] at hOpens hHarmless hRun hSmall
          rw [allOpen_cons] at hOpens
          cases request with
          | some r =>
              have hNone : ¬ AllOpen rest := fun hRest =>
                hOpens ⟨Option.some_ne_none r, hRest⟩
              rw [runEntries_dies hSmall hStandard
                (Option.some_ne_none r) hNone] at hRun
              cases hRun
          | none =>
              have hNone := hHarmless.1 d rest rfl
              rcases repeats_of_schedule hSchedule hNone
                  hHarmless' with
                ⟨middle, d', post, rfl, hMem⟩
              have hDies :
                  redirectAll canOpen env
                      (((d, none) :: middle) ++ (d', none) :: post)
                      ⟨p, fd, fun _ => -1, []⟩ = none :=
                redirectAll_repeated hSmall hStandard hMem
              rw [← List.cons_append, runEntries, hDies] at hRun
              cases hRun

end Shell

end ProgrammingTasks
