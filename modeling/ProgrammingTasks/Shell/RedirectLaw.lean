import ProgrammingTasks.Shell.RedirectRule
import ProgrammingTasks.Shell.Schedule

/-
  When redirections take effect as they are written.

  The loop pairs a word of output with a word of error when
  their first parts are equal, whatever their operators are.
  The law is decided by these pairs, by the two flags, and by
  the place of `&>`.

  Main declarations:
    * `TakeEffect`, `RedirectLaw`
    * `WellRedirected`
    * `redirectAll_installs`, `redirectAll_opened`
    * `redirectLaw_iff`
-/

------------------------------------------------------------
-- The Law
------------------------------------------------------------

namespace ProgrammingTasks

namespace Shell

/- The installs of a descriptor, in order. -/
def installsOf (d : Nat) (installs : List Install) :
    List Install :=
  installs.filter (fun i => i.descriptor = d)

/-
  What an operator asks of the file: `<` reads it, `>>` and
  `2>>` append to it, and the others leave it truncated.
-/
def Fits (installs : List Install) (f : OpenFile) :
    RedirectOp → Prop
| .indirect => f.mode = .read
| .redirectAppendO | .redirectAppendE => f.mode = .append
| .redirectO | .redirectE | .redirectOE =>
    ∃ i ∈ installs, i.opened = some (f.name, .trunc)

/-
  The redirections, from a table of descriptors to another:
  every installed file was opened in its iteration; each
  target was opened once for each of its descriptors; and each
  descriptor has the file of its last redirection, if any.
-/
structure TakeEffect
    (env : Environment) (reds : List Redirection)
    (before after : DescriptorTable OpenFile)
    (installs : List Install) : Prop where
  fresh : ∀ i ∈ installs, i.opened ≠ none
  opened :
    ∀ d < 3,
      (installsOf d installs).map
          (fun i => i.opened.map Prod.fst) =
        (targets d reds).map (fun w => some (getWord env w))
  unaffected :
    ∀ d < 3,
      redirectionsOf d reds = [] →
        after.file d = before.file d
  redirected :
    ∀ d < 3, ∀ red : Redirection,
      (redirectionsOf d reds).getLast? = some red →
        ∃ f, after.file d = some f ∧
          f.name = getWord env red.2 ∧ Fits installs f red.1

/-
  The grammar builds the lists, `redirections` ends, and the
  redirections have taken effect.
-/
def RedirectLaw
    (canOpen : CanOpen) (env : Environment)
    (reds : List Redirection) (fd : Int)
    (p : Process SimpleCommand) : Prop :=
  ∃ r st fuel,
    redirectRules reds = some r ∧
      redirections canOpen env r fd fuel p = some (some st) ∧
        TakeEffect env reds p.fds st.process.fds st.installs

------------------------------------------------------------
-- Redirecting with Opened Files
------------------------------------------------------------

/- The three standard descriptors are open. -/
def Standard (t : DescriptorTable OpenFile) : Prop :=
  ∀ d : Nat, d < 3 → t.IsOpen d

theorem Standard.le_lowestFree
    {t : DescriptorTable OpenFile}
    (hStandard : Standard t) :
    3 ≤ t.lowestFree := by
  by_contra hLess
  exact hStandard t.lowestFree (by omega) t.file_lowestFree

/- A terminal under the three standard descriptors. -/
def terminal : DescriptorTable OpenFile :=
  ((DescriptorTable.empty.put stdinFileno
      ⟨0, ['t', 't', 'y'], .read⟩).put stdoutFileno
      ⟨1, ['t', 't', 'y'], .append⟩).put stderrFileno
      ⟨2, ['t', 't', 'y'], .append⟩

theorem standard_terminal : Standard terminal := by
  intro d hDescriptor
  match d, hDescriptor with
  | 0, _ => exact Option.some_ne_none _
  | 1, _ => exact Option.some_ne_none _
  | 2, _ => exact Option.some_ne_none _

section Opened

variable {canOpen : CanOpen} {env : Environment}

/- The record of what is installed for an entry. -/
def installOf (env : Environment) (x : Entry) : Install :=
  ⟨x.1, opens env x.2⟩

theorem openTarget_installs
    {file : Option (Text × OpenMode)} {st st' : Redirecting}
    (hOpen : openTarget canOpen file st = some st') :
    st'.installs = st.installs := by
  cases file with
  | none =>
      cases hOpen
      rfl
  | some f =>
      simp only [openTarget] at hOpen
      split at hOpen
      · cases hOpen
        rfl
      · cases hOpen

theorem saveDescriptor_installs
    (d : Nat) (st : Redirecting) :
    (saveDescriptor d st).installs = st.installs := by
  unfold saveDescriptor
  split <;> rfl

/- Every redirection that survives is recorded. -/
theorem redirectTo_installs
    {d : Nat} {request : Request} {st st' : Redirecting}
    (hRedirect :
      redirectTo canOpen env d request st = some st') :
    st'.installs =
      st.installs ++ [installOf env (d, request)] := by
  unfold redirectTo at hRedirect
  cases hOpen : openTarget canOpen (opens env request) st with
  | none =>
      rw [hOpen] at hRedirect
      cases hRedirect
  | some st₁ =>
      rw [hOpen, Option.bind_some] at hRedirect
      unfold installFile at hRedirect
      split at hRedirect
      · cases hRedirect
      · cases hRedirect
        simp [saveDescriptor_installs, openTarget_installs hOpen,
          installOf]

theorem redirectAll_installs
    {entries : List Entry} {st st' : Redirecting}
    (hAll : redirectAll canOpen env entries st = some st') :
    st'.installs =
      st.installs ++ entries.map (installOf env) := by
  induction entries generalizing st with
  | nil =>
      cases hAll
      simp
  | cons x entries ih =>
      simp only [redirectAll, List.foldlM_cons,
        Option.bind_eq_bind] at hAll
      cases hFirst : redirectTo canOpen env x.1 x.2 st with
      | none =>
          rw [hFirst] at hAll
          cases hAll
      | some st₁ =>
          rw [hFirst, Option.bind_some] at hAll
          rw [ih hAll, redirectTo_installs hFirst]
          simp

/- A redirection leaves the other standard descriptors. -/
theorem Moved.standard
    {d : Nat} {f : OpenFile} {st st' : Redirecting}
    (hMoved : Moved d f st st')
    (hStandard : Standard st.process.fds) :
    st'.process.fds.file d = some f ∧
      ∀ d' : Nat, d' < 3 → d' ≠ d →
        st'.process.fds.file d' = st.process.fds.file d' := by
  by_cases hUnsaved : st.ioFds d = -1
  · rcases hMoved.saves hUnsaved with ⟨saved, hFree, _, hFile, _⟩
    refine ⟨by rw [hFile, Function.update_self], ?_⟩
    intro d' hDescriptor hOther
    have hSaved : (d' : Int) ≠ saved := by
      intro hSame
      apply hStandard d' hDescriptor
      rw [hSame, hFree]
    rw [hFile, Function.update_of_ne (by omega),
      Function.update_of_ne hSaved]
  · have hFile := (hMoved.keeps hUnsaved).1
    refine ⟨by rw [hFile, Function.update_self], ?_⟩
    intro d' _ hOther
    rw [hFile, Function.update_of_ne (by omega)]

theorem Moved.keeps_standard
    {d : Nat} {f : OpenFile} {st st' : Redirecting}
    (hMoved : Moved d f st st')
    (hStandard : Standard st.process.fds) :
    Standard st'.process.fds := by
  have hFiles := hMoved.standard hStandard
  intro d' hDescriptor
  by_cases hSame : d' = d
  · rw [hSame, DescriptorTable.IsOpen, hFiles.1]
    exact Option.some_ne_none f
  · rw [DescriptorTable.IsOpen, hFiles.2 d' hDescriptor hSame]
    exact hStandard d' hDescriptor

/- The last install of a descriptor, if any. -/
def lastInstall (d : Nat) (installs : List Install) :
    Option Install :=
  (installsOf d installs).getLast?

theorem lastInstall_append
    (d : Nat) (installs : List Install) (i : Install) :
    lastInstall d (installs ++ [i]) =
      if i.descriptor = d then some i
      else lastInstall d installs := by
  by_cases hSame : i.descriptor = d
  · simp [lastInstall, installsOf, hSame]
  · simp [lastInstall, installsOf, hSame]

/- What the last install leaves of a descriptor. -/
def Shows
    (before after : DescriptorTable OpenFile) (d : Nat) :
    Option Install → Prop
| none => after.file d = before.file d
| some i =>
    ∃ f : OpenFile,
      after.file d = some f ∧ i.opened = some (f.name, f.mode)

/- The table after entries that all have a file. -/
theorem redirectAll_opened
    (hOpen : ∀ n name mode, canOpen n name mode = true)
    {st : Redirecting}
    (hStandard : Standard st.process.fds) :
    ∀ entries : List Entry,
      (∀ x ∈ entries, x.1 < 3 ∧ x.2 ≠ none) →
        ∃ st',
          redirectAll canOpen env entries st = some st' ∧
            Standard st'.process.fds ∧
            ∀ d < 3,
              Shows st.process.fds st'.process.fds d
                (lastInstall d (entries.map (installOf env))) := by
  intro entries
  induction entries using List.reverseRecOn with
  | nil =>
      intro _
      exact ⟨st, rfl, hStandard, fun _ _ => rfl⟩
  | append_singleton entries x ih =>
      intro hFiles
      rcases ih (fun y hMem =>
          hFiles y (List.mem_append_left _ hMem)) with
        ⟨st₁, hAll, hStandard₁, hShows⟩
      have hLast := hFiles x
        (List.mem_append_right _ (List.mem_singleton_self x))
      rcases x with ⟨d, request⟩
      rcases Option.ne_none_iff_exists'.mp hLast.2 with
        ⟨⟨w, mode⟩, hRequest⟩
      simp only at hRequest
      subst hRequest
      rcases redirectTo_opened canOpen env w mode
          (hStandard₁ d hLast.1) with ⟨st', hRedirect, hMoved⟩
      rw [if_pos (hOpen ..)] at hRedirect
      refine ⟨st', ?_, hMoved.keeps_standard hStandard₁, ?_⟩
      · rw [redirectAll] at hAll
        simp [redirectAll, List.foldlM_append, hAll, hRedirect]
      · intro d' hDescriptor
        rw [List.map_append, List.map_singleton,
          lastInstall_append]
        have hAfter := hMoved.standard hStandard₁
        by_cases hSame : d = d'
        · subst hSame
          rw [if_pos (show (installOf env
            (d, some (w, mode))).descriptor = d from rfl)]
          exact ⟨_, hAfter.1, rfl⟩
        · rw [if_neg (show ¬ (installOf env
            (d, some (w, mode))).descriptor = d' from hSame)]
          have hKeeps :=
            hAfter.2 d' hDescriptor (fun h => hSame h.symm)
          have hBefore := hShows d' hDescriptor
          cases hInstall : lastInstall d'
              (entries.map (installOf env)) with
          | none =>
              rw [hInstall] at hBefore
              exact hKeeps.trans hBefore
          | some i =>
              rw [hInstall] at hBefore
              rcases hBefore with ⟨f, hFile, hOpened⟩
              exact ⟨f, hKeeps.trans hFile, hOpened⟩

end Opened

------------------------------------------------------------
-- The Flags
------------------------------------------------------------

/- The operator occurs. -/
def Occurs (op : RedirectOp) (reds : List Redirection) : Prop :=
  ∃ red ∈ reds, red.1 = op

theorem occurs_append
    (op : RedirectOp) (reds : List Redirection)
    (red : Redirection) :
    Occurs op (reds ++ [red]) ↔ Occurs op reds ∨ red.1 = op := by
  simp [Occurs, or_and_right, exists_or]

theorem flagsOf_append
    (reds : List Redirection) (red : Redirection) :
    flagsOf (reds ++ [red]) =
      match red.1 with
      | .redirectAppendO => flagsOf reds ||| ioOutAppend
      | .redirectAppendE => flagsOf reds ||| ioErrAppend
      | _ => flagsOf reds := by
  rcases red with ⟨op, w⟩
  cases op <;> simp [flagsOf]

/- The flags by the operators that occur. -/
theorem flagsOf_cases (reds : List Redirection) :
    (¬ Occurs .redirectAppendO reds ∧
        ¬ Occurs .redirectAppendE reds ∧
        flagsOf reds = ioRegular) ∨
      (Occurs .redirectAppendO reds ∧
        ¬ Occurs .redirectAppendE reds ∧
        flagsOf reds = ioOutAppend) ∨
      (¬ Occurs .redirectAppendO reds ∧
        Occurs .redirectAppendE reds ∧
        flagsOf reds = ioErrAppend) ∨
      (Occurs .redirectAppendO reds ∧
        Occurs .redirectAppendE reds ∧
        flagsOf reds = ioOutAppend ||| ioErrAppend) := by
  induction reds using List.reverseRecOn with
  | nil => exact Or.inl ⟨by simp [Occurs], by simp [Occurs], rfl⟩
  | append_singleton reds red ih =>
      rw [occurs_append, occurs_append, flagsOf_append]
      rcases ih with ⟨hO, hE, hFlags⟩ | ⟨hO, hE, hFlags⟩ |
        ⟨hO, hE, hFlags⟩ | ⟨hO, hE, hFlags⟩ <;>
      · rw [hFlags]
        cases red.1 <;> simp [hO, hE, ioOutAppend, ioErrAppend,
          ioRegular]

/- An operator for appending keeps the other list closed. -/
theorem skipsErr_iff (reds : List Redirection) :
    skipsErr (flagsOf reds) ↔ Occurs .redirectAppendO reds := by
  rcases flagsOf_cases reds with ⟨hO, _, hFlags⟩ |
    ⟨hO, _, hFlags⟩ | ⟨hO, _, hFlags⟩ | ⟨hO, _, hFlags⟩ <;>
  · rw [hFlags]
    simp [hO, skipsErr, ioRegular, ioOutAppend, ioErrAppend]

theorem skipsOut_iff (reds : List Redirection) :
    skipsOut (flagsOf reds) ↔ Occurs .redirectAppendE reds := by
  rcases flagsOf_cases reds with ⟨_, hE, hFlags⟩ |
    ⟨_, hE, hFlags⟩ | ⟨_, hE, hFlags⟩ | ⟨_, hE, hFlags⟩ <;>
  · rw [hFlags]
    simp [hE, skipsOut, ioRegular, ioOutAppend, ioErrAppend]

theorem flagsOf_eq_regular_iff (reds : List Redirection) :
    flagsOf reds = ioRegular ↔
      ¬ Occurs .redirectAppendO reds ∧
        ¬ Occurs .redirectAppendE reds := by
  rcases flagsOf_cases reds with ⟨hO, hE, hFlags⟩ |
    ⟨hO, hE, hFlags⟩ | ⟨hO, hE, hFlags⟩ | ⟨hO, hE, hFlags⟩ <;>
  · rw [hFlags]
    simp [hO, hE, ioRegular, ioOutAppend, ioErrAppend]

------------------------------------------------------------
-- Redirections That Are Well Written
------------------------------------------------------------

/-
  When the redirections take effect: `&>` is the last one of
  output and error; the words that the loop pairs name the
  same file; with `>>` every word of error is paired, and with
  `2>>` every word of output; and the last redirection of a
  descriptor finds its file as its operator asks.
-/
structure WellRedirected
    (env : Environment) (reds : List Redirection) : Prop where
  last : BothLast reds
  pairs :
    ∀ x ∈ paired (targets 1 reds) (targets 2 reds),
      getWord env x.1 = getWord env x.2
  appendO :
    Occurs .redirectAppendO reds →
      (strings (targets 2 reds)).Sublist
        (strings (targets 1 reds))
  appendE :
    Occurs .redirectAppendE reds →
      (strings (targets 1 reds)).IsPrefix
        (strings (targets 2 reds))
  lastO :
    ∀ red : Redirection,
      (redirectionsOf 1 reds).getLast? = some red →
      Occurs .redirectAppendO reds →
      red.1 ≠ .redirectAppendO →
        ∃ x ∈ paired (targets 1 reds) (targets 2 reds),
          getWord env x.1 = getWord env red.2
  lastE :
    ∀ red : Redirection,
      (redirectionsOf 2 reds).getLast? = some red →
      Occurs .redirectAppendE reds →
        if red.1 = .redirectAppendE then
          (targets 1 reds).length < (targets 2 reds).length
        else
          ∃ x ∈ paired (targets 1 reds) (targets 2 reds),
            getWord env x.1 = getWord env red.2

------------------------------------------------------------
-- The Law at the Schedule
------------------------------------------------------------

/- What an operator asks of the request for its file. -/
def RequestFits
    (env : Environment) (entries : List Entry)
    (w : Word) (mode : OpenMode) : RedirectOp → Prop
| .indirect => mode = .read
| .redirectAppendO | .redirectAppendE => mode = .append
| .redirectO | .redirectE | .redirectOE =>
    ∃ d w', (d, some (w', OpenMode.trunc)) ∈ entries ∧
      getWord env w' = getWord env w

section Installs

variable {env : Environment}

theorem mem_installs_iff
    {entries : List Entry} {name : Text} {mode : OpenMode} :
    (∃ i ∈ entries.map (installOf env),
        i.opened = some (name, mode)) ↔
      ∃ d w, (d, some (w, mode)) ∈ entries ∧
        getWord env w = name := by
  constructor
  · rintro ⟨i, hMem, hOpened⟩
    rcases List.mem_map.mp hMem with ⟨⟨d, request⟩, hEntry, rfl⟩
    rcases Option.map_eq_some_iff.mp hOpened with
      ⟨⟨w, mode'⟩, hRequest, hFile⟩
    cases hFile
    simp only at hRequest
    rw [hRequest] at hEntry
    exact ⟨d, w, hEntry, rfl⟩
  · rintro ⟨d, w, hEntry, rfl⟩
    exact ⟨_, List.mem_map_of_mem hEntry, rfl⟩

theorem fits_iff
    (entries : List Entry)
    {w : Word} {mode : OpenMode} {f : OpenFile}
    (hName : f.name = getWord env w)
    (hMode : f.mode = mode)
    (op : RedirectOp) :
    Fits (entries.map (installOf env)) f op ↔
      RequestFits env entries w mode op := by
  subst hMode
  cases op <;> simp only [Fits, RequestFits, hName,
    mem_installs_iff]

theorem installs_fresh_iff (entries : List Entry) :
    (∀ i ∈ entries.map (installOf env), i.opened ≠ none) ↔
      AllOpen entries := by
  rw [List.forall_mem_map]
  simp [AllOpen, installOf, opens]

/- The installs of a descriptor are those of its requests. -/
theorem installsOf_eq (d : Nat) (entries : List Entry) :
    installsOf d (entries.map (installOf env)) =
      (requestsOf d entries).map
        (fun request => ⟨d, opens env request⟩) := by
  induction entries with
  | nil => rfl
  | cons x entries ih =>
      rcases x with ⟨d', request⟩
      rw [requestsOf_cons, List.map_append, ← ih]
      by_cases hSame : d' = d
      · subst hSame
        simp [installsOf, installOf]
      · simp [installsOf, installOf, hSame]

theorem installs_names (d : Nat) (entries : List Entry) :
    (installsOf d (entries.map (installOf env))).map
        (fun i => i.opened.map Prod.fst) =
      (wordsOf d entries).map (Option.map (getWord env)) := by
  rw [installsOf_eq, wordsOf, List.map_map, List.map_map]
  apply List.map_congr_left
  intro request _
  cases request with
  | none => rfl
  | some r => rfl

end Installs

/- The words of a descriptor name the files as written. -/
theorem names_eq_iff
    (env : Environment) (ws ws' : List Word) :
    (ws.map some).map (Option.map (getWord env)) =
        ws'.map (fun w => some (getWord env w)) ↔
      ws.map (getWord env) = ws'.map (getWord env) := by
  rw [List.map_map]
  constructor
  · intro hSame
    apply List.map_injective_iff.mpr
      (fun _ _ hSome => Option.some.inj hSome)
    rw [List.map_map, List.map_map]
    exact hSame
  · intro hSame
    have hSome := congrArg (List.map some) hSame
    rw [List.map_map, List.map_map] at hSome
    exact hSome

section Law

variable {env : Environment} {reds : List Redirection}

/- The entries for redirections with `&>` in the last place. -/
def entriesFor (reds : List Redirection) : List Entry :=
  schedule (flagsOf reds)
    ⟨targets 0 reds, targets 1 reds, targets 2 reds⟩

theorem allOpen_entriesFor :
    AllOpen (entriesFor reds) ↔
      (Occurs .redirectAppendE reds →
          (strings (targets 1 reds)).IsPrefix
            (strings (targets 2 reds))) ∧
        (Occurs .redirectAppendO reds →
          (strings (targets 2 reds)).Sublist
            (strings (targets 1 reds))) := by
  rw [entriesFor, allOpen_schedule, scheduleOE_opens_iff,
    skipsOut_iff, skipsErr_iff]

/- A pair has truncated the file that it names. -/
theorem truncated_of_pair
    {x : Word × Word} {w : Word}
    (hMem : x ∈ paired (targets 1 reds) (targets 2 reds))
    (hName : getWord env x.1 = getWord env w) :
    ∃ d w', (d, some (w', OpenMode.trunc)) ∈ entriesFor reds ∧
      getWord env w' = getWord env w :=
  ⟨stderrFileno, x.1,
    List.mem_append_right _
      (truncated_of_paired (flagsOf reds) _ _ x hMem),
    hName⟩

/- With a flag for appending only the pairs truncate. -/
theorem pair_of_truncated
    {d : Nat} {w w' : Word}
    (hMem : (d, some (w', OpenMode.trunc)) ∈ entriesFor reds)
    (hName : getWord env w' = getWord env w)
    (hFlags : flagsOf reds ≠ ioRegular) :
    ∃ x ∈ paired (targets 1 reds) (targets 2 reds),
      getWord env x.1 = getWord env w := by
  have hRequested :=
    requested_of_mem (flagsOf reds) (targets 1 reds)
      (targets 2 reds) _ (mem_scheduleOE_of_trunc hMem)
  rcases hRequested.paired_of_trunc hFlags with
    ⟨x, hPair, hWord⟩
  exact ⟨x, hPair, by rw [hWord, hName]⟩

/- A request for a descriptor of output or error. -/
theorem requested_of_last
    {d : Nat} {w : Word} {mode : OpenMode}
    (hOther : d ≠ stdinFileno)
    (hLast :
      (requestsOf d (entriesFor reds)).getLast? =
        some (some (w, mode))) :
    Requested (flagsOf reds)
      (paired (targets 1 reds) (targets 2 reds))
      (d, some (w, mode)) := by
  rw [entriesFor, (requestsOf_schedule _ _).2 d hOther] at hLast
  exact requested_of_mem (flagsOf reds) _ _ _
    (mem_requestsOf.mp (List.mem_of_getLast? hLast))

/- When the last redirection of output finds its file right. -/
theorem fits_out_iff
    {red : Redirection} {w : Word} {mode : OpenMode}
    (hRed : red ∈ redirectionsOf 1 reds)
    (hLast :
      (requestsOf stdoutFileno (entriesFor reds)).getLast? =
        some (some (w, mode))) :
    RequestFits env (entriesFor reds) w mode red.1 ↔
      (Occurs .redirectAppendO reds →
        red.1 ≠ .redirectAppendO →
          ∃ x ∈ paired (targets 1 reds) (targets 2 reds),
            getWord env x.1 = getWord env w) := by
  rw [redirectionsOf, List.mem_filter] at hRed
  have hMode :=
    (requested_of_last (by decide) hLast).out_mode
  have hTruncates :
      (∃ d w', (d, some (w', OpenMode.trunc)) ∈
          entriesFor reds ∧
          getWord env w' = getWord env w) ↔
        (Occurs .redirectAppendO reds →
          ∃ x ∈ paired (targets 1 reds) (targets 2 reds),
            getWord env x.1 = getWord env w) := by
    constructor
    · rintro ⟨d, w', hMem, hName⟩ hOccurs
      apply pair_of_truncated hMem hName
      rw [ne_eq, flagsOf_eq_regular_iff]
      exact fun hNone => hNone.1 hOccurs
    · intro hPair
      by_cases hOccurs : Occurs .redirectAppendO reds
      · rcases hPair hOccurs with ⟨x, hMem, hName⟩
        exact truncated_of_pair hMem hName
      · rcases hMode with ⟨_, hAppend | ⟨x, hMem, hWord⟩⟩ |
          ⟨hTrunc, _⟩
        · exfalso
          apply hOccurs
          rw [← skipsErr_iff, hAppend]
          exact ⟨by decide, by decide⟩
        · exact truncated_of_pair hMem (by rw [hWord])
        · rw [hTrunc] at hLast
          exact ⟨_, w, mem_requestsOf.mp
            (List.mem_of_getLast? hLast), rfl⟩
  rcases red with ⟨op, v⟩
  cases op with
  | indirect => cases hRed.2
  | redirectE => cases hRed.2
  | redirectAppendE => cases hRed.2
  | redirectAppendO =>
      refine iff_of_true ?_ (fun _ hOther => absurd rfl hOther)
      rcases hMode with ⟨hAppend, _⟩ | ⟨_, hRegular⟩
      · exact hAppend
      · rw [flagsOf_eq_regular_iff] at hRegular
        exact absurd ⟨_, hRed.1, rfl⟩ hRegular.1
  | redirectO =>
      rw [RequestFits, hTruncates]
      simp
  | redirectOE =>
      rw [RequestFits, hTruncates]
      simp

/- When the last redirection of error finds its file right. -/
theorem fits_err_iff
    {red : Redirection} {w : Word} {mode : OpenMode}
    (hOpens : AllOpen (entriesFor reds))
    (hRed : red ∈ redirectionsOf 2 reds)
    (hLast :
      (requestsOf stderrFileno (entriesFor reds)).getLast? =
        some (some (w, mode))) :
    RequestFits env (entriesFor reds) w mode red.1 ↔
      (Occurs .redirectAppendE reds →
        if red.1 = .redirectAppendE then
          (targets 1 reds).length < (targets 2 reds).length
        else
          ∃ x ∈ paired (targets 1 reds) (targets 2 reds),
            getWord env x.1 = getWord env w) := by
  rw [redirectionsOf, List.mem_filter] at hRed
  have hMode :=
    (requested_of_last (by decide) hLast).err_mode
  have hTruncates :
      (∃ d w', (d, some (w', OpenMode.trunc)) ∈
          entriesFor reds ∧
          getWord env w' = getWord env w) ↔
        (Occurs .redirectAppendE reds →
          ∃ x ∈ paired (targets 1 reds) (targets 2 reds),
            getWord env x.1 = getWord env w) := by
    constructor
    · rintro ⟨d, w', hMem, hName⟩ hOccurs
      apply pair_of_truncated hMem hName
      rw [ne_eq, flagsOf_eq_regular_iff]
      exact fun hNone => hNone.2 hOccurs
    · intro hPair
      by_cases hOccurs : Occurs .redirectAppendE reds
      · rcases hPair hOccurs with ⟨x, hMem, hName⟩
        exact truncated_of_pair hMem hName
      · rcases hMode with hTrunc | ⟨_, hAppend⟩
        · rw [hTrunc] at hLast
          exact ⟨_, w, mem_requestsOf.mp
            (List.mem_of_getLast? hLast), rfl⟩
        · exfalso
          apply hOccurs
          rw [← skipsOut_iff, hAppend]
          exact ⟨by decide, by decide⟩
  rcases red with ⟨op, v⟩
  cases op with
  | indirect => cases hRed.2
  | redirectO => cases hRed.2
  | redirectAppendO => cases hRed.2
  | redirectAppendE =>
      have hOccurs : Occurs .redirectAppendE reds :=
        ⟨_, hRed.1, rfl⟩
      rw [entriesFor, allOpen_schedule] at hOpens
      rw [entriesFor, (requestsOf_schedule _ _).2 _ (by decide)]
        at hLast
      have hAppend :=
        lastError_append_iff ((skipsOut_iff reds).mpr hOccurs)
          _ _ w mode hOpens hLast
      rw [RequestFits, hAppend]
      simp [hOccurs]
  | redirectE =>
      rw [RequestFits, hTruncates]
      simp
  | redirectOE =>
      rw [RequestFits, hTruncates]
      simp

/- The last request of a descriptor, and its file after. -/
theorem redirected_iff
    {entries : List Entry} {d : Nat} {red : Redirection}
    {before after : DescriptorTable OpenFile}
    (hOpens : AllOpen entries)
    (hNames :
      (wordsOf d entries).map (Option.map (getWord env)) =
        (targets d reds).map (fun w => some (getWord env w)))
    (hLast : (redirectionsOf d reds).getLast? = some red)
    (hShows :
      Shows before after d
        (lastInstall d (entries.map (installOf env)))) :
    ∃ w mode,
      (requestsOf d entries).getLast? = some (some (w, mode)) ∧
        getWord env w = getWord env red.2 ∧
        ((∃ f, after.file d = some f ∧
            f.name = getWord env red.2 ∧
            Fits (entries.map (installOf env)) f red.1) ↔
          RequestFits env entries w mode red.1) := by
  have hLastName := congrArg List.getLast? hNames
  simp only [wordsOf, targets, List.getLast?_map, hLast,
    Option.map_some] at hLastName
  rw [lastInstall, installsOf_eq, List.getLast?_map] at hShows
  cases hRequest : (requestsOf d entries).getLast? with
  | none =>
      rw [hRequest] at hLastName
      cases hLastName
  | some request =>
      have hMem := mem_requestsOf.mp (List.mem_of_getLast? hRequest)
      rcases Option.ne_none_iff_exists'.mp (hOpens _ hMem) with
        ⟨⟨w, mode⟩, hSome⟩
      simp only at hSome
      subst hSome
      rw [hRequest] at hShows hLastName
      have hName : getWord env w = getWord env red.2 :=
        Option.some.inj (Option.some.inj hLastName)
      refine ⟨w, mode, rfl, hName, ?_⟩
      rcases hShows with ⟨f, hFile, hOpened⟩
      have hSame : (getWord env w, mode) = (f.name, f.mode) :=
        Option.some.inj hOpened
      have hFits := fits_iff entries
        (congrArg Prod.fst hSame).symm
        (congrArg Prod.snd hSame).symm red.1
      constructor
      · rintro ⟨f', hFile', _, hFits'⟩
        cases hFile.symm.trans hFile'
        exact hFits.mp hFits'
      · intro hRequestFits
        exact ⟨f, hFile,
          (congrArg Prod.fst hSame).symm.trans hName,
          hFits.mpr hRequestFits⟩

/- What the names ask of the three lists. -/
theorem opened_iff
    {ioFlags : Nat} {s : Pending}
    (hOpens : AllOpen (schedule ioFlags s)) :
    (∀ d < 3,
        (installsOf d
            ((schedule ioFlags s).map (installOf env))).map
            (fun i => i.opened.map Prod.fst) =
          (targets d reds).map
            (fun w => some (getWord env w))) ↔
      s.listI.map (getWord env) =
          (targets 0 reds).map (getWord env) ∧
        s.listO.map (getWord env) =
          (targets 1 reds).map (getWord env) ∧
        (errWords s.listO s.listE).map (getWord env) =
          (targets 2 reds).map (getWord env) := by
  have hWords := wordsOf_schedule hOpens
  simp only [installs_names]
  rw [← names_eq_iff env s.listI, ← names_eq_iff env s.listO,
    ← names_eq_iff env (errWords s.listO s.listE), ← hWords.1,
    ← hWords.2.1, ← hWords.2.2]
  constructor
  · intro hNames
    exact ⟨hNames 0 (by omega), hNames 1 (by omega),
      hNames 2 (by omega)⟩
  · rintro ⟨hI, hO, hE⟩ d hDescriptor
    match d, hDescriptor with
    | 0, _ => exact hI
    | 1, _ => exact hO
    | 2, _ => exact hE

/- The redirections of standard input are `<`. -/
theorem fits_in
    {red : Redirection} {w : Word} {mode : OpenMode}
    (hRed : red ∈ redirectionsOf 0 reds)
    (hLast :
      (requestsOf stdinFileno (entriesFor reds)).getLast? =
        some (some (w, mode))) :
    RequestFits env (entriesFor reds) w mode red.1 := by
  have hMem := List.mem_of_getLast? hLast
  rw [entriesFor, (requestsOf_schedule _ _).1,
    List.mem_map] at hMem
  rcases hMem with ⟨w', _, hRequest⟩
  cases hRequest
  rw [redirectionsOf, List.mem_filter] at hRed
  rcases red with ⟨op, v⟩
  cases op with
  | indirect => rfl
  | _ => cases hRed.2

/- The effect of the entries, if all files are opened. -/
theorem takeEffect_iff
    {before after : DescriptorTable OpenFile}
    (hLast : BothLast reds)
    (hOpens : AllOpen (entriesFor reds))
    (hShows :
      ∀ d < 3,
        Shows before after d
          (lastInstall d
            ((entriesFor reds).map (installOf env)))) :
    TakeEffect env reds before after
        ((entriesFor reds).map (installOf env)) ↔
      WellRedirected env reds := by
  have hPairs :
      (∀ d < 3,
          (installsOf d
              ((entriesFor reds).map (installOf env))).map
              (fun i => i.opened.map Prod.fst) =
            (targets d reds).map
              (fun w => some (getWord env w))) ↔
        ∀ x ∈ paired (targets 1 reds) (targets 2 reds),
          getWord env x.1 = getWord env x.2 := by
    rw [entriesFor, opened_iff hOpens, errWords_names_iff]
    simp
  constructor
  · intro hEffect
    have hAll := allOpen_entriesFor.mp hOpens
    refine ⟨hLast, hPairs.mp hEffect.opened, hAll.2, hAll.1,
      ?_, ?_⟩
    · intro red hRed hOccurs hOp
      have hNames := hEffect.opened 1 (by omega)
      rw [installs_names] at hNames
      rcases redirected_iff hOpens hNames hRed
          (hShows 1 (by omega)) with
        ⟨w, mode, hRequest, hName, hFits⟩
      rw [← hName]
      exact (fits_out_iff (List.mem_of_getLast? hRed)
        hRequest).mp
          (hFits.mp (hEffect.redirected 1 (by omega) red hRed))
          hOccurs hOp
    · intro red hRed hOccurs
      have hNames := hEffect.opened 2 (by omega)
      rw [installs_names] at hNames
      rcases redirected_iff hOpens hNames hRed
          (hShows 2 (by omega)) with
        ⟨w, mode, hRequest, hName, hFits⟩
      rw [← hName]
      exact (fits_err_iff hOpens (List.mem_of_getLast? hRed)
        hRequest).mp
          (hFits.mp (hEffect.redirected 2 (by omega) red hRed))
          hOccurs
  · intro hWell
    have hOpened := hPairs.mpr hWell.pairs
    refine ⟨(installs_fresh_iff _).mpr hOpens, hOpened, ?_, ?_⟩
    · intro d hDescriptor hNone
      have hNames := hOpened d hDescriptor
      have hShown := hShows d hDescriptor
      rw [targets, hNone] at hNames
      rw [lastInstall, List.map_eq_nil_iff.mp hNames] at hShown
      exact hShown
    · intro d hDescriptor red hRed
      have hNames := hOpened d hDescriptor
      rw [installs_names] at hNames
      rcases redirected_iff hOpens hNames hRed
          (hShows d hDescriptor) with
        ⟨w, mode, hRequest, hName, hFits⟩
      rw [hFits]
      match d, hDescriptor with
      | 0, _ =>
          exact fits_in (List.mem_of_getLast? hRed) hRequest
      | 1, _ =>
          rw [fits_out_iff (List.mem_of_getLast? hRed) hRequest,
            hName]
          exact hWell.lastO red hRed
      | 2, _ =>
          rw [fits_err_iff hOpens (List.mem_of_getLast? hRed)
            hRequest, hName]
          exact hWell.lastE red hRed

end Law

------------------------------------------------------------
-- The Law for Every Command
------------------------------------------------------------

/- Every entry of a schedule is for one of the three. -/
theorem descriptor_lt
    {ioFlags : Nat} {s : Pending} {x : Entry}
    (hMem : x ∈ schedule ioFlags s) :
    x.1 < 3 := by
  rw [schedule, List.mem_append] at hMem
  rcases hMem with hInput | hOther
  · rcases List.mem_map.mp hInput with ⟨w, _, rfl⟩
    exact Nat.zero_lt_succ 2
  · cases requested_of_mem ioFlags _ _ x hOther with
    | out o => exact Nat.succ_lt_succ (Nat.zero_lt_succ 1)
    | err e => exact Nat.lt_succ_self 2
    | pairOut y hPair =>
        exact Nat.succ_lt_succ (Nat.zero_lt_succ 1)
    | pairErr y hPair => exact Nat.lt_succ_self 2

/- If the lists take effect as written, `&>` is the last. -/
theorem bothLast_of_takeEffect
    {env : Environment} {reds : List Redirection} {r : Redirect}
    {before after : DescriptorTable OpenFile}
    (hRules : redirectRules reds = some r)
    (hEffect :
      TakeEffect env reds before after
        ((schedule r.redFlags ⟨r.wordsI, r.wordsO, r.wordsE⟩).map
          (installOf env))) :
    BothLast reds := by
  rcases redirectRules_lists hRules with
    ⟨_, hO, hE, _, hSingle⟩
  have hOpens := (installs_fresh_iff _).mp hEffect.fresh
  have hNames := (opened_iff hOpens).mp hEffect.opened
  have hLengthO := congrArg List.length hNames.2.1
  have hLengthE := congrArg List.length hNames.2.2
  simp only [List.length_map, hO] at hLengthO
  simp only [List.length_map, errWords_length, hE] at hLengthE
  by_contra hNotLast
  have hMore := length_lt_of_not_bothLast hSingle hNotLast
  omega

/- With `&>` in the last place the schedule is as written. -/
theorem schedule_of_bothLast
    {reds : List Redirection} {r : Redirect}
    (hRules : redirectRules reds = some r)
    (hLast : BothLast reds) :
    schedule r.redFlags ⟨r.wordsI, r.wordsO, r.wordsE⟩ =
      entriesFor reds := by
  rcases redirectRules_lists hRules with
    ⟨hI, hO, hE, hFlags, _⟩
  rw [hI, hO, hE, hFlags, collect_listI,
    (collect_of_bothLast hLast).1, (collect_of_bothLast hLast).2,
    entriesFor]

/-
  When every file can be opened, the redirections take effect
  exactly if they are well written.
-/
theorem redirectLaw_iff
    (canOpen : CanOpen) (env : Environment)
    (reds : List Redirection) (fd : Int)
    (p : Process SimpleCommand)
    (hOpen : ∀ n name mode, canOpen n name mode = true)
    (hStandard : Standard p.fds) :
    RedirectLaw canOpen env reds fd p ↔
      WellRedirected env reds := by
  have hRuns :
      AllOpen (entriesFor reds) →
        ∃ st,
          redirectAll canOpen env (entriesFor reds)
              ⟨p, fd, fun _ => -1, []⟩ = some st ∧
            ∀ d < 3,
              Shows p.fds st.process.fds d
                (lastInstall d
                  ((entriesFor reds).map (installOf env))) := by
    intro hOpens
    have hStart :
        Standard
          (⟨p, fd, fun _ => -1, []⟩ : Redirecting).process.fds :=
      hStandard
    rcases redirectAll_opened hOpen hStart (entriesFor reds)
        (fun x hMem => ⟨descriptor_lt hMem, hOpens x hMem⟩) with
      ⟨st, hAll, _, hShows⟩
    exact ⟨st, hAll, hShows⟩
  constructor
  · rintro ⟨r, st, fuel, hRules, hEnds, hEffect⟩
    have hAll := (redirections_of_some hEnds).symm
    have hInstalls := redirectAll_installs hAll
    rw [List.nil_append] at hInstalls
    rw [hInstalls] at hEffect
    have hLast := bothLast_of_takeEffect hRules hEffect
    rw [schedule_of_bothLast hRules hLast] at hEffect hAll
    have hOpens := (installs_fresh_iff _).mp hEffect.fresh
    rcases hRuns hOpens with ⟨st', hAll', hShows⟩
    cases hAll.symm.trans hAll'
    exact (takeEffect_iff hLast hOpens hShows).mp hEffect
  · intro hWell
    rcases redirectRules_cases reds with
      ⟨_, hNotLast⟩ | ⟨r, nodes, hRules, _⟩
    · exact absurd hWell.last hNotLast
    · have hOpens : AllOpen (entriesFor reds) :=
        allOpen_entriesFor.mpr ⟨hWell.appendE, hWell.appendO⟩
      rcases hRuns hOpens with ⟨st, hAll, hShows⟩
      have hInstalls := redirectAll_installs hAll
      rw [List.nil_append] at hInstalls
      refine ⟨r, st, _, hRules,
        (redirections_eq_schedule canOpen env r fd p
          (Nat.lt_succ_self _)).trans ?_, ?_⟩
      · rw [schedule_of_bothLast hRules hWell.last, hAll]
      · rw [hInstalls]
        exact (takeEffect_iff hWell.last hOpens hShows).mpr hWell

/- The redirections `> a 2> b`. -/
def outAndError : List Redirection :=
  [(.redirectO, plainWord ['a']), (.redirectE, plainWord ['b'])]

/- They are well written, so that they take effect. -/
theorem redirectLaw_outAndError :
    RedirectLaw (fun _ _ _ => true) (fun _ => none)
      outAndError 0 ⟨terminal, 3, []⟩ := by
  apply (redirectLaw_iff (fun _ _ _ => true) (fun _ => none)
    outAndError 0 ⟨terminal, 3, []⟩ (fun _ _ _ => rfl)
    standard_terminal).mpr
  have hNever :
      ∀ op : RedirectOp, op = .redirectAppendO ∨
        op = .redirectAppendE → ¬ Occurs op outAndError := by
    rintro op hOp ⟨red, hMem, hSame⟩
    simp only [outAndError, List.mem_cons, List.not_mem_nil,
      or_false] at hMem
    rcases hOp with rfl | rfl <;>
    · rcases hMem with rfl | rfl
      · cases hSame
      · cases hSame
  have hO := hNever .redirectAppendO (Or.inl rfl)
  have hE := hNever .redirectAppendE (Or.inr rfl)
  refine ⟨?_, ?_, fun h => absurd h hO, fun h => absurd h hE,
    fun _ _ h => absurd h hO, fun _ _ h => absurd h hE⟩
  · intro front red rest hSplit hBoth
    have hMem : red ∈ outAndError := by
      rw [hSplit]
      simp
    simp only [outAndError, List.mem_cons, List.not_mem_nil,
      or_false] at hMem
    rcases hMem with rfl | rfl
    · cases hBoth
    · cases hBoth
  · intro x hMem
    cases hMem

/-
  After `> a 2>> b` the loop opens no file for `a`, and
  installs the descriptor that `fd` holds.
-/
theorem not_redirectLaw_always :
    ¬ ∀ (canOpen : CanOpen) (env : Environment)
        (reds : List Redirection) (fd : Int)
        (p : Process SimpleCommand),
        (∀ n name mode, canOpen n name mode = true) →
        Standard p.fds →
          RedirectLaw canOpen env reds fd p := by
  intro hAlways
  rcases hAlways (fun _ _ _ => true) (fun _ => none)
      [(.redirectO, plainWord ['a']),
        (.redirectAppendE, plainWord ['b'])]
      0 ⟨terminal, 3, []⟩ (fun _ _ _ => rfl)
      standard_terminal with
    ⟨r, st, fuel, hRules, hEnds, hEffect⟩
  have hInstalls :=
    redirectAll_installs (redirections_of_some hEnds).symm
  rw [List.nil_append] at hInstalls
  rw [hInstalls] at hEffect
  have hLast := bothLast_of_takeEffect hRules hEffect
  rw [schedule_of_bothLast hRules hLast] at hEffect
  have hOpens := (installs_fresh_iff _).mp hEffect.fresh
  exact hOpens (stdoutFileno, none) (by decide) rfl

end Shell

end ProgrammingTasks
