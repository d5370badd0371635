import ProgrammingTasks.Shell.Redirections

/-
  The requests for output and error in the loop's order.

  The loop pairs a word of output with a word of error when
  their first parts are equal, whatever their operators are.
  A pair opens the file twice, to append and truncated; the
  other words open theirs by the flags, and some flags open
  none.

  Main declarations:
    * `paired`, `errWords`
    * `scheduleOE_opens_iff`
    * `wordsOf_scheduleOE`
    * `requested_of_mem`, `lastError_append_iff`
-/

------------------------------------------------------------
-- Pairs of Words
------------------------------------------------------------

namespace ProgrammingTasks

namespace Shell

/- The words of output and of error that are taken at once. -/
def paired : List Word → List Word → List (Word × Word)
| [], _ => []
| _ :: _, [] => []
| o :: listO, e :: listE =>
    if sameString o e then
      (o, e) :: paired listO listE
    else
      paired listO (e :: listE)

/- The words whose files are opened for standard error. -/
def errWords : List Word → List Word → List Word
| [], listE => listE
| _ :: _, [] => []
| o :: listO, e :: listE =>
    if sameString o e then
      o :: errWords listO listE
    else
      errWords listO (e :: listE)

/- The first parts, which the loop compares. -/
def strings (ws : List Word) : List Text :=
  ws.map (fun w => w.first.string)

/- Each word of error has its file. -/
theorem errWords_length :
    ∀ listO listE : List Word,
      (errWords listO listE).length = listE.length
| [], _ => rfl
| _ :: _, [] => rfl
| o :: listO, e :: listE => by
    by_cases hSame : sameString o e
    · rw [errWords, if_pos hSame, List.length_cons,
        List.length_cons, errWords_length listO listE]
    · rw [errWords, if_neg hSame,
        errWords_length listO (e :: listE)]

/- The files of error are as written if the pairs agree. -/
theorem errWords_names_iff (env : Environment) :
    ∀ listO listE : List Word,
      (errWords listO listE).map (getWord env) =
          listE.map (getWord env) ↔
        ∀ x ∈ paired listO listE,
          getWord env x.1 = getWord env x.2
| [], listE => by
    simp [errWords, paired]
| _ :: listO, [] => by
    simp [errWords, paired]
| o :: listO, e :: listE => by
    by_cases hSame : sameString o e
    · have ih := errWords_names_iff env listO listE
      simp only [errWords, paired, if_pos hSame, List.map_cons,
        List.cons.injEq, List.forall_mem_cons, ih]
    · have ih := errWords_names_iff env listO (e :: listE)
      simp only [errWords, paired, if_neg hSame, ih]

------------------------------------------------------------
-- Files That Are Opened
------------------------------------------------------------

/- Every entry opens a file. -/
def AllOpen (entries : List Entry) : Prop :=
  ∀ x ∈ entries, x.2 ≠ none

theorem allOpen_append
    (entries entries' : List Entry) :
    AllOpen (entries ++ entries') ↔
      AllOpen entries ∧ AllOpen entries' :=
  List.forall_mem_append

theorem allOpen_cons
    (d : Nat) (request : Request) (entries : List Entry) :
    AllOpen ((d, request) :: entries) ↔
      request ≠ none ∧ AllOpen entries :=
  List.forall_mem_cons

/- The flags for which the branch of output opens none. -/
def skipsOut (ioFlags : Nat) : Prop :=
  ioFlags ≠ ioRegular ∧ ioFlags ≠ ioOutAppend

/- The flags for which the branch of error opens none. -/
def skipsErr (ioFlags : Nat) : Prop :=
  ioFlags ≠ ioRegular ∧ ioFlags ≠ ioErrAppend

theorem outRequest_eq_none_iff
    (ioFlags : Nat) (w : Word) :
    outRequest ioFlags w = none ↔ skipsOut ioFlags := by
  unfold outRequest skipsOut
  split
  · simp [*]
  · split
    · simp [*]
    · simp [*]

theorem errRequest_eq_none_iff
    (ioFlags : Nat) (w : Word) :
    errRequest ioFlags w = none ↔ skipsErr ioFlags := by
  unfold errRequest skipsErr
  split
  · simp [*]
  · split
    · simp [*]
    · simp [*]

/- When the loop opens a file for every word. -/
theorem scheduleOE_opens_iff (ioFlags : Nat) :
    ∀ listO listE : List Word,
      AllOpen (scheduleOE ioFlags listO listE) ↔
        (skipsOut ioFlags →
            (strings listO).IsPrefix (strings listE)) ∧
          (skipsErr ioFlags →
            (strings listE).Sublist (strings listO))
| [], listE => by
    have hErr :
        AllOpen (scheduleOE ioFlags [] listE) ↔
          ∀ e ∈ listE, ¬ skipsErr ioFlags := by
      simp only [AllOpen, scheduleOE, List.forall_mem_map, ne_eq,
        errRequest_eq_none_iff]
    rw [hErr]
    cases listE with
    | nil => simp [strings]
    | cons e listE =>
        simp only [strings, List.map_nil, List.nil_prefix,
          implies_true, true_and, List.forall_mem_cons,
          List.map_cons, List.sublist_nil]
        constructor
        · rintro ⟨hOpens, _⟩ hSkips
          exact absurd hSkips hOpens
        · intro hSkips
          have hOpens : ¬ skipsErr ioFlags := by
            intro hSkipsErr
            cases hSkips hSkipsErr
          exact ⟨hOpens, fun _ _ => hOpens⟩
| o :: listO, [] => by
    have ih := scheduleOE_opens_iff ioFlags listO []
    have hNil : strings [] = [] := rfl
    rw [hNil, List.prefix_nil] at ih
    rw [scheduleOE, allOpen_cons, ne_eq, outRequest_eq_none_iff,
      ih, hNil, List.prefix_nil]
    simp only [List.nil_sublist, implies_true, and_true]
    constructor
    · rintro ⟨hOpens, _⟩ hSkips
      exact absurd hSkips hOpens
    · intro hSkips
      have hOpens : ¬ skipsOut ioFlags := by
        intro hSkipsOut
        cases hSkips hSkipsOut
      exact ⟨hOpens, fun hSkipsOut => absurd hSkipsOut hOpens⟩
| o :: listO, e :: listE => by
    have hCons :
        ∀ (w : Word) (ws : List Word),
          strings (w :: ws) = w.first.string :: strings ws :=
      fun _ _ => rfl
    by_cases hSame : sameString o e
    · have ih := scheduleOE_opens_iff ioFlags listO listE
      have hString : o.first.string = e.first.string := hSame
      rw [scheduleOE, if_pos hSame, allOpen_cons, allOpen_cons,
        ih, hCons, hCons, hString, List.cons_prefix_cons,
        List.cons_sublist_cons]
      simp
    · have ih := scheduleOE_opens_iff ioFlags listO (e :: listE)
      have hString : ¬ o.first.string = e.first.string := hSame
      rw [scheduleOE, if_neg hSame, allOpen_cons, ne_eq,
        outRequest_eq_none_iff, ih, hCons o, hCons e,
        List.cons_prefix_cons, List.sublist_cons_iff]
      constructor
      · rintro ⟨hOpens, _, hSublist⟩
        exact ⟨fun hSkips => absurd hSkips hOpens,
          fun hSkips => Or.inl (hSublist hSkips)⟩
      · rintro ⟨hPrefix, hSublist⟩
        have hOpens : ¬ skipsOut ioFlags :=
          fun hSkips => hString (hPrefix hSkips).1
        refine ⟨hOpens, fun hSkips => absurd hSkips hOpens, ?_⟩
        intro hSkips
        rcases hSublist hSkips with hRest | ⟨_, hHeads, _⟩
        · exact hRest
        · exact absurd (List.cons.inj hHeads).1.symm hString

------------------------------------------------------------
-- Names of the Files
------------------------------------------------------------

/- The requests for a descriptor, in order. -/
def requestsOf (d : Nat) (entries : List Entry) : List Request :=
  (entries.filter (fun x => x.1 = d)).map Prod.snd

/- The words of the requests for a descriptor. -/
def wordsOf (d : Nat) (entries : List Entry) :
    List (Option Word) :=
  (requestsOf d entries).map (Option.map Prod.fst)

theorem requestsOf_append
    (d : Nat) (entries entries' : List Entry) :
    requestsOf d (entries ++ entries') =
      requestsOf d entries ++ requestsOf d entries' := by
  simp [requestsOf]

theorem requestsOf_cons
    (d d' : Nat) (request : Request) (entries : List Entry) :
    requestsOf d ((d', request) :: entries) =
      (if d' = d then [request] else []) ++
        requestsOf d entries := by
  by_cases hSame : d' = d
  · simp [requestsOf, hSame]
  · simp [requestsOf, hSame]

theorem requestsOf_map
    {α : Type} (d d' : Nat) (f : α → Request) (l : List α) :
    requestsOf d (l.map (fun a => (d', f a))) =
      if d' = d then l.map f else [] := by
  induction l with
  | nil => simp [requestsOf]
  | cons a l ih =>
      rw [List.map_cons, requestsOf_cons, ih]
      split
      · rfl
      · rfl

theorem mem_requestsOf
    {d : Nat} {request : Request} {entries : List Entry} :
    request ∈ requestsOf d entries ↔ (d, request) ∈ entries := by
  simp only [requestsOf, List.mem_map, List.mem_filter,
    decide_eq_true_eq]
  constructor
  · rintro ⟨⟨d', request'⟩, ⟨hMem, hSame⟩, hRequest⟩
    simp only at hSame hRequest
    rw [hSame, hRequest] at hMem
    exact hMem
  · intro hMem
    exact ⟨(d, request), ⟨hMem, rfl⟩, rfl⟩

theorem outRequest_word
    {ioFlags : Nat} {w : Word}
    (hOpens : outRequest ioFlags w ≠ none) :
    (outRequest ioFlags w).map Prod.fst = some w := by
  unfold outRequest at hOpens ⊢
  split
  · rfl
  · split
    · rfl
    · simp_all

theorem errRequest_word
    {ioFlags : Nat} {w : Word}
    (hOpens : errRequest ioFlags w ≠ none) :
    (errRequest ioFlags w).map Prod.fst = some w := by
  unfold errRequest at hOpens ⊢
  split
  · rfl
  · split
    · rfl
    · simp_all

theorem wordsOf_cons
    (d d' : Nat) (request : Request) (entries : List Entry) :
    wordsOf d ((d', request) :: entries) =
      (if d' = d then [request.map Prod.fst] else []) ++
        wordsOf d entries := by
  rw [wordsOf, requestsOf_cons, List.map_append]
  split
  · rfl
  · rfl

theorem stdout_ne_stderr : stdoutFileno ≠ stderrFileno := by
  decide

/- Output gets its words, and error those of `errWords`. -/
theorem wordsOf_scheduleOE (ioFlags : Nat) :
    ∀ listO listE : List Word,
      AllOpen (scheduleOE ioFlags listO listE) →
        wordsOf stdoutFileno (scheduleOE ioFlags listO listE) =
            listO.map some ∧
          wordsOf stderrFileno
              (scheduleOE ioFlags listO listE) =
            (errWords listO listE).map some
| [], listE, hOpens => by
    rw [scheduleOE, wordsOf, wordsOf, requestsOf_map,
      requestsOf_map, if_neg stdout_ne_stderr.symm, if_pos rfl,
      List.map_map]
    refine ⟨rfl, ?_⟩
    apply List.map_congr_left
    intro e hMem
    apply errRequest_word
    exact hOpens _ (List.mem_map_of_mem hMem)
| o :: listO, [], hOpens => by
    rw [scheduleOE, allOpen_cons] at hOpens
    have ih := wordsOf_scheduleOE ioFlags listO [] hOpens.2
    have hErr : errWords listO [] = [] := by
      cases listO <;> rfl
    rw [scheduleOE, wordsOf_cons, wordsOf_cons, ih.1, ih.2,
      outRequest_word hOpens.1, if_pos rfl,
      if_neg stdout_ne_stderr, hErr]
    exact ⟨rfl, rfl⟩
| o :: listO, e :: listE, hOpens => by
    by_cases hSame : sameString o e
    · rw [scheduleOE, if_pos hSame, allOpen_cons,
        allOpen_cons] at hOpens
      have ih := wordsOf_scheduleOE ioFlags listO listE
        hOpens.2.2
      simp only [scheduleOE, errWords, if_pos hSame,
        wordsOf_cons, ih.1, ih.2, if_neg stdout_ne_stderr,
        if_neg stdout_ne_stderr.symm]
      exact ⟨rfl, rfl⟩
    · rw [scheduleOE, if_neg hSame, allOpen_cons] at hOpens
      have ih := wordsOf_scheduleOE ioFlags listO (e :: listE)
        hOpens.2
      simp only [scheduleOE, errWords, if_neg hSame,
        wordsOf_cons, ih.1, ih.2, outRequest_word hOpens.1,
        if_neg stdout_ne_stderr]
      exact ⟨rfl, rfl⟩

------------------------------------------------------------
-- Modes of the Files
------------------------------------------------------------

/- A pair opens its file truncated for standard error. -/
theorem truncated_of_paired (ioFlags : Nat) :
    ∀ (listO listE : List Word) (x : Word × Word),
      x ∈ paired listO listE →
        (stderrFileno, some (x.1, .trunc)) ∈
          scheduleOE ioFlags listO listE
| [], _, _, hMem => by
    cases hMem
| _ :: _, [], _, hMem => by
    cases hMem
| o :: listO, e :: listE, x, hMem => by
    by_cases hSame : sameString o e
    · rw [paired, if_pos hSame] at hMem
      rw [scheduleOE, if_pos hSame]
      apply List.mem_cons_of_mem
      rcases List.mem_cons.mp hMem with rfl | hRest
      · exact List.mem_cons_self
      · exact List.mem_cons_of_mem _
          (truncated_of_paired ioFlags listO listE x hRest)
    · rw [paired, if_neg hSame] at hMem
      rw [scheduleOE, if_neg hSame]
      exact List.mem_cons_of_mem _
        (truncated_of_paired ioFlags listO (e :: listE) x hMem)

/- The entry is by the flags, or one of a pair. -/
inductive Requested
    (ioFlags : Nat) (pairs : List (Word × Word)) : Entry → Prop
| out (o : Word) :
    Requested ioFlags pairs (stdoutFileno, outRequest ioFlags o)
| err (e : Word) :
    Requested ioFlags pairs (stderrFileno, errRequest ioFlags e)
| pairOut (x : Word × Word) (hMem : x ∈ pairs) :
    Requested ioFlags pairs (stdoutFileno, some (x.1, .append))
| pairErr (x : Word × Word) (hMem : x ∈ pairs) :
    Requested ioFlags pairs (stderrFileno, some (x.1, .trunc))

theorem Requested.cons
    {ioFlags : Nat} {pairs : List (Word × Word)} {x : Entry}
    (hRequested : Requested ioFlags pairs x)
    (pair : Word × Word) :
    Requested ioFlags (pair :: pairs) x := by
  cases hRequested with
  | out o => exact .out o
  | err e => exact .err e
  | pairOut y hMem =>
      exact .pairOut y (List.mem_cons_of_mem _ hMem)
  | pairErr y hMem =>
      exact .pairErr y (List.mem_cons_of_mem _ hMem)

/- The entries of the schedule. -/
theorem requested_of_mem (ioFlags : Nat) :
    ∀ (listO listE : List Word) (x : Entry),
      x ∈ scheduleOE ioFlags listO listE →
        Requested ioFlags (paired listO listE) x
| [], listE, x, hMem => by
    rw [scheduleOE, List.mem_map] at hMem
    rcases hMem with ⟨e, _, rfl⟩
    exact .err e
| o :: listO, [], x, hMem => by
    rw [scheduleOE] at hMem
    rcases List.mem_cons.mp hMem with rfl | hRest
    · exact .out o
    · have ih := requested_of_mem ioFlags listO [] x hRest
      have hNone : paired listO [] = [] := by
        cases listO <;> rfl
      rw [hNone] at ih
      exact ih
| o :: listO, e :: listE, x, hMem => by
    by_cases hSame : sameString o e
    · rw [scheduleOE, if_pos hSame] at hMem
      rw [paired, if_pos hSame]
      rcases List.mem_cons.mp hMem with rfl | hRest
      · exact .pairOut (o, e) List.mem_cons_self
      · rcases List.mem_cons.mp hRest with rfl | hRest
        · exact .pairErr (o, e) List.mem_cons_self
        · exact (requested_of_mem ioFlags listO listE x
            hRest).cons (o, e)
    · rw [scheduleOE, if_neg hSame] at hMem
      rw [paired, if_neg hSame]
      rcases List.mem_cons.mp hMem with rfl | hRest
      · exact .out o
      · exact requested_of_mem ioFlags listO (e :: listE) x hRest

/- A flag decides how the word is opened, or it is not. -/
theorem request_eq_some
    {regular append : Prop} [Decidable regular]
    [Decidable append]
    {opened w : Word} {mode : OpenMode}
    (hRequest :
      (if regular then some (opened, OpenMode.trunc)
        else if append then some (opened, OpenMode.append)
        else none) = some (w, mode)) :
    mode = .trunc ∧ regular ∨ mode = .append ∧ append := by
  split at hRequest
  · rename_i hRegular
    cases hRequest
    exact Or.inl ⟨rfl, hRegular⟩
  · split at hRequest
    · rename_i hAppend
      cases hRequest
      exact Or.inr ⟨rfl, hAppend⟩
    · cases hRequest

theorem outRequest_eq_some
    {ioFlags : Nat} {o w : Word} {mode : OpenMode}
    (hRequest : outRequest ioFlags o = some (w, mode)) :
    mode = .trunc ∧ ioFlags = ioRegular ∨
      mode = .append ∧ ioFlags = ioOutAppend :=
  request_eq_some hRequest

theorem errRequest_eq_some
    {ioFlags : Nat} {e w : Word} {mode : OpenMode}
    (hRequest : errRequest ioFlags e = some (w, mode)) :
    mode = .trunc ∧ ioFlags = ioRegular ∨
      mode = .append ∧ ioFlags = ioErrAppend :=
  request_eq_some hRequest

section Modes

variable {ioFlags : Nat} {pairs : List (Word × Word)}
variable {d : Nat} {w : Word} {mode : OpenMode}

/- With a flag for appending only the pairs truncate. -/
theorem Requested.paired_of_trunc
    (hRequested : Requested ioFlags pairs (d, some (w, .trunc)))
    (hFlags : ioFlags ≠ ioRegular) :
    ∃ x ∈ pairs, x.1 = w := by
  generalize hEntry : (d, some (w, OpenMode.trunc)) = entry
    at hRequested
  cases hRequested with
  | out o =>
      have hRequest := (congrArg Prod.snd hEntry).symm
      rcases outRequest_eq_some hRequest with
        ⟨_, hRegular⟩ | ⟨hMode, _⟩
      · exact absurd hRegular hFlags
      · cases hMode
  | err e =>
      have hRequest := (congrArg Prod.snd hEntry).symm
      rcases errRequest_eq_some hRequest with
        ⟨_, hRegular⟩ | ⟨hMode, _⟩
      · exact absurd hRegular hFlags
      · cases hMode
  | pairOut x hMem => cases hEntry
  | pairErr x hMem =>
      cases hEntry
      exact ⟨x, hMem, rfl⟩

/- Output is opened to append unless no flag is set. -/
theorem Requested.out_mode
    (hRequested :
      Requested ioFlags pairs (stdoutFileno, some (w, mode))) :
    mode = .append ∧
        (ioFlags = ioOutAppend ∨ ∃ x ∈ pairs, x.1 = w) ∨
      mode = .trunc ∧ ioFlags = ioRegular := by
  generalize hEntry : (stdoutFileno, some (w, mode)) = entry
    at hRequested
  cases hRequested with
  | out o =>
      have hRequest := (congrArg Prod.snd hEntry).symm
      rcases outRequest_eq_some hRequest with
        hTrunc | ⟨hMode, hAppend⟩
      · exact Or.inr hTrunc
      · exact Or.inl ⟨hMode, Or.inl hAppend⟩
  | err e => cases congrArg Prod.fst hEntry
  | pairOut x hMem =>
      cases hEntry
      exact Or.inl ⟨rfl, Or.inr ⟨x, hMem, rfl⟩⟩
  | pairErr x hMem => cases congrArg Prod.fst hEntry

/- Error is opened truncated unless only its flag is set. -/
theorem Requested.err_mode
    (hRequested :
      Requested ioFlags pairs (stderrFileno, some (w, mode))) :
    mode = .trunc ∨ mode = .append ∧ ioFlags = ioErrAppend := by
  generalize hEntry : (stderrFileno, some (w, mode)) = entry
    at hRequested
  cases hRequested with
  | out o => cases congrArg Prod.fst hEntry
  | err e =>
      have hRequest := (congrArg Prod.snd hEntry).symm
      rcases errRequest_eq_some hRequest with
        ⟨hMode, _⟩ | hAppend
      · exact Or.inl hMode
      · exact Or.inr hAppend
  | pairOut x hMem => cases congrArg Prod.fst hEntry
  | pairErr x hMem =>
      cases hEntry
      exact Or.inl rfl

end Modes

/- No entry of the schedule is for standard input. -/
theorem requestsOf_stdin
    (ioFlags : Nat) (listO listE : List Word) :
    requestsOf stdinFileno (scheduleOE ioFlags listO listE) =
      [] := by
  rw [List.eq_nil_iff_forall_not_mem]
  intro request hMem
  have hRequested :=
    requested_of_mem ioFlags listO listE _
      (mem_requestsOf.mp hMem)
  generalize hEntry : (stdinFileno, request) = entry
    at hRequested
  cases hRequested with
  | out o => cases congrArg Prod.fst hEntry
  | err e => cases congrArg Prod.fst hEntry
  | pairOut x _ => cases congrArg Prod.fst hEntry
  | pairErr x _ => cases congrArg Prod.fst hEntry

/- The last file of error, when output has no file of its own. -/
theorem lastError_append_iff
    {ioFlags : Nat}
    (hSkips : skipsOut ioFlags) :
    ∀ (listO listE : List Word) (w : Word) (mode : OpenMode),
      AllOpen (scheduleOE ioFlags listO listE) →
        (requestsOf stderrFileno
            (scheduleOE ioFlags listO listE)).getLast? =
          some (some (w, mode)) →
          (mode = .append ↔ listO.length < listE.length)
| [], listE, w, mode, _, hLast => by
    rw [scheduleOE, requestsOf_map, if_pos rfl,
      List.getLast?_map] at hLast
    rcases Option.map_eq_some_iff.mp hLast with
      ⟨e, hE, hRequest⟩
    have hNonempty : 0 < listE.length :=
      List.length_pos_of_mem (List.mem_of_getLast? hE)
    rcases errRequest_eq_some hRequest with
      ⟨_, hRegular⟩ | ⟨hMode, _⟩
    · exact absurd hRegular hSkips.1
    · exact iff_of_true hMode hNonempty
| o :: listO, [], w, mode, hOpens, _ => by
    rw [scheduleOE, allOpen_cons, ne_eq,
      outRequest_eq_none_iff] at hOpens
    exact absurd hSkips hOpens.1
| o :: listO, e :: listE, w, mode, hOpens, hLast => by
    by_cases hSame : sameString o e
    · rw [scheduleOE, if_pos hSame] at hLast hOpens
      rw [allOpen_cons, allOpen_cons] at hOpens
      rw [requestsOf_cons, requestsOf_cons,
        if_neg stdout_ne_stderr, if_pos rfl, List.nil_append,
        List.singleton_append, List.getLast?_cons] at hLast
      have hWords :=
        (wordsOf_scheduleOE ioFlags listO listE hOpens.2.2).2
      have ih := lastError_append_iff hSkips listO listE w mode
        hOpens.2.2
      cases hRest : (requestsOf stderrFileno
          (scheduleOE ioFlags listO listE)).getLast? with
      | none =>
          rw [hRest] at hLast
          cases hLast
          rw [wordsOf, List.getLast?_eq_none_iff.mp hRest] at hWords
          have hLength := errWords_length listO listE
          rw [List.map_eq_nil_iff.mp hWords.symm] at hLength
          refine iff_of_false (fun hMode => by cases hMode) ?_
          simp only [List.length_nil] at hLength
          simp only [List.length_cons, ← hLength]
          omega
      | some request =>
          rw [hRest] at hLast
          simp only [Option.getD_some] at hLast
          rw [ih (hRest.trans hLast), List.length_cons,
            List.length_cons, Nat.add_lt_add_iff_right]
    · rw [scheduleOE, if_neg hSame, allOpen_cons, ne_eq,
        outRequest_eq_none_iff] at hOpens
      exact absurd hSkips hOpens.1

------------------------------------------------------------
-- All Three Descriptors
------------------------------------------------------------

/- The requests of a descriptor in the whole schedule. -/
theorem requestsOf_schedule (ioFlags : Nat) (s : Pending) :
    requestsOf stdinFileno (schedule ioFlags s) =
        s.listI.map (fun w => some (w, .read)) ∧
      ∀ d : Nat, d ≠ stdinFileno →
        requestsOf d (schedule ioFlags s) =
          requestsOf d (scheduleOE ioFlags s.listO s.listE) := by
  constructor
  · rw [schedule, requestsOf_append, requestsOf_map,
      requestsOf_stdin, if_pos rfl, List.append_nil]
  · intro d hOther
    rw [schedule, requestsOf_append, requestsOf_map,
      if_neg (Ne.symm hOther), List.nil_append]

theorem allOpen_schedule (ioFlags : Nat) (s : Pending) :
    AllOpen (schedule ioFlags s) ↔
      AllOpen (scheduleOE ioFlags s.listO s.listE) := by
  rw [schedule, allOpen_append]
  apply and_iff_right
  intro x hMem
  rcases List.mem_map.mp hMem with ⟨w, _, rfl⟩
  exact Option.some_ne_none _

/- The words of each descriptor, if all files are opened. -/
theorem wordsOf_schedule
    {ioFlags : Nat} {s : Pending}
    (hOpens : AllOpen (schedule ioFlags s)) :
    wordsOf stdinFileno (schedule ioFlags s) =
        s.listI.map some ∧
      wordsOf stdoutFileno (schedule ioFlags s) =
        s.listO.map some ∧
      wordsOf stderrFileno (schedule ioFlags s) =
        (errWords s.listO s.listE).map some := by
  rw [allOpen_schedule] at hOpens
  have hWords := wordsOf_scheduleOE ioFlags s.listO s.listE hOpens
  have hRequests := requestsOf_schedule ioFlags s
  refine ⟨?_, ?_, ?_⟩
  · rw [wordsOf, hRequests.1, List.map_map]
    rfl
  · rw [wordsOf, hRequests.2 _ (by decide)]
    exact hWords.1
  · rw [wordsOf, hRequests.2 _ (by decide)]
    exact hWords.2

/- A file that is opened truncated is not one of input. -/
theorem mem_scheduleOE_of_trunc
    {ioFlags d : Nat} {s : Pending} {w : Word}
    (hMem : (d, some (w, .trunc)) ∈ schedule ioFlags s) :
    (d, some (w, .trunc)) ∈
      scheduleOE ioFlags s.listO s.listE := by
  rw [schedule, List.mem_append] at hMem
  apply hMem.resolve_left
  intro hInput
  rcases List.mem_map.mp hInput with ⟨w', _, hEntry⟩
  cases hEntry

end Shell

end ProgrammingTasks
