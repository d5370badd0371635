import ProgrammingTasks.TcpChat.SelectServer

/-
  The exchanges in two steps of the chat: `getuserlist`, then
  `users`, and `getfilelist`, then `files`.

  The second message of a client is answered from variables
  that the messages of all clients write, so that the answer
  is that to the latest request of any client, if no other
  second message has used it up.

  Main declarations:
    * `Follows`, `owed`
    * `AnsweredRightly`, `Undisturbed`
    * `Shared`, `shared_of_run`
    * `exchangeLaw_iff`
-/

------------------------------------------------------------
-- The Law
------------------------------------------------------------

namespace ProgrammingTasks

namespace TcpChat

open TransitionSystem

/- The latest step on the connection of a client. -/
def lastOf (i : Nat) (trace : Trace) : Option Event :=
  latest (fun e => e.client = i) trace

/-
  A client sends the second message only right after its own
  request, as `client.c` does.  It may leave instead.
-/
def Follows (t : Transition) (earlier : Trace) : Prop :=
  (t.event.action = .users →
    (lastOf t.event.client earlier).map Event.action =
      some .getuserlist) ∧
  (t.event.action = .files →
    (lastOf t.event.client earlier).map Event.action =
      some .getfilelist)

/- A request for the files of a user that exists. -/
def isKnown (config : Config) : Event → Bool
| .connect _ => false
| .receive _ buffer _ => knownUser (word 1 buffer) config.users

/- The answer that a client is owed after its request. -/
def owed (config : Config) : Event → Option Text
| .connect _ => none
| .receive _ buffer dir =>
    if actionOf (word 0 buffer) = .getuserlist then
      some (userList config)
    else if actionOf (word 0 buffer) = .getfilelist then
      if knownUser (word 1 buffer) config.users then
        dir.map (fileList config)
      else
        some unknownUser
    else
      none

/-
  A second message is answered with what this client is owed
  for its own request, and not from a null list.
-/
def AnsweredRightly
    (config : Config) (t : Transition) (earlier : Trace) :
    Prop :=
  t.event.action = .users ∨
      t.event.action = .files →
    ∃ request answer,
      lastOf t.event.client earlier = some request ∧
        owed config request = some answer ∧
        reply config t = some answer ∧
        t.target.exited = false

------------------------------------------------------------
-- The Condition
------------------------------------------------------------

/- The messages about the list of users. -/
def aboutUsers (e : Event) : Bool :=
  e.action = .getuserlist || e.action = .users

/- The messages about the list of files. -/
def aboutFiles (config : Config) (e : Event) : Bool :=
  (e.action = .getfilelist && isKnown config e) ||
    e.action = .files

/- The messages about the error of an unknown user. -/
def aboutError (config : Config) (e : Event) : Bool :=
  (e.action = .getfilelist && !isKnown config e) ||
    e.action = .files

/-
  Whatever the other clients sent after the request, it has not
  been replaced by another one or used up by a second message.
-/
def Undisturbed
    (config : Config) (t : Transition) (earlier : Trace) :
    Prop :=
  (t.event.action = .users →
    (latest aboutUsers earlier).map Event.action =
      some .getuserlist) ∧
  (t.event.action = .files →
    ∀ request,
      lastOf t.event.client earlier = some request →
        if isKnown config request then
          (∃ e, latest (aboutFiles config) earlier = some e ∧
            owed config e = owed config request) ∧
          ∀ e, latest (aboutError config) earlier = some e →
            e.action = .files
        else
          (latest (aboutError config) earlier).map Event.action =
            some .getfilelist)

------------------------------------------------------------
-- The Shared Variables
------------------------------------------------------------

/-
  The shared variables hold what their latest message owes: a
  request its answer, a second message nothing.
-/
structure Shared
    (config : Config) (trace : Trace) (s : Server) : Prop where
  list :
    s.list = (latest aboutUsers trace).bind (owed config)
  flist :
    s.flist =
      (latest (aboutFiles config) trace).bind (owed config)
  eroare :
    s.eroare =
      ((latest (aboutError config) trace).bind
        (owed config)).isSome

section Shared

variable {config : Config} {trace : Trace} {s s' : Server}
variable {i : Nat} {buffer : Text}
variable {dir : Option (List DirEntry)}

/- What a step has to write, by the messages it is among. -/
theorem Shared.next
    {e : Event}
    (hShared : Shared config trace s)
    (hList :
      s'.list = if aboutUsers e then owed config e else s.list)
    (hFlist :
      s'.flist =
        if aboutFiles config e then owed config e else s.flist)
    (hEroare :
      s'.eroare =
        if aboutError config e then (owed config e).isSome
        else s.eroare) :
    Shared config (⟨s, e, s'⟩ :: trace) s' := by
  refine ⟨?_, ?_, ?_⟩
  · rw [hList, latest, hShared.list]
    split <;> rfl
  · rw [hFlist, latest, hShared.flist]
    split <;> rfl
  · rw [hEroare, latest, hShared.eroare]
    split <;> rfl

/- The variables do not change by other messages. -/
theorem Shared.other
    {e : Event}
    (hShared : Shared config trace s)
    (hAction :
      e.action ∉ [.getuserlist, .getfilelist, .users, .files])
    (hList : s'.list = s.list)
    (hFlist : s'.flist = s.flist)
    (hEroare : s'.eroare = s.eroare) :
    Shared config (⟨s, e, s'⟩ :: trace) s' := by
  simp only [List.mem_cons, List.not_mem_nil, or_false, not_or]
    at hAction
  rcases hAction with ⟨hNot₁, hNot₂, hNot₃, hNot₄⟩
  apply hShared.next
  · simp [aboutUsers, hNot₁, hNot₃, hList]
  · simp [aboutFiles, hNot₂, hNot₄, hFlist]
  · simp [aboutError, hNot₂, hNot₄, hEroare]

theorem Shared.served
    {out : Outcome}
    (hShared : Shared config trace s)
    (hServed : Served config i buffer dir s out)
    (hAlive : out.1.exited = false) :
    Shared config (⟨s, .receive i buffer dir, out.1⟩ :: trace)
      out.1 := by
  cases hServed with
  | hungUp hEmpty =>
      have hAction : actionOf (word 0 buffer) = .other := by
        rw [hEmpty]
        decide
      exact hShared.other (by simp [Event.action, hAction])
        rfl rfl rfl
  | userListed hAction =>
      apply hShared.next
      · simp [aboutUsers, owed, Event.action, hAction]
      · simp [aboutFiles, Event.action, hAction, setAttempts]
      · simp [aboutError, Event.action, hAction, setAttempts]
  | unreadable _ _ _ => cases hAlive
  | fileListed hAction hKnown hDir =>
      apply hShared.next
      · simp [aboutUsers, Event.action, hAction, setAttempts]
      · simp [aboutFiles, isKnown, owed, Event.action, hAction,
          hKnown, hDir]
      · simp [aboutError, isKnown, Event.action, hAction, hKnown,
          setAttempts]
  | unknown hAction hKnown =>
      apply hShared.next
      · simp [aboutUsers, Event.action, hAction, setAttempts]
      · simp [aboutFiles, isKnown, Event.action, hAction, hKnown,
          setAttempts]
      · simp [aboutError, isKnown, owed, Event.action, hAction,
          hKnown]
  | noUsers _ _ => cases hAlive
  | users hAction _ =>
      apply hShared.next
      · simp [aboutUsers, owed, Event.action, hAction]
      · simp [aboutFiles, Event.action, hAction]
      · simp [aboutError, Event.action, hAction]
  | failure hAction _ =>
      apply hShared.next
      · simp [aboutUsers, Event.action, hAction]
      · simp [aboutFiles, owed, Event.action, hAction]
      · simp [aboutError, owed, Event.action, hAction]
  | noFiles _ _ _ => cases hAlive
  | files hAction hError _ =>
      apply hShared.next
      · simp [aboutUsers, Event.action, hAction]
      · simp [aboutFiles, owed, Event.action, hAction]
      · simp [aboutError, owed, Event.action, hAction, hError]
  | authenticated hAction _
  | rejected hAction _ _
  | detected hAction _ _
  | quit hAction =>
      exact hShared.other (by simp [Event.action, hAction])
        rfl rfl rfl
  | other hAction _ _ =>
      rcases hAction with hAction | hAction
      · exact hShared.other (by simp [Event.action, hAction])
          rfl rfl rfl
      · exact hShared.other (by simp [Event.action, hAction])
          rfl rfl rfl

end Shared

------------------------------------------------------------
-- What Requests Are Owed
------------------------------------------------------------

section Owed

variable {config : Config} {e : Event}

theorem owed_userList
    (hAction : e.action = .getuserlist) :
    owed config e = some (userList config) := by
  cases e with
  | connect newsockfd => cases hAction
  | receive i buffer dir => exact if_pos hAction

theorem owed_known
    (hAction : e.action = .getfilelist)
    (hKnown : isKnown config e = true) :
    ∃ i buffer dir,
      e = .receive i buffer dir ∧
        owed config e = dir.map (fileList config) := by
  cases e with
  | connect newsockfd => cases hAction
  | receive i buffer dir =>
      have hWord : actionOf (word 0 buffer) = .getfilelist := hAction
      have hUser :
          knownUser (word 1 buffer) config.users = true := hKnown
      exact ⟨i, buffer, dir, rfl, by simp [owed, hWord, hUser]⟩

theorem owed_unknown
    (hAction : e.action = .getfilelist)
    (hKnown : isKnown config e = false) :
    owed config e = some unknownUser := by
  cases e with
  | connect newsockfd => cases hAction
  | receive i buffer dir =>
      have hWord : actionOf (word 0 buffer) = .getfilelist := hAction
      have hUser :
          knownUser (word 1 buffer) config.users = false := hKnown
      simp [owed, hWord, hUser]

theorem owed_second
    (hAction :
      e.action = .users ∨ e.action = .files) :
    owed config e = none := by
  cases e with
  | connect newsockfd => rfl
  | receive i buffer dir =>
      rcases hAction with hAction | hAction
      · have hWord : actionOf (word 0 buffer) = .users := hAction
        simp [owed, hWord]
      · have hWord : actionOf (word 0 buffer) = .files := hAction
        simp [owed, hWord]

/- A list of files ends with a line, if it is not empty. -/
theorem fileList_ne_unknownUser
    (config : Config)
    (entries : List DirEntry) :
    fileList config entries ≠ unknownUser := by
  unfold fileList
  intro hEq
  cases hEntries :
      entries.filter
        (fun entry =>
          entry.name ≠ ".".toList && entry.name ≠ "..".toList) with
  | nil =>
      rw [hEntries] at hEq
      cases hEq
  | cons entry rest =>
      rw [hEntries, List.flatMap_cons] at hEq
      have hLine : '\n' ∈ fileLine config.shares entry :=
        List.mem_append_right _ List.mem_cons_self
      have hNone : '\n' ∉ unknownUser := by decide
      apply hNone
      rw [← hEq]
      exact List.mem_append_left _ hLine

theorem owed_known_ne_unknownUser
    (hAction : e.action = .getfilelist)
    (hKnown : isKnown config e = true) :
    owed config e ≠ some unknownUser := by
  rcases owed_known hAction hKnown with
    ⟨i, buffer, dir, rfl, hOwed⟩
  rw [hOwed]
  intro hEq
  rcases Option.map_eq_some_iff.mp hEq with
    ⟨entries, _, hList⟩
  exact fileList_ne_unknownUser config entries hList

end Owed

section Values

variable {config : Config} {trace : Trace} {s : Server}

theorem Shared.list_iff
    (hShared : Shared config trace s) :
    s.list = some (userList config) ↔
      (latest aboutUsers trace).map Event.action =
        some .getuserlist := by
  rw [hShared.list]
  cases hLatest : latest aboutUsers trace with
  | none => simp
  | some e =>
      have hKind := latest_satisfies hLatest
      simp only [aboutUsers, Bool.or_eq_true,
        decide_eq_true_eq] at hKind
      rcases hKind with hRequest | hUsers
      · have hOwed : owed config e = some (userList config) :=
          owed_userList hRequest
        simp [hOwed, hRequest]
      · have hOwed : owed config e = none :=
          owed_second (Or.inl hUsers)
        simp [hOwed, hUsers]

theorem owed_aboutError
    {e : Event}
    (hLatest : latest (aboutError config) trace = some e) :
    (e.action = .getfilelist ∧
        owed config e = some unknownUser) ∨
      (e.action = .files ∧ owed config e = none) := by
  have hKind := latest_satisfies hLatest
  simp only [aboutError, Bool.or_eq_true, Bool.and_eq_true,
    Bool.not_eq_true', decide_eq_true_eq] at hKind
  rcases hKind with ⟨hRequest, hKnown⟩ | hFiles
  · exact Or.inl ⟨hRequest, owed_unknown hRequest hKnown⟩
  · exact Or.inr ⟨hFiles, owed_second (Or.inr hFiles)⟩

theorem Shared.eroare_iff
    (hShared : Shared config trace s) :
    s.eroare = true ↔
      (latest (aboutError config) trace).map Event.action =
        some .getfilelist := by
  rw [hShared.eroare]
  cases hLatest : latest (aboutError config) trace with
  | none => simp
  | some e =>
      rcases owed_aboutError hLatest with
        ⟨hAction, hOwed⟩ | ⟨hAction, hOwed⟩
      · simp [hOwed, hAction]
      · simp [hOwed, hAction]

/- Without the error, the latest message about it is a `files`. -/
theorem Shared.not_eroare_iff
    (hShared : Shared config trace s) :
    s.eroare = false ↔
      ∀ e, latest (aboutError config) trace = some e →
        e.action = .files := by
  rw [← Bool.not_eq_true, hShared.eroare_iff]
  cases hLatest : latest (aboutError config) trace with
  | none => simp
  | some e =>
      rcases owed_aboutError hLatest with
        ⟨hAction, _⟩ | ⟨hAction, _⟩
      · simp [hAction]
      · simp [hAction]

theorem Shared.flist_iff
    (hShared : Shared config trace s)
    (answer : Text) :
    s.flist = some answer ↔
      ∃ e, latest (aboutFiles config) trace = some e ∧
        owed config e = some answer := by
  rw [hShared.flist, Option.bind_eq_some_iff]

/- The list of files is never the text of the error. -/
theorem Shared.flist_ne_unknownUser
    (hShared : Shared config trace s) :
    s.flist ≠ some unknownUser := by
  intro hError
  rcases (hShared.flist_iff unknownUser).mp hError with
    ⟨e, hLatest, hOwed⟩
  have hKind := latest_satisfies hLatest
  simp only [aboutFiles, Bool.or_eq_true, Bool.and_eq_true,
    decide_eq_true_eq] at hKind
  rcases hKind with ⟨hRequest, hKnown⟩ | hFiles
  · exact owed_known_ne_unknownUser hRequest hKnown hOwed
  · rw [owed_second (Or.inr hFiles)] at hOwed
    cases hOwed

end Values

------------------------------------------------------------
-- The Second Messages
------------------------------------------------------------

section Second

variable {config : Config} {earlier : Trace} {s : Server}
variable {i : Nat} {buffer : Text}
variable {dir : Option (List DirEntry)}

theorem serve_users
    (hAction : actionOf (word 0 buffer) = .users) :
    serve config i buffer dir s = sendUsers s := by
  have hBuffer : buffer ≠ [] :=
    buffer_ne_nil hAction (by decide)
  simp [serve, handle, hBuffer, hAction]

theorem serve_files
    (hAction : actionOf (word 0 buffer) = .files) :
    serve config i buffer dir s = sendFiles s := by
  have hBuffer : buffer ≠ [] :=
    buffer_ne_nil hAction (by decide)
  simp [serve, handle, hBuffer, hAction]

theorem sendUsers_answers_iff
    (hAlive : s.exited = false)
    (answer : Text) :
    (sendUsers s).2 = some answer ∧
        (sendUsers s).1.exited = false ↔
      s.list = some answer := by
  unfold sendUsers
  cases s.list with
  | none => simp
  | some list => simp [hAlive]

theorem sendFiles_answers_iff
    (hAlive : s.exited = false)
    (answer : Text) :
    (sendFiles s).2 = some answer ∧
        (sendFiles s).1.exited = false ↔
      (s.eroare = true ∧ unknownUser = answer) ∨
        (s.eroare = false ∧ s.flist = some answer) := by
  unfold sendFiles
  cases s.eroare with
  | true => simp [hAlive]
  | false =>
      cases s.flist with
      | none => simp
      | some flist => simp [hAlive]

/-
  A known user has a directory that can be read, or the server
  has exited.
-/
def Readable (config : Config) (trace : Trace) : Prop :=
  ∀ i e,
    lastOf i trace = some e →
      e.action = .getfilelist →
        ∃ answer, owed config e = some answer

/- What a connection is owed, in terms of the transition. -/
theorem answeredRightly_iff_of_owed
    {s' : Server}
    {request : Event}
    {answer : Text}
    (hAction :
      actionOf (word 0 buffer) = .users ∨
        actionOf (word 0 buffer) = .files)
    (hLast : lastOf i earlier = some request)
    (hOwed : owed config request = some answer)
    (hServe : (serve config i buffer dir s).1 = s') :
    AnsweredRightly config ⟨s, .receive i buffer dir, s'⟩
        earlier ↔
      (serve config i buffer dir s).2 = some answer ∧
        (serve config i buffer dir s).1.exited = false := by
  constructor
  · intro hRight
    rcases hRight hAction with
      ⟨request', answer', hLast', hOwed', hReply, hAlive⟩
    have hRequest : request = request' :=
      Option.some.inj (hLast.symm.trans hLast')
    have hAnswer : answer = answer' := by
      rw [← hRequest, hOwed] at hOwed'
      exact Option.some.inj hOwed'
    rw [hServe, hAnswer]
    exact ⟨hReply, hAlive⟩
  · rintro ⟨hReply, hAlive⟩ _
    rw [hServe] at hAlive
    exact ⟨request, answer, hLast, hOwed, hReply, hAlive⟩

theorem answeredRightly_users_iff
    {s' : Server}
    (hShared : Shared config earlier s)
    (hAlive : s.exited = false)
    (hAction : actionOf (word 0 buffer) = .users)
    (hServe : (serve config i buffer dir s).1 = s')
    (hFollows : Follows ⟨s, .receive i buffer dir, s'⟩ earlier) :
    AnsweredRightly config ⟨s, .receive i buffer dir, s'⟩
        earlier ↔
      Undisturbed config ⟨s, .receive i buffer dir, s'⟩
        earlier := by
  rcases Option.map_eq_some_iff.mp (hFollows.1 hAction) with
    ⟨request, hOwn, hRequest⟩
  have hLast : lastOf i earlier = some request := hOwn
  have hOwed : owed config request = some (userList config) :=
    owed_userList hRequest
  have hOther : actionOf (word 0 buffer) ≠ .files := by
    rw [hAction]
    decide
  rw [answeredRightly_iff_of_owed (Or.inl hAction) hLast hOwed
      hServe,
    serve_users hAction, sendUsers_answers_iff hAlive,
    hShared.list_iff]
  constructor
  · intro hLatest
    exact ⟨fun _ => hLatest, fun hFiles => absurd hFiles hOther⟩
  · intro hUndisturbed
    exact hUndisturbed.1 hAction

theorem answeredRightly_files_iff
    {s' : Server}
    (hShared : Shared config earlier s)
    (hReadable : Readable config earlier)
    (hAlive : s.exited = false)
    (hAction : actionOf (word 0 buffer) = .files)
    (hServe : (serve config i buffer dir s).1 = s')
    (hFollows : Follows ⟨s, .receive i buffer dir, s'⟩ earlier) :
    AnsweredRightly config ⟨s, .receive i buffer dir, s'⟩
        earlier ↔
      Undisturbed config ⟨s, .receive i buffer dir, s'⟩
        earlier := by
  rcases Option.map_eq_some_iff.mp (hFollows.2 hAction) with
    ⟨request, hOwn, hRequest⟩
  have hLast : lastOf i earlier = some request := hOwn
  rcases hReadable i request hLast hRequest with
    ⟨answer, hOwed⟩
  have hOther : actionOf (word 0 buffer) ≠ .users := by
    rw [hAction]
    decide
  have hUndisturbed :
      Undisturbed config ⟨s, .receive i buffer dir, s'⟩
          earlier ↔
        if isKnown config request then
          (∃ e,
            latest (aboutFiles config) earlier = some e ∧
              owed config e = owed config request) ∧
          ∀ e, latest (aboutError config) earlier = some e →
            e.action = .files
        else
          (latest (aboutError config) earlier).map Event.action =
            some .getfilelist := by
    constructor
    · intro hBoth
      exact hBoth.2 hAction request hLast
    · intro hOnly
      refine ⟨fun hUsers => absurd hUsers hOther, ?_⟩
      intro _ request' hLast'
      cases hLast.symm.trans hLast'
      exact hOnly
  rw [answeredRightly_iff_of_owed (Or.inr hAction) hLast hOwed
      hServe,
    serve_files hAction, sendFiles_answers_iff hAlive,
    hUndisturbed]
  cases hKnown : isKnown config request with
  | true =>
      have hNoError : unknownUser ≠ answer := by
        intro hError
        rw [← hError] at hOwed
        exact owed_known_ne_unknownUser hRequest hKnown hOwed
      rw [if_pos rfl, ← hShared.not_eroare_iff, hOwed,
        ← hShared.flist_iff]
      constructor
      · rintro (⟨_, hError⟩ | hRight)
        · exact absurd hError hNoError
        · exact ⟨hRight.2, hRight.1⟩
      · intro hRight
        exact Or.inr ⟨hRight.2, hRight.1⟩
  | false =>
      have hAnswer : unknownUser = answer := by
        rw [owed_unknown hRequest hKnown] at hOwed
        exact Option.some.inj hOwed
      rw [if_neg (by simp), ← hShared.eroare_iff, ← hAnswer]
      constructor
      · rintro (hRight | ⟨_, hList⟩)
        · exact hRight.1
        · exact absurd hList hShared.flist_ne_unknownUser
      · intro hError
        exact Or.inl ⟨hError, rfl⟩

end Second

------------------------------------------------------------
-- The Law for Every Run
------------------------------------------------------------

section Runs

variable {config : Config} {trace : Trace} {s s' : Server}

theorem lastOf_cons
    (i : Nat)
    (t : Transition)
    (earlier : Trace) :
    lastOf i (t :: earlier) =
      if t.event.client = i then some t.event
      else lastOf i earlier := by
  simp only [lastOf, latest, decide_eq_true_eq]

theorem readable_next
    {e : Event}
    (hReadable : Readable config trace)
    (hOwed :
      e.action = .getfilelist →
        ∃ answer, owed config e = some answer) :
    Readable config (⟨s, e, s'⟩ :: trace) := by
  intro i e' hLast hAction
  rw [lastOf_cons] at hLast
  split at hLast
  · cases hLast
    exact hOwed hAction
  · exact hReadable i e' hLast hAction

theorem owed_of_served
    {i : Nat}
    {buffer : Text}
    {dir : Option (List DirEntry)}
    {out : Outcome}
    (hServed : Served config i buffer dir s out)
    (hAlive : out.1.exited = false)
    (hAction : actionOf (word 0 buffer) = .getfilelist) :
    ∃ answer, owed config (.receive i buffer dir) = some answer := by
  cases hKnown : knownUser (word 1 buffer) config.users with
  | false =>
      exact ⟨unknownUser, owed_unknown hAction hKnown⟩
  | true =>
      cases dir with
      | some entries =>
          exact ⟨fileList config entries,
            by simp [owed, hAction, hKnown]⟩
      | none =>
          exfalso
          cases hServed with
          | unreadable _ _ _ => cases hAlive
          | fileListed _ _ hDir => cases hDir
          | unknown _ hUnknown =>
              rw [hKnown] at hUnknown
              cases hUnknown
          | hungUp hEmpty =>
              rw [hEmpty] at hAction
              cases hAction
          | other hNot _ _ =>
              rw [hAction] at hNot
              revert hNot
              decide
          | _ hOther =>
              rw [hAction] at hOther
              revert hOther
              decide

theorem shared_of_run
    (hRun : (chatSystem config).Run trace s)
    (hAlive : s.exited = false) :
    Shared config trace s ∧ Readable config trace := by
  revert hAlive
  refine hRun.history_invariant
    (I := fun trace s =>
      s.exited = false →
        Shared config trace s ∧ Readable config trace) ?_ ?_
  · rintro s ⟨clientAttempts, rfl⟩ _
    exact ⟨⟨rfl, rfl, rfl⟩, fun i e hLast => by cases hLast⟩
  · intro trace s e s' _ hInv hStep hAlive
    rcases step_cases hStep with ⟨hBefore, hCase⟩
    rcases hInv hBefore with ⟨hShared, hReadable⟩
    rcases hCase with
      ⟨newsockfd, rfl, _, _, rfl⟩ | ⟨i, buffer, dir, rfl, _, rfl⟩
    · refine ⟨hShared.other (by simp [Event.action]) rfl rfl rfl,
        ?_⟩
      exact readable_next hReadable (fun hAction => by cases hAction)
    · have hServed := served config i buffer dir s
      refine ⟨hShared.served hServed hAlive, ?_⟩
      exact readable_next hReadable
        (owed_of_served hServed hAlive)

/-
  For clients that follow the exchange, every second message
  is answered rightly exactly if every one is undisturbed.
-/
theorem exchangeLaw_iff
    (hRun : (chatSystem config).Run trace s)
    (hFollows : AtEach Follows trace) :
    AtEach (AnsweredRightly config) trace ↔
      AtEach (Undisturbed config) trace := by
  refine hRun.atEach_congr ?_ hFollows
  intro t earlier hEarlier hStep hFollow
  rcases t with ⟨s, e, s'⟩
  rcases step_cases hStep with ⟨hAlive, hCase⟩
  rcases shared_of_run hEarlier hAlive with ⟨hShared, hReadable⟩
  rcases hCase with
    ⟨newsockfd, rfl, _, _, _⟩ | ⟨i, buffer, dir, rfl, _, hServe⟩
  · refine iff_of_true ?_ ⟨?_, ?_⟩
    · rintro (hAction | hAction) <;> cases hAction
    · intro hAction
      cases hAction
    · intro hAction
      cases hAction
  · by_cases hUsers : actionOf (word 0 buffer) = .users
    · exact answeredRightly_users_iff hShared hAlive hUsers
        hServe.symm hFollow
    · by_cases hFiles : actionOf (word 0 buffer) = .files
      · exact answeredRightly_files_iff hShared hReadable hAlive
          hFiles hServe.symm hFollow
      · refine iff_of_true ?_ ⟨?_, ?_⟩
        · rintro (hAction | hAction)
          · exact absurd hAction hUsers
          · exact absurd hAction hFiles
        · exact fun hAction => absurd hAction hUsers
        · exact fun hAction => absurd hAction hFiles

end Runs

instance decidableFollows
    (t : Transition)
    (earlier : Trace) :
    Decidable (Follows t earlier) :=
  inferInstanceAs (Decidable (_ ∧ _))

instance decidableUndisturbed
    (config : Config)
    (t : Transition)
    (earlier : Trace) :
    Decidable (Undisturbed config t earlier) :=
  inferInstanceAs
    (Decidable
      ((_ → _) ∧
        (_ →
          ∀ request ∈ lastOf t.event.client earlier,
            if isKnown config request then
              (∃ e ∈ latest (aboutFiles config) earlier,
                owed config e = owed config request) ∧
              ∀ e ∈ latest (aboutError config) earlier,
                e.action = .files
            else
              _)))

/-
  One client asks for the list of users, and another one for
  some files, before any of them gets an answer.
-/
def interleavedExchanges : List Event :=
  [.connect 6, .connect 7,
    .receive 6 "getuserlist".toList none,
    .receive 7 "getfilelist ana".toList
      (some [⟨"notes".toList, 12⟩]),
    .receive 6 "users".toList none,
    .receive 7 "files".toList none]

theorem exchangeLaw_interleaved :
    ∃ trace s,
      (chatSystem oneUser).Run trace s ∧
        AtEach Follows trace ∧
        (trace.take 2).map (reply oneUser) =
          [some (fileList oneUser [⟨"notes".toList, 12⟩]),
            some "ana\n".toList] ∧
        AtEach (AnsweredRightly oneUser) trace := by
  rcases exists_run oneUser interleavedExchanges
      (fun trace _ =>
        AtEach Follows trace ∧
          (trace.take 2).map (reply oneUser) =
            [some (fileList oneUser [⟨"notes".toList, 12⟩]),
              some "ana\n".toList] ∧
          AtEach (Undisturbed oneUser) trace)
      (by decide) with ⟨trace, s, hRun, hExchange⟩
  rw [decide_eq_true_eq] at hExchange
  rcases hExchange with ⟨hFollows, hReplies, hUndisturbed⟩
  exact ⟨trace, s, hRun, hFollows, hReplies,
    (exchangeLaw_iff hRun hFollows).mpr hUndisturbed⟩

/- Two clients ask before any of them gets the list. -/
def twoExchanges : List Event :=
  [.connect 6, .connect 7,
    .receive 6 "getuserlist".toList none,
    .receive 7 "getuserlist".toList none,
    .receive 6 "users".toList none,
    .receive 7 "users".toList none]

theorem not_exchangeLaw_always :
    ¬ ∀ (config : Config) (trace : Trace) (s : Server),
        (chatSystem config).Run trace s →
          AtEach Follows trace →
            AtEach (AnsweredRightly config) trace := by
  intro hAlways
  rcases exists_run oneUser twoExchanges
      (fun trace _ =>
        AtEach Follows trace ∧
          trace.head?.any
            (fun t =>
              t.event.action = .users ∧
                reply oneUser t = none))
      (by decide) with ⟨trace, s, hRun, hExchange⟩
  rw [decide_eq_true_eq] at hExchange
  have hEach := hAlways oneUser trace s hRun hExchange.1
  cases trace with
  | nil => cases hExchange.2
  | cons t earlier =>
      have hNull := hExchange.2
      simp only [List.head?_cons, Option.any_some,
        decide_eq_true_eq] at hNull
      rcases hEach.1 (Or.inl hNull.1) with
        ⟨request, answer, _, _, hReply, _⟩
      rw [hNull.2] at hReply
      cases hReply

end TcpChat

end ProgrammingTasks
