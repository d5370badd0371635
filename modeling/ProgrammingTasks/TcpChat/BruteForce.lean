import ProgrammingTasks.TcpChat.SelectServer

/-
  The detection of a brute-force attack on a login.

  The counter of a connection is shared by all connections
  whose descriptors agree modulo the number of users, is not
  reset when the connection is accepted, and survives the
  commands that do not reset it.  With steps that do no harm
  by this, it is the number of failed logins in a row.

  Main declarations:
    * `failures`, `DetectedRightly`
    * `Careful`, `Counted`
    * `counted_next_iff`, `counted_iff_careful`
    * `bruteForceLaw_of_careful`
-/

------------------------------------------------------------
-- The Law
------------------------------------------------------------

namespace ProgrammingTasks

namespace TcpChat

open TransitionSystem

/- A login that the server rejects. -/
def isFailedLogin (config : Config) (buffer : Text) : Bool :=
  actionOf (word 0 buffer) = .login &&
    !checkLogin (word 1 buffer) (word 2 buffer) config.n
      config.users [] []

/-
  How many messages of the connection have been failed logins
  without another message in between, up to now.
-/
def failures (config : Config) (i : Nat) : Trace → Nat
| [] => 0
| t :: earlier =>
    if t.event.client = i then
      match t.event with
      | .connect _ => 0
      | .receive _ buffer _ =>
          if isFailedLogin config buffer then
            failures config i earlier + 1
          else
            0
    else
      failures config i earlier

/- The server answers that it has detected an attack, and closes. -/
def Detects (config : Config) (t : Transition) (i : Nat) : Prop :=
  t.event.client = i ∧ reply config t = some bruteForce ∧
    i ∉ t.target.readFds

/- The third failed login in a row on a connection. -/
def IsThird
    (config : Config) (t : Transition) (earlier : Trace)
    (i : Nat) : Prop :=
  (∃ buffer dir,
    t.event = .receive i buffer dir ∧
      isFailedLogin config buffer = true) ∧
  failures config i (t :: earlier) = 3

def DetectedRightly
    (config : Config) (t : Transition) (earlier : Trace) :
    Prop :=
  ∀ i, Detects config t i ↔ IsThird config t earlier i

------------------------------------------------------------
-- The Condition
------------------------------------------------------------

/- Commands after which the counter stays as it is. -/
def keepsCounter (buffer : Text) : Bool :=
  actionOf (word 0 buffer) = .login ||
    actionOf (word 0 buffer) = .users ||
      actionOf (word 0 buffer) = .files

/-
  The counters do not suffer from a step: a new connection
  finds its own counter 0, and none of another is reset for
  it; no other connection shares the counter of a failed
  login, or that of a command that resets it, unless it is 0;
  and it is 0 when another command leaves it as it is.
-/
def Careful (config : Config) (t : Transition) : Prop :=
  match t.event with
  | .connect newsockfd =>
      (newsockfd % config.n ≠ config.sockfd % config.n →
        t.source.clientAttempts (newsockfd % config.n) = 0) ∧
      ∀ k ∈ t.source.readFds,
        k % config.n = config.sockfd % config.n →
          t.source.clientAttempts (config.sockfd % config.n) = 0
  | .receive i buffer _ =>
      if buffer = [] then
        True
      else if isFailedLogin config buffer then
        ∀ k ∈ t.source.readFds,
          k % config.n = i % config.n → k = i
      else if keepsCounter buffer then
        t.source.clientAttempts (i % config.n) = 0
      else
        ∀ k ∈ t.source.readFds,
          k % config.n = i % config.n →
            k = i ∨ t.source.clientAttempts (i % config.n) = 0

/- Each counter is right for all connections that use it. -/
def Counted
    (config : Config) (trace : Trace) (s : Server) : Prop :=
  ∀ i ∈ s.readFds,
    s.clientAttempts (i % config.n) = failures config i trace

------------------------------------------------------------
-- Changing One Counter
------------------------------------------------------------

section Counted

variable {config : Config} {trace : Trace} {s s' : Server}
variable {i : Nat} {buffer : Text}
variable {dir : Option (List DirEntry)}

theorem failures_cons_of_ne
    {t : Transition}
    {k : Nat}
    (hOther : t.event.client ≠ k) :
    failures config k (t :: trace) = failures config k trace :=
  if_neg hOther

theorem failures_connect :
    failures config i (⟨s, .connect i, s'⟩ :: trace) = 0 :=
  if_pos rfl

theorem failures_of_failed
    (hFailed : isFailedLogin config buffer = true) :
    failures config i (⟨s, .receive i buffer dir, s'⟩ :: trace) =
      failures config i trace + 1 := by
  simp [failures, Event.client, hFailed]

theorem failures_of_other
    (hOther : isFailedLogin config buffer = false) :
    failures config i (⟨s, .receive i buffer dir, s'⟩ :: trace) =
      0 := by
  simp [failures, Event.client, hOther]

/-
  When a step sets the counter of its connection, the counters
  stay right exactly if the new value is right for it, and no
  other open connection sees the change.
-/
theorem counted_update_iff
    {v : Int}
    (hCounted : Counted config trace s)
    (hAttempts :
      s'.clientAttempts =
        Function.update s.clientAttempts (i % config.n) v)
    (hOthers : ∀ k, k ≠ i → (k ∈ s'.readFds ↔ k ∈ s.readFds)) :
    Counted config (⟨s, .receive i buffer dir, s'⟩ :: trace) s' ↔
      (i ∈ s'.readFds →
        v =
          failures config i
            (⟨s, .receive i buffer dir, s'⟩ :: trace)) ∧
      ∀ k ∈ s.readFds,
        k % config.n = i % config.n →
          k = i ∨ s.clientAttempts (i % config.n) = v := by
  have hKept :
      ∀ k, k ≠ i →
        failures config k (⟨s, .receive i buffer dir, s'⟩ :: trace) =
          failures config k trace :=
    fun k hOther => failures_cons_of_ne (Ne.symm hOther)
  constructor
  · intro hAfter
    refine ⟨?_, ?_⟩
    · intro hOpen
      have hOwn := hAfter i hOpen
      rw [hAttempts, Function.update_self] at hOwn
      exact hOwn
    · intro k hOpen hSlot
      by_cases hSame : k = i
      · exact Or.inl hSame
      · have hNow := hAfter k ((hOthers k hSame).mpr hOpen)
        have hBefore := hCounted k hOpen
        rw [hAttempts, hSlot, Function.update_self,
          hKept k hSame] at hNow
        rw [hSlot] at hBefore
        exact Or.inr (hBefore.trans hNow.symm)
  · rintro ⟨hOwn, hShared⟩ k hOpen
    by_cases hSame : k = i
    · subst hSame
      rw [hAttempts, Function.update_self]
      exact hOwn hOpen
    · have hOpen' := (hOthers k hSame).mp hOpen
      rw [hAttempts, hKept k hSame, ← hCounted k hOpen']
      by_cases hSlot : k % config.n = i % config.n
      · rw [hSlot, Function.update_self]
        rcases hShared k hOpen' hSlot with hEq | hValue
        · exact absurd hEq hSame
        · exact hValue.symm
      · exact Function.update_of_ne hSlot _ _

theorem mem_closeClient
    (i k : Nat)
    (s : Server) :
    k ∈ (closeClient i s).readFds ↔ k ∈ s.readFds ∧ k ≠ i := by
  simp [closeClient]

/- A failed login, whether the server lets it pass or not. -/
theorem counted_failed_iff
    {v : Int}
    (hCounted : Counted config trace s)
    (hFailed : isFailedLogin config buffer = true)
    (hAttempts :
      s'.clientAttempts =
        Function.update s.clientAttempts (i % config.n) v)
    (hOthers : ∀ k, k ≠ i → (k ∈ s'.readFds ↔ k ∈ s.readFds))
    (hOwn :
      i ∈ s'.readFds →
        v = s.clientAttempts (i % config.n) + 1 ∧
          i ∈ s.readFds)
    (hChange : s.clientAttempts (i % config.n) ≠ v) :
    Counted config (⟨s, .receive i buffer dir, s'⟩ :: trace) s' ↔
      Careful config ⟨s, .receive i buffer dir, s'⟩ := by
  have hBuffer : buffer ≠ [] := by
    rintro rfl
    cases hFailed
  have hCareful :
      Careful config ⟨s, .receive i buffer dir, s'⟩ ↔
        ∀ k ∈ s.readFds,
          k % config.n = i % config.n → k = i := by
    simp only [Careful, if_neg hBuffer, if_pos hFailed]
  rw [hCareful, counted_update_iff hCounted hAttempts hOthers,
    and_iff_right]
  · constructor
    · intro hShared k hOpen hSlot
      rcases hShared k hOpen hSlot with hEq | hValue
      · exact hEq
      · exact absurd hValue hChange
    · intro hAlone k hOpen hSlot
      exact Or.inl (hAlone k hOpen hSlot)
  · intro hOpen
    rcases hOwn hOpen with ⟨hValue, hBefore⟩
    rw [failures_of_failed hFailed, hValue, hCounted i hBefore]
    rfl

/- A command that leaves the counter as it is. -/
theorem counted_kept_iff
    (hCounted : Counted config trace s)
    (hOpen : i ∈ s.readFds)
    (hFailed : isFailedLogin config buffer = false)
    (hKeeps : keepsCounter buffer = true)
    (hAttempts : s'.clientAttempts = s.clientAttempts)
    (hOthers : s'.readFds = s.readFds) :
    Counted config (⟨s, .receive i buffer dir, s'⟩ :: trace) s' ↔
      Careful config ⟨s, .receive i buffer dir, s'⟩ := by
  have hBuffer : buffer ≠ [] := by
    rintro rfl
    cases hKeeps
  have hNot : ¬ isFailedLogin config buffer = true := by
    rw [hFailed]
    decide
  have hCareful :
      Careful config ⟨s, .receive i buffer dir, s'⟩ ↔
        s.clientAttempts (i % config.n) = 0 := by
    simp only [Careful, if_neg hBuffer, if_neg hNot,
      if_pos hKeeps]
  have hUpdate :
      s'.clientAttempts =
        Function.update s.clientAttempts (i % config.n)
          (s.clientAttempts (i % config.n)) := by
    rw [hAttempts, Function.update_eq_self]
  have hFds : ∀ k, k ≠ i → (k ∈ s'.readFds ↔ k ∈ s.readFds) := by
    intro k _
    rw [hOthers]
  have hOwn : i ∈ s'.readFds := by
    rw [hOthers]
    exact hOpen
  rw [hCareful, counted_update_iff hCounted hUpdate hFds]
  rw [failures_of_other hFailed]
  constructor
  · intro hBoth
    exact hBoth.1 hOwn
  · intro hZero
    exact ⟨fun _ => hZero, fun _ _ _ => Or.inr rfl⟩

/- A command that resets the counter. -/
theorem counted_cleared_iff
    (hCounted : Counted config trace s)
    (hBuffer : buffer ≠ [])
    (hFailed : isFailedLogin config buffer = false)
    (hKeeps : keepsCounter buffer = false)
    (hAttempts :
      s'.clientAttempts =
        Function.update s.clientAttempts (i % config.n) 0)
    (hOthers : ∀ k, k ≠ i → (k ∈ s'.readFds ↔ k ∈ s.readFds)) :
    Counted config (⟨s, .receive i buffer dir, s'⟩ :: trace) s' ↔
      Careful config ⟨s, .receive i buffer dir, s'⟩ := by
  have hNot : ¬ isFailedLogin config buffer = true := by
    rw [hFailed]
    decide
  have hNot' : ¬ keepsCounter buffer = true := by
    rw [hKeeps]
    decide
  have hCareful :
      Careful config ⟨s, .receive i buffer dir, s'⟩ ↔
        ∀ k ∈ s.readFds,
          k % config.n = i % config.n →
            k = i ∨ s.clientAttempts (i % config.n) = 0 := by
    simp only [Careful, if_neg hBuffer, if_neg hNot,
      if_neg hNot']
  rw [hCareful, counted_update_iff hCounted hAttempts hOthers,
    and_iff_right]
  intro _
  rw [failures_of_other hFailed]
  rfl

theorem isFailedLogin_of_ne
    (hAction : actionOf (word 0 buffer) ≠ .login) :
    isFailedLogin config buffer = false := by
  simp only [isFailedLogin, hAction, decide_false, Bool.false_and]

theorem counted_served_iff
    {out : Outcome}
    (hCounted : Counted config trace s)
    (hOpen : i ∈ s.readFds)
    (hServed : Served config i buffer dir s out) :
    Counted config (⟨s, .receive i buffer dir, out.1⟩ :: trace)
        out.1 ↔
      Careful config ⟨s, .receive i buffer dir, out.1⟩ := by
  have hSame :
      ∀ k, k ≠ i → (k ∈ s.readFds ↔ k ∈ s.readFds) :=
    fun _ _ => Iff.rfl
  have hClosed :
      ∀ k, k ≠ i →
        (k ∈ (closeClient i s).readFds ↔ k ∈ s.readFds) := by
    intro k hOther
    rw [mem_closeClient, and_iff_left hOther]
  have hGone : ¬ i ∈ (closeClient i s).readFds := by
    rw [mem_closeClient]
    exact fun hMem => hMem.2 rfl
  cases hServed with
  | hungUp hEmpty =>
      have hUpdate :
          (closeClient i s).clientAttempts =
            Function.update s.clientAttempts (i % config.n)
              (s.clientAttempts (i % config.n)) :=
        (Function.update_eq_self _ _).symm
      refine iff_of_true ?_ ?_
      · rw [counted_update_iff hCounted hUpdate hClosed]
        exact ⟨fun hMem => absurd hMem hGone,
          fun _ _ _ => Or.inr rfl⟩
      · simp [Careful, hEmpty]
  | authenticated hAction hLogin =>
      refine counted_kept_iff hCounted hOpen ?_ ?_ rfl rfl
      · simp only [isFailedLogin, hLogin, Bool.not_true,
          Bool.and_false]
      · simp only [keepsCounter, hAction, decide_true,
          Bool.true_or]
  | rejected hAction hLogin _ =>
      refine counted_failed_iff hCounted ?_ rfl hSame
        (fun _ => ⟨rfl, hOpen⟩) (by omega)
      simp only [isFailedLogin, hAction, hLogin, decide_true,
        Bool.not_false, Bool.and_self]
  | detected hAction hLogin hCount =>
      refine counted_failed_iff hCounted ?_ rfl hClosed
        (fun hMem => absurd hMem hGone) (by omega)
      simp only [isFailedLogin, hAction, hLogin, decide_true,
        Bool.not_false, Bool.and_self]
  | userListed hAction
  | unreadable hAction _ _
  | fileListed hAction _ _
  | unknown hAction _ =>
      exact counted_cleared_iff hCounted (buffer_ne_nil hAction (by decide))
        (isFailedLogin_of_ne (by simp [hAction]))
        (by simp [keepsCounter, hAction]) rfl hSame
  | noUsers hAction _
  | users hAction _
  | failure hAction _
  | noFiles hAction _ _
  | files hAction _ _ =>
      exact counted_kept_iff hCounted hOpen
        (isFailedLogin_of_ne (by simp [hAction]))
        (by simp [keepsCounter, hAction]) rfl rfl
  | quit hAction =>
      exact counted_cleared_iff hCounted (buffer_ne_nil hAction (by decide))
        (isFailedLogin_of_ne (by simp [hAction]))
        (by simp [keepsCounter, hAction]) rfl hClosed
  | other hAction hBuffer _ =>
      rcases hAction with hAction | hAction
      · exact counted_cleared_iff hCounted hBuffer
          (isFailedLogin_of_ne (by simp [hAction]))
          (by simp [keepsCounter, hAction]) rfl hSame
      · exact counted_cleared_iff hCounted hBuffer
          (isFailedLogin_of_ne (by simp [hAction]))
          (by simp [keepsCounter, hAction]) rfl hSame

theorem counted_connect_iff
    {newsockfd : Nat}
    (hCounted : Counted config trace s)
    (hNew : newsockfd ∉ s.readFds) :
    Counted config
        (⟨s, .connect newsockfd, accept config newsockfd s⟩ ::
          trace)
        (accept config newsockfd s) ↔
      Careful config
        ⟨s, .connect newsockfd, accept config newsockfd s⟩ := by
  have hOther :
      ∀ k ∈ s.readFds,
        failures config k
            (⟨s, .connect newsockfd, accept config newsockfd s⟩ ::
              trace) =
          failures config k trace := by
    intro k hOpen
    apply failures_cons_of_ne
    rintro rfl
    exact hNew hOpen
  constructor
  · intro hAfter
    refine ⟨?_, ?_⟩
    · intro hSlot
      have hOwn := hAfter newsockfd List.mem_cons_self
      rw [failures_connect] at hOwn
      rw [← Function.update_of_ne hSlot 0 s.clientAttempts]
      exact hOwn
    · intro k hOpen hSlot
      have hNow := hAfter k (List.mem_cons_of_mem _ hOpen)
      have hBefore := hCounted k hOpen
      rw [hOther k hOpen, ← hBefore, hSlot] at hNow
      rw [← hNow]
      exact Function.update_self _ _ _
  · rintro ⟨hOwn, hShared⟩ k hOpen
    rcases List.mem_cons.mp hOpen with rfl | hBefore
    · rw [failures_connect]
      by_cases hSlot : k % config.n = config.sockfd % config.n
      · change Function.update _ _ _ _ = _
        rw [hSlot]
        exact Function.update_self _ _ _
      · refine (Function.update_of_ne hSlot _ _).trans ?_
        exact hOwn hSlot
    · rw [hOther k hBefore, ← hCounted k hBefore]
      by_cases hSlot : k % config.n = config.sockfd % config.n
      · rw [hSlot]
        refine (Function.update_self _ _ _).trans ?_
        exact (hShared k hBefore hSlot).symm
      · exact Function.update_of_ne hSlot _ _

/- A step keeps the counters right exactly if it is careful. -/
theorem counted_next_iff
    {e : Event}
    (hCounted : Counted config trace s)
    (hStep : step config s e = some s') :
    Counted config (⟨s, e, s'⟩ :: trace) s' ↔
      Careful config ⟨s, e, s'⟩ := by
  rcases step_cases hStep with
    ⟨_, ⟨newsockfd, rfl, _, hNew, rfl⟩ |
      ⟨i, buffer, dir, rfl, hOpen, rfl⟩⟩
  · exact counted_connect_iff hCounted hNew
  · exact counted_served_iff hCounted hOpen
      (served config i buffer dir s)

end Counted

------------------------------------------------------------
-- The Law for Every Run
------------------------------------------------------------

section Runs

variable {config : Config} {trace : Trace} {s : Server}

/- With right counters the server detects rightly. -/
theorem detects_iff_of_served
    {i : Nat}
    {buffer : Text}
    {dir : Option (List DirEntry)}
    (hCounted : Counted config trace s)
    (hOpen : i ∈ s.readFds) :
    ((serve config i buffer dir s).2 = some bruteForce ∧
        i ∉ (serve config i buffer dir s).1.readFds) ↔
      isFailedLogin config buffer = true ∧
        failures config i trace + 1 = 3 := by
  have hCount := hCounted i hOpen
  have hServed := served config i buffer dir s
  generalize serve config i buffer dir s = out at hServed
  have hNever :
      ∀ {action : Action},
        actionOf (word 0 buffer) = action → action ≠ .login →
          ¬ (isFailedLogin config buffer = true ∧
            failures config i trace + 1 = 3) := by
    intro action hAction hOther hThird
    rw [isFailedLogin_of_ne (hAction ▸ hOther)] at hThird
    cases hThird.1
  cases hServed with
  | detected hAction hLogin hNow =>
      refine iff_of_true ⟨rfl, ?_⟩ ⟨?_, by omega⟩
      · rw [mem_closeClient]
        exact fun hMem => hMem.2 rfl
      · simp only [isFailedLogin, hAction, hLogin, decide_true,
          Bool.not_false, Bool.and_self]
  | rejected hAction hLogin hNow =>
      refine iff_of_false (fun hDetects => hDetects.2 hOpen) ?_
      omega
  | authenticated hAction hLogin =>
      refine iff_of_false (fun hDetects => hDetects.2 hOpen) ?_
      simp only [isFailedLogin, hLogin, Bool.not_true,
        Bool.and_false, Bool.false_eq_true, false_and,
        not_false_eq_true]
  | hungUp hEmpty =>
      refine iff_of_false (fun hDetects => by cases hDetects.1) ?_
      rw [hEmpty]
      rintro ⟨hFailed, _⟩
      cases hFailed
  | quit hAction =>
      exact iff_of_false (fun hDetects => by cases hDetects.1)
        (hNever hAction (by decide))
  | other hAction _ hReply =>
      refine iff_of_false (fun hDetects => hReply hDetects.1) ?_
      rcases hAction with hAction | hAction
      · exact hNever hAction (by decide)
      · exact hNever hAction (by decide)
  | userListed hAction
  | unreadable hAction _ _
  | fileListed hAction _ _
  | unknown hAction _
  | noUsers hAction _
  | users hAction _
  | failure hAction _
  | noFiles hAction _ _
  | files hAction _ _ =>
      exact iff_of_false (fun hDetects => hDetects.2 hOpen)
        (hNever hAction (by decide))

theorem detectedRightly_of_counted
    {s' : Server}
    {e : Event}
    (hCounted : Counted config trace s)
    (hStep : step config s e = some s') :
    DetectedRightly config ⟨s, e, s'⟩ trace := by
  intro k
  rcases step_cases hStep with
    ⟨_, ⟨newsockfd, rfl, _, _, rfl⟩ |
      ⟨i, buffer, dir, rfl, hOpen, rfl⟩⟩
  · refine iff_of_false ?_ ?_
    · rintro ⟨_, hReply, _⟩
      cases hReply
    · rintro ⟨⟨buffer, dir, hEvent, _⟩, _⟩
      cases hEvent
  · have hIff :
        (serve config i buffer dir s).2 = some bruteForce ∧
            i ∉ (serve config i buffer dir s).1.readFds ↔
          isFailedLogin config buffer = true ∧
            failures config i trace + 1 = 3 :=
      detects_iff_of_served hCounted hOpen
    constructor
    · rintro ⟨hClient, hReply, hClosed⟩
      cases hClient
      rcases hIff.mp ⟨hReply, hClosed⟩ with ⟨hFailed, hThird⟩
      refine ⟨⟨buffer, dir, rfl, hFailed⟩, ?_⟩
      exact (failures_of_failed hFailed).trans hThird
    · rintro ⟨⟨buffer', dir', hEvent, hFailed⟩, hThird⟩
      cases hEvent
      rw [failures_of_failed hFailed] at hThird
      exact ⟨rfl, hIff.mpr ⟨hFailed, hThird⟩⟩

theorem counted_of_careful
    (hRun : (chatSystem config).Run trace s)
    (hCareful : AtEach (fun t _ => Careful config t) trace) :
    Counted config trace s := by
  revert hCareful
  refine hRun.history_invariant
    (I := fun trace s =>
      AtEach (fun t _ => Careful config t) trace →
        Counted config trace s) ?_ ?_
  · rintro s ⟨clientAttempts, rfl⟩ _ i hOpen
    cases hOpen
  · rintro trace s e s' _ hInv hStep ⟨hNow, hBefore⟩
    exact (counted_next_iff (hInv hBefore) hStep).mpr hNow

/-
  The counters are right along a run exactly if its steps are
  careful.
-/
theorem counted_iff_careful
    (hRun : (chatSystem config).Run trace s) :
    AtEach
        (fun t earlier => Counted config (t :: earlier) t.target)
        trace ↔
      AtEach (fun t _ => Careful config t) trace := by
  induction hRun with
  | start _ =>
      exact Iff.rfl
  | next hPrefix hStep ih =>
      constructor
      · rintro ⟨hNow, hBefore⟩
        have hCareful := ih.mp hBefore
        have hCounted := counted_of_careful hPrefix hCareful
        exact ⟨(counted_next_iff hCounted hStep).mp hNow, hCareful⟩
      · rintro ⟨hNow, hCareful⟩
        have hCounted := counted_of_careful hPrefix hCareful
        exact ⟨(counted_next_iff hCounted hStep).mpr hNow,
          ih.mpr hCareful⟩

/-
  When every step is careful, an attack is detected exactly at
  the third failed login in a row of a connection.
-/
theorem bruteForceLaw_of_careful
    (hRun : (chatSystem config).Run trace s)
    (hCareful : AtEach (fun t _ => Careful config t) trace) :
    AtEach (DetectedRightly config) trace := by
  refine hRun.atEach_imp ?_ hCareful
  intro t earlier hEarlier hStep hBefore _
  exact detectedRightly_of_counted
    (counted_of_careful hEarlier hBefore) hStep

end Runs

instance decidableCareful
    (config : Config) :
    ∀ t : Transition, Decidable (Careful config t)
| ⟨s, .connect newsockfd, _⟩ =>
    inferInstanceAs
      (Decidable
        ((newsockfd % config.n ≠ config.sockfd % config.n →
            s.clientAttempts (newsockfd % config.n) = 0) ∧
          ∀ k ∈ s.readFds,
            k % config.n = config.sockfd % config.n →
              s.clientAttempts (config.sockfd % config.n) = 0))
| ⟨s, .receive i buffer _, _⟩ =>
    inferInstanceAs
      (Decidable
        (if buffer = [] then
          True
        else if isFailedLogin config buffer then
          ∀ k ∈ s.readFds,
            k % config.n = i % config.n → k = i
        else if keepsCounter buffer then
          s.clientAttempts (i % config.n) = 0
        else
          ∀ k ∈ s.readFds,
            k % config.n = i % config.n →
              k = i ∨ s.clientAttempts (i % config.n) = 0))

/- Three failed logins in a row. -/
def guesses : List Event :=
  [.connect 6,
    .receive 6 "login ana a".toList none,
    .receive 6 "login ana b".toList none,
    .receive 6 "login ana c".toList none]

theorem bruteForceLaw_guesses :
    ∃ trace s,
      (chatSystem oneUser).Run trace s ∧
        trace.head?.bind (reply oneUser) = some bruteForce ∧
        AtEach (DetectedRightly oneUser) trace := by
  rcases exists_run oneUser guesses
      (fun trace _ =>
        trace.head?.bind (reply oneUser) = some bruteForce ∧
          AtEach (fun t _ => Careful oneUser t) trace)
      (by decide) with ⟨trace, s, hRun, hGuesses⟩
  rw [decide_eq_true_eq] at hGuesses
  exact ⟨trace, s, hRun, hGuesses.1,
    bruteForceLaw_of_careful hRun hGuesses.2⟩

/- Two failed logins, a successful one, and a failed one. -/
def notInARow : List Event :=
  [.connect 6,
    .receive 6 "login ana a".toList none,
    .receive 6 "login ana b".toList none,
    .receive 6 "login ana secret".toList none,
    .receive 6 "login ana c".toList none]

theorem not_bruteForceLaw_always :
    ¬ ∀ (config : Config) (trace : Trace) (s : Server),
        0 < config.n →
          (chatSystem config).Run trace s →
            AtEach (DetectedRightly config) trace := by
  intro hAlways
  rcases exists_run oneUser notInARow
      (fun trace _ =>
        trace.head?.any
            (fun t =>
              t.event.client = 6 ∧
                reply oneUser t = some bruteForce ∧
                6 ∉ t.target.readFds) ∧
          failures oneUser 6 trace = 1)
      (by decide) with ⟨trace, s, hRun, hLast⟩
  rw [decide_eq_true_eq] at hLast
  have hEach := hAlways oneUser trace s (by decide) hRun
  cases trace with
  | nil => cases hLast.2
  | cons t earlier =>
      have hDetects := hLast.1
      simp only [List.head?_cons, Option.any_some,
        decide_eq_true_eq] at hDetects
      have hThird := ((hEach.1 6).mp hDetects).2
      rw [hLast.2] at hThird
      cases hThird

end TcpChat

end ProgrammingTasks
