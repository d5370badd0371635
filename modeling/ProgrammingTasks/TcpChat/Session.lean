import ProgrammingTasks.TcpChat.Client

/-
  The clients and the server of the chat together, and the
  sessions of the clients.

  Every connection has one channel for each direction, and each
  `recv` returns what one `send` has sent.  A step is a line
  from a keyboard, a `recv` of a client, or a round of the
  server.  The server does not know whether a client is logged
  in; that the lists go to clients in a session rests on what
  the clients send.

  Main declarations:
    * `Connection`, `advance`, `sessionSystem`
    * `loggedIn`, `InSession`
    * `Guarded`
    * `LoggedOut`, `kept_of_run`
    * `inSession_of_guarded`
-/

------------------------------------------------------------
-- The Clients and the Server
------------------------------------------------------------

namespace ProgrammingTasks

namespace TcpChat

namespace Session

open TransitionSystem

/- A client, and what has been sent and not received yet. -/
structure Connection where
  client : Client
  toServer : List Text
  toClient : List Reply

/-
  A client that has connected.  One that had this descriptor
  before has lost its connection, and is not heard any more.
-/
def opened (commandRecv : Text) : Connection where
  client := Client.start commandRecv
  toServer := []
  toClient := []

/- A client that does not run yet. -/
def unopened : Connection where
  client := { Client.start [] with running := false }
  toServer := []
  toClient := []

/- `send`; without a byte there is nothing to receive. -/
def send {α : Type}
    (text : α → Text) (message : Option α)
    (channel : List α) : List α :=
  channel ++ (message.filter (fun m => text m ≠ [])).toList

namespace Connection

/- The branches for a line from the keyboard. -/
def input (line : Text) (c : Connection) : Connection :=
  { c with
    client := (c.client.input line).1
    toServer := send id (c.client.input line).2 c.toServer }

/- The `recv` of a client. -/
def read (c : Connection) : Connection where
  client := (c.client.read c.toClient.head?).1
  toServer :=
    send id (c.client.read c.toClient.head?).2 c.toServer
  toClient := c.toClient.tail

/-
  What the `recv` of the server returns.  A process that has
  ended leaves a closed connection.
-/
def message (c : Connection) : Option Text :=
  match c.toServer with
  | message :: _ => some message
  | [] => if c.client.running then none else some []

/- The round of the server, as the client sees it. -/
def served (reply : Option Reply) (c : Connection) : Connection :=
  { c with
    toServer := c.toServer.tail
    toClient := send Reply.text reply c.toClient }

def stop (c : Connection) : Connection :=
  { c with client := { c.client with running := false } }

end Connection

inductive Event
| connect (newsockfd : Nat) (commandRecv : Text)
| input (i : Nat) (line : Text)
| serve (i : Nat) (dir : Option (List DirEntry))
| read (i : Nat)
| stop (i : Nat)
deriving DecidableEq, Repr

/- The descriptor of the client at the server. -/
def Event.client : Event → Nat
| .connect newsockfd _ => newsockfd
| .input i _ => i
| .serve i _ => i
| .read i => i
| .stop i => i

/-
  What a step does to the server and to the connection it is
  about.  A client waits for a size without reading lines.
-/
def advance (config : Config) (s : Server) (c : Connection) :
    Event → Option (Server × Connection)
| .connect newsockfd commandRecv =>
    (TcpChat.step config s (.connect newsockfd)).map
      (fun s' => (s', opened commandRecv))
| .input _ line =>
    if c.client.running = true ∧ c.client.awaiting = none then
      some (s, c.input line)
    else
      none
| .serve i dir =>
    match c.message with
    | none => none
    | some message =>
        (TcpChat.step config s (.receive i message dir)).map
          (fun s' =>
            (s', c.served (answer config i message dir s)))
| .read i =>
    if c.client.running = true ∧
        (c.toClient ≠ [] ∨ i ∉ s.readFds ∨
          s.exited = true) then
      some (s, c.read)
    else
      none
| .stop _ =>
    if c.client.running = true then
      some (s, c.stop)
    else
      none

structure Chat where
  server : Server
  connections : Nat → Connection

def step (config : Config) (s : Chat) (e : Event) :
    Option Chat :=
  (advance config s.server (s.connections e.client) e).map
    (fun next =>
      { server := next.1
        connections :=
          Function.update s.connections e.client next.2 })

def start (clientAttempts : Nat → Int) : Chat where
  server := TcpChat.start clientAttempts
  connections := fun _ => unopened

def sessionSystem (config : Config) :
    TransitionSystem Chat Event :=
  TransitionSystem.ofFunction
    (fun s => ∃ clientAttempts, s = start clientAttempts)
    (step config)

abbrev Transition := TransitionSystem.Transition Chat Event

abbrev Trace := List Transition

/- The connection a step is about, before the step. -/
def connection (t : Transition) : Connection :=
  t.source.connections t.event.client

------------------------------------------------------------
-- The Law
------------------------------------------------------------

/-
  A session begins when the client receives an `AUTHENTICATED`
  reply and ends when it sends `logout`.
-/
def loggedInAfter
    (c : Connection) (e : Event) (before : Bool) : Bool :=
  match e with
  | .connect _ _ => false
  | .input _ line =>
      before &&
        !(actionOf (word 0 line) = .logout &&
          (c.client.input line).2.isSome)
  | .read _ =>
      before ||
        c.toClient.head?.any
          (fun reply => reply.kind = .authenticated)
  | .serve _ _ | .stop _ => before

def loggedIn (i : Nat) : Trace → Bool
| [] => false
| t :: earlier =>
    if t.event.client = i then
      loggedInAfter (connection t) t.event (loggedIn i earlier)
    else
      loggedIn i earlier

/- The server sends a list of users or of files. -/
def sendsList (config : Config) (t : Transition) : Bool :=
  match t.event with
  | .serve i dir =>
      ((connection t).message.bind
        (fun message =>
          answer config i message dir t.source.server)).any
        (fun reply => reply.kind = .list)
  | .connect _ _ | .input _ _ | .read _ | .stop _ => false

/- A list is only sent in a session. -/
def InSession
    (config : Config) (t : Transition) (earlier : Trace) :
    Prop :=
  sendsList config t = true →
    loggedIn t.event.client earlier = true

------------------------------------------------------------
-- The Condition
------------------------------------------------------------

/-
  No list is still to come, and none that has come and is not
  received yet can be taken for a login.
-/
def Connection.free (c : Connection) : Bool :=
  c.toServer.all (fun message => !demandsList message) &&
    c.toClient.all
      (fun reply =>
        reply.kind ≠ .list || !misleading reply.text)

/-
  The commands that `client.c` does not guard are entered only
  where `authenticated` is 1, and a `logout` that is sent only
  where the connection is free of lists.
-/
def Connection.guarded (line : Text) (c : Connection) : Bool :=
  match actionOf (word 0 line) with
  | .users | .files | .getfilelist => c.client.authenticated
  | .logout => !c.client.authenticated || c.free
  | .login | .getuserlist | .quit | .other => true

def guardedStep (c : Connection) : Event → Bool
| .input _ line => c.guarded line
| .connect _ _ | .serve _ _ | .read _ | .stop _ => true

def Guarded (t : Transition) (_ : Trace) : Prop :=
  guardedStep (connection t) t.event = true

------------------------------------------------------------
-- Clients without a Session
------------------------------------------------------------

/- Only logins and lists can be taken for a login. -/
def Plain (c : Connection) : Prop :=
  ∀ reply ∈ c.toClient,
    reply.kind = .other → misleading reply.text = false

/-
  A client without a session: no list is asked for, and nothing
  that is left makes the client take itself for logged in.
-/
structure LoggedOut (c : Connection) : Prop where
  authenticated : c.client.authenticated = false
  awaiting : c.client.awaiting = none
  asked :
    ∀ message ∈ c.toServer, demandsList message = false
  listed :
    ∀ reply ∈ c.toClient,
      reply.kind = .list → misleading reply.text = false
  buffer :
    asksList c.client.command = true →
      firstWord c.client.commandRecv c.client.buffer ≠
        authenticatedText

/- What the history says about a connection. -/
structure Kept (session : Bool) (c : Connection) : Prop where
  plain : Plain c
  loggedOut : session = false → LoggedOut c

section Steps

variable {config : Config} {s s' : Server} {c c' : Connection}
variable {i : Nat} {line message : Text}
variable {dir : Option (List DirEntry)}
variable {session : Bool} {e : Event}

theorem mem_send
    {α : Type}
    {text : α → Text}
    {new : Option α}
    {channel : List α}
    {m : α}
    (hMem : m ∈ send text new channel) :
    m ∈ channel ∨ new = some m := by
  rcases List.mem_append.mp hMem with hBefore | hNew
  · exact Or.inl hBefore
  · rw [Option.mem_toList, Option.filter_eq_some_iff] at hNew
    exact Or.inr hNew.1

/- A client that has received nothing asks for nothing. -/
theorem kept_start
    {client : Client}
    (hLogin : client.authenticated = false)
    (hAwaiting : client.awaiting = none)
    (hCommand : asksList client.command = false) :
    Kept session
      { client := client, toServer := [], toClient := [] } where
  plain := by
    intro reply hMem
    cases hMem
  loggedOut := by
    intro _
    refine ⟨hLogin, hAwaiting, ?_, ?_, ?_⟩
    · intro message hMem
      cases hMem
    · intro reply hMem
      cases hMem
    · intro hAsks
      rw [hCommand] at hAsks
      cases hAsks

/- A line of a client without a session. -/
theorem loggedOut_input
    (hOut : LoggedOut c)
    (hGuard : c.guarded line = true) :
    LoggedOut (c.input line) := by
  have hUnguarded :
      actionOf (word 0 line) ≠ .getfilelist ∧
        demandsList line = false := by
    unfold Connection.guarded at hGuard
    unfold demandsList
    rw [hOut.authenticated] at hGuard
    cases hAction : actionOf (word 0 line) with
    | getfilelist | users | files =>
        rw [hAction] at hGuard
        cases hGuard
    | _ => exact ⟨nofun, rfl⟩
  have hClient :=
    Client.input_of_not_authenticated hOut.authenticated
      hUnguarded.1
  refine ⟨hClient.1, hClient.2.trans hOut.awaiting, ?_,
    hOut.listed, ?_⟩
  · intro message hMem
    rcases mem_send hMem with hBefore | hSent
    · exact hOut.asked message hBefore
    · rw [Client.input_spec.2.2 message hSent]
      exact hUnguarded.2
  · intro hAsks
    change asksList (c.client.input line).1.command = true
      at hAsks
    change
      firstWord _ (c.client.input line).1.buffer ≠
        authenticatedText
    rw [Client.input_spec.1] at hAsks
    rw [Client.input_spec.2.1]
    apply firstWord_ne_of_action
    intro hOther
    rw [asksList, hOther] at hAsks
    cases hAsks

/- A line that ends a session. -/
theorem loggedOut_logout
    (hAction : actionOf (word 0 line) = .logout)
    (hWaiting : c.client.awaiting = none)
    (hFree : c.free = true) :
    LoggedOut (c.input line) := by
  have hClient := Client.input_logout (c := c.client) hAction
  rcases Bool.and_eq_true_iff.mp hFree with ⟨hAsked, hListed⟩
  refine ⟨hClient.1, hClient.2.trans hWaiting, ?_, ?_, ?_⟩
  · intro message hMem
    rcases mem_send hMem with hBefore | hSent
    · simpa using List.all_eq_true.mp hAsked message hBefore
    · rw [Client.input_spec.2.2 message hSent, demandsList,
        hAction]
      rfl
  · intro reply hMem hKind
    simpa [hKind] using List.all_eq_true.mp hListed reply hMem
  · intro hAsks
    change asksList (c.client.input line).1.command = true
      at hAsks
    rw [Client.input_spec.1, asksList, hAction] at hAsks
    cases hAsks

theorem kept_input
    (hKept : Kept session c)
    (hWaiting : c.client.awaiting = none)
    (hGuard : c.guarded line = true) :
    Kept (loggedInAfter c (.input i line) session)
      (c.input line) where
  plain := hKept.plain
  loggedOut := by
    intro hAfter
    cases hBefore : session with
    | false =>
        exact loggedOut_input (hKept.loggedOut hBefore) hGuard
    | true =>
        simp only [loggedInAfter, hBefore, Bool.true_and,
          Bool.not_eq_false', Bool.and_eq_true,
          decide_eq_true_eq] at hAfter
        rcases hAfter with ⟨hAction, hSent⟩
        have hLogin :=
          Client.authenticated_of_logout hAction hSent
        refine loggedOut_logout hAction hWaiting ?_
        simpa [Connection.guarded, hAction, hLogin] using hGuard

/- The server reads no message that demands a list. -/
theorem demandsList_of_loggedOut
    (hOut : LoggedOut c)
    (hMessage : c.message = some message) :
    demandsList message = false := by
  unfold Connection.message at hMessage
  split at hMessage
  · rename_i first rest hFirst
    cases hMessage
    exact hOut.asked message (hFirst ▸ List.mem_cons_self)
  · split at hMessage
    · cases hMessage
    · cases hMessage
      decide

theorem kept_served
    (hKept : Kept session c)
    (hMessage : c.message = some message) :
    Kept session (c.served (answer config i message dir s)) where
  plain := by
    intro reply hMem hKind
    rcases mem_send hMem with hBefore | hAnswer
    · exact hKept.plain reply hBefore hKind
    · exact answer_other hAnswer hKind
  loggedOut := by
    intro hSession
    have hOut := hKept.loggedOut hSession
    refine ⟨hOut.authenticated, hOut.awaiting, ?_, ?_,
      hOut.buffer⟩
    · intro message hMem
      exact hOut.asked message (List.mem_of_mem_tail hMem)
    · intro reply hMem hKind
      rcases mem_send hMem with hBefore | hAnswer
      · exact hOut.listed reply hBefore hKind
      · have hDemands := demandsList_of_answer hAnswer hKind
        rw [demandsList_of_loggedOut hOut hMessage] at hDemands
        cases hDemands

theorem kept_stop
    (hKept : Kept session c) :
    Kept session c.stop where
  plain := hKept.plain
  loggedOut := by
    intro hSession
    have hOut := hKept.loggedOut hSession
    exact ⟨hOut.authenticated, hOut.awaiting, hOut.asked,
      hOut.listed, hOut.buffer⟩

/- A reply that does not begin a session. -/
theorem received_ne
    (hPlain : Plain c)
    (hOut : LoggedOut c)
    (hKind :
      c.toClient.head?.any
        (fun reply => reply.kind = .authenticated) = false)
    (hReply : c.toClient.head?.isSome = true) :
    firstWord c.client.commandRecv
        (c.client.received c.toClient.head?) ≠
      authenticatedText := by
  unfold Client.received
  split
  · rename_i hAsks
    exact hOut.buffer hAsks
  · rcases Option.isSome_iff_exists.mp hReply with
      ⟨reply, hHead⟩
    have hMem : reply ∈ c.toClient :=
      List.mem_of_mem_head? hHead
    have hMisleading : misleading reply.text = false := by
      cases hReplyKind : reply.kind with
      | authenticated =>
          rw [hHead] at hKind
          exact absurd hReplyKind (of_decide_eq_false hKind)
      | list => exact hOut.listed reply hMem hReplyKind
      | other => exact hPlain reply hMem hReplyKind
    intro hWord
    rw [hHead] at hWord
    have hTaken := misleading_of_firstWord hWord
    change misleading reply.text = true at hTaken
    rw [hMisleading] at hTaken
    cases hTaken

theorem kept_read
    (hKept : Kept session c) :
    Kept (loggedInAfter c (.read i) session) c.read where
  plain := by
    intro reply hMem
    exact hKept.plain reply (List.mem_of_mem_tail hMem)
  loggedOut := by
    intro hAfter
    simp only [loggedInAfter, Bool.or_eq_false_iff] at hAfter
    rcases hAfter with ⟨hSession, hKind⟩
    have hOut := hKept.loggedOut hSession
    have hRead :
        c.read =
          { client := c.client.readReply c.toClient.head?
            toServer := c.toServer
            toClient := c.toClient.tail } := by
      unfold Connection.read Client.read
      rw [hOut.awaiting]
      simp only [send, Option.filter_none, Option.toList_none,
        List.append_nil]
    rcases Client.readReply_of_ne
        (received_ne hKept.plain hOut hKind) with
      ⟨hLogin, hAwaiting, hCommand, hBuffer⟩
    rw [hRead]
    refine ⟨hLogin.trans hOut.authenticated,
      hAwaiting.trans hOut.awaiting, hOut.asked, ?_, ?_⟩
    · intro reply hMem
      exact hOut.listed reply (List.mem_of_mem_tail hMem)
    · intro hAsks
      change asksList (c.client.readReply _).command = true
        at hAsks
      rw [hCommand] at hAsks
      change
        firstWord (c.client.readReply _).commandRecv
            (c.client.readReply _).buffer ≠
          authenticatedText
      rw [hBuffer, Client.received, if_pos hAsks]
      exact hOut.buffer hAsks

/- What a step keeps on the connection it is about. -/
theorem kept_advance
    (hKept : Kept session c)
    (hGuard : guardedStep c e = true)
    (hStep : advance config s c e = some (s', c')) :
    Kept (loggedInAfter c e session) c' := by
  cases e with
  | connect newsockfd commandRecv =>
      rcases Option.map_eq_some_iff.mp hStep with
        ⟨_, _, hNext⟩
      cases hNext
      exact kept_start rfl rfl rfl
  | input i line =>
      simp only [advance] at hStep
      split at hStep
      · rename_i hEnabled
        cases hStep
        exact kept_input hKept hEnabled.2 hGuard
      · cases hStep
  | serve i dir =>
      simp only [advance] at hStep
      split at hStep
      · cases hStep
      · rename_i message hMessage
        rcases Option.map_eq_some_iff.mp hStep with
          ⟨_, _, hNext⟩
        cases hNext
        exact kept_served hKept hMessage
  | read i =>
      simp only [advance] at hStep
      split at hStep
      · cases hStep
        exact kept_read hKept
      · cases hStep
  | stop i =>
      simp only [advance] at hStep
      split at hStep
      · cases hStep
        exact kept_stop hKept
      · cases hStep

end Steps

------------------------------------------------------------
-- The Law along a Run
------------------------------------------------------------

section Runs

variable {config : Config} {trace : Trace} {s : Chat}

theorem kept_of_run
    (hRun : (sessionSystem config).Run trace s)
    (hGuarded : AtEach Guarded trace)
    (i : Nat) :
    Kept (loggedIn i trace) (s.connections i) := by
  revert hGuarded
  refine hRun.history_invariant
    (I := fun trace s =>
      AtEach Guarded trace →
        Kept (loggedIn i trace) (s.connections i)) ?_ ?_
  · rintro s ⟨clientAttempts, rfl⟩ _
    exact kept_start rfl rfl (by decide)
  · intro trace s e s' _ hInv hStep hGuarded
    rcases hGuarded with ⟨hNow, hBefore⟩
    rcases Option.map_eq_some_iff.mp hStep with
      ⟨⟨server, c⟩, hAdvance, rfl⟩
    have hKept := hInv hBefore
    unfold loggedIn
    by_cases hClient : e.client = i
    · subst hClient
      rw [if_pos rfl]
      dsimp only
      rw [Function.update_self]
      exact kept_advance hKept hNow hAdvance
    · rw [if_neg hClient]
      dsimp only
      rw [Function.update_of_ne (Ne.symm hClient)]
      exact hKept

/- A list is the answer to a message that demands it. -/
theorem exists_of_sendsList
    {t : Transition}
    (hSends : sendsList config t = true) :
    ∃ message,
      (connection t).message = some message ∧
        demandsList message = true := by
  rcases t with ⟨s, e, s'⟩
  cases e with
  | serve i dir =>
      rcases Option.any_eq_true _ _ |>.mp hSends with
        ⟨reply, hReply, hKind⟩
      rcases Option.bind_eq_some_iff.mp hReply with
        ⟨message, hMessage, hAnswer⟩
      exact ⟨message, hMessage,
        demandsList_of_answer hAnswer (of_decide_eq_true hKind)⟩
  | _ => cases hSends

/-
  Where every step is guarded, the lists are sent in sessions
  only.
-/
theorem inSession_of_guarded
    (hRun : (sessionSystem config).Run trace s)
    (hGuarded : AtEach Guarded trace) :
    AtEach (InSession config) trace := by
  refine TransitionSystem.Run.atEach_imp ?_ hRun hGuarded
  intro t earlier hEarlier _ hBefore _ hSends
  have hKept := kept_of_run hEarlier hBefore t.event.client
  by_contra hSession
  rw [Bool.not_eq_true] at hSession
  have hOut : LoggedOut (connection t) :=
    hKept.loggedOut hSession
  rcases exists_of_sendsList hSends with
    ⟨message, hMessage, hDemands⟩
  rw [demandsList_of_loggedOut hOut hMessage] at hDemands
  cases hDemands

end Runs

instance decidableGuarded
    (t : Transition)
    (earlier : Trace) :
    Decidable (Guarded t earlier) :=
  inferInstanceAs (Decidable (_ = true))

/- Events that can be executed are a run. -/
theorem exists_run
    (config : Config)
    (events : List Event)
    (P : Trace → Chat → Bool)
    (hExecute :
      (execute (step config) [] (start (fun _ => 0)) events).any
        (fun r => P r.1 r.2) = true) :
    ∃ trace s,
      (sessionSystem config).Run trace s ∧ P trace s = true :=
  exists_run_of_execute
    (fun s => ∃ clientAttempts, s = start clientAttempts)
    (step config) ⟨_, rfl⟩ events P hExecute

/- A login, the list of users, and a logout. -/
def oneSession : List Event :=
  [.connect 6 [], .input 6 "login ana secret\n".toList,
    .serve 6 none, .read 6,
    .input 6 "getuserlist\n".toList,
    .serve 6 none, .read 6, .serve 6 none, .read 6,
    .input 6 "logout\n".toList, .serve 6 none]

theorem inSession_oneSession :
    ∃ trace s,
      (sessionSystem oneUser).Run trace s ∧
        AtEach Guarded trace ∧
        trace.any (sendsList oneUser) = true ∧
        AtEach (InSession oneUser) trace := by
  rcases exists_run oneUser oneSession
      (fun trace _ =>
        AtEach Guarded trace ∧
          trace.any (sendsList oneUser) = true)
      (by decide) with ⟨trace, s, hRun, hSession⟩
  rw [decide_eq_true_eq] at hSession
  exact ⟨trace, s, hRun, hSession.1, hSession.2,
    inSession_of_guarded hRun hSession.1⟩

/- The files of a user, without a login. -/
def unguardedFiles : List Event :=
  [.connect 6 [], .input 6 "getfilelist ana\n".toList,
    .serve 6 (some [⟨"notes".toList, 12⟩]), .read 6,
    .serve 6 none]

theorem not_inSession_always :
    ¬ ∀ (config : Config) (trace : Trace) (s : Chat),
        (sessionSystem config).Run trace s →
          AtEach (InSession config) trace := by
  intro hAlways
  rcases exists_run oneUser unguardedFiles
      (fun trace _ =>
        match trace with
        | [] => false
        | t :: earlier =>
            sendsList oneUser t &&
              !loggedIn t.event.client earlier)
      (by decide) with ⟨trace, s, hRun, hFiles⟩
  have hEach := hAlways oneUser trace s hRun
  cases trace with
  | nil => cases hFiles
  | cons t earlier =>
      rcases Bool.and_eq_true_iff.mp hFiles with
        ⟨hSends, hSession⟩
      rw [hEach.1 hSends] at hSession
      cases hSession

end Session

end TcpChat

end ProgrammingTasks
