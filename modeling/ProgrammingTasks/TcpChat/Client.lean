import ProgrammingTasks.TcpChat.SelectServer

/-
  The chat client (`client.c`): one loop that reads a line from
  the keyboard or what the server sends.

  The two commands for a list send a second message once the
  size of the list is there; the `recv` in between blocks the
  keyboard.  Printing and the log file are left out, and with
  them the name of the user.

  Main declarations:
    * `Reply`, `kindOf`, `answer`
    * `Client`, `Client.input`, `Client.read`
    * `misleading`, `answer_other`
    * `demandsList_of_answer`
-/

------------------------------------------------------------
-- The Replies of the Server
------------------------------------------------------------

namespace ProgrammingTasks

namespace TcpChat

/- The branches of the server that send. -/
inductive Kind
| authenticated
| list
| other
deriving DecidableEq, Repr

/-
  A message to a client.  The lists are sent without their end,
  everything else with it.
-/
structure Reply where
  text : Text
  kind : Kind
deriving DecidableEq, Repr

/- The messages that are answered with a list. -/
def demandsList (message : Text) : Bool :=
  actionOf (word 0 message) = .users ||
    actionOf (word 0 message) = .files

/- The branch that answers a message. -/
def kindOf
    (config : Config) (message : Text) (s : Server) : Kind :=
  match actionOf (word 0 message) with
  | .login =>
      if checkLogin (word 1 message) (word 2 message) config.n
          config.users [] [] then
        .authenticated
      else
        .other
  | .users => .list
  | .files => if s.eroare then .other else .list
  | .logout | .getuserlist | .getfilelist | .quit | .other =>
      .other

/- What the server sends for a message. -/
def answer
    (config : Config) (i : Nat) (message : Text)
    (dir : Option (List DirEntry)) (s : Server) :
    Option Reply :=
  (serve config i message dir s).2.map
    (fun text => ⟨text, kindOf config message s⟩)

------------------------------------------------------------
-- The Client
------------------------------------------------------------

def authenticatedText : Text := "AUTHENTICATED".toList

/- `sscanf` with `%s`, which may find no word. -/
def firstWord (old text : Text) : Text :=
  (words text).headD old

/- The two commands that are answered in two steps. -/
def asksList (command : Text) : Bool :=
  actionOf command = .getuserlist ||
    actionOf command = .getfilelist

/-
  The variables of `main`.  While the client waits for a size,
  `awaiting` is the message it sends after that.
-/
structure Client where
  authenticated : Bool
  command : Text
  commandRecv : Text
  buffer : Text
  awaiting : Option Text
  running : Bool

namespace Client

/-
  The server only answers, so that `command` and `buffer` are
  set before they are read.  `command_recv` may never be.
-/
def start (commandRecv : Text) : Client where
  authenticated := false
  command := []
  commandRecv := commandRecv
  buffer := []
  awaiting := none
  running := true

/- The branches for a line, with what is sent for it. -/
def input (line : Text) (c : Client) : Client × Option Text :=
  let c := { c with buffer := line, command := word 0 line }
  match actionOf c.command with
  | .login => (c, if c.authenticated then none else some line)
  | .logout =>
      ({ c with authenticated := false },
        if c.authenticated then some line else none)
  | .getuserlist =>
      if c.authenticated then
        ({ c with awaiting := some "users".toList }, some line)
      else
        (c, none)
  | .quit => ({ c with running := false }, some line)
  | .getfilelist =>
      ({ c with awaiting := some "files".toList }, some line)
  | .users | .files | .other => (c, some line)

section Input

variable {line : Text} {c : Client}

/- In every branch the line is kept, and sent or not. -/
theorem input_spec :
    (c.input line).1.command = word 0 line ∧
      (c.input line).1.buffer = line ∧
      ∀ message, (c.input line).2 = some message →
        message = line := by
  have hLine :
      ∀ message, some line = some message → message = line :=
    fun message hSent => (Option.some.inj hSent).symm
  unfold input
  cases hAction : actionOf (word 0 line) with
  | login =>
      simp only [hAction]
      refine ⟨trivial, trivial, ?_⟩
      cases c.authenticated with
      | false => exact hLine
      | true => nofun
  | logout =>
      simp only [hAction]
      refine ⟨trivial, trivial, ?_⟩
      cases c.authenticated with
      | false => nofun
      | true => exact hLine
  | getuserlist =>
      simp only [hAction]
      split
      · exact ⟨rfl, rfl, hLine⟩
      · exact ⟨rfl, rfl, nofun⟩
  | _ =>
      simp only [hAction]
      exact ⟨trivial, trivial, hLine⟩

/- The branches that a client without a login takes. -/
theorem input_of_not_authenticated
    (hLogin : c.authenticated = false)
    (hFiles : actionOf (word 0 line) ≠ .getfilelist) :
    (c.input line).1.authenticated = false ∧
      (c.input line).1.awaiting = c.awaiting := by
  unfold input
  cases hAction : actionOf (word 0 line) with
  | getuserlist =>
      simp only [hAction, hLogin]
      exact ⟨rfl, rfl⟩
  | getfilelist => exact absurd hAction hFiles
  | _ =>
      simp only [hAction, hLogin]
      exact ⟨trivial, trivial⟩

theorem input_logout
    (hAction : actionOf (word 0 line) = .logout) :
    (c.input line).1.authenticated = false ∧
      (c.input line).1.awaiting = c.awaiting := by
  unfold input
  simp only [hAction]
  exact ⟨trivial, trivial⟩

/- Only a client that is logged in sends `logout`. -/
theorem authenticated_of_logout
    (hAction : actionOf (word 0 line) = .logout)
    (hSent : (c.input line).2.isSome = true) :
    c.authenticated = true := by
  unfold input at hSent
  simp only [hAction] at hSent
  split at hSent
  · assumption
  · cases hSent

end Input

/- `recv` into an array that has not been cleared. -/
def overwrite (reply : Reply) (buffer : Text) : Text :=
  if reply.kind = .list then
    reply.text ++ buffer.drop reply.text.length
  else
    reply.text

/- The `recv` of a size; there is nothing after the end. -/
def readSize (reply : Option Reply) (c : Client) : Client :=
  { c with
    buffer := (reply.map (overwrite · c.buffer)).getD c.buffer
    awaiting := none }

/-
  What the `recv` of the loop leaves in `buffer`.  A list that
  was asked for goes into an array of its own.
-/
def received (reply : Option Reply) (c : Client) : Text :=
  if asksList c.command then
    c.buffer
  else
    (reply.map Reply.text).getD []

/- The comparisons after the `recv` of the loop. -/
def readReply (reply : Option Reply) (c : Client) : Client :=
  let c := { c with buffer := c.received reply }
  match reply with
  | none => c
  | some _ =>
      let c :=
        { c with commandRecv := firstWord c.commandRecv c.buffer }
      if c.commandRecv = authenticatedText then
        { c with authenticated := true }
      else if asksList c.command ∨
          c.commandRecv = "error".toList then
        c
      else
        { c with running := c.running && c.buffer ≠ bruteForce }

/- A `recv`; it finds nothing on a closed connection. -/
def read (reply : Option Reply) (c : Client) :
    Client × Option Text :=
  match c.awaiting with
  | none => (c.readReply reply, none)
  | some next => (c.readSize reply, some next)

theorem firstWord_firstWord (old text : Text) :
    firstWord (firstWord old text) text = firstWord old text := by
  unfold firstWord
  cases words text with
  | nil => rfl
  | cons w rest => rfl

/- A reply that is not taken for a login. -/
theorem readReply_of_ne
    {reply : Option Reply}
    {c : Client}
    (hWord :
      reply.isSome = true →
        firstWord c.commandRecv (c.received reply) ≠
          authenticatedText) :
    (c.readReply reply).authenticated = c.authenticated ∧
      (c.readReply reply).awaiting = c.awaiting ∧
      (c.readReply reply).command = c.command ∧
      firstWord (c.readReply reply).commandRecv
          (c.readReply reply).buffer =
        firstWord c.commandRecv (c.received reply) := by
  unfold readReply
  cases reply with
  | none => exact ⟨rfl, rfl, rfl, rfl⟩
  | some reply =>
      dsimp only
      rw [if_neg (hWord rfl)]
      split
      · exact ⟨rfl, rfl, rfl, firstWord_firstWord _ _⟩
      · exact ⟨rfl, rfl, rfl, firstWord_firstWord _ _⟩

end Client

------------------------------------------------------------
-- What Can Be Taken for a Login
------------------------------------------------------------

/-
  A text that starts with `AUTHENTICATED`, or is blank, so that
  `command_recv` keeps what it was.
-/
def misleading (text : Text) : Bool :=
  firstWord authenticatedText text = authenticatedText

theorem misleading_of_firstWord
    {old text : Text}
    (hWord : firstWord old text = authenticatedText) :
    misleading text = true := by
  unfold misleading
  rw [decide_eq_true_eq]
  unfold firstWord at hWord ⊢
  cases hWords : words text with
  | nil => rfl
  | cons w rest =>
      rw [hWords] at hWord
      exact hWord

/- A text is read by the command it begins with. -/
theorem firstWord_of_action
    {old line : Text}
    (hAction : actionOf (word 0 line) ≠ .other) :
    firstWord old line = word 0 line := by
  unfold firstWord word at *
  cases hWords : words line with
  | nil =>
      rw [hWords] at hAction
      exact absurd (by decide) hAction
  | cons w rest => rfl

/- No command is taken for a login. -/
theorem firstWord_ne_of_action
    {old line : Text}
    (hAction : actionOf (word 0 line) ≠ .other) :
    firstWord old line ≠ authenticatedText := by
  rw [firstWord_of_action hAction]
  intro hWord
  rw [hWord] at hAction
  exact hAction (by decide)

theorem words_cons
    {c : Char}
    (hWord : isSpace c = false)
    (text : Text) :
    ∃ w rest, words (c :: text) = (c :: w) :: rest := by
  unfold words
  rw [List.splitOnP_cons_eq_if_modifyHead]
  simp only [hWord, Bool.false_eq_true, if_false]
  cases hSplit : text.splitOnP isSpace with
  | nil => exact absurd hSplit (List.splitOnP_ne_nil _ _)
  | cons w rest => exact ⟨w, _, rfl⟩

theorem misleading_cons
    {c : Char}
    (hWord : isSpace c = false)
    (hLetter : c ≠ 'A')
    (text : Text) :
    misleading (c :: text) = false := by
  rcases words_cons hWord text with ⟨w, rest, hWords⟩
  unfold misleading
  rw [decide_eq_false_iff_not]
  unfold firstWord
  rw [hWords]
  intro hEqual
  exact hLetter (List.cons.inj hEqual).1

/- The size of a list is not taken for a login. -/
theorem misleading_stringSize (list : Text) :
    misleading (stringSize list) = false := by
  unfold stringSize
  rw [Nat.toString_eq_repr, Nat.toList_repr]
  cases hDigits : Nat.toDigits 10 (list.length + 1) with
  | nil => exact absurd hDigits Nat.toDigits_ne_nil
  | cons c rest =>
      have hDigit : c.isDigit = true :=
        Nat.isDigit_of_mem_toDigits (by decide) (by decide)
          (hDigits ▸ List.mem_cons_self)
      simp only [Char.isDigit, Bool.and_eq_true,
        decide_eq_true_eq] at hDigit
      have hRange : 48 ≤ c.toNat ∧ c.toNat ≤ 57 := hDigit
      apply misleading_cons
      · simp only [isSpace, Bool.or_eq_false_iff,
          decide_eq_false_iff_not, Bool.and_eq_false_imp,
          decide_eq_true_eq]
        refine ⟨?_, fun _ => by omega⟩
        rintro rfl
        exact absurd hRange.1 (by decide)
      · rintro rfl
        exact absurd hRange.2 (by decide)

section Answer

variable {config : Config} {i : Nat} {message : Text}
variable {dir : Option (List DirEntry)} {s : Server}

theorem demandsList_of_kindOf
    (hKind : kindOf config message s = .list) :
    demandsList message = true := by
  unfold kindOf at hKind
  unfold demandsList
  cases hAction : actionOf (word 0 message) with
  | users => rfl
  | files => rfl
  | login =>
      rw [hAction] at hKind
      dsimp only at hKind
      split at hKind <;> cases hKind
  | _ =>
      rw [hAction] at hKind
      cases hKind

theorem misleading_of_error
    {text : Text}
    (hError :
      text = wrongUser ∨ text = bruteForce ∨
        text = unknownUser ∨ text = "error".toList) :
    misleading text = false := by
  rcases hError with rfl | rfl | rfl | rfl
  · exact misleading_cons (by decide) (by decide) _
  · exact misleading_cons (by decide) (by decide) _
  · exact misleading_cons (by decide) (by decide) _
  · exact misleading_cons (by decide) (by decide) _

/- What the server sends in the branches that are left. -/
theorem text_of_other
    {text : Text}
    (hText : (serve config i message dir s).2 = some text)
    (hKind : kindOf config message s = .other) :
    (∃ list, text = stringSize list) ∨
      text = wrongUser ∨ text = bruteForce ∨
        text = unknownUser ∨ text = "error".toList := by
  unfold serve at hText
  split at hText
  · cases hText
  · unfold handle at hText
    unfold kindOf at hKind
    cases hAction : actionOf (word 0 message) with
    | login =>
        simp only [hAction, login] at hText hKind
        split at hKind
        · cases hKind
        · rename_i hLogin
          rw [if_neg hLogin] at hText
          split at hText
          · cases hText
            exact Or.inr (Or.inr (Or.inl rfl))
          · cases hText
            exact Or.inr (Or.inl rfl)
    | logout =>
        rw [hAction] at hText
        cases hText
    | getuserlist =>
        rw [hAction] at hText
        cases hText
        exact Or.inl ⟨_, rfl⟩
    | getfilelist =>
        simp only [hAction, getFileList] at hText
        split at hText
        · cases dir with
          | none => cases hText
          | some entries =>
              cases hText
              exact Or.inl ⟨_, rfl⟩
        · cases hText
          exact Or.inr (Or.inr (Or.inr (Or.inl rfl)))
    | users =>
        rw [hAction] at hKind
        cases hKind
    | files =>
        simp only [hAction, sendFiles] at hText hKind
        split at hKind
        · rename_i hError
          rw [if_pos hError] at hText
          cases hText
          exact Or.inr (Or.inr (Or.inr (Or.inl rfl)))
        · cases hKind
    | quit =>
        rw [hAction] at hText
        cases hText
    | other =>
        rw [hAction] at hText
        cases hText
        exact Or.inr (Or.inr (Or.inr (Or.inr rfl)))

/- Nothing else the server sends is taken for a login. -/
theorem answer_other
    {reply : Reply}
    (hAnswer : answer config i message dir s = some reply)
    (hKind : reply.kind = .other) :
    misleading reply.text = false := by
  rcases Option.map_eq_some_iff.mp hAnswer with
    ⟨text, hText, rfl⟩
  rcases text_of_other hText hKind with ⟨list, hSize⟩ | hError
  · change misleading text = false
    rw [hSize]
    exact misleading_stringSize list
  · exact misleading_of_error hError

/- A list is sent only for one of the two messages. -/
theorem demandsList_of_answer
    {reply : Reply}
    (hAnswer : answer config i message dir s = some reply)
    (hKind : reply.kind = .list) :
    demandsList message = true := by
  rcases Option.map_eq_some_iff.mp hAnswer with ⟨text, _, rfl⟩
  exact demandsList_of_kindOf hKind

end Answer

end TcpChat

end ProgrammingTasks
