import Mathlib.Algebra.GroupWithZero.Nat
import Mathlib.Data.Int.Basic
import ProgrammingTasks.Foundations.TransitionSystem

/-
  The chat server (`selectserver.c`): one loop that accepts
  connections and answers one message after the other.

  A step is one round of the loop over the descriptors: a new
  connection, or what `recv` returns on an open one.  The two
  lists, the error flag and the counters of failed logins are
  shared by all connections.  A step that exits or reads a
  null list ends the run in a state that has `exited`.

  Main declarations:
    * `Config`, `Server`, `Action`, `Event`
    * `checkLogin`, `userList`, `knownUser`, `fileList`
    * `handle`, `serve`, `step`, `chatSystem`
    * `Served`, `served`, `step_cases`
-/

------------------------------------------------------------
-- Texts and Configuration
------------------------------------------------------------

namespace ProgrammingTasks

namespace TcpChat

/- The characters of a C string. -/
abbrev Text := List Char

/- `isspace`. -/
def isSpace (c : Char) : Bool :=
  c = ' ' || (9 ≤ c.toNat && c.toNat ≤ 13)

/- The words that `%s` reads one after the other. -/
def words (buffer : Text) : List Text :=
  (buffer.splitOnP isSpace).filter (fun w => !w.isEmpty)

/- A word of a message, in an array that was cleared before. -/
def word (k : Nat) (buffer : Text) : Text :=
  (words buffer).getD k []

/- What the two configuration files and `main` set up. -/
structure Config where
  sockfd : Nat
  n : Nat
  users : List Text
  shares : List (Text × Text)

/- A file as `readdir` and `stat` describe it. -/
structure DirEntry where
  name : Text
  size : Int
deriving DecidableEq, Repr

/-
  `fscanf(users_config_file, "%s %s", …)`: how many words were
  read, the two words after it, and the rest of the file.
-/
def scanUser (username password : Text) :
    List Text → Nat × Text × Text × List Text
| [] => (0, username, password, [])
| [username'] => (1, username', password, [])
| username' :: password' :: rest =>
    (2, username', password', rest)

------------------------------------------------------------
-- What the Branches Compute
------------------------------------------------------------

/- The loop over the users that checks a login. -/
def checkLogin (username password : Text) :
    Nat → List Text → Text → Text → Bool
| 0, _, _, _ => false
| j + 1, file, readUsername, readPassword =>
    match scanUser readUsername readPassword file with
    | (_, readUsername, readPassword, rest) =>
        if username = readUsername ∧ password = readPassword then
          true
        else
          checkLogin username password j rest
            readUsername readPassword

/- The loop that appends the names of the users. -/
def appendUsers :
    Nat → List Text → Text → Text → Text
| 0, _, _, _ => []
| j + 1, file, readUsername, readPassword =>
    match scanUser readUsername readPassword file with
    | (_, readUsername, readPassword, rest) =>
        readUsername ++ '\n' ::
          appendUsers j rest readUsername readPassword

/- The list for `getuserlist`. -/
def userList (config : Config) : Text :=
  appendUsers config.n config.users [] []

/-
  The loop of `getfilelist` over the users.  The comparison is
  `strncmp` by the length of the name that was read.
-/
def knownUser (dirName : Text) : List Text → Bool
| [] => false
| [_] => false
| username :: _ :: rest =>
    username.isPrefixOf dirName || knownUser dirName rest

/- `SHARED` if some line of the file names this file. -/
def shareAttribute
    (shares : List (Text × Text)) (name : Text) : Text :=
  if shares.any (fun share => share.2 = name) then
    "SHARED".toList
  else
    "PRIVATE".toList

/- The line for a file. -/
def fileLine
    (shares : List (Text × Text)) (entry : DirEntry) : Text :=
  entry.name ++ " ".toList ++ (toString entry.size).toList ++
    " bytes ".toList ++ shareAttribute shares entry.name ++
    ['\n']

/- The list for `getfilelist`, without `.` and `..`. -/
def fileList
    (config : Config) (entries : List DirEntry) : Text :=
  (entries.filter
    (fun entry =>
      entry.name ≠ ".".toList && entry.name ≠ "..".toList)).flatMap
    (fileLine config.shares)

/- The size of a list with its end, as it is sent. -/
def stringSize (list : Text) : Text :=
  (toString (list.length + 1)).toList

def wrongUser : Text := "-3 User/parola gresita".toList

def bruteForce : Text := "-8 Brute-force detectat".toList

def unknownUser : Text := "-11 Utilizator inexistent".toList

------------------------------------------------------------
-- The Server
------------------------------------------------------------

/- The commands of the chat; `other` is a wrong one. -/
inductive Action
| login
| logout
| getuserlist
| getfilelist
| users
| files
| quit
| other
deriving DecidableEq, Repr

structure Server where
  readFds : List Nat
  clientAttempts : Nat → Int
  eroare : Bool
  list : Option Text
  flist : Option Text
  exited : Bool

/- The server after a branch, and what it sends to the client. -/
abbrev Outcome := Server × Option Text

/- `client_attempts[i % N] = k`. -/
def setAttempts
    (config : Config) (i : Nat) (k : Int) (s : Server) : Server :=
  { s with
    clientAttempts :=
      Function.update s.clientAttempts (i % config.n) k }

/- `close` and `FD_CLR`. -/
def closeClient (i : Nat) (s : Server) : Server :=
  { s with readFds := s.readFds.filter (fun j => j ≠ i) }

def exit (s : Server) : Server :=
  { s with exited := true }

/- `login`. -/
def login
    (config : Config) (i : Nat) (username password : Text)
    (s : Server) : Outcome :=
  if checkLogin username password config.n config.users [] [] then
    (s, some ("AUTHENTICATED ".toList ++ username))
  else
    let s :=
      setAttempts config i
        (s.clientAttempts (i % config.n) + 1) s
    if s.clientAttempts (i % config.n) = 3 then
      (closeClient i (setAttempts config i 0 s), some bruteForce)
    else
      (s, some wrongUser)

/- `getuserlist`. -/
def getUserList
    (config : Config) (i : Nat) (s : Server) : Outcome :=
  let list := userList config
  ({ setAttempts config i 0 s with list := some list },
    some (stringSize list))

/-
  `getfilelist`; `dir` is what is found in the directory, if it
  can be opened.
-/
def getFileList
    (config : Config) (i : Nat) (dirName : Text)
    (dir : Option (List DirEntry)) (s : Server) : Outcome :=
  let s := setAttempts config i 0 s
  if knownUser dirName config.users then
    match dir with
    | none => (exit s, none)
    | some entries =>
        let flist := fileList config entries
        ({ s with flist := some flist }, some (stringSize flist))
  else
    ({ s with eroare := true }, some unknownUser)

/- `users`; a null list is read by `strlen`. -/
def sendUsers (s : Server) : Outcome :=
  match s.list with
  | none => (exit s, none)
  | some list => ({ s with list := none }, some list)

/- `files`. -/
def sendFiles (s : Server) : Outcome :=
  if s.eroare then
    ({ s with eroare := false, flist := none }, some unknownUser)
  else
    match s.flist with
    | none => (exit s, none)
    | some flist => ({ s with flist := none }, some flist)

/- The comparisons of the action with the commands. -/
def actionOf (action : Text) : Action :=
  if action = "login".toList then .login
  else if action = "logout".toList then .logout
  else if action = "getuserlist".toList then .getuserlist
  else if action = "getfilelist".toList then .getfilelist
  else if action = "users".toList then .users
  else if action = "files".toList then .files
  else if action = "quit".toList then .quit
  else .other

/- The branches for a message. -/
def handle
    (config : Config) (i : Nat) (buffer : Text)
    (dir : Option (List DirEntry)) (s : Server) : Outcome :=
  match actionOf (word 0 buffer) with
  | .login =>
      login config i (word 1 buffer) (word 2 buffer) s
  | .logout => (setAttempts config i 0 s, none)
  | .getuserlist => getUserList config i s
  | .getfilelist => getFileList config i (word 1 buffer) dir s
  | .users => sendUsers s
  | .files => sendFiles s
  | .quit => (closeClient i (setAttempts config i 0 s), none)
  | .other => (setAttempts config i 0 s, some "error".toList)

/- What follows a `recv`; it returns 0 on a closed connection. -/
def serve
    (config : Config) (i : Nat) (buffer : Text)
    (dir : Option (List DirEntry)) (s : Server) : Outcome :=
  if buffer = [] then
    (closeClient i s, none)
  else
    handle config i buffer dir s

/- `accept`; the index is that of the listening socket. -/
def accept
    (config : Config) (newsockfd : Nat) (s : Server) : Server :=
  setAttempts config config.sockfd 0
    { s with readFds := newsockfd :: s.readFds }

------------------------------------------------------------
-- The System
------------------------------------------------------------

inductive Event
| connect (newsockfd : Nat)
| receive
    (i : Nat) (buffer : Text) (dir : Option (List DirEntry))
deriving DecidableEq, Repr

def step (config : Config) (s : Server) :
    Event → Option Server
| .connect newsockfd =>
    if s.exited = true ∨ newsockfd = config.sockfd ∨
        newsockfd ∈ s.readFds then
      none
    else
      some (accept config newsockfd s)
| .receive i buffer dir =>
    if s.exited = true ∨ i ∉ s.readFds then
      none
    else
      some (serve config i buffer dir s).1

/- The counters are not initialized. -/
def start (clientAttempts : Nat → Int) : Server where
  readFds := []
  clientAttempts := clientAttempts
  eroare := false
  list := none
  flist := none
  exited := false

def chatSystem (config : Config) :
    TransitionSystem Server Event :=
  TransitionSystem.ofFunction
    (fun s => ∃ clientAttempts, s = start clientAttempts)
    (step config)

abbrev Transition := TransitionSystem.Transition Server Event

abbrev Trace := List Transition

namespace Event

/- The descriptor of the client. -/
def client : Event → Nat
| .connect newsockfd => newsockfd
| .receive i _ _ => i

/- The command of a message. -/
def action : Event → Action
| .connect _ => .other
| .receive _ buffer _ => actionOf (word 0 buffer)

end Event

/- What the server sends in a step. -/
def reply (config : Config) (t : Transition) : Option Text :=
  match t.event with
  | .connect _ => none
  | .receive i buffer dir =>
      (serve config i buffer dir t.source).2

------------------------------------------------------------
-- What a Message Does
------------------------------------------------------------

@[simp]
theorem setAttempts_twice
    (config : Config)
    (i : Nat)
    (k l : Int)
    (s : Server) :
    setAttempts config i k (setAttempts config i l s) =
      setAttempts config i k s := by
  simp only [setAttempts, Function.update_idem]

/- The outcomes of what `recv` returns, one for each branch. -/
inductive Served
    (config : Config) (i : Nat) (buffer : Text)
    (dir : Option (List DirEntry)) (s : Server) :
    Outcome → Prop
| hungUp :
    buffer = [] →
      Served config i buffer dir s (closeClient i s, none)
| authenticated :
    actionOf (word 0 buffer) = .login →
      checkLogin (word 1 buffer) (word 2 buffer) config.n
          config.users [] [] = true →
        Served config i buffer dir s
          (s, some ("AUTHENTICATED ".toList ++ word 1 buffer))
| rejected :
    actionOf (word 0 buffer) = .login →
      checkLogin (word 1 buffer) (word 2 buffer) config.n
          config.users [] [] = false →
        s.clientAttempts (i % config.n) + 1 ≠ 3 →
          Served config i buffer dir s
            (setAttempts config i
              (s.clientAttempts (i % config.n) + 1) s,
              some wrongUser)
| detected :
    actionOf (word 0 buffer) = .login →
      checkLogin (word 1 buffer) (word 2 buffer) config.n
          config.users [] [] = false →
        s.clientAttempts (i % config.n) + 1 = 3 →
          Served config i buffer dir s
            (closeClient i (setAttempts config i 0 s),
              some bruteForce)
| userListed :
    actionOf (word 0 buffer) = .getuserlist →
      Served config i buffer dir s
        ({ setAttempts config i 0 s with
            list := some (userList config) },
          some (stringSize (userList config)))
| unreadable :
    actionOf (word 0 buffer) = .getfilelist →
      knownUser (word 1 buffer) config.users = true →
        dir = none →
          Served config i buffer dir s
            (exit (setAttempts config i 0 s), none)
| fileListed {entries : List DirEntry} :
    actionOf (word 0 buffer) = .getfilelist →
      knownUser (word 1 buffer) config.users = true →
        dir = some entries →
          Served config i buffer dir s
            ({ setAttempts config i 0 s with
                flist := some (fileList config entries) },
              some (stringSize (fileList config entries)))
| unknown :
    actionOf (word 0 buffer) = .getfilelist →
      knownUser (word 1 buffer) config.users = false →
        Served config i buffer dir s
          ({ setAttempts config i 0 s with eroare := true },
            some unknownUser)
| noUsers :
    actionOf (word 0 buffer) = .users →
      s.list = none →
        Served config i buffer dir s (exit s, none)
| users {list : Text} :
    actionOf (word 0 buffer) = .users →
      s.list = some list →
        Served config i buffer dir s
          ({ s with list := none }, some list)
| failure :
    actionOf (word 0 buffer) = .files →
      s.eroare = true →
        Served config i buffer dir s
          ({ s with eroare := false, flist := none },
            some unknownUser)
| noFiles :
    actionOf (word 0 buffer) = .files →
      s.eroare = false → s.flist = none →
        Served config i buffer dir s (exit s, none)
| files {flist : Text} :
    actionOf (word 0 buffer) = .files →
      s.eroare = false → s.flist = some flist →
        Served config i buffer dir s
          ({ s with flist := none }, some flist)
| quit :
    actionOf (word 0 buffer) = .quit →
      Served config i buffer dir s
        (closeClient i (setAttempts config i 0 s), none)
| other {reply : Option Text} :
    actionOf (word 0 buffer) = .logout ∨
        actionOf (word 0 buffer) = .other →
      buffer ≠ [] →
        reply ≠ some bruteForce →
          Served config i buffer dir s
            (setAttempts config i 0 s, reply)

section Served

variable {config : Config} {i : Nat} {buffer : Text}
variable {dir : Option (List DirEntry)} {s : Server}

theorem served_login
    (hAction : actionOf (word 0 buffer) = .login) :
    Served config i buffer dir s
      (login config i (word 1 buffer) (word 2 buffer) s) := by
  unfold login
  split
  · rename_i hLogin
    exact .authenticated hAction hLogin
  · rename_i hLogin
    rw [Bool.not_eq_true] at hLogin
    have hNow :
        (setAttempts config i
          (s.clientAttempts (i % config.n) + 1)
          s).clientAttempts (i % config.n) =
            s.clientAttempts (i % config.n) + 1 :=
      Function.update_self _ _ _
    simp only [hNow, setAttempts_twice]
    split
    · rename_i hCount
      exact .detected hAction hLogin hCount
    · rename_i hCount
      exact .rejected hAction hLogin hCount

theorem served_getFileList
    (hAction : actionOf (word 0 buffer) = .getfilelist) :
    Served config i buffer dir s
      (getFileList config i (word 1 buffer) dir s) := by
  unfold getFileList
  split
  · rename_i hKnown
    cases dir with
    | none => exact .unreadable hAction hKnown rfl
    | some entries => exact .fileListed hAction hKnown rfl
  · rename_i hKnown
    rw [Bool.not_eq_true] at hKnown
    exact .unknown hAction hKnown

theorem served_sendUsers
    (hAction : actionOf (word 0 buffer) = .users) :
    Served config i buffer dir s (sendUsers s) := by
  unfold sendUsers
  cases hList : s.list with
  | none => exact .noUsers hAction hList
  | some list => exact .users hAction hList

theorem served_sendFiles
    (hAction : actionOf (word 0 buffer) = .files) :
    Served config i buffer dir s (sendFiles s) := by
  unfold sendFiles
  split
  · rename_i hError
    exact .failure hAction hError
  · rename_i hError
    rw [Bool.not_eq_true] at hError
    cases hList : s.flist with
    | none => exact .noFiles hAction hError hList
    | some flist => exact .files hAction hError hList

theorem served
    (config : Config)
    (i : Nat)
    (buffer : Text)
    (dir : Option (List DirEntry))
    (s : Server) :
    Served config i buffer dir s
      (serve config i buffer dir s) := by
  unfold serve
  split
  · rename_i hEmpty
    exact .hungUp hEmpty
  · rename_i hBuffer
    unfold handle
    cases hAction : actionOf (word 0 buffer) with
    | login => exact served_login hAction
    | logout =>
        exact .other (Or.inl hAction) hBuffer (by decide)
    | getuserlist => exact .userListed hAction
    | getfilelist => exact served_getFileList hAction
    | users => exact served_sendUsers hAction
    | files => exact served_sendFiles hAction
    | quit => exact .quit hAction
    | other => exact .other (Or.inr hAction) hBuffer (by decide)

/- A message with a command is not empty. -/
theorem buffer_ne_nil
    {action : Action}
    (hAction : actionOf (word 0 buffer) = action)
    (hCommand : action ≠ .other) :
    buffer ≠ [] := by
  rintro rfl
  exact hCommand (hAction.symm.trans (by decide))

/- What the steps are. -/
theorem step_cases
    {s' : Server}
    {e : Event}
    (hStep : step config s e = some s') :
    s.exited = false ∧
      ((∃ newsockfd,
          e = .connect newsockfd ∧
            newsockfd ≠ config.sockfd ∧
            newsockfd ∉ s.readFds ∧
            s' = accept config newsockfd s) ∨
        ∃ i buffer dir,
          e = .receive i buffer dir ∧
            i ∈ s.readFds ∧
            s' = (serve config i buffer dir s).1) := by
  cases e with
  | connect newsockfd =>
      simp only [step] at hStep
      split at hStep
      · cases hStep
      · rename_i hEnabled
        simp only [not_or, Bool.not_eq_true] at hEnabled
        cases hStep
        exact ⟨hEnabled.1,
          Or.inl ⟨newsockfd, rfl, hEnabled.2.1, hEnabled.2.2,
            rfl⟩⟩
  | receive i buffer dir =>
      simp only [step] at hStep
      split at hStep
      · cases hStep
      · rename_i hEnabled
        simp only [not_or, Bool.not_eq_true, not_not] at hEnabled
        cases hStep
        exact ⟨hEnabled.1,
          Or.inr ⟨i, buffer, dir, rfl, hEnabled.2, rfl⟩⟩

end Served

/- Events that can be executed are a run. -/
theorem exists_run
    (config : Config)
    (events : List Event)
    (P : Trace → Server → Bool)
    (hExecute :
      (TransitionSystem.execute (step config) []
        (start (fun _ => 0)) events).any
          (fun r => P r.1 r.2) = true) :
    ∃ trace s,
      (chatSystem config).Run trace s ∧ P trace s = true :=
  TransitionSystem.exists_run_of_execute
    (fun s => ∃ clientAttempts, s = start clientAttempts)
    (step config) ⟨_, rfl⟩ events P hExecute

/- A server with one user and no shared file. -/
def oneUser : Config where
  sockfd := 3
  n := 1
  users := ["ana".toList, "secret".toList]
  shares := []

example :
    fileList oneUser
        [⟨".".toList, 4096⟩, ⟨"notes".toList, 12⟩] =
      "notes 12 bytes PRIVATE\n".toList := by
  decide

end TcpChat

end ProgrammingTasks
