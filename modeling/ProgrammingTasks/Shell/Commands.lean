import ProgrammingTasks.Foundations.DescriptorTable
import ProgrammingTasks.Shell.Words

/-
  Command trees and their evaluation (`cmd.c`, `main.c`).

  A process is its table of descriptors, with a record of the
  simple commands that it has run itself.  A call that ends
  the process (`DIE`) has no result.  Local variables that are
  returned without a value take it from `undefined`.

  Main declarations:
    * `Command`, `Process`
    * `parseCommand`, `doOnPipe`, `doInParallel`
    * `parseSimple`
    * `startShell`
-/

------------------------------------------------------------
-- Commands
------------------------------------------------------------

namespace ProgrammingTasks

namespace Shell

/- `operator_t` for the inner nodes of a tree. -/
inductive Operator
| sequential
| parallel
| conditionalZero
| conditionalNzero
| pipe
deriving DecidableEq, Repr

/- `command_t`: a simple command or two joined commands. -/
inductive Command (L : Type)
| simple (scmd : L)
| bind (op : Operator) (cmd1 cmd2 : Command L)

/- `simple_command_t`. -/
structure SimpleCommand where
  verb : Word
  params : List Word
  red : Redirect

/-
  The way from the root to a call, the last turn first; it
  stands for the arguments `level` and `father`.
-/
abbrev Path := List Bool

/- `SHELL_EXIT`. -/
def shellExit : Int := -100

------------------------------------------------------------
-- Processes
------------------------------------------------------------

/- How a file was opened. -/
inductive OpenMode
| read
| append
| trunc
| pipe
deriving DecidableEq, Repr

/- An open file; the serial number tells it from any other. -/
structure OpenFile where
  serial : Nat
  name : Text
  mode : OpenMode
deriving DecidableEq, Repr

/-
  The state of a process: its descriptors, the number of files
  opened so far, and the simple commands it has run, the
  latest one first.
-/
structure Process (L : Type) where
  fds : DescriptorTable OpenFile
  opened : Nat
  ran : List (Path × L)

/- What a call returns, unless it ends the process. -/
abbrev Outcome (L : Type) := Option (Int × Process L)

variable {L : Type}

namespace Process

/- Open a file under the lowest free descriptor. -/
def openFile
    (p : Process L) (name : Text) (mode : OpenMode) :
    Int × Process L :=
  let (fd, fds) := p.fds.allocate ⟨p.opened, name, mode⟩
  (fd, { p with fds := fds, opened := p.opened + 1 })

/- `pipe`: the read end and the write end. -/
def pipe (p : Process L) : Int × Int × Process L :=
  let (readEnd, p) := p.openFile [] .pipe
  let (writeEnd, p) := p.openFile [] .pipe
  (readEnd, writeEnd, p)

/- `dup`. -/
def dup (p : Process L) (old : Int) : Int × Process L :=
  let (fd, fds) := p.fds.dup old
  (fd, { p with fds := fds })

/- `dup2` without a check of its result. -/
def dup2 (p : Process L) (old : Int) (new : Nat) : Process L :=
  { p with fds := (p.fds.dup2 old new).getD p.fds }

/- `close`. -/
def close (p : Process L) (fd : Int) : Process L :=
  { p with fds := p.fds.close fd }

/- Record a simple command that the process runs. -/
def record (p : Process L) (path : Path) (scmd : L) :
    Process L :=
  { p with ran := (path, scmd) :: p.ran }

end Process

def stdinFileno : Nat := 0

def stdoutFileno : Nat := 1

def stderrFileno : Nat := 2

/-
  What `waitpid` reports of a child that exits after
  `parse_command`: `EXIT_SUCCESS` for 0 and `SHELL_EXIT`, and
  `EXIT_FAILURE` otherwise, also when the child died.
-/
def childStatus : Outcome L → Int
| none => 256
| some (res, _) =>
    if res = 0 ∨ res = shellExit then 0 else 256

------------------------------------------------------------
-- Evaluation
------------------------------------------------------------

/-
  The parts of a run that the tree does not determine: how a
  simple command runs, and the value of `ret` in a call that
  does not assign it.
-/
structure Surroundings (L : Type) where
  runSimple : L → Path → Process L → Outcome L
  undefined : Path → Int

/- The child of `do_on_pipe` before its command. -/
def enterReader
    (p : Process L) (readEnd writeEnd : Int) : Process L :=
  let p := p.close writeEnd
  let (_, p) := p.dup stdinFileno
  let p := p.dup2 readEnd stdinFileno
  p.close readEnd

/- The parent before its command, with the saved `stdout`. -/
def enterWriter
    (p : Process L) (readEnd writeEnd : Int) : Int × Process L :=
  let p := p.close readEnd
  let (saved, p) := p.dup stdoutFileno
  let p := p.dup2 writeEnd stdoutFileno
  (saved, p.close writeEnd)

/- The parent after its command. -/
def leaveWriter (p : Process L) (saved : Int) : Process L :=
  if saved ≠ -1 then
    (p.dup2 saved stdoutFileno).close saved
  else
    p

/- `do_on_pipe`: the shell itself runs the first command. -/
def doOnPipe
    (run1 run2 : Process L → Outcome L)
    (p : Process L) : Outcome L :=
  let (readEnd, writeEnd, p) := p.pipe
  let status := childStatus (run2 (enterReader p readEnd writeEnd))
  let (saved, p) := enterWriter p readEnd writeEnd
  match run1 p with
  | none => none
  | some (_, p) => some (status, leaveWriter p saved)

/- `do_in_parallel`: two children, and the second's status. -/
def doInParallel
    (_run1 run2 : Process L → Outcome L)
    (p : Process L) : Outcome L :=
  some (childStatus (run2 p), p)

/- `parse_command`. -/
def parseCommand (env : Surroundings L) :
    Command L → Path → Process L → Outcome L
| .simple scmd, path, p => env.runSimple scmd path p
| .bind .sequential cmd1 cmd2, path, p =>
    match parseCommand env cmd1 (false :: path) p with
    | none => none
    | some (_, p) =>
        match parseCommand env cmd2 (true :: path) p with
        | none => none
        | some (_, p) => some (env.undefined path, p)
| .bind .parallel cmd1 cmd2, path, p =>
    doInParallel
      (parseCommand env cmd1 (false :: path))
      (parseCommand env cmd2 (true :: path)) p
| .bind .conditionalNzero cmd1 cmd2, path, p =>
    match parseCommand env cmd1 (false :: path) p with
    | none => none
    | some (ret, p) =>
        if ret ≠ 0 then
          parseCommand env cmd2 (true :: path) p
        else
          some (ret, p)
| .bind .conditionalZero cmd1 cmd2, path, p =>
    match parseCommand env cmd1 (false :: path) p with
    | none => none
    | some (ret, p) =>
        if ret = 0 then
          parseCommand env cmd2 (true :: path) p
        else
          some (ret, p)
| .bind .pipe cmd1 cmd2, path, p =>
    doOnPipe
      (parseCommand env cmd1 (false :: path))
      (parseCommand env cmd2 (true :: path)) p

/- `strncmp(text, int_cmd, strlen(text))` finds no difference. -/
def isCommand (text intCmd : Text) : Bool :=
  text.isPrefixOf intCmd

/- The verbs of the exit path of `parse_simple`. -/
def isExit (env : Environment) (s : SimpleCommand) : Bool :=
  isCommand ['e', 'x', 'i', 't'] (getWord env s.verb) ||
    isCommand ['q', 'u', 'i', 't'] (getWord env s.verb)

/-
  `parse_simple`: the path of `exit` and `quit`, and any other
  command by `runOther`.
-/
def parseSimple
    (env : Environment)
    (runOther :
      SimpleCommand → Path → Process SimpleCommand →
        Outcome SimpleCommand)
    (s : SimpleCommand) (path : Path)
    (p : Process SimpleCommand) :
    Outcome SimpleCommand :=
  let p := p.record path s
  if isExit env s then
    some (shellExit, p)
  else
    runOther s path p

------------------------------------------------------------
-- The Loop of the Shell
------------------------------------------------------------

/-
  A line of input: the tree that `parse_line` made of it, if
  any, and what its evaluation meets.
-/
structure Line (L : Type) where
  root : Option (Command L)
  env : Surroundings L

/-
  `start_shell`: the lines that are left when its loop ends.
-/
def startShell : List (Line L) → Process L →
    Option (List (Line L) × Process L)
| [], p => some ([], p)
| line :: rest, p =>
    match line.root with
    | none => startShell rest p
    | some root =>
        match parseCommand line.env root [] p with
        | none => none
        | some (ret, p) =>
            if ret = shellExit then
              some (rest, p)
            else
              startShell rest p

end Shell

end ProgrammingTasks
