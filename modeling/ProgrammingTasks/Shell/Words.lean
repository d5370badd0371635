import Mathlib.Logic.Function.Basic

/-
  The words of the mini-shell and the lists of redirections
  that the grammar builds (`parser.h`, `parser.y`,
  `utils-lin.c`).

  The words of a list are nodes that are linked by
  `next_word`.  The rule for `&>` links one node into two
  lists, which from then on share their ends.

  Main declarations:
    * `Word`, `getWord`
    * `Redirect`
    * `addWordToList`, `redirectRule`, `redirectRules`
-/

------------------------------------------------------------
-- Words
------------------------------------------------------------

namespace ProgrammingTasks

namespace Shell

/- The characters of a C string. -/
abbrev Text := List Char

/- A part of a word: a text, or a variable to expand. -/
structure Part where
  string : Text
  expand : Bool
deriving DecidableEq, Repr

/- `word_t`: its first part and those behind `next_part`. -/
structure Word where
  first : Part
  nextParts : List Part
deriving DecidableEq, Repr

/- `getenv`. -/
abbrev Environment := Text → Option Text

/- The text of a part; unknown variables are empty. -/
def Part.text (env : Environment) (p : Part) : Text :=
  if p.expand then (env p.string).getD [] else p.string

/- `get_word`. -/
def getWord (env : Environment) (w : Word) : Text :=
  (w.first :: w.nextParts).flatMap (Part.text env)

/- A word of one part that is not expanded. -/
def plainWord (string : Text) : Word :=
  ⟨⟨string, false⟩, []⟩

------------------------------------------------------------
-- The Redirect Rule
------------------------------------------------------------

/- The operators of the rule, by their token names. -/
inductive RedirectOp
| indirect
| redirectO
| redirectAppendO
| redirectE
| redirectAppendE
| redirectOE
deriving DecidableEq, Repr

/- A redirection as it is written. -/
abbrev Redirection := RedirectOp × Word

def ioRegular : Nat := 0

def ioOutAppend : Nat := 1

def ioErrAppend : Nat := 2

/- `redirect_t` with the nodes of its words. -/
structure Redirect where
  words : List Word
  nextWord : Nat → Option Nat
  redI : Option Nat
  redO : Option Nat
  redE : Option Nat
  redFlags : Nat

/- The rule for no redirection. -/
def emptyRedirect : Redirect where
  words := []
  nextWord _ := none
  redI := none
  redO := none
  redE := none
  redFlags := ioRegular

/- The loop of `add_word_to_list` to the last node. -/
def lastNode (next : Nat → Option Nat) :
    Nat → Nat → Option Nat
| 0, _ => none
| fuel + 1, crt =>
    match next crt with
    | none => some crt
    | some crt' => lastNode next fuel crt'

/-
  `add_word_to_list`: the new head and links.  There is no
  result when the assertion on the new node fails.
-/
def addWordToList
    (fuel : Nat) (w : Nat) (lst : Option Nat)
    (next : Nat → Option Nat) :
    Option (Option Nat × (Nat → Option Nat)) :=
  match lst with
  | none => if next w = none then some (some w, next) else none
  | some crt =>
      match lastNode next fuel crt with
      | none => none
      | some last =>
          let next' := Function.update next last (some w)
          if next' w = none then some (lst, next') else none

/- `new_word`: a node without a successor. -/
def newWord (r : Redirect) (w : Word) : Redirect :=
  { r with
    words := r.words ++ [w]
    nextWord := Function.update r.nextWord r.words.length none }

/- Add the newest node to the list of standard input. -/
def addI (r : Redirect) (node : Nat) : Option Redirect :=
  match addWordToList r.words.length node r.redI r.nextWord with
  | none => none
  | some (red, next) =>
      some { r with redI := red, nextWord := next }

/- Add the newest node to the list of standard output. -/
def addO (r : Redirect) (node : Nat) : Option Redirect :=
  match addWordToList r.words.length node r.redO r.nextWord with
  | none => none
  | some (red, next) =>
      some { r with redO := red, nextWord := next }

/- Add the newest node to the list of standard error. -/
def addE (r : Redirect) (node : Nat) : Option Redirect :=
  match addWordToList r.words.length node r.redE r.nextWord with
  | none => none
  | some (red, next) =>
      some { r with redE := red, nextWord := next }

/- `red_flags |= flag`. -/
def orFlags (flag : Nat) (r : Redirect) : Redirect :=
  { r with redFlags := r.redFlags ||| flag }

/- The rule `redirect` for one more redirection. -/
def redirectRule
    (r : Redirect) (red : Redirection) : Option Redirect :=
  let node := r.words.length
  let r := newWord r red.2
  match red.1 with
  | .indirect => addI r node
  | .redirectO => addO r node
  | .redirectAppendO => (addO r node).map (orFlags ioOutAppend)
  | .redirectE => addE r node
  | .redirectAppendE => (addE r node).map (orFlags ioErrAppend)
  | .redirectOE => (addO r node).bind (fun r => addE r node)

/- The rule for a list of redirections. -/
def redirectRules (reds : List Redirection) : Option Redirect :=
  reds.foldlM redirectRule emptyRedirect

/- The words of a list, as the loops of the shell read them. -/
def listWords
    (words : List Word) (next : Nat → Option Nat) :
    Nat → Option Nat → List Word
| 0, _ => []
| _ + 1, none => []
| fuel + 1, some node =>
    (words[node]?).toList ++
      listWords words next fuel (next node)

namespace Redirect

def wordsI (r : Redirect) : List Word :=
  listWords r.words r.nextWord r.words.length r.redI

def wordsO (r : Redirect) : List Word :=
  listWords r.words r.nextWord r.words.length r.redO

def wordsE (r : Redirect) : List Word :=
  listWords r.words r.nextWord r.words.length r.redE

end Redirect

example :
    ((redirectRules
      [(.redirectO, plainWord ['x']),
       (.redirectOE, plainWord ['a']),
       (.redirectO, plainWord ['b'])]).map
      (fun r => (r.wordsO, r.wordsE))) =
    some
      ([plainWord ['x'], plainWord ['a'], plainWord ['b']],
       [plainWord ['a'], plainWord ['b']]) := by
  decide

end Shell

end ProgrammingTasks
