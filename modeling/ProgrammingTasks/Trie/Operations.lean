import ProgrammingTasks.Foundations.DigitalTree
import ProgrammingTasks.Foundations.TransitionSystem

/-
  The trie of the package `implementation` (`TrieFunctions`,
  `TrieNode`, `Codifications`, `Trie1`, `Trie2`).

  A null reference to a `TrieNode` is the empty tree.  An
  exception is an answer of its own; the nodes made before it
  was thrown stay in the tree.

  Main declarations:
    * `encode`, `TrieElement`, `TrieNode`
    * `add`, `search`, `count`, `remove`, `getSortedElements`
    * `trieSystem`
-/

------------------------------------------------------------
-- Codifications
------------------------------------------------------------

namespace ProgrammingTasks

namespace Trie

/- A Java string by its characters. -/
abbrev JavaString := List Char

/- `Codifications.encode`. -/
def encode (letter : Char) : Nat :=
  match letter with
  | '!' => 1
  | '(' => 2
  | ')' => 3
  | '-' => 4
  | '0' => 5
  | '1' => 6
  | '2' => 7
  | '3' => 8
  | '4' => 9
  | '5' => 10
  | '6' => 11
  | '7' => 12
  | '8' => 13
  | '9' => 14
  | '?' => 15
  | 'A' => 16
  | 'B' => 17
  | 'C' => 18
  | 'D' => 19
  | 'E' => 20
  | 'F' => 21
  | 'G' => 22
  | 'H' => 23
  | 'I' => 24
  | 'J' => 25
  | 'K' => 26
  | 'L' => 27
  | 'M' => 28
  | 'N' => 29
  | 'O' => 30
  | 'P' => 31
  | 'Q' => 32
  | 'R' => 33
  | 'S' => 34
  | 'T' => 35
  | 'U' => 36
  | 'V' => 37
  | 'W' => 38
  | 'X' => 39
  | 'Y' => 40
  | 'Z' => 41
  | '_' => 42
  | 'a' => 43
  | 'b' => 44
  | 'c' => 45
  | 'd' => 46
  | 'e' => 47
  | 'f' => 48
  | 'g' => 49
  | 'h' => 50
  | 'i' => 51
  | 'j' => 52
  | 'k' => 53
  | 'l' => 54
  | 'm' => 55
  | 'n' => 56
  | 'o' => 57
  | 'p' => 58
  | 'q' => 59
  | 'r' => 60
  | 's' => 61
  | 't' => 62
  | 'u' => 63
  | 'v' => 64
  | 'w' => 65
  | 'x' => 66
  | 'y' => 67
  | 'z' => 68
  | _ => 0

/- The letters that have a code. -/
def InAlphabet (letter : Char) : Prop :=
  encode letter ≠ 0

instance (letter : Char) : Decidable (InAlphabet letter) := by
  unfold InAlphabet
  infer_instance

/-
  The place `encode() - 1` among the children; there is none
  when the letter has no code.
-/
def index (letter : Char) : Option (Fin 68) :=
  if hRange : 1 ≤ encode letter ∧ encode letter ≤ 68 then
    some ⟨encode letter - 1, by omega⟩
  else
    none

------------------------------------------------------------
-- Elements and Strings
------------------------------------------------------------

/- An element with its string `s`. -/
inductive TrieElement
| trie1 (s : JavaString)
| trie2 (s : JavaString)
deriving DecidableEq, Repr

/- `getS`. -/
def TrieElement.getS : TrieElement → JavaString
| trie1 s => s
| trie2 s => s

/-
  `toCharArray`.  `String.toLowerCase` depends on the locale
  and is a parameter.
-/
def toCharArray (toLowerCase : JavaString → JavaString) :
    TrieElement → List Char
| .trie1 s => toLowerCase s
| .trie2 s =>
    s.filter (fun ch => ch ∉ ['-', '_', '(', ')'])

/- `String.compareTo`. -/
def compareTo : JavaString → JavaString → Int
| [], ys => -ys.length
| x :: xs, [] => (x :: xs).length
| x :: xs, y :: ys =>
    if x = y then compareTo xs ys
    else (x.toNat : Int) - y.toNat

/- `lexicographicalOrder`: the smaller of two strings. -/
def lexicographicalOrder (oldS newS : JavaString) : JavaString :=
  if compareTo oldS newS < 0 then oldS
  else if compareTo oldS newS > 0 then newS
  else oldS

------------------------------------------------------------
-- Nodes
------------------------------------------------------------

/- The fields of a `TrieNode` but its letter and children. -/
structure NodeData where
  count : Int32
  string : Option JavaString
  fullWord : Bool

/- A `TrieNode`, or null. -/
abbrev TrieNode := DigitalTree (Fin 68) NodeData

/- A node made by `new TrieNode(character)`. -/
def newNode : NodeData where
  count := 0
  string := none
  fullWord := false

/- The fields of the class `TrieFunctions`. -/
structure TrieFunctions where
  root : TrieNode
  nrElements : Nat

/- The constructor of `TrieFunctions`. -/
def TrieFunctions.new : TrieFunctions where
  root :=
    .node { newNode with string := some [] } (fun _ => .null)
  nrElements := 0

/- What a call returns; an exception ends the call. -/
inductive Answer
| done
| number (n : Int32)
| elements (array : List (Option TrieElement))
| thrown

/- The places of the letters of a key. -/
def path (letters : List Char) : List (Fin 68) :=
  letters.filterMap index

------------------------------------------------------------
-- Adding
------------------------------------------------------------

/-
  The loop of `add`: walk down and create what is missing.
  The result is `false` when an index is out of range.
-/
def addWalk : List Char → TrieNode → TrieNode × Bool
| [], currentNode => (currentNode, true)
| _ :: _, .null => (.null, false)
| character :: letters, .node data children =>
    match index character with
    | none => (.node data children, false)
    | some i =>
        let walked :=
          addWalk letters
            (DigitalTree.orLeaf newNode (children i))
        (.node data (Function.update children i walked.1),
          walked.2)

/- What `add` does to the last node. -/
def addString (s : JavaString) (data : NodeData) :
    NodeData where
  count := data.count + 1
  string :=
    match data.string with
    | none => some s
    | some string => some (lexicographicalOrder string s)
  fullWord := true

section Calls

variable (toLowerCase : JavaString → JavaString)

/- `add`. -/
def add (t : TrieFunctions) (element : TrieElement) :
    TrieFunctions × Answer :=
  let arrayLetters := toCharArray toLowerCase element
  let walked := addWalk arrayLetters t.root
  if walked.2 then
    ({ t with
        root :=
          DigitalTree.modify (addString element.getS)
            (path arrayLetters) walked.1 },
      .done)
  else
    ({ t with root := walked.1 }, .thrown)

------------------------------------------------------------
-- Searching, Counting, Removing
------------------------------------------------------------

/-
  The loop of `search`: the node, which may be null, or no
  node when an index is out of range.
-/
def searchFrom : List Char → TrieNode → Option TrieNode
| [], currentNode => some currentNode
| _ :: _, .null => some .null
| charC :: letters, .node _ children =>
    match index charC with
    | none => none
    | some i => searchFrom letters (children i)

/- `search`. -/
def search (t : TrieFunctions) (element : TrieElement) :
    Option TrieNode :=
  searchFrom (toCharArray toLowerCase element) t.root

/- `count`. -/
def count (t : TrieFunctions) (element : TrieElement) :
    Answer :=
  match search toLowerCase t element with
  | none => .thrown
  | some .null => .number 0
  | some (.node data _) => .number data.count

/- What `remove` does to the node it found. -/
def removeString (data : NodeData) : NodeData :=
  let count :=
    if data.count > 0 then data.count - 1 else data.count
  if count = 0 then
    { count := count
      string := some ['~']
      fullWord := false }
  else
    { data with count := count }

/- `remove`: the node is changed through its reference. -/
def remove (t : TrieFunctions) (element : TrieElement) :
    TrieFunctions × Answer :=
  match search toLowerCase t element with
  | none => (t, .thrown)
  | some .null => (t, .done)
  | some (.node _ _) =>
      ({ t with
          root :=
            DigitalTree.modify removeString
              (path (toCharArray toLowerCase element))
              t.root },
        .done)

------------------------------------------------------------
-- Listing
------------------------------------------------------------

/-
  `wordsWithSamePrefix`: a traversal in pre-order that appends
  to the list and counts in `nrElements`.
-/
def wordsWithSamePrefix :
    TrieNode → List JavaString × Nat → List JavaString × Nat
| .null, found => found
| .node data children, found =>
    let found' :=
      match data.string with
      | some string =>
          if data.fullWord ∧ data.count > 0 then
            (found.1 ++ [string], found.2 + 1)
          else
            found
      | none => found
    (List.finRange 68).foldl
      (fun found i => wordsWithSamePrefix (children i) found)
      found'

/-
  An array of `n` places with the strings from the front, as
  elements of class `Trie1`; the rest stays null.
-/
def fillArray (n : Nat) (strings : List JavaString) :
    List (Option TrieElement) :=
  strings.map (fun s => some (.trie1 s)) ++
    List.replicate (n - strings.length) none

/- `getSortedElements`. -/
def getSortedElements
    (t : TrieFunctions) (element : TrieElement) :
    TrieFunctions × Answer :=
  match search toLowerCase t element with
  | none => (t, .thrown)
  | some currentNode =>
      let found :=
        wordsWithSamePrefix currentNode ([], t.nrElements)
      if found.1.length ≤ found.2 then
        ({ t with nrElements := 0 },
          .elements (fillArray found.2 found.1))
      else
        ({ t with nrElements := found.2 }, .thrown)

------------------------------------------------------------
-- Runs
------------------------------------------------------------

/- A call of a `TrieFunctions` object. -/
inductive Operation
| add (element : TrieElement)
| remove (element : TrieElement)
| count (element : TrieElement)
| getSortedElements (element : TrieElement)

/- The element a call is made with. -/
def Operation.element : Operation → TrieElement
| add element => element
| remove element => element
| count element => element
| getSortedElements element => element

/- One call. -/
def perform (t : TrieFunctions) :
    Operation → TrieFunctions × Answer
| .add element => add toLowerCase t element
| .remove element => remove toLowerCase t element
| .count element => (t, count toLowerCase t element)
| .getSortedElements element =>
    getSortedElements toLowerCase t element

/- The calls on a fresh object. -/
def trieSystem : TransitionSystem TrieFunctions Operation :=
  TransitionSystem.ofFunction
    (fun t => t = TrieFunctions.new)
    (fun t operation => some (perform toLowerCase t operation).1)

end Calls

end Trie

end ProgrammingTasks
