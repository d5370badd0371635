import ProgrammingTasks.TaskClusters.Events
import Mathlib.Data.List.DropRight

/-
  The parser of the editor logs (`Task.java`).

  A line is taken for what the first of four texts in it says.
  The event that is being read, and the list of its elements,
  are objects: what is read after an event has been added is
  still written to it.

  Main declarations:
    * `splitLines`, `parseInt`
    * `parseLine`, `parseLogs`
    * `Block`, `parseLogs_logText`
-/

------------------------------------------------------------
-- Strings
------------------------------------------------------------

namespace ProgrammingTasks

namespace TaskClusters

/-
  `split("\n")`: empty strings at the end are left out, but a
  string without a separator is kept as it is.
-/
def splitLines (s : Text) : List Text :=
  if '\n' ∈ s then
    (s.splitOn '\n').rdropWhile List.isEmpty
  else
    [s]

/- `indexOf`, and -1 if the character does not occur. -/
def indexOf (s : Text) (c : Char) : Int :=
  match s.findIdx? (fun c' => c' = c) with
  | some index => index
  | none => -1

/- `substring` to the end; it throws out of bounds. -/
def substring (s : Text) (beginIndex : Int) : Option Text :=
  if 0 ≤ beginIndex ∧ beginIndex ≤ s.length then
    some (s.drop beginIndex.toNat)
  else
    none

/- The value of some digits; anything else throws. -/
def parseDigits (sign : Int) (digits : Text) : Option Int :=
  if digits ≠ [] ∧ digits.all Char.isDigit = true ∧
      IsInt (sign * Nat.ofDigitChars 10 digits 0) then
    some (sign * Nat.ofDigitChars 10 digits 0)
  else
    none

/- `Integer.parseInt`, for the digits from 0 to 9. -/
def parseInt : Text → Option Int
| '-' :: digits => parseDigits (-1) digits
| '+' :: digits => parseDigits 1 digits
| digits => parseDigits 1 digits

------------------------------------------------------------
-- The Parser
------------------------------------------------------------

/-
  A `UserEvent` with the list `pathInPage` that was made with
  it.  An area of the event has this list for its path.
-/
structure EventObject where
  zone : Option Zone
  timestamp : Int
  pathInPage : List EditorElement

/- The event as it can be read. -/
def EventObject.userEvent (o : EventObject) : UserEvent :=
  ⟨o.zone.map (fun zone => ⟨zone, o.pathInPage⟩), o.timestamp⟩

/-
  The objects that were made; `ue` and `pathInPage` refer to
  the last one, and are null before the first one.  The list
  `userEvents` has references to them.
-/
structure Parsing where
  objects : List EventObject
  userEvents : List Nat

/- Write to the event that is read; null throws. -/
def Parsing.update
    (f : EventObject → EventObject) (st : Parsing) :
    Option Parsing :=
  match st.objects.getLast? with
  | none => none
  | some o =>
      some { st with objects := st.objects.dropLast ++ [f o] }

/- The texts by which the lines are told apart. -/
def openText : Text :=
  ['u', 's', 'e', 'r', '_', 'e', 'v', 'e', 'n', 't', ' ', '{']

def elementText : Text :=
  ['e', 'l', 'e', 'm', 'e', 'n', 't']

def timestampText : Text :=
  ['t', 'i', 'm', 'e', 's', 't', 'a', 'm', 'p']

def closeText : Text :=
  ['}', ' ', 'u', 's', 'e', 'r', '_', 'e', 'v', 'e', 'n', 't']

/- One line. -/
def parseLine (st : Parsing) (s : Text) : Option Parsing :=
  if contains s openText then
    some { st with objects := st.objects ++ [⟨none, 0, []⟩] }
  else if contains s elementText then
    (substring s (indexOf s ':' + 2)).bind (fun type =>
      st.update (fun o =>
        { o with pathInPage := o.pathInPage ++ [⟨type⟩] }))
  else if contains s timestampText then
    ((substring s (indexOf s ':' + 2)).bind parseInt).bind
      (fun timestamp =>
        st.update (fun o => { o with timestamp := timestamp }))
  else if contains s closeText then
    (st.update (fun o =>
      { o with
        zone :=
          (createZone o.pathInPage).map EditorArea.zone })).map
      (fun st =>
        { st with
          userEvents :=
            st.userEvents ++ [st.objects.length - 1] })
  else
    some st

/- `parseLogs`: the events that the list refers to. -/
def parseLogs (logs : Text) : Option (List UserEvent) :=
  ((splitLines logs).foldlM parseLine ⟨[], []⟩).map
    (fun st =>
      st.userEvents.filterMap
        (fun i => st.objects[i]?.map EventObject.userEvent))

------------------------------------------------------------
-- Logs
------------------------------------------------------------

/- The decimal form of a number. -/
def decimal (n : Int) : Text :=
  if n < 0 then '-' :: Nat.toDigits 10 n.natAbs
  else Nat.toDigits 10 n.natAbs

/- An event of a log; a log may leave out the timestamp. -/
structure Block where
  elements : List Text
  timestamp : Option Int
  number : Nat

def elementPrefix : Text :=
  [' ', ' ', ' ', ' ', 'e', 'l', 'e', 'm', 'e', 'n', 't', ' ',
    ':', ' ']

def timestampPrefix : Text :=
  [' ', ' ', ' ', ' ', 't', 'i', 'm', 'e', 's', 't', 'a', 'm',
    'p', ' ', ':', ' ']

def elementLine (type : Text) : Text :=
  elementPrefix ++ type

def timestampLine (timestamp : Int) : Text :=
  timestampPrefix ++ decimal timestamp

def closeLine (number : Nat) : Text :=
  closeText ++ '[' :: (Nat.toDigits 10 number ++ [']'])

def Block.lines (b : Block) : List Text :=
  openText ::
    (b.elements.map elementLine ++
      b.timestamp.toList.map timestampLine ++
        [closeLine b.number])

/- All lines are ended by a newline. -/
def logText (blocks : List Block) : Text :=
  (blocks.flatMap Block.lines).flatMap (fun line => line ++ ['\n'])

/- The event that the block stands for. -/
def Block.userEvent (b : Block) : UserEvent :=
  ⟨createZone (b.elements.map EditorElement.mk),
    b.timestamp.getD 0⟩

/- What the texts and the timestamp of a block may be. -/
structure Block.Valid (b : Block) : Prop where
  noNewline : ∀ type ∈ b.elements, '\n' ∉ type
  noOpen : ∀ type ∈ b.elements, contains type openText = false
  timestamp : ∀ timestamp ∈ b.timestamp, IsInt timestamp

------------------------------------------------------------
-- Numbers
------------------------------------------------------------

/- A digit is neither of the signs. -/
theorem isDigit_ne_sign {c : Char} (hDigit : c.isDigit = true) :
    c ≠ '-' ∧ c ≠ '+' := by
  constructor
  · rintro rfl
    exact absurd hDigit (by decide)
  · rintro rfl
    exact absurd hDigit (by decide)

theorem isDigit_of_mem_toDigits
    {n : Nat} {c : Char} (hMem : c ∈ Nat.toDigits 10 n) :
    c.isDigit = true :=
  Nat.isDigit_of_mem_toDigits (by decide) (by decide) hMem

theorem parseDigits_toDigits
    {sign : Int} {n : Nat}
    (hInt : IsInt (sign * n)) :
    parseDigits sign (Nat.toDigits 10 n) = some (sign * n) := by
  have hDigits :
      (Nat.toDigits 10 n).all Char.isDigit = true := by
    rw [List.all_eq_true]
    exact fun c hMem => isDigit_of_mem_toDigits hMem
  rw [parseDigits, Nat.ofDigitChars_ten_toDigits,
    if_pos ⟨Nat.toDigits_ne_nil, hDigits, hInt⟩]

/- Without a sign only the digits are read. -/
theorem parseInt_of_digits
    {digits : Text}
    (hDigits : ∀ c ∈ digits, c.isDigit = true) :
    parseInt digits = parseDigits 1 digits := by
  cases digits with
  | nil => rfl
  | cons c rest =>
      have hSigns :=
        isDigit_ne_sign (hDigits c List.mem_cons_self)
      unfold parseInt
      split
      · rename_i hSame
        exact absurd (List.cons.inj hSame).1 hSigns.1
      · rename_i hSame
        exact absurd (List.cons.inj hSame).1 hSigns.2
      · rfl

/- The decimal form of an `int` is read as that number. -/
theorem parseInt_decimal {n : Int} (hInt : IsInt n) :
    parseInt (decimal n) = some n := by
  unfold decimal
  split
  · have hSame : (-1) * (n.natAbs : Int) = n := by omega
    rw [parseInt, parseDigits_toDigits (by rwa [hSame]), hSame]
  · have hSame : 1 * (n.natAbs : Int) = n := by omega
    rw [parseInt_of_digits
      (fun c hMem => isDigit_of_mem_toDigits hMem),
      parseDigits_toDigits (by rwa [hSame]), hSame]

/- A decimal form has digits and the minus sign. -/
theorem not_mem_decimal
    {c : Char}
    (hMinus : c ≠ '-') (hDigit : c.isDigit = false)
    (n : Int) :
    c ∉ decimal n := by
  have hDigits : c ∉ Nat.toDigits 10 n.natAbs := by
    intro hMem
    rw [isDigit_of_mem_toDigits hMem] at hDigit
    exact nomatch hDigit
  unfold decimal
  split
  · rw [List.mem_cons]
    exact fun hMem => hMem.elim hMinus hDigits
  · exact hDigits

------------------------------------------------------------
-- Lines
------------------------------------------------------------

/- A text is not found where one of its characters is not. -/
theorem contains_of_not_mem
    {s text : Text} {c : Char}
    (hText : c ∈ text) (hNot : c ∉ s) :
    contains s text = false :=
  decide_eq_false
    (fun hInfix => hNot (hInfix.subset hText))

/- It does not begin where its first character is not. -/
theorem contains_append_of_not_mem
    {c : Char} {text s : Text} :
    ∀ {start : Text}, c ∉ start →
      contains s (c :: text) = false →
        contains (start ++ s) (c :: text) = false
| [], _, hRest => hRest
| c' :: start, hNot, hRest => by
    have hTail :=
      contains_append_of_not_mem
        (fun hMem => hNot (List.mem_cons_of_mem c' hMem)) hRest
    rw [contains, decide_eq_false_iff_not] at hTail ⊢
    intro hInfix
    rcases List.infix_cons_iff.mp hInfix with hPrefix | hInner
    · have hSame := (List.cons_prefix_cons.mp hPrefix).1
      exact hNot (hSame ▸ List.mem_cons_self)
    · exact hTail hInner

theorem contains_append_of_left
    {start text : Text} (s : Text)
    (hStart : contains start text = true) :
    contains (start ++ s) text = true :=
  decide_eq_true
    ((of_decide_eq_true hStart).trans
      (List.infix_append' [] start s))

theorem indexOf_append
    {c : Char} {start : Text} (rest : Text)
    (hNot : c ∉ start) :
    indexOf (start ++ c :: rest) c = start.length := by
  have hStart :
      start.findIdx? (fun c' => c' = c) = none := by
    rw [List.findIdx?_eq_none_iff]
    intro c' hMem
    exact decide_eq_false
      (fun hSame => hNot (hSame ▸ hMem))
  rw [indexOf, List.findIdx?_append, hStart]
  simp [List.findIdx?_cons]

/- The text after the first colon and a blank. -/
theorem substring_after_colon
    (start rest : Text)
    (hNot : ':' ∉ start) :
    substring (start ++ ':' :: ' ' :: rest)
      (indexOf (start ++ ':' :: ' ' :: rest) ':' + 2) =
        some rest := by
  have hDrop :
      (start ++ ':' :: ' ' :: rest).drop (start.length + 2) =
        rest := by
    rw [List.drop_append]
    simp
  rw [indexOf_append _ hNot, substring, if_pos]
  · exact congrArg some hDrop
  · simp only [List.length_append, List.length_cons]
    omega

------------------------------------------------------------
-- The Lines of a Block
------------------------------------------------------------

theorem parseLine_openText (st : Parsing) :
    parseLine st openText =
      some
        { st with objects := st.objects ++ [⟨none, 0, []⟩] } :=
  rfl

@[simp]
theorem update_append
    (f : EventObject → EventObject)
    (objects : List EventObject) (o : EventObject)
    (refs : List Nat) :
    Parsing.update f ⟨objects ++ [o], refs⟩ =
      some ⟨objects ++ [f o], refs⟩ := by
  simp [Parsing.update]

/- An element is read, whatever else its text contains. -/
theorem parseLine_elementLine
    {type : Text} {o : EventObject}
    {objects : List EventObject} {refs : List Nat}
    (hType : contains type openText = false) :
    parseLine ⟨objects ++ [o], refs⟩ (elementLine type) =
      some
        ⟨objects ++
            [{ o with
                pathInPage := o.pathInPage ++ [⟨type⟩] }],
          refs⟩ := by
  have hOpen : contains (elementLine type) openText = false :=
    contains_append_of_not_mem (by decide) hType
  have hElement :
      contains (elementLine type) elementText = true :=
    contains_append_of_left type (by decide)
  have hSubstring :
      substring (elementLine type)
          (indexOf (elementLine type) ':' + 2) = some type :=
    substring_after_colon
      [' ', ' ', ' ', ' ', 'e', 'l', 'e', 'm', 'e', 'n', 't',
        ' ']
      type (by decide)
  rw [parseLine, hOpen, hElement, hSubstring]
  simp

/- The prefix and the number have no `u` and no `l`. -/
theorem parseLine_timestampLine
    {n : Int} {o : EventObject}
    {objects : List EventObject} {refs : List Nat}
    (hInt : IsInt n) :
    parseLine ⟨objects ++ [o], refs⟩ (timestampLine n) =
      some
        ⟨objects ++ [{ o with timestamp := n }], refs⟩ := by
  have hNot :
      ∀ {c : Char}, c ∉ timestampPrefix → c ≠ '-' →
        c.isDigit = false → c ∉ timestampLine n :=
    fun hPrefix hMinus hDigit hMem =>
      (List.mem_append.mp hMem).elim hPrefix
        (not_mem_decimal hMinus hDigit n)
  have hOpen : contains (timestampLine n) openText = false :=
    contains_of_not_mem (c := 'u') (by decide)
      (hNot (by decide) (by decide) (by decide))
  have hElement :
      contains (timestampLine n) elementText = false :=
    contains_of_not_mem (c := 'l') (by decide)
      (hNot (by decide) (by decide) (by decide))
  have hTimestamp :
      contains (timestampLine n) timestampText = true :=
    contains_append_of_left (decimal n) (by decide)
  have hSubstring :
      substring (timestampLine n)
          (indexOf (timestampLine n) ':' + 2) =
        some (decimal n) :=
    substring_after_colon
      [' ', ' ', ' ', ' ', 't', 'i', 'm', 'e', 's', 't', 'a',
        'm', 'p', ' ']
      (decimal n) (by decide)
  rw [parseLine, hOpen, hElement, hTimestamp, hSubstring]
  simp [parseInt_decimal hInt]

/- The area is chosen, and the event is added. -/
theorem parseLine_closeLine
    (number : Nat) {o : EventObject}
    {objects : List EventObject} {refs : List Nat} :
    parseLine ⟨objects ++ [o], refs⟩ (closeLine number) =
      some
        ⟨objects ++
            [{ o with
                zone :=
                  (createZone o.pathInPage).map
                    EditorArea.zone }],
          refs ++ [objects.length]⟩ := by
  have hNot :
      ∀ {c : Char}, c ∉ closeText → c ≠ '[' → c ≠ ']' →
        c.isDigit = false → c ∉ closeLine number := by
    intro c hPrefix hLeft hRight hDigit hMem
    have hDigits : c ∉ Nat.toDigits 10 number := by
      intro hInner
      rw [isDigit_of_mem_toDigits hInner] at hDigit
      exact nomatch hDigit
    simp only [closeLine, List.mem_append, List.mem_cons,
      List.not_mem_nil, or_false] at hMem
    tauto
  have hOpen :
      contains (closeLine number) openText = false :=
    contains_of_not_mem (c := '{') (by decide)
      (hNot (by decide) (by decide) (by decide) (by decide))
  have hElement :
      contains (closeLine number) elementText = false :=
    contains_of_not_mem (c := 'l') (by decide)
      (hNot (by decide) (by decide) (by decide) (by decide))
  have hTimestamp :
      contains (closeLine number) timestampText = false :=
    contains_of_not_mem (c := 'm') (by decide)
      (hNot (by decide) (by decide) (by decide) (by decide))
  have hClose :
      contains (closeLine number) closeText = true :=
    contains_append_of_left _ (by decide)
  rw [parseLine, hOpen, hElement, hTimestamp, hClose]
  simp

------------------------------------------------------------
-- Runs over Blocks
------------------------------------------------------------

theorem foldlM_elementLines
    {objects : List EventObject} {refs : List Nat} :
    ∀ {elements : List Text} {o : EventObject},
      (∀ type ∈ elements, contains type openText = false) →
        (elements.map elementLine).foldlM parseLine
            ⟨objects ++ [o], refs⟩ =
          some
            ⟨objects ++
                [{ o with
                    pathInPage :=
                      o.pathInPage ++
                        elements.map EditorElement.mk }],
              refs⟩
| [], o, _ => by
    simp
| type :: elements, o, hOpen => by
    rcases List.forall_mem_cons.mp hOpen with ⟨hType, hRest⟩
    rw [List.map_cons, List.foldlM_cons,
      parseLine_elementLine hType]
    simp [foldlM_elementLines hRest]

theorem foldlM_timestampLine
    {timestamp : Option Int} {o : EventObject}
    {objects : List EventObject} {refs : List Nat}
    (hInt : ∀ n ∈ timestamp, IsInt n) :
    (timestamp.toList.map timestampLine).foldlM parseLine
        ⟨objects ++ [o], refs⟩ =
      some
        ⟨objects ++
            [{ o with
                timestamp := timestamp.getD o.timestamp }],
          refs⟩ := by
  cases timestamp with
  | none => rfl
  | some n =>
      rw [Option.toList_some, List.map_singleton,
        List.foldlM_cons, parseLine_timestampLine (hInt n rfl)]
      rfl

/- The object that is made for a block. -/
def Block.object (b : Block) : EventObject :=
  ⟨(createZone (b.elements.map EditorElement.mk)).map
      EditorArea.zone,
    b.timestamp.getD 0,
    b.elements.map EditorElement.mk⟩

theorem userEvent_object (b : Block) :
    b.object.userEvent = b.userEvent := by
  unfold Block.object Block.userEvent EventObject.userEvent
  cases b.elements with
  | nil => rfl
  | cons type elements => rfl

/- A block makes one object, and adds it to the list. -/
theorem foldlM_lines
    {b : Block} {objects : List EventObject} {refs : List Nat}
    (hValid : b.Valid) :
    b.lines.foldlM parseLine ⟨objects, refs⟩ =
      some
        ⟨objects ++ [b.object], refs ++ [objects.length]⟩ := by
  rw [Block.lines, List.foldlM_cons, parseLine_openText]
  simp only [Option.bind_eq_bind, Option.bind_some,
    List.foldlM_append, foldlM_elementLines hValid.noOpen,
    foldlM_timestampLine hValid.timestamp,
    List.foldlM_cons, parseLine_closeLine, List.foldlM_nil,
    List.nil_append]
  rfl

/- The induction is on the blocks; the objects before them stay. -/
theorem foldlM_blocks :
    ∀ {blocks : List Block} {objects : List EventObject}
      {refs : List Nat},
      (∀ b ∈ blocks, b.Valid) →
        (blocks.flatMap Block.lines).foldlM parseLine
            ⟨objects, refs⟩ =
          some
            ⟨objects ++ blocks.map Block.object,
              refs ++
                List.range' objects.length blocks.length⟩
| [], objects, refs, _ => by
    simp
| b :: blocks, objects, refs, hValid => by
    rcases List.forall_mem_cons.mp hValid with ⟨hBlock, hRest⟩
    rw [List.flatMap_cons, List.foldlM_append,
      foldlM_lines hBlock, Option.bind_eq_bind,
      Option.bind_some, foldlM_blocks hRest]
    simp [List.range'_succ]

/- References to all objects, in their order. -/
theorem filterMap_range
    {α β : Type _} (f : α → β) (l : List α) :
    (List.range l.length).filterMap (fun i => l[i]?.map f) =
      l.map f := by
  have hLookup :
      (List.range l.length).map (fun i => l[i]?) =
        l.map some := by
    apply List.ext_getElem
    · simp
    · intro i hLeft hRight
      simp
  calc
    (List.range l.length).filterMap (fun i => l[i]?.map f)
      = ((List.range l.length).map
          (fun i => l[i]?)).filterMap (Option.map f) := by
        rw [List.filterMap_map]
        rfl
    _ = (l.map some).filterMap (Option.map f) := by
        rw [hLookup]
    _ = l.map f := by
        rw [List.filterMap_map]
        exact congrFun List.filterMap_eq_map l

------------------------------------------------------------
-- Texts of Logs
------------------------------------------------------------

/- The texts of the lines come back, and one empty text. -/
theorem splitOn_lines :
    ∀ {lines : List Text}, (∀ line ∈ lines, '\n' ∉ line) →
      (lines.flatMap (fun line => line ++ ['\n'])).splitOn
        '\n' = lines ++ [[]]
| [], _ => rfl
| line :: lines, hLines => by
    rcases List.forall_mem_cons.mp hLines with ⟨hLine, hRest⟩
    rw [List.flatMap_cons, List.append_assoc,
      List.singleton_append,
      List.splitOn_append_cons_self_of_not_mem hLine,
      splitOn_lines hRest]
    rfl

theorem splitLines_lines
    {lines : List Text}
    (hSome : lines ≠ [])
    (hNonempty : ∀ line ∈ lines, line ≠ [])
    (hLines : ∀ line ∈ lines, '\n' ∉ line) :
    splitLines (lines.flatMap (fun line => line ++ ['\n'])) =
      lines := by
  have hMem :
      '\n' ∈ lines.flatMap (fun line => line ++ ['\n']) := by
    rcases List.exists_mem_of_ne_nil lines hSome with
      ⟨line, hLine⟩
    exact List.mem_flatMap.mpr
      ⟨line, hLine, List.mem_append_right line
        List.mem_cons_self⟩
  rw [splitLines, if_pos hMem, splitOn_lines hLines,
    List.rdropWhile_concat_pos _ _ _ rfl,
    List.rdropWhile_eq_self_iff]
  intro hNe hEmpty
  exact hNonempty _ (List.getLast_mem hNe)
    (List.isEmpty_iff.mp hEmpty)

theorem lines_ne_nil
    {b : Block} {line : Text} (hLine : line ∈ b.lines) :
    line ≠ [] := by
  simp only [Block.lines, List.mem_cons, List.mem_append,
    List.mem_map, List.not_mem_nil, or_false] at hLine
  rcases hLine with rfl | (⟨_, -, rfl⟩ | ⟨_, -, rfl⟩) | rfl
  all_goals exact List.cons_ne_nil _ _

/- The lines of a block are lines. -/
theorem newline_not_mem_lines
    {b : Block} {line : Text}
    (hValid : b.Valid) (hLine : line ∈ b.lines) :
    '\n' ∉ line := by
  simp only [Block.lines, List.mem_cons, List.mem_append,
    List.mem_map, List.not_mem_nil, or_false] at hLine
  rcases hLine with
    rfl | (⟨type, hMem, rfl⟩ | ⟨n, -, rfl⟩) | rfl
  · decide
  · rw [elementLine, List.mem_append, not_or]
    exact ⟨by decide, hValid.noNewline type hMem⟩
  · rw [timestampLine, List.mem_append, not_or]
    exact ⟨by decide, not_mem_decimal (by decide) rfl n⟩
  · have hDigits : '\n' ∉ Nat.toDigits 10 b.number := by
      intro hInner
      exact absurd (isDigit_of_mem_toDigits hInner) (by decide)
    simp only [closeLine, List.mem_append, List.mem_cons,
      List.not_mem_nil, or_false, not_or]
    exact ⟨by decide, by decide, hDigits, by decide⟩

theorem splitLines_logText
    {blocks : List Block}
    (hSome : blocks ≠ [])
    (hValid : ∀ b ∈ blocks, b.Valid) :
    splitLines (logText blocks) =
      blocks.flatMap Block.lines := by
  apply splitLines_lines
  · intro hNone
    rw [List.flatMap_eq_nil_iff] at hNone
    rcases List.exists_mem_of_ne_nil blocks hSome with
      ⟨b, hMem⟩
    exact List.cons_ne_nil _ _ (hNone b hMem)
  · intro line hLine
    rcases List.mem_flatMap.mp hLine with ⟨b, hMem, hInner⟩
    exact lines_ne_nil hInner
  · intro line hLine
    rcases List.mem_flatMap.mp hLine with ⟨b, hMem, hInner⟩
    exact newline_not_mem_lines (hValid b hMem) hInner

/- One event for every block, with its timestamp and path. -/
theorem parseLogs_logText
    {blocks : List Block}
    (hValid : ∀ b ∈ blocks, b.Valid) :
    parseLogs (logText blocks) =
      some (blocks.map Block.userEvent) := by
  by_cases hNone : blocks = []
  · rw [hNone]
    decide
  · rw [parseLogs, splitLines_logText hNone hValid,
      foldlM_blocks hValid, Option.map_some]
    have hEvents :=
      filterMap_range EventObject.userEvent
        (blocks.map Block.object)
    rw [List.length_map, List.range_eq_range'] at hEvents
    simp only [List.nil_append, List.length_nil, hEvents,
      List.map_map]
    exact congrArg some
      (List.map_congr_left (fun b _ => userEvent_object b))

/-
  A text that names the other kinds of lines, and a block
  without elements and without a timestamp.
-/
theorem parseLogs_twoBlocks :
    parseLogs
        (logText
          [⟨[['t', 'i', 'm', 'e', 's', 't', 'a', 'm', 'p', ' ',
              ':', ' ', '}', ' ', 'u', 's', 'e', 'r', '_', 'e',
              'v', 'e', 'n', 't'], ['i', 'c', 'o', 'n']],
            some (-7), 1⟩, ⟨[], none, 2⟩]) =
      some
        [⟨some
            ⟨.unknownArea,
              [⟨['t', 'i', 'm', 'e', 's', 't', 'a', 'm', 'p',
                  ' ', ':', ' ', '}', ' ', 'u', 's', 'e', 'r',
                  '_', 'e', 'v', 'e', 'n', 't']⟩,
                ⟨['i', 'c', 'o', 'n']⟩]⟩, -7⟩,
          ⟨none, 0⟩] :=
  parseLogs_logText
    (List.forall_mem_cons.mpr
      ⟨⟨by decide, by decide, by decide⟩,
        List.forall_mem_cons.mpr
          ⟨⟨by decide, by decide, by decide⟩,
            fun _ hMem => absurd hMem List.not_mem_nil⟩⟩)

end TaskClusters

end ProgrammingTasks
