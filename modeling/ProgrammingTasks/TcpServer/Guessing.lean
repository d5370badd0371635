import ProgrammingTasks.TcpServer.Frames
import Mathlib.Data.Nat.Log
import Mathlib.Tactic.IntervalCases

/-
  The number guessing dialogue of the server.

  The bounds and the last guess are local variables of a call,
  and each message is a call of its own.  The first guess
  halves the interval; each later one is computed from what
  the variables happen to hold.

  Main declarations:
    * `Announces`, `Dialogue`, `Halves`
    * `guesses_announced`, `guesses_smaller`,
      `guesses_bigger`
    * `halves_iff`
-/

------------------------------------------------------------
-- The Dialogue
------------------------------------------------------------

namespace ProgrammingTasks

namespace TcpServer

namespace Receiver

/- The numbers that are guessed among the sent messages. -/
def guessed : Sent → Option Int
| .guess mid _ => some mid
| _ => none

def guesses (mode : Mode) (e : Event) : List Int :=
  (outputs mode e).filterMap guessed

/- How a text is sent in a mode. -/
def frameOf : Mode → List Byte → List Byte
| .plain => plainFrame
| .ack => plainFrame
| .parity => parityFrame
| .hamming => hammingFrame

/-
  The text of a message that announces an interval: a one-digit
  lower bound behind the first `[`, two characters, and the
  upper bound.
-/
structure Announces
    (text : List Byte) (low high : Nat) : Prop where
  noNul : 0 ∉ text
  random :
    ∃ before token behind,
      tokens text = before ++ token :: behind ∧
        randomText.isPrefixOf token = true ∧
        ∀ other ∈ before ++ behind,
          randomText.isPrefixOf other = false
  noAnswer :
    smallerText.isPrefixOf text = false ∧
      biggerText.isPrefixOf text = false ∧
      ackText.isPrefixOf text = false
  bounds :
    low ≤ 9 ∧
      ∃ before comma space digits behind,
        text =
            before ++ 91 :: BitVec.ofNat 8 (48 + low) ::
              comma :: space :: (digits ++ behind) ∧
          91 ∉ before ∧ digits ≠ [] ∧
          (∀ c ∈ digits, isDigit c = true) ∧
          digitsValue digits = high ∧
          ∀ c ∈ behind.head?, isDigit c = false

/-
  A dialogue about a secret number: the interval that agrees
  with the answers so far, the latest guess, and the number of
  answers.
-/
inductive Dialogue
    (mode : Mode) (secret : Int) (text : List Byte)
    (low high : Int) : Int → Int → Int → Nat → Prop
| announced {e : Event} {mid : Int} :
    IsFrame e.message (frameOf mode text) →
      guesses mode e = [mid] →
        Dialogue mode secret text low high low high mid 0
| smaller
    {lo hi mid mid' : Int} {n : Nat} {e : Event} :
    Dialogue mode secret text low high lo hi mid n →
      secret < mid →
        IsFrame e.message (frameOf mode smallerText) →
          guesses mode e = [mid'] →
            Dialogue mode secret text low high lo
              (min hi (mid - 1)) mid' (n + 1)
| bigger
    {lo hi mid mid' : Int} {n : Nat} {e : Event} :
    Dialogue mode secret text low high lo hi mid n →
      mid < secret →
        IsFrame e.message (frameOf mode biggerText) →
          guesses mode e = [mid'] →
            Dialogue mode secret text low high
              (max lo (mid + 1)) hi mid' (n + 1)

/-
  Every guess is the middle of the interval that agrees with
  the answers, and there are not too many.
-/
def Halves
    (mode : Mode) (secret : Int) (text : List Byte)
    (low high : Nat) : Prop :=
  ∀ lo hi mid n,
    Dialogue mode secret text low high lo hi mid n →
      lo ≤ mid ∧ mid ≤ hi ∧ mid = (lo + hi) / 2 ∧
        n ≤ Nat.log 2 (high - low + 1)

------------------------------------------------------------
-- Texts
------------------------------------------------------------

theorem cString_append
    {text : List Byte}
    (hText : 0 ∉ text)
    (rest : List Byte) :
    cString (text ++ 0 :: rest) = text := by
  have hAll : ∀ c ∈ text, decide (c ≠ 0) = true := by
    intro c hMem
    simp only [decide_eq_true_eq]
    rintro rfl
    exact hText hMem
  rw [cString, List.takeWhile_append_of_pos hAll]
  simp

/- A message holds its frame and what was there before. -/
theorem payload_of_isFrame
    {r : Msg} {frame : List Byte}
    (hFrame : IsFrame r frame) :
    r.payload = frame ++ r.payload.drop frame.length := by
  have hSplit := List.take_append_drop r.len r.payload
  rw [hFrame.2, hFrame.1] at hSplit
  exact hSplit.symm

/- A frame that fits is received. -/
theorem isFrame_received
    {frame : List Byte}
    (hFits : frame.length ≤ msgSize) :
    IsFrame (received frame) frame := by
  refine ⟨rfl, ?_⟩
  unfold received
  dsimp only
  rw [List.take_take, Nat.min_eq_left hFits,
    List.take_append_of_le_length le_rfl, List.take_length]

/- A digit or the sign. -/
theorem mem_decimal
    {v : Int} {c : Byte}
    (hMem : c ∈ decimal v) :
    c = 45 ∨ 48 ≤ c.toNat ∧ c.toNat ≤ 57 := by
  have hDigits :
      ∀ c ∈ ascii (Nat.toDigits 10 v.natAbs),
        48 ≤ c.toNat ∧ c.toNat ≤ 57 := by
    intro c hMem
    rcases List.mem_map.mp hMem with ⟨d, hDigit, rfl⟩
    have hIsDigit :=
      Nat.isDigit_of_mem_toDigits (by decide) (by decide) hDigit
    simp only [Char.isDigit, Bool.and_eq_true,
      decide_eq_true_eq] at hIsDigit
    have hRange : 48 ≤ d.toNat ∧ d.toNat ≤ 57 := hIsDigit
    rw [BitVec.toNat_ofNat]
    omega
  unfold decimal at hMem
  split at hMem
  · rcases List.mem_cons.mp hMem with rfl | hRest
    · exact Or.inl rfl
    · exact Or.inr (hDigits c hRest)
  · exact Or.inr (hDigits c hMem)

theorem zero_notMem_decimal (v : Int) : 0 ∉ decimal v := by
  intro hMem
  rcases mem_decimal hMem with hSign | hDigit
  · cases hSign
  · exact absurd hDigit.1 (by decide)

theorem exists_decimal_cons (v : Int) :
    ∃ c rest, decimal v = c :: rest := by
  unfold decimal ascii
  split
  · exact ⟨_, _, rfl⟩
  · cases hDigits : Nat.toDigits 10 v.natAbs with
    | nil => exact absurd hDigits Nat.toDigits_ne_nil
    | cons c rest => exact ⟨_, _, rfl⟩

/- No answer starts with this character. -/
def Quiet (text : List Byte) : Prop :=
  smallerText.isPrefixOf text = false ∧
    biggerText.isPrefixOf text = false

theorem quiet_cons
    {c : Byte}
    (hSmaller : c ≠ 115)
    (hBigger : c ≠ 98)
    (rest : List Byte) :
    Quiet (cString (c :: rest)) := by
  have hHeads :
      smallerText = 115 :: smallerText.tail ∧
        biggerText = 98 :: biggerText.tail := by
    decide
  unfold cString
  rw [List.takeWhile_cons]
  split
  · constructor
    · rw [hHeads.1, List.isPrefixOf_cons_cons,
        beq_false_of_ne hSmaller.symm, Bool.false_and]
    · rw [hHeads.2, List.isPrefixOf_cons_cons,
        beq_false_of_ne hBigger.symm, Bool.false_and]
  · exact ⟨by decide, by decide⟩

------------------------------------------------------------
-- The Interval
------------------------------------------------------------

theorem takeWhile_digits
    {digits behind : List Byte}
    (hDigits : ∀ c ∈ digits, isDigit c = true)
    (hBehind : ∀ c ∈ behind.head?, isDigit c = false) :
    (digits ++ behind).takeWhile isDigit = digits := by
  rw [List.takeWhile_append_of_pos hDigits]
  cases behind with
  | nil => simp
  | cons c rest =>
      rw [List.takeWhile_cons, hBehind c rfl]
      simp

/- `strtol` reads the digits, and stays within a `long`. -/
theorem strtol_digits
    {digits behind : List Byte}
    (hSome : digits ≠ [])
    (hDigits : ∀ c ∈ digits, isDigit c = true)
    (hBehind : ∀ c ∈ behind.head?, isDigit c = false) :
    strtol (digits ++ behind) =
      min (2 ^ 63 - 1) (digitsValue digits : Int) := by
  cases digits with
  | nil => exact absurd rfl hSome
  | cons c rest =>
      have hFirst :
          ∀ c : Byte, isDigit c = true →
            isSpace c = false ∧ c ≠ 45 ∧ c ≠ 43 := by
        decide
      rcases hFirst c (hDigits c List.mem_cons_self) with
        ⟨hSpace, hMinus, hPlus⟩
      have hStart :
          (c :: rest ++ behind).dropWhile isSpace =
            c :: rest ++ behind := by
        rw [List.cons_append, List.dropWhile_cons, hSpace]
        simp
      unfold strtol
      dsimp only
      rw [hStart, takeWhile_digits hDigits hBehind,
        List.cons_append, List.head?_cons, if_neg (by simpa),
        if_neg (by simpa)]
      omega

/- The bounds that a message announces are read from it. -/
theorem readInterval_eq
    (before : List Byte)
    {digits behind : List Byte} {comma space : Byte}
    {low : Nat}
    (hLow : low ≤ 9)
    (hNoNul :
      0 ∉ before ++ 91 :: BitVec.ofNat 8 (48 + low) ::
        comma :: space :: (digits ++ behind))
    (hBefore : 91 ∉ before)
    (hSome : digits ≠ [])
    (hDigits : ∀ c ∈ digits, isDigit c = true)
    (hBehind : ∀ c ∈ behind.head?, isDigit c = false)
    (rest : List Byte) :
    readInterval
        ((before ++ 91 :: BitVec.ofNat 8 (48 + low) ::
          comma :: space :: (digits ++ behind)) ++ 0 :: rest) =
      some ((low : Int),
        toInt
          (min (2 ^ 63 - 1) (digitsValue digits : Int))) := by
  have hPch :
      (before ++ 91 :: BitVec.ofNat 8 (48 + low) ::
        comma :: space :: (digits ++ behind)).idxOf 91 =
          before.length := by
    rw [List.idxOf_append, if_neg hBefore, List.idxOf_cons_self,
      Nat.zero_add]
  have hLast :
      ∀ c ∈ (behind ++ 0 :: rest).head?, isDigit c = false := by
    cases behind with
    | nil =>
        intro c hMem
        cases hMem
        decide
    | cons b bs => exact hBehind
  have hDigit :
      (BitVec.ofNat 8 (48 + low)).toInt - 48 = (low : Int) := by
    interval_cases low <;> decide
  unfold readInterval
  dsimp only
  rw [cString_append hNoNul, if_pos (by simp), hPch]
  have hFirst :
      ((before ++ 91 :: BitVec.ofNat 8 (48 + low) ::
        comma :: space :: (digits ++ behind)) ++
          0 :: rest).getD (before.length + 1) 0 =
        BitVec.ofNat 8 (48 + low) := by
    rw [List.append_assoc, List.getD_append_right _ _ _ _
      (by omega)]
    simp
  have hUpper :
      ((before ++ 91 :: BitVec.ofNat 8 (48 + low) ::
        comma :: space :: (digits ++ behind)) ++
          0 :: rest).drop (before.length + 4) =
        digits ++ (behind ++ 0 :: rest) := by
    rw [List.append_assoc, List.drop_append,
      List.drop_of_length_le (by omega)]
    simp
  rw [hFirst, hUpper, strtol_digits hSome hDigits hLast, hDigit]

------------------------------------------------------------
-- The Loops over the Tokens
------------------------------------------------------------

section Loop

variable {f : Locals → List Byte → Except (List Sent) Locals}
variable {I : List Byte → Prop}

/- Tokens that are only counted. -/
theorem foldlM_counted
    (hOther :
      ∀ st token, randomText.isPrefixOf token = false →
        I st.payload → f st token = .ok (countWord st token)) :
    ∀ (l : List (List Byte)) (st : Locals),
      (∀ token ∈ l, randomText.isPrefixOf token = false) →
        I st.payload →
          l.foldlM f st = .ok (l.foldl countWord st)
| [], _, _, _ => rfl
| token :: rest, st, hTokens, hQuiet => by
    have hStep :=
      hOther st token (hTokens token List.mem_cons_self) hQuiet
    rw [List.foldlM_cons, hStep, List.foldl_cons]
    exact foldlM_counted hOther rest (countWord st token)
      (fun other hMem =>
        hTokens other (List.mem_cons_of_mem _ hMem))
      hQuiet

/- Counting leaves the message and what has been sent. -/
theorem foldl_countWord :
    ∀ (l : List (List Byte)) (st : Locals),
      (l.foldl countWord st).payload = st.payload ∧
        (l.foldl countWord st).sent = st.sent
| [], _ => ⟨rfl, rfl⟩
| _ :: rest, st => foldl_countWord rest (countWord st _)

/- A token between those that are only counted. -/
theorem foldlM_around
    (hOther :
      ∀ st token, randomText.isPrefixOf token = false →
        I st.payload → f st token = .ok (countWord st token))
    {before behind : List (List Byte)} {token : List Byte}
    (hTokens :
      ∀ other ∈ before ++ behind,
        randomText.isPrefixOf other = false)
    {st st' : Locals}
    (hQuiet : I st.payload)
    (hStep : f (before.foldl countWord st) token = .ok st')
    (hAfter : I st'.payload) :
    (before ++ token :: behind).foldlM f st =
      .ok (behind.foldl countWord st') := by
  have hBefore :=
    foldlM_counted hOther before st
      (fun other hMem =>
        hTokens other (List.mem_append_left _ hMem))
      hQuiet
  have hBehind :=
    foldlM_counted hOther behind st'
      (fun other hMem =>
        hTokens other (List.mem_append_right _ hMem))
      hAfter
  rw [List.foldlM_append, hBefore]
  change (token :: behind).foldlM f _ = _
  rw [List.foldlM_cons, hStep]
  exact hBehind

/- The one token that announces the interval. -/
theorem foldlM_announced
    {payload : List Byte}
    (mid : Int)
    (frame : List Byte)
    (hOther :
      ∀ st token, randomText.isPrefixOf token = false →
        I st.payload → f st token = .ok (countWord st token))
    (hRandom :
      ∀ st token, randomText.isPrefixOf token = true →
        st.payload = payload →
          ∃ st', f st token = .ok st' ∧ I st'.payload ∧
            st'.sent = st.sent ++ [.guess mid frame])
    (hPayload : I payload)
    {before behind : List (List Byte)} {token : List Byte}
    (hToken : randomText.isPrefixOf token = true)
    (hTokens :
      ∀ other ∈ before ++ behind,
        randomText.isPrefixOf other = false)
    (g : Garbage) :
    ∃ st,
      (before ++ token :: behind).foldlM f
          (enter g payload) = .ok st ∧
        st.sent = [.guess mid frame] := by
  have hKept := foldl_countWord before (enter g payload)
  rcases hRandom (before.foldl countWord (enter g payload))
      token hToken hKept.1 with
    ⟨st, hStep, hQuiet, hGuess⟩
  refine ⟨behind.foldl countWord st, ?_, ?_⟩
  · exact foldlM_around hOther hTokens hPayload hStep hQuiet
  · rw [(foldl_countWord behind st).2, hGuess, hKept.2]
    rfl

end Loop

/- The guesses of a call whose loop has ended. -/
theorem guessed_testWith
    {encode : List Byte → List Byte} {g : Garbage}
    {string payload : List Byte} {st : Locals}
    (hLoop :
      (tokens string).foldlM (tokenStep encode)
        (enter g payload) = .ok st) :
    (called (testWith encode g string payload)).1.filterMap
        guessed =
      st.sent.filterMap guessed := by
  unfold testWith
  rw [hLoop]
  change (st.sent ++ st.a.map _).filterMap guessed = _
  rw [List.filterMap_append, List.filterMap_map]
  have hNone :
      (guessed ∘ fun token : List Byte =>
        Sent.answer token (encode token)) = fun _ => none :=
    rfl
  rw [hNone]
  simp

theorem guessed_testParity
    {g : Garbage} {string payload : List Byte} {len : Nat}
    {st : Locals}
    (hLoop :
      (tokens string).foldlM tokenStepParity
        (enter g payload) = .ok st) :
    (called (testParity g string payload len)).1.filterMap
        guessed =
      st.sent.filterMap guessed := by
  unfold testParity
  rw [hLoop]
  change
    (st.sent ++ (if len = 5 then [Sent.again st.t] else []) ++
      st.a.map _).filterMap guessed = _
  have hNone :
      (guessed ∘ fun token : List Byte =>
        Sent.answer token (parityFrame token)) =
          fun _ => none :=
    rfl
  have hAgain :
      (if len = 5 then [Sent.again st.t] else []).filterMap
          guessed = [] := by
    split
    · rfl
    · rfl
  rw [List.filterMap_append, List.filterMap_append,
    List.filterMap_map, hNone, hAgain]
  simp

------------------------------------------------------------
-- Guesses of a Call
------------------------------------------------------------

/- An encoding whose guesses look like no answer. -/
def QuietEncoding (encode : List Byte → List Byte) : Prop :=
  ∀ v rest, Quiet (cString (encode (decimal v) ++ rest))

theorem quietEncoding_plain : QuietEncoding plainFrame := by
  intro v rest
  rcases exists_decimal_cons v with ⟨c, digits, hDecimal⟩
  have hFirst : c = 45 ∨ 48 ≤ c.toNat ∧ c.toNat ≤ 57 := by
    apply mem_decimal (v := v)
    rw [hDecimal]
    exact List.mem_cons_self
  have hNoLetter : c ≠ 115 ∧ c ≠ 98 := by
    constructor
    · rintro rfl
      revert hFirst
      decide
    · rintro rfl
      revert hFirst
      decide
  rw [plainFrame, hDecimal]
  exact quiet_cons hNoLetter.1 hNoLetter.2 _

theorem quietEncoding_hamming :
    QuietEncoding hammingFrame := by
  intro v rest
  have hCoded :
      ∀ byte : Byte,
        (codedByte byte).1 ≠ 115 ∧ (codedByte byte).1 ≠ 98 := by
    decide +kernel
  rcases exists_decimal_cons v with ⟨c, digits, hDecimal⟩
  rw [hammingFrame, plainFrame,
    encodedMessage_eq (zero_notMem_decimal v), hDecimal]
  exact quiet_cons (hCoded c).1 (hCoded c).2 _

section Plain

variable {encode : List Byte → List Byte}
variable {text rest : List Byte}

theorem answerSmaller_quiet
    {st : Locals}
    (hQuiet : Quiet (cString st.payload)) :
    answerSmaller encode st = st :=
  if_neg (by rw [hQuiet.1]; decide)

theorem answerBigger_quiet
    {st : Locals}
    (hQuiet : Quiet (cString st.payload)) :
    answerBigger encode st = st :=
  if_neg (by rw [hQuiet.2]; decide)

theorem answerRandom_other
    {send : Locals → Locals} {st : Locals} {token : List Byte}
    (hToken : randomText.isPrefixOf token = false) :
    answerRandom send st token = .ok st :=
  if_neg (by rw [hToken]; decide)

theorem answerRandom_eq
    {send : Locals → Locals} {st : Locals} {token : List Byte}
    {bounds : Int × Int}
    (hToken : randomText.isPrefixOf token = true)
    (hInterval : readInterval st.payload = some bounds) :
    answerRandom send st token =
      .ok (send
        { st with low := bounds.1, high := bounds.2 }) := by
  rw [answerRandom, if_pos hToken, hInterval]

theorem tokenStep_other
    (st : Locals)
    (token : List Byte)
    (hToken : randomText.isPrefixOf token = false)
    (hQuiet : Quiet (cString st.payload)) :
    tokenStep encode st token = .ok (countWord st token) := by
  have hCounted :
      Quiet (cString (countWord st token).payload) :=
    hQuiet
  rw [tokenStep, answerRandom_other hToken, Except.map,
    answerSmaller_quiet hCounted, answerBigger_quiet hCounted]

theorem tokenStep_random
    (hEncode : QuietEncoding encode)
    {st : Locals} {token : List Byte} {bounds : Int × Int}
    (hToken : randomText.isPrefixOf token = true)
    (hInterval : readInterval st.payload = some bounds) :
    tokenStep encode st token =
      .ok (sendMid encode
        { countWord st token with
          low := bounds.1
          high := bounds.2 }) := by
  have hQuiet :
      ∀ st', Quiet (cString (sendMid encode st').payload) :=
    fun st' => hEncode _ _
  have hRead :
      readInterval (countWord st token).payload = some bounds :=
    hInterval
  rw [tokenStep, answerRandom_eq hToken hRead, Except.map,
    answerSmaller_quiet (hQuiet _), answerBigger_quiet (hQuiet _)]

/- The first guess is the middle of what has been read. -/
theorem guessed_announced
    (hEncode : QuietEncoding encode)
    {low high : Nat} {bounds : Int × Int}
    (hText : Announces text low high)
    (hInterval : readInterval (text ++ 0 :: rest) = some bounds)
    (g : Garbage) :
    (called
        (testWith encode g text
          (text ++ 0 :: rest))).1.filterMap guessed =
      [middle bounds.1 bounds.2] := by
  rcases hText.random with
    ⟨before, token, behind, hTokens, hToken, hOthers⟩
  have hQuiet : Quiet (cString (text ++ 0 :: rest)) := by
    rw [cString_append hText.noNul]
    exact ⟨hText.noAnswer.1, hText.noAnswer.2.1⟩
  rcases foldlM_announced (f := tokenStep encode)
      (I := fun payload => Quiet (cString payload))
      (middle bounds.1 bounds.2)
      (encode (decimal (middle bounds.1 bounds.2)))
      tokenStep_other
      (fun st token hToken hSame =>
        ⟨_, tokenStep_random hEncode hToken
          (by rw [hSame, hInterval]), hEncode _ _, rfl⟩)
      hQuiet hToken hOthers g with ⟨st, hLoop, hSent⟩
  rw [← hTokens] at hLoop
  rw [guessed_testWith hLoop, hSent]
  rfl

/- A message of one token. -/
theorem guessed_single
    {g : Garbage} {payload : List Byte} {st : Locals}
    (hTokens : tokens text = [text])
    (hStep : tokenStep encode (enter g payload) text = .ok st) :
    (called (testWith encode g text payload)).1.filterMap
        guessed =
      st.sent.filterMap guessed := by
  apply guessed_testWith
  rw [hTokens, List.foldlM_cons, hStep]
  rfl

/- A guess after an answer starts from what is found. -/
theorem guessed_smaller
    (hEncode : QuietEncoding encode)
    (g : Garbage)
    (rest : List Byte) :
    (called
        (testWith encode g smallerText
          (smallerText ++ 0 :: rest))).1.filterMap guessed =
      [middle g.low (toInt (g.mid - 1))] := by
  let counted :=
    countWord (enter g (smallerText ++ 0 :: rest)) smallerText
  have hPayload : cString counted.payload = smallerText :=
    cString_append (by decide) rest
  let sent :=
    sendMid encode
      { counted with high := toInt (counted.mid - 1) }
  have hStep :
      tokenStep encode (enter g (smallerText ++ 0 :: rest))
          smallerText = .ok sent := by
    have hSmaller : answerSmaller encode counted = sent := by
      refine if_pos ?_
      rw [hPayload]
      decide
    rw [tokenStep, answerRandom_other (by decide), Except.map,
      hSmaller, answerBigger_quiet (hEncode _ _)]
  exact guessed_single (by decide) hStep

theorem guessed_bigger
    (g : Garbage)
    (rest : List Byte) :
    (called
        (testWith encode g biggerText
          (biggerText ++ 0 :: rest))).1.filterMap guessed =
      [middle (toInt (g.mid + 1)) g.high] := by
  let counted :=
    countWord (enter g (biggerText ++ 0 :: rest)) biggerText
  have hPayload : cString counted.payload = biggerText :=
    cString_append (by decide) rest
  let sent :=
    sendMid encode { counted with low := toInt (counted.mid + 1) }
  have hStep :
      tokenStep encode (enter g (biggerText ++ 0 :: rest))
          biggerText = .ok sent := by
    have hSmaller : answerSmaller encode counted = counted := by
      refine if_neg ?_
      rw [hPayload]
      decide
    have hBigger : answerBigger encode counted = sent := by
      refine if_pos ?_
      rw [hPayload]
      decide
    rw [tokenStep, answerRandom_other (by decide), Except.map,
      hSmaller, hBigger]
  exact guessed_single (by decide) hStep

end Plain

section Parity

variable {text rest : List Byte} {c : Byte}

theorem cString_behind
    (hText : 0 ∉ text) :
    cString ((c :: text ++ 0 :: rest).drop 1) = text := by
  rw [List.cons_append, List.drop_one, List.tail_cons,
    cString_append hText]

theorem tokenStepParity_other
    (st : Locals)
    (token : List Byte)
    (hToken : randomText.isPrefixOf token = false)
    (hQuiet : Quiet (cString (st.payload.drop 1))) :
    tokenStepParity st token = .ok (countWord st token) := by
  have hCounted :
      Quiet (cString ((countWord st token).payload.drop 1)) :=
    hQuiet
  unfold tokenStepParity
  dsimp only
  rw [if_neg (by rw [hToken]; decide),
    if_neg (by rw [hCounted.1]; decide),
    if_neg (by rw [hCounted.2]; decide)]

theorem tokenStepParity_random
    {st : Locals} {token : List Byte} {bounds : Int × Int}
    (hToken : randomText.isPrefixOf token = true)
    (hInterval : readInterval st.payload = some bounds) :
    tokenStepParity st token =
      .ok (sendMidParity
        { countWord st token with
          low := bounds.1
          high := bounds.2 }) := by
  have hRead :
      readInterval (countWord st token).payload = some bounds :=
    hInterval
  unfold tokenStepParity
  dsimp only
  rw [if_pos hToken, answerRandom_eq hToken hRead]

/- The message is not written over, and starts with no `[`. -/
theorem guessed_announced_parity
    {low high : Nat} {bounds : Int × Int}
    (hText : Announces text low high)
    (hInterval :
      readInterval (c :: text ++ 0 :: rest) = some bounds)
    (g : Garbage)
    (len : Nat) :
    (called
        (testParity g text (c :: text ++ 0 :: rest)
          len)).1.filterMap guessed =
      [middle bounds.1 bounds.2] := by
  rcases hText.random with
    ⟨before, token, behind, hTokens, hToken, hOthers⟩
  have hQuiet :
      Quiet (cString ((c :: text ++ 0 :: rest).drop 1)) := by
    rw [cString_behind hText.noNul]
    exact ⟨hText.noAnswer.1, hText.noAnswer.2.1⟩
  have hRandom :
      ∀ st token, randomText.isPrefixOf token = true →
        st.payload = c :: text ++ 0 :: rest →
          ∃ st', tokenStepParity st token = .ok st' ∧
            Quiet (cString (st'.payload.drop 1)) ∧
            st'.sent = st.sent ++
              [.guess (middle bounds.1 bounds.2)
                (parityFrame
                  (decimal (middle bounds.1 bounds.2)))] := by
    intro st token hToken hSame
    refine ⟨_, tokenStepParity_random hToken
      (by rw [hSame, hInterval]), ?_, rfl⟩
    change Quiet (cString (st.payload.drop 1))
    rw [hSame]
    exact hQuiet
  rcases foldlM_announced (f := tokenStepParity)
      (I := fun payload => Quiet (cString (payload.drop 1)))
      (middle bounds.1 bounds.2)
      (parityFrame (decimal (middle bounds.1 bounds.2)))
      tokenStepParity_other hRandom hQuiet hToken hOthers g with
    ⟨st, hLoop, hSent⟩
  rw [← hTokens] at hLoop
  rw [guessed_testParity hLoop, hSent]
  rfl

/- A message of one token. -/
theorem guessed_single_parity
    {g : Garbage} {payload : List Byte} {st : Locals}
    (hTokens : tokens text = [text])
    (hStep : tokenStepParity (enter g payload) text = .ok st)
    (len : Nat) :
    (called (testParity g text payload len)).1.filterMap
        guessed =
      st.sent.filterMap guessed := by
  apply guessed_testParity
  rw [hTokens, List.foldlM_cons, hStep]
  rfl

theorem guessed_smaller_parity
    (g : Garbage)
    (rest : List Byte)
    (len : Nat) :
    (called
        (testParity g smallerText
          (c :: smallerText ++ 0 :: rest)
          len)).1.filterMap guessed =
      [middle g.low (toInt (g.mid - 1))] := by
  let counted :=
    countWord (enter g (c :: smallerText ++ 0 :: rest))
      smallerText
  have hPayload :
      cString (counted.payload.drop 1) = smallerText :=
    cString_behind (by decide)
  have hStep :
      tokenStepParity
          (enter g (c :: smallerText ++ 0 :: rest))
          smallerText =
        .ok (sendMidParity
          { counted with high := toInt (counted.mid - 1) }) := by
    have hToken : ¬ randomText.isPrefixOf smallerText = true := by
      decide
    have hSmaller :
        smallerText.isPrefixOf
          (cString (counted.payload.drop 1)) = true := by
      rw [hPayload]
      decide
    unfold tokenStepParity
    dsimp only
    rw [if_neg hToken, if_pos hSmaller]
  exact guessed_single_parity (by decide) hStep len

theorem guessed_bigger_parity
    (g : Garbage)
    (rest : List Byte)
    (len : Nat) :
    (called
        (testParity g biggerText
          (c :: biggerText ++ 0 :: rest)
          len)).1.filterMap guessed =
      [middle (toInt (g.mid + 1)) g.high] := by
  let counted :=
    countWord (enter g (c :: biggerText ++ 0 :: rest))
      biggerText
  have hPayload :
      cString (counted.payload.drop 1) = biggerText :=
    cString_behind (by decide)
  have hStep :
      tokenStepParity (enter g (c :: biggerText ++ 0 :: rest))
          biggerText =
        .ok (sendMidParity
          { counted with low := toInt (counted.mid + 1) }) := by
    have hToken : ¬ randomText.isPrefixOf biggerText = true := by
      decide
    have hSmaller :
        ¬ smallerText.isPrefixOf
          (cString (counted.payload.drop 1)) = true := by
      rw [hPayload]
      decide
    have hBigger :
        biggerText.isPrefixOf
          (cString (counted.payload.drop 1)) = true := by
      rw [hPayload]
      decide
    unfold tokenStepParity
    dsimp only
    rw [if_neg hToken, if_neg hSmaller, if_pos hBigger]
  exact guessed_single_parity (by decide) hStep len

end Parity

------------------------------------------------------------
-- Guesses of an Iteration
------------------------------------------------------------

theorem parityOf_cases (text : List Byte) :
    parityOf text = 0 ∨ parityOf text = 1 := by
  have hByte :
      ∀ c : Byte, ∀ sum : Byte, sum = 0 ∨ sum = 1 →
        (List.range 8).foldl (fun sum k => sum ^^^ bit c k)
            sum = 0 ∨
          (List.range 8).foldl (fun sum k => sum ^^^ bit c k)
            sum = 1 := by
    rintro c sum (rfl | rfl)
    · revert c
      decide +kernel
    · revert c
      decide +kernel
  have hLoop :
      ∀ (l : List Byte) (sum : Byte), sum = 0 ∨ sum = 1 →
        l.foldl
            (fun sum c =>
              (List.range 8).foldl
                (fun sum k => sum ^^^ bit c k) sum)
            sum = 0 ∨
          l.foldl
            (fun sum c =>
              (List.range 8).foldl
                (fun sum k => sum ^^^ bit c k) sum)
            sum = 1 := by
    intro l
    induction l with
    | nil => exact fun sum hSum => hSum
    | cons c rest ih =>
        intro sum hSum
        rw [List.foldl_cons]
        exact ih _ (hByte c sum hSum)
  exact hLoop text 0 (Or.inl rfl)

/- The server sends its own texts with the right parity. -/
theorem parityFrame_eq (text : List Byte) :
    ∃ parity,
      parityFrame text = dataFrame parity text ∧
        RightParity parity text := by
  unfold parityFrame dataFrame RightParity
  rcases parityOf_cases text with hZero | hOne
  · refine ⟨false, ?_, by simp [hZero]⟩
    rw [hZero]
    rfl
  · refine ⟨true, ?_, by simp [hOne]⟩
    rw [hOne]
    rfl

section Iteration

variable {mode : Mode} {e : Event} {text : List Byte}

theorem plain_payload
    {r : Msg}
    (hFrame : IsFrame r (plainFrame text)) :
    ∃ rest, r.payload = text ++ 0 :: rest := by
  have hPayload := payload_of_isFrame hFrame
  rw [plainFrame, List.append_assoc] at hPayload
  exact ⟨_, hPayload⟩

theorem parity_payload
    {r : Msg}
    (hFrame : IsFrame r (parityFrame text)) :
    ∃ rest,
      r.payload =
        (48 + parityOf text) :: text ++ 0 :: rest := by
  have hPayload := payload_of_isFrame hFrame
  rw [parityFrame, List.append_assoc] at hPayload
  exact ⟨_, hPayload⟩

theorem corrupt_nil (frame : List Byte) :
    corrupt [] frame = frame := by
  rw [corrupt]
  exact fun _ _ _ _ _ h => by cases h

/- A frame that arrives without an error is decoded. -/
theorem decodedMessage_of_isFrame
    {r : Msg}
    (hText : 0 ∉ text)
    (hFrame : IsFrame r (hammingFrame text)) :
    decodedMessage r = text ++ [0] := by
  have hLen : r.len = 2 * (text.length + 1) := by
    rw [hFrame.1, length_hammingFrame hText]
    omega
  have hFits : r.len ≤ msgSize := by
    have hTake := congrArg List.length hFrame.2
    rw [List.length_take, r.payload_length, ← hFrame.1] at hTake
    omega
  have hSame := decodeBytes_corrupt [] (text ++ [(0 : Byte)])
  rw [corrupt_nil] at hSame
  rw [decodedMessage_eq r (text.length + 1) hLen hFits, hFrame.2,
    hammingFrame, plainFrame, encodedMessage_eq hText]
  exact hSame

theorem parityCharacter_ne (text : List Byte) :
    48 + parityOf text ≠ 91 ∧ 48 + parityOf text ≠ 0 := by
  rcases parityOf_cases text with hZero | hOne
  · rw [hZero]
    decide
  · rw [hOne]
    decide

/- The call that a text leads to in each of the modes. -/
theorem guesses_of_frame
    (hText : 0 ∉ text)
    (hLong : 4 ≤ text.length)
    (hAck : ackText.isPrefixOf text = false)
    (hFrame : IsFrame e.message (frameOf mode text)) :
    (∃ encode rest,
      QuietEncoding encode ∧
        guesses mode e =
          (called
            (testWith encode e.garbage text
              (text ++ 0 :: rest))).1.filterMap guessed) ∨
    ∃ c rest len,
      c ≠ 91 ∧ c ≠ 0 ∧
        guesses mode e =
          (called
            (testParity e.garbage text (c :: text ++ 0 :: rest)
              len)).1.filterMap guessed := by
  unfold guesses outputs
  cases mode with
  | plain =>
      rcases plain_payload hFrame with ⟨rest, hPlain⟩
      refine Or.inl ⟨plainFrame, rest, quietEncoding_plain, ?_⟩
      unfold iteration test0
      dsimp only
      rw [hPlain, cString_append hText]
  | ack =>
      rcases plain_payload hFrame with ⟨rest, hPlain⟩
      refine Or.inl ⟨plainFrame, rest, quietEncoding_plain, ?_⟩
      unfold iteration test0
      dsimp only
      rw [hPlain, cString_append hText,
        if_neg (by rw [hAck]; decide)]
      rfl
  | parity =>
      rcases parityFrame_eq text with ⟨parity, hData, hRight⟩
      rcases parity_payload hFrame with ⟨rest, hPlain⟩
      rw [frameOf, hData] at hFrame
      have hLen : e.message.len = text.length + 2 := by
        rw [hFrame.1]
        simp [dataFrame]
      have hString :
          cString (e.message.payload.drop 1) = text := by
        rw [hPlain]
        exact cString_behind hText
      have hParity :
          inputBit e.message = receivedParity e.message := by
        rw [inputBit_eq hFrame, receivedParity_eq hFrame]
        exact hRight.symm
      have hCharacter := parityCharacter_ne text
      refine Or.inr ⟨48 + parityOf text, rest, e.message.len,
        hCharacter.1, hCharacter.2, ?_⟩
      unfold iteration ackParity nackParity
      dsimp only
      rw [if_pos (by omega), if_neg (fun h => h hParity),
        hString, hPlain]
      rfl
  | hamming =>
      have hLen : e.message.len = 2 * text.length + 2 := by
        rw [hFrame.1, frameOf, length_hammingFrame hText]
      have hMessage :
          cString (decodedMessage e.message ++ e.garbage.heap) =
            text := by
        rw [decodedMessage_of_isFrame hText hFrame,
          List.append_assoc]
        exact cString_append hText _
      refine Or.inl ⟨hammingFrame,
        e.message.payload.drop (text.length + 1),
        quietEncoding_hamming, ?_⟩
      unfold iteration ackHamming nackHamming testHamming
      dsimp only
      rw [if_pos (by omega), hMessage, List.append_assoc]
      rfl

theorem guesses_smaller
    (hFrame : IsFrame e.message (frameOf mode smallerText)) :
    guesses mode e =
      [middle e.garbage.low (toInt (e.garbage.mid - 1))] := by
  rcases guesses_of_frame (by decide) (by decide) (by decide)
      hFrame with
    ⟨encode, rest, hEncode, hGuesses⟩ |
      ⟨c, rest, len, _, _, hGuesses⟩
  · rw [hGuesses, guessed_smaller hEncode]
  · rw [hGuesses, guessed_smaller_parity]

theorem guesses_bigger
    (hFrame : IsFrame e.message (frameOf mode biggerText)) :
    guesses mode e =
      [middle (toInt (e.garbage.mid + 1)) e.garbage.high] := by
  rcases guesses_of_frame (by decide) (by decide) (by decide)
      hFrame with
    ⟨encode, rest, hEncode, hGuesses⟩ |
      ⟨c, rest, len, _, _, hGuesses⟩
  · rw [hGuesses, guessed_bigger]
  · rw [hGuesses, guessed_bigger_parity]

/- The first guess is computed from the announced bounds. -/
theorem guesses_announced
    {low high : Nat}
    (hText : Announces text low high)
    (hFrame : IsFrame e.message (frameOf mode text)) :
    guesses mode e =
      [middle low (toInt (min (2 ^ 63 - 1) (high : Int)))] := by
  rcases hText.bounds with
    ⟨hLow, before, comma, space, digits, behind, hForm,
      hBefore, hSome, hDigits, rfl, hBehind⟩
  have hNoNul := hText.noNul
  have hLong : 4 ≤ text.length := by
    rw [hForm]
    simp only [List.length_append, List.length_cons]
    omega
  rcases guesses_of_frame hNoNul hLong hText.noAnswer.2.2
      hFrame with
    ⟨encode, rest, hEncode, hGuesses⟩ |
      ⟨c, rest, len, hBracket, hZero, hGuesses⟩
  · have hInterval :=
      readInterval_eq before hLow (by rw [← hForm]; exact hNoNul)
        hBefore hSome hDigits hBehind rest
    rw [← hForm] at hInterval
    rw [hGuesses, guessed_announced hEncode hText hInterval]
  · have hInterval :=
      readInterval_eq (c :: before) hLow
        (by
          rw [List.cons_append, ← hForm, List.mem_cons]
          exact fun h => h.elim (fun h => hZero h.symm) hNoNul)
        (by
          rw [List.mem_cons]
          exact fun h =>
            h.elim (fun h => hBracket h.symm) hBefore)
        hSome hDigits hBehind rest
    rw [List.cons_append, ← hForm] at hInterval
    rw [hGuesses, guessed_announced_parity hText hInterval]

end Iteration

------------------------------------------------------------
-- Whole Dialogues
------------------------------------------------------------

/- A middle that fits stays below half of the range. -/
theorem middle_lt (low high : Int) :
    middle low high < 2 ^ 30 := by
  have hBound : toInt (low + high) < 2 ^ 31 :=
    Int.bmod_lt (by decide)
  rcases Int.le_total 0 (toInt (low + high)) with hPos | hNeg
  · rw [middle, Int.tdiv_eq_ediv_of_nonneg hPos]
    omega
  · have hNonneg : 0 ≤ (-toInt (low + high)).tdiv 2 :=
      Int.tdiv_nonneg (by omega) (by decide)
    rw [Int.neg_tdiv] at hNonneg
    rw [middle]
    omega

theorem middle_eq
    {low high : Nat}
    (hFits : low + high < 2 ^ 31) :
    middle low (toInt (min (2 ^ 63 - 1) (high : Int))) =
      (low + high) / 2 := by
  have hHigh : min (2 ^ 63 - 1) (high : Int) = high := by
    omega
  have hInt : toInt high = high :=
    Int.bmod_eq_of_le (by omega) (by omega)
  have hSum : toInt ((low : Int) + high) = low + high :=
    Int.bmod_eq_of_le (by omega) (by omega)
  rw [hHigh, hInt, middle, hSum]
  exact Int.tdiv_eq_ediv_of_nonneg (by omega)

section Halves

variable {mode : Mode} {text : List Byte} {low high : Nat}
variable {secret : Int}

/- The dialogue ends with the first guess. -/
theorem dialogue_of_middle
    (hText : Announces text low high)
    (hFits : low + high < 2 ^ 31)
    (hSecret : secret = (low + high) / 2)
    {lo hi mid : Int} {n : Nat}
    (hDialogue :
      Dialogue mode secret text low high lo hi mid n) :
    lo = low ∧ hi = high ∧ mid = secret ∧ n = 0 := by
  induction hDialogue with
  | announced hFrame hGuess =>
      rw [guesses_announced hText hFrame,
        middle_eq hFits] at hGuess
      refine ⟨rfl, rfl, ?_, rfl⟩
      rw [hSecret]
      exact (List.singleton_inj.mp hGuess).symm
  | smaller hBefore hLess _ _ ih => omega
  | bigger hBefore hLess _ _ ih => omega

/- What a call may find, given some of its variables. -/
def garbageOf (low high mid : Int) : Garbage where
  low := low
  high := high
  mid := mid
  t := []
  heap := []

theorem length_frameOf_smaller (mode : Mode) :
    (frameOf mode smallerText).length ≤ msgSize := by
  cases mode with
  | plain => decide
  | ack => decide
  | parity => decide
  | hamming => decide

theorem length_frameOf_bigger (mode : Mode) :
    (frameOf mode biggerText).length ≤ msgSize := by
  cases mode with
  | plain => decide
  | ack => decide
  | parity => decide
  | hamming => decide

/- After an answer any of two numbers may be guessed. -/
theorem no_answer_of_halves
    (hHalves : Halves mode secret text low high)
    {lo hi mid : Int} {n : Nat}
    (hDialogue :
      Dialogue mode secret text low high lo hi mid n) :
    mid = secret := by
  rcases Int.lt_trichotomy mid secret with
    hBigger | hSame | hSmaller
  · have hNext :=
      fun low' high' mid' =>
        Dialogue.bigger
          (e := ⟨received (frameOf mode biggerText),
            garbageOf low' high' mid'⟩)
          hDialogue hBigger
          (isFrame_received (length_frameOf_bigger mode))
          (guesses_bigger
            (isFrame_received (length_frameOf_bigger mode)))
    have hFirst := (hHalves _ _ _ _ (hNext 0 0 (-1))).2.2.1
    have hSecond := (hHalves _ _ _ _ (hNext 0 0 1)).2.2.1
    have hDifferent :
        middle (toInt (-1 + 1)) 0 ≠ middle (toInt (1 + 1)) 0 := by
      decide
    exact absurd (hFirst.trans hSecond.symm) hDifferent
  · exact hSame
  · have hNext :=
      fun low' high' mid' =>
        Dialogue.smaller
          (e := ⟨received (frameOf mode smallerText),
            garbageOf low' high' mid'⟩)
          hDialogue hSmaller
          (isFrame_received (length_frameOf_smaller mode))
          (guesses_smaller
            (isFrame_received (length_frameOf_smaller mode)))
    have hFirst := (hHalves _ _ _ _ (hNext 0 0 1)).2.2.1
    have hSecond := (hHalves _ _ _ _ (hNext 0 0 3)).2.2.1
    have hDifferent :
        middle 0 (toInt (1 - 1)) ≠ middle 0 (toInt (3 - 1)) := by
      decide
    exact absurd (hFirst.trans hSecond.symm) hDifferent

/-
  Whatever the calls find in their variables, the guesses
  halve the interval exactly if its sum fits and the secret
  number is the first guess.
-/
theorem halves_iff
    (hText : Announces text low high)
    (hFits : (frameOf mode text).length ≤ msgSize)
    (hSecret : low ≤ secret ∧ secret ≤ high) :
    Halves mode secret text low high ↔
      low + high < 2 ^ 31 ∧ secret = (low + high) / 2 := by
  constructor
  · intro hHalves
    have hFrame := isFrame_received hFits
    have hDialogue :
        Dialogue mode secret text low high low high
          (middle low
            (toInt (min (2 ^ 63 - 1) (high : Int)))) 0 :=
      .announced
        (e := ⟨received (frameOf mode text), noGarbage⟩)
        hFrame (guesses_announced hText hFrame)
    have hMiddle := (hHalves _ _ _ _ hDialogue).2.2.1
    have hFound := no_answer_of_halves hHalves hDialogue
    have hBound :=
      middle_lt low (toInt (min (2 ^ 63 - 1) (high : Int)))
    constructor
    · omega
    · rw [← hFound, hMiddle]
  · rintro ⟨hSum, hMiddle⟩ lo hi mid n hDialogue
    rcases dialogue_of_middle hText hSum hMiddle hDialogue with
      ⟨rfl, rfl, rfl, rfl⟩
    exact ⟨hSecret.1, hSecret.2, hMiddle, Nat.zero_le _⟩

end Halves

/- The interval from 1 to 100. -/
def announcement : List Byte :=
  ascii "random number in [1, 100]".toList

theorem announces_announcement :
    Announces announcement 1 100 where
  noNul := by decide
  random :=
    ⟨[], randomText, [ascii "number".toList, ascii "in".toList,
        ascii "[1,".toList, ascii "100]".toList],
      by decide, by decide, by decide⟩
  noAnswer := by decide
  bounds :=
    ⟨by decide, ascii "random number in ".toList, 44, 32,
      ascii "100".toList, [93], by decide, by decide, by decide,
      by decide, by decide, by decide⟩

theorem halves_announcement :
    Halves .hamming 50 announcement 1 100 :=
  (halves_iff announces_announcement (by decide)
    (by decide)).mpr (by decide)

/- Already the second guess may be any number. -/
theorem not_halves_always :
    ¬ ∀ (mode : Mode) (secret : Int) (text : List Byte)
        (low high : Nat),
        Announces text low high →
          (frameOf mode text).length ≤ msgSize →
            low ≤ secret ∧ secret ≤ high →
              Halves mode secret text low high := by
  intro hAlways
  have hHalves :=
    hAlways .plain 7 announcement 1 100 announces_announcement
      (by decide) (by decide)
  have hFits : (frameOf .plain announcement).length ≤ msgSize := by
    decide
  have hFrame := isFrame_received hFits
  have hFound :=
    no_answer_of_halves hHalves
      (.announced
        (e := ⟨received (frameOf .plain announcement),
          noGarbage⟩)
        hFrame (guesses_announced announces_announcement hFrame))
  revert hFound
  decide

end Receiver

end TcpServer

end ProgrammingTasks
