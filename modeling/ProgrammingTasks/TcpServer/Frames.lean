import ProgrammingTasks.TcpServer.Server

/-
  How the server tells data from control frames.

  The parity and the hamming mode go by the length alone.
  Texts of some lengths are therefore taken for control frames,
  and a frame is sent again out of a variable that the call
  has not set.

  Main declarations:
    * `IsFrame`, `lastAnswer`
    * `Treated`, `Distinct`
    * `treated_iff`, `treated_along_iff`
-/

------------------------------------------------------------
-- Frames
------------------------------------------------------------

namespace ProgrammingTasks

namespace TcpServer

namespace Receiver

open TransitionSystem

/- The message consists of these bytes. -/
def IsFrame (r : Msg) (frame : List Byte) : Prop :=
  r.len = frame.length ∧ r.payload.take r.len = frame

instance (r : Msg) (frame : List Byte) :
    Decidable (IsFrame r frame) := by
  unfold IsFrame
  infer_instance

/- A text that can be sent. -/
def IsText (text : List Byte) : Prop :=
  text ≠ [] ∧ 0 ∉ text

theorem isText_iff (text : List Byte) :
    text ≠ [] ∧ text.contains 0 = false ↔ IsText text := by
  unfold IsText
  simp

instance (text : List Byte) : Decidable (IsText text) :=
  decidable_of_iff _ (isText_iff text)

/- A data frame of the parity mode, with either parity. -/
def dataFrame (parity : Bool) (text : List Byte) : List Byte :=
  (if parity then 49 else 48) :: text ++ [0]

/- The parity is that of the text. -/
def RightParity (parity : Bool) (text : List Byte) : Prop :=
  parityOf text = if parity then 1 else 0

instance (parity : Bool) (text : List Byte) :
    Decidable (RightParity parity text) := by
  unfold RightParity
  infer_instance

/- The answer or guess frame among the sent ones. -/
def answerFrame : Sent → Option (List Byte)
| .guess _ frame => some frame
| .answer _ frame => some frame
| _ => none

/- The last answer or guess frame of a history. -/
def lastAnswer (mode : Mode) : Trace → Option (List Byte)
| [] => none
| t :: earlier =>
    (((outputs mode t.event).filterMap answerFrame).getLast?).or
      (lastAnswer mode earlier)

------------------------------------------------------------
-- The Law and Its Condition
------------------------------------------------------------

/-
  Every data frame is acknowledged, or refused if its parity
  is wrong, and a refusal makes the server send its last
  answer again.
-/
structure Treated
    (mode : Mode) (t : Transition) (earlier : Trace) :
    Prop where
  parity :
    mode = .parity → ∀ parity text, IsText text →
      IsFrame t.event.message (dataFrame parity text) →
        (outputs mode t.event).head? =
          some
            (if RightParity parity text then .ack else .nack)
  hamming :
    mode = .hamming → ∀ text, IsText text →
      IsFrame t.event.message (hammingFrame text) →
        (outputs mode t.event).head? = some .ack
  again :
    mode = .parity →
      IsFrame t.event.message (nackText ++ [0]) →
        ∀ frame, lastAnswer mode earlier = some frame →
          (outputs mode t.event).map Sent.frame = [frame]

/-
  No data frame has the length of a control frame, and a
  refused answer is what the uninitialized variable holds.
-/
structure Distinct
    (mode : Mode) (t : Transition) (earlier : Trace) :
    Prop where
  parity :
    mode = .parity → ∀ parity text, IsText text →
      IsFrame t.event.message (dataFrame parity text) →
        text.length ≠ 2 ∧ text.length ≠ 3
  hamming :
    mode = .hamming → ∀ text, IsText text →
      IsFrame t.event.message (hammingFrame text) →
        text.length ≠ 1
  again :
    mode = .parity →
      IsFrame t.event.message (nackText ++ [0]) →
        ∀ frame, lastAnswer mode earlier = some frame →
          t.event.garbage.t = frame

------------------------------------------------------------
-- Data Frames
------------------------------------------------------------

section Data

variable {g : Garbage} {r : Msg} {text : List Byte}

theorem length_hammingFrame
    (hText : 0 ∉ text) :
    (hammingFrame text).length = 2 * text.length + 2 := by
  rw [hammingFrame, plainFrame, encodedMessage_eq hText,
    length_encodeBytes, List.length_append]
  rfl

/- The bytes that the parity is computed of. -/
theorem receivedParity_eq
    {parity : Bool}
    (hFrame : IsFrame r (dataFrame parity text)) :
    receivedParity r = parityOf text := by
  have hNul : ∀ sum : Byte,
      (List.range 8).foldl (fun sum k => sum ^^^ bit 0 k) sum =
        sum := by
    decide
  unfold receivedParity parityOf
  rw [hFrame.2, dataFrame, List.cons_append, List.drop_one,
    List.tail_cons, List.foldl_append, List.foldl_cons,
    List.foldl_nil, hNul]

theorem inputBit_eq
    {parity : Bool}
    (hFrame : IsFrame r (dataFrame parity text)) :
    inputBit r = if parity then 1 else 0 := by
  have hFirst :
      r.payload.getD 0 0 = if parity then 49 else 48 := by
    have hTake :
        (r.payload.take r.len).getD 0 0 =
          if parity then 49 else 48 := by
      rw [hFrame.2]
      rfl
    have hLen : 0 < r.len := by
      rw [hFrame.1]
      exact Nat.succ_pos _
    rw [← hTake]
    simp [List.getD, hLen]
  unfold inputBit
  rw [hFirst]
  cases parity with
  | true => decide
  | false => decide

end Data

------------------------------------------------------------
-- What the Answering Functions Send
------------------------------------------------------------

/- A result whose list of sent messages has a property. -/
def Sends {σ : Type}
    (P : List Sent → Prop) (sent : σ → List Sent) :
    Except (List Sent) σ → Prop
| .ok st => P (sent st)
| .error before => P before

theorem sends_foldlM
    {σ β : Type} {P : List Sent → Prop}
    {sent : σ → List Sent}
    {f : σ → β → Except (List Sent) σ}
    (hStep : ∀ st b, P (sent st) → Sends P sent (f st b)) :
    ∀ (l : List β) (st : σ),
      P (sent st) → Sends P sent (l.foldlM f st)
| [], _, hStart => hStart
| b :: rest, st, hStart => by
    have hFirst := hStep st b hStart
    rw [List.foldlM_cons]
    cases hNext : f st b with
    | error before =>
        rw [hNext] at hFirst
        exact hFirst
    | ok st' =>
        rw [hNext] at hFirst
        exact sends_foldlM hStep rest st' hFirst

/- Neither `ACK` nor `NACK`. -/
def NoControl (sent : List Sent) : Prop :=
  ∀ m ∈ sent, m ≠ .ack ∧ m ≠ .nack

theorem NoControl.append
    {first second : List Sent}
    (hFirst : NoControl first)
    (hSecond : NoControl second) :
    NoControl (first ++ second) := by
  intro m hMem
  rcases List.mem_append.mp hMem with hMem | hMem
  · exact hFirst m hMem
  · exact hSecond m hMem

theorem noControl_guess (mid : Int) (frame : List Byte) :
    NoControl [.guess mid frame] := by
  intro m hMem
  rw [List.mem_singleton.mp hMem]
  exact ⟨by simp, by simp⟩

theorem noControl_tokenStepParity
    (st : Locals)
    (token : List Byte)
    (hBefore : NoControl st.sent) :
    Sends NoControl Locals.sent (tokenStepParity st token) := by
  have hGuess :
      ∀ st' : Locals, st'.sent = st.sent →
        NoControl (sendMidParity st').sent := by
    intro st' hSame
    have hSent :
        (sendMidParity st').sent =
          st'.sent ++ [.guess (sendMidParity st').mid
            (sendMidParity st').t] :=
      rfl
    rw [hSent, hSame]
    exact hBefore.append (noControl_guess _ _)
  unfold tokenStepParity answerRandom
  dsimp only
  split
  · split
    · exact hBefore
    · exact hGuess _ rfl
  · split
    · exact hGuess _ rfl
    · split
      · exact hGuess _ rfl
      · exact hBefore

/- A call of `test_parity` sends answers only. -/
theorem noControl_testParity
    (g : Garbage)
    (string payload : List Byte)
    (len : Nat) :
    NoControl
      (called (testParity g string payload len)).1 := by
  have hLoop :=
    sends_foldlM noControl_tokenStepParity (tokens string)
      (enter g payload) (by intro m hMem; cases hMem)
  unfold testParity
  cases hResult :
      (tokens string).foldlM tokenStepParity
        (enter g payload) with
  | error before =>
      rw [hResult] at hLoop
      exact hLoop
  | ok st =>
      rw [hResult] at hLoop
      refine (hLoop.append ?_).append ?_
      · intro m hMem
        split at hMem
        · rw [List.mem_singleton.mp hMem]
          exact ⟨by simp, by simp⟩
        · cases hMem
      · intro m hMem
        rcases List.mem_map.mp hMem with ⟨token, _, rfl⟩
        exact ⟨by simp, by simp⟩

------------------------------------------------------------
-- One Iteration
------------------------------------------------------------

section Iteration

variable {e : Event} {text : List Byte}

/- The length alone decides whether it is acknowledged. -/
theorem outputs_parity_iff
    {parity : Bool}
    (hFrame : IsFrame e.message (dataFrame parity text)) :
    (outputs .parity e).head? =
        some (if RightParity parity text then .ack else .nack) ↔
      text.length ≠ 2 ∧ text.length ≠ 3 := by
  have hLen : e.message.len = text.length + 2 := by
    rw [hFrame.1]
    simp [dataFrame]
  have hParity :
      inputBit e.message ≠ receivedParity e.message ↔
        ¬ RightParity parity text := by
    rw [inputBit_eq hFrame, receivedParity_eq hFrame,
      RightParity]
    exact not_congr eq_comm
  unfold outputs iteration ackParity nackParity
  dsimp only
  by_cases hData : e.message.len ≠ 4 ∧ e.message.len ≠ 5
  · rw [if_pos hData]
    refine iff_of_true ?_ (by omega)
    by_cases hRight : RightParity parity text
    · rw [if_neg (fun h => hParity.mp h hRight), if_pos hRight]
      rfl
    · rw [if_pos (hParity.mpr hRight), if_neg hRight]
      rfl
  · rw [if_neg hData]
    refine iff_of_false ?_ (by omega)
    intro hHead
    have hControl :
        ∀ sent : List Sent, NoControl sent →
          sent.head? ≠
            some
              (if RightParity parity text then .ack
                else .nack) := by
      intro sent hNone hFirst
      have hMem := List.mem_of_mem_head? hFirst
      split at hMem
      · exact (hNone _ hMem).1 rfl
      · exact (hNone _ hMem).2 rfl
    split at hHead
    · exact hControl _ (noControl_testParity _ _ _ _) hHead
    · cases hHead

theorem outputs_hamming_iff
    (hText : IsText text)
    (hFrame : IsFrame e.message (hammingFrame text)) :
    (outputs .hamming e).head? = some .ack ↔
      text.length ≠ 1 := by
  have hLen : e.message.len = 2 * text.length + 2 := by
    rw [hFrame.1, length_hammingFrame hText.2]
  have hSome : 0 < text.length :=
    List.length_pos_iff.mpr hText.1
  unfold outputs iteration ackHamming nackHamming
  dsimp only
  by_cases hData : e.message.len ≠ 3 ∧ e.message.len ≠ 4
  · rw [if_pos hData]
    exact iff_of_true rfl (by omega)
  · rw [if_neg hData]
    refine iff_of_false ?_ (by omega)
    exact fun hHead => by cases hHead

/- A refusal sends what the variable holds, and no more. -/
theorem outputs_nack
    (hFrame : IsFrame e.message (nackText ++ [0])) :
    outputs .parity e = [.again e.garbage.t] := by
  have hLen : e.message.len = 5 := hFrame.1
  have hPayload :
      e.message.payload =
        nackText ++ 0 :: e.message.payload.drop 5 := by
    have hSplit := List.take_append_drop 5 e.message.payload
    rw [← hLen, hFrame.2, List.append_assoc, hLen] at hSplit
    exact hSplit.symm
  have hString : cString e.message.payload = nackText := by
    rw [hPayload]
    rfl
  have hBehind :
      cString (e.message.payload.drop 1) = ackText := by
    rw [hPayload]
    rfl
  have hTokens : tokens nackText = [nackText] := by
    decide
  have hStep :
      tokenStepParity (enter e.garbage e.message.payload)
          nackText =
        .ok (countWord (enter e.garbage e.message.payload)
          nackText) := by
    have hCounted :
        (countWord (enter e.garbage e.message.payload)
          nackText).payload = e.message.payload :=
      rfl
    unfold tokenStepParity
    dsimp only
    rw [hCounted, hBehind, if_neg (by decide),
      if_neg (by decide), if_neg (by decide)]
  have hKept :
      (countWord (enter e.garbage e.message.payload)
        nackText).a = [] := by
    unfold countWord
    rw [if_neg (by decide), if_neg (by decide)]
    rfl
  unfold outputs iteration ackParity nackParity
  dsimp only
  rw [hLen, if_neg (by omega), if_pos rfl, hString, testParity,
    hTokens, List.foldlM_cons, hStep]
  change [] ++ [Sent.again e.garbage.t] ++ List.map _ _ = _
  rw [hKept]
  rfl

end Iteration

------------------------------------------------------------
-- Whole Runs
------------------------------------------------------------

theorem treated_iff
    (mode : Mode)
    (t : Transition)
    (earlier : Trace) :
    Treated mode t earlier ↔ Distinct mode t earlier := by
  constructor
  · intro hTreated
    refine ⟨?_, ?_, ?_⟩
    · rintro rfl parity text hText hFrame
      exact (outputs_parity_iff hFrame).mp
        (hTreated.parity rfl parity text hText hFrame)
    · rintro rfl text hText hFrame
      exact (outputs_hamming_iff hText hFrame).mp
        (hTreated.hamming rfl text hText hFrame)
    · rintro rfl hFrame frame hLast
      have hSent := hTreated.again rfl hFrame frame hLast
      rw [outputs_nack hFrame] at hSent
      simpa [Sent.frame] using hSent
  · intro hDistinct
    refine ⟨?_, ?_, ?_⟩
    · rintro rfl parity text hText hFrame
      exact (outputs_parity_iff hFrame).mpr
        (hDistinct.parity rfl parity text hText hFrame)
    · rintro rfl text hText hFrame
      exact (outputs_hamming_iff hText hFrame).mpr
        (hDistinct.hamming rfl text hText hFrame)
    · rintro rfl hFrame frame hLast
      have hSent := hDistinct.again rfl hFrame frame hLast
      rw [outputs_nack hFrame]
      simpa [Sent.frame] using hSent

/-
  In a run every frame is treated by its kind exactly if no
  text has one of the lengths and no answer is refused that
  the variable does not hold.
-/
theorem treated_along_iff
    {mode : Mode} {trace : Trace} {s : State}
    (hRun : (serverSystem mode).Run trace s) :
    AtEach (Treated mode) trace ↔
      AtEach (Distinct mode) trace := by
  induction hRun with
  | start _ => exact Iff.rfl
  | next _ _ ih => exact and_congr (treated_iff mode _ _) ih

/- Some values that a call may find. -/
def noGarbage : Garbage where
  low := 0
  high := 0
  mid := 0
  t := []
  heap := []

/- A message with a text of the parity mode. -/
def dataEvent (parity : Bool) (text : List Char) : Event where
  message := received (dataFrame parity (ascii text))
  garbage := noGarbage

/- The refusal of an answer that the variable still holds. -/
def nackEvent (frame : List Byte) : Event where
  message := received (nackText ++ [0])
  garbage := { noGarbage with t := frame }

/- No data frame is as long as `ACK` or `NACK`. -/
theorem distinct_of_long
    {t : Transition}
    (hLong : 6 ≤ t.event.message.len)
    (earlier : Trace) :
    Distinct .parity t earlier where
  parity := by
    intro _ parity text _ hFrame
    have hLen := hFrame.1
    rw [dataFrame, List.length_append, List.length_cons,
      List.length_singleton] at hLen
    omega
  hamming := nofun
  again := by
    intro _ hFrame
    have hLen : t.event.message.len = 5 := hFrame.1
    omega

theorem distinct_nackEvent
    {t : Transition} {frame : List Byte} {earlier : Trace}
    (hEvent : t.event = nackEvent frame)
    (hLast : lastAnswer .parity earlier = some frame) :
    Distinct .parity t earlier where
  parity := by
    intro _ parity text _ hFrame
    rw [hEvent] at hFrame
    have hBytes :
        nackText ++ [0] = dataFrame parity text :=
      hFrame.2
    cases parity
    · exact absurd (List.cons.inj hBytes).1 (by decide)
    · exact absurd (List.cons.inj hBytes).1 (by decide)
  hamming := nofun
  again := by
    intro _ _ frame' hLast'
    rw [hLast] at hLast'
    rw [hEvent]
    exact Option.some.inj hLast'

/-
  A text with a wrong parity is refused; the next one asks for
  an answer, which the client refuses.
-/
def refusedAnswer : List Event :=
  [dataEvent false "hello".toList,
    dataEvent true "word ok".toList,
    nackEvent (parityFrame (ascii "ok".toList))]

theorem treated_refusedAnswer :
    ∃ trace s,
      (serverSystem .parity).Run trace s ∧
        trace.map (outputs .parity ∘ Transition.event) =
          [[.again (parityFrame (ascii "ok".toList))],
            [.ack, .answer (ascii "ok".toList)
              (parityFrame (ascii "ok".toList))],
            [.nack]] ∧
        AtEach (Treated .parity) trace := by
  have hExecute :
      execute (step .parity) [] { i := 0, running := true }
        refusedAnswer = some (_, _) :=
    rfl
  have hRun : (serverSystem .parity).Run _ _ :=
    run_of_execute (Run.start rfl) hExecute
  refine ⟨_, _, hRun, by decide,
    (treated_along_iff hRun).mpr ⟨?_, ?_, ?_, trivial⟩⟩
  · exact distinct_nackEvent rfl (by decide)
  · exact distinct_of_long (by decide) _
  · exact distinct_of_long (by decide) _

/- A text of two characters is ignored. -/
theorem not_treated_always :
    ¬ ∀ (mode : Mode) (trace : Trace) (s : State),
        (serverSystem mode).Run trace s →
          AtEach (Treated mode) trace := by
  intro hAlways
  have hRun :
      (serverSystem .parity).Run
        [⟨{ i := 0, running := true },
          dataEvent false "hi".toList,
          { i := 1, running := true }⟩]
        { i := 1, running := true } := by
    refine TransitionSystem.Run.next
      (TransitionSystem.Run.start rfl) ?_
    change step .parity _ _ = some _
    decide
  have hTreated := (hAlways .parity _ _ hRun).1
  have hSent :=
    hTreated.parity rfl false (ascii "hi".toList) (by decide)
      (by decide)
  revert hSent
  decide

end Receiver

end TcpServer

end ProgrammingTasks
