import ProgrammingTasks.TcpServer.Guessing

/-
  The answers that the three functions find in a text.

  A word is an answer if it directly follows a `word`.  The
  functions know this from two counters, which are 1 apart
  behind a `word`.  `test_parity` also counts the digits of a
  guess with the same two variables, which may leave them any
  number apart.

  Main declarations:
    * `answersOf`, `extract`, `gapAfter`
    * `Readable`, `Alike`, `CountersApart`
    * `alike_iff`
-/

------------------------------------------------------------
-- The Answers of a Text
------------------------------------------------------------

namespace ProgrammingTasks

namespace TcpServer

namespace Receiver

/- The tokens behind a `word` that are not `word` themselves. -/
def answersOf (l : List (List Byte)) : List (List Byte) :=
  (l.zip l.tail).filterMap
    (fun p =>
      if p.1 = wordText ∧ p.2 ≠ wordText then some p.2
      else none)

/-
  What is found by the difference of the two counters alone:
  a token is kept if it makes the difference zero.
-/
def extract : Int → List (List Byte) → List (List Byte)
| _, [] => []
| gap, token :: rest =>
    if token = wordText then
      extract 1 rest
    else if gap = 1 then
      token :: extract (gap - 1) rest
    else
      extract (gap - 1) rest

/- The difference behind some tokens. -/
def gapAfter (gap : Int) (l : List (List Byte)) : Int :=
  l.foldl
    (fun gap token => if token = wordText then 1 else gap - 1)
    gap

theorem answersOf_word
    {token : List Byte}
    (hToken : token ≠ wordText)
    (rest : List (List Byte)) :
    answersOf (wordText :: token :: rest) =
      token :: answersOf (token :: rest) := by
  unfold answersOf
  simp [hToken]

theorem answersOf_word_word (rest : List (List Byte)) :
    answersOf (wordText :: wordText :: rest) =
      answersOf (wordText :: rest) := by
  unfold answersOf
  simp

theorem answersOf_other
    {token : List Byte}
    (hToken : token ≠ wordText)
    (rest : List (List Byte)) :
    answersOf (token :: rest) = answersOf rest := by
  cases rest with
  | nil => simp [answersOf]
  | cons next rest =>
      unfold answersOf
      simp [hToken]

/- A difference of 1 stands for a `word` that was just read. -/
theorem extract_eq :
    ∀ l : List (List Byte),
      extract 1 l = answersOf (wordText :: l) ∧
        ∀ gap : Int, gap ≤ 0 → extract gap l = answersOf l
| [] => ⟨rfl, fun _ _ => rfl⟩
| token :: rest => by
    rcases extract_eq rest with ⟨hOne, hZero⟩
    by_cases hToken : token = wordText
    · subst hToken
      refine ⟨?_, fun gap hGap => ?_⟩
      · rw [extract, if_pos rfl, hOne, answersOf_word_word]
      · rw [extract, if_pos rfl, hOne]
    · refine ⟨?_, fun gap hGap => ?_⟩
      · rw [extract, if_neg hToken, if_pos rfl,
          answersOf_word hToken, answersOf_other hToken,
          hZero _ (by omega)]
      · rw [extract, if_neg hToken, if_neg (by omega),
          answersOf_other hToken, hZero _ (by omega)]

theorem extract_append (gap : Int) (m : List (List Byte)) :
    ∀ l : List (List Byte),
      extract gap (l ++ m) =
        extract gap l ++ extract (gapAfter gap l) m := by
  intro l
  induction l generalizing gap with
  | nil => rfl
  | cons token rest ih =>
      rw [List.cons_append, extract, extract, gapAfter,
        List.foldl_cons]
      by_cases hToken : token = wordText
      · simp only [if_pos hToken]
        exact ih 1
      · simp only [if_neg hToken]
        split
        · rw [ih, List.cons_append]
          rfl
        · exact ih (gap - 1)

/- The counters are never more than 1 apart by themselves. -/
theorem gapAfter_le
    {gap : Int}
    (hGap : gap ≤ 1) :
    ∀ l : List (List Byte), gapAfter gap l ≤ 1 := by
  intro l
  induction l generalizing gap with
  | nil => exact hGap
  | cons token rest ih =>
      rw [gapAfter, List.foldl_cons]
      apply ih
      split <;> omega

/-
  A larger difference is harmless if a `word` comes in time or
  the text ends before.
-/
theorem extract_eq_iff (gap : Nat) :
    ∀ l : List (List Byte),
      extract gap l = answersOf l ↔
        gap = 0 ∨ wordText ∈ l.take gap ∨ l.length < gap := by
  intro l
  induction l generalizing gap with
  | nil =>
      cases gap with
      | zero => simp [extract, answersOf]
      | succ gap => simp [extract, answersOf]
  | cons token rest ih =>
      cases gap with
      | zero =>
          simpa using (extract_eq (token :: rest)).2 0 le_rfl
      | succ gap =>
          rw [extract]
          by_cases hToken : token = wordText
          · subst hToken
            rw [if_pos rfl, (extract_eq rest).1]
            simp
          · rw [if_neg hToken, answersOf_other hToken]
            have hGap : ((gap + 1 : Nat) : Int) - 1 = gap := by
              omega
            have hMem :
                wordText ∈ (token :: rest).take (gap + 1) ↔
                  wordText ∈ rest.take gap := by
              rw [List.take_succ_cons, List.mem_cons]
              constructor
              · rintro (hSame | hMem)
                · exact absurd hSame.symm hToken
                · exact hMem
              · exact Or.inr
            rw [hGap, hMem, List.length_cons]
            by_cases hZero : gap = 0
            · -- The token behind the guess is taken for an answer.
              subst hZero
              rw [if_pos (by omega),
                (extract_eq rest).2 ((0 : Nat) : Int) le_rfl]
              simp
            · rw [if_neg (by omega), ih]
              simp [hZero]

------------------------------------------------------------
-- Counting
------------------------------------------------------------

/- The difference of the counters. -/
def Locals.gap (st : Locals) : Int :=
  st.i - st.j

theorem countWord_gap (st : Locals) (token : List Byte) :
    (countWord st token).gap =
      if token = wordText then 1 else st.gap - 1 := by
  unfold countWord Locals.gap
  dsimp only
  split <;> omega

theorem countWord_a (st : Locals) (token : List Byte) :
    (countWord st token).a = st.a ++ extract st.gap [token] := by
  unfold countWord Locals.gap extract
  dsimp only
  by_cases hToken : token = wordText
  · simp [hToken, extract]
  · have hSame : st.j + 1 = st.i ↔ (st.i : Int) - st.j = 1 := by
      omega
    simp only [if_neg hToken, hSame, extract]
    split <;> simp

/- The two counters find what their difference finds. -/
theorem foldl_countWord_a :
    ∀ (l : List (List Byte)) (st : Locals),
      (l.foldl countWord st).a = st.a ++ extract st.gap l ∧
        (l.foldl countWord st).gap = gapAfter st.gap l
| [], st => ⟨by simp [extract], rfl⟩
| token :: rest, st => by
    have ih := foldl_countWord_a rest (countWord st token)
    have hSplit := extract_append st.gap rest [token]
    rw [List.singleton_append] at hSplit
    refine ⟨?_, ?_⟩
    · rw [List.foldl_cons, ih.1, countWord_a, countWord_gap,
        hSplit, List.append_assoc]
      rfl
    · rw [List.foldl_cons, ih.2, countWord_gap]
      rfl

------------------------------------------------------------
-- The Loops
------------------------------------------------------------

section Loop

variable {f : Locals → List Byte → Except (List Sent) Locals}
variable {I : List Byte → Prop}
variable {payload : List Byte}

theorem foldlM_without
    (hOther :
      ∀ st token, randomText.isPrefixOf token = false →
        I st.payload → f st token = .ok (countWord st token))
    (hPayload : I payload)
    {l : List (List Byte)}
    (hTokens :
      ∀ token ∈ l, randomText.isPrefixOf token = false)
    (g : Garbage) :
    ∃ st, l.foldlM f (enter g payload) = .ok st ∧
      st.sent = [] ∧ st.a = answersOf l := by
  refine
    ⟨_, foldlM_counted hOther l (enter g payload) hTokens
      hPayload, ?_, ?_⟩
  · rw [(foldl_countWord l _).2]
    rfl
  · rw [(foldl_countWord_a l _).1]
    exact (extract_eq l).2 0 le_rfl

/- The guess may leave the counters any number apart. -/
theorem foldlM_with
    (sent : Sent) (gap : Int → Int)
    (hOther :
      ∀ st token, randomText.isPrefixOf token = false →
        I st.payload → f st token = .ok (countWord st token))
    (hRandom :
      ∀ st token, randomText.isPrefixOf token = true →
        st.payload = payload →
          ∃ st', f st token = .ok st' ∧ I st'.payload ∧
            st'.sent = st.sent ++ [sent] ∧
            st'.a = (countWord st token).a ∧
            st'.gap = gap (countWord st token).gap)
    (hPayload : I payload)
    {before behind : List (List Byte)} {token : List Byte}
    (hToken : randomText.isPrefixOf token = true)
    (hTokens :
      ∀ other ∈ before ++ behind,
        randomText.isPrefixOf other = false)
    (g : Garbage) :
    ∃ st,
      (before ++ token :: behind).foldlM f
          (enter g payload) = .ok st ∧
        st.sent = [sent] ∧
        st.a =
          extract 0 (before ++ [token]) ++
            extract (gap (gapAfter 0 (before ++ [token])))
              behind := by
  have hKept := foldl_countWord before (enter g payload)
  rcases hRandom (before.foldl countWord (enter g payload))
      token hToken hKept.1 with
    ⟨st, hStep, hQuiet, hSent, hAnswers, hGap⟩
  have hCounted :=
    foldl_countWord_a (before ++ [token]) (enter g payload)
  rw [List.foldl_append, List.foldl_cons, List.foldl_nil]
    at hCounted
  refine
    ⟨behind.foldl countWord st, ?_, ?_, ?_⟩
  · exact foldlM_around hOther hTokens hPayload hStep hQuiet
  · rw [(foldl_countWord behind st).2, hSent, hKept.2]
    rfl
  · rw [(foldl_countWord_a behind st).1, hAnswers, hGap,
      hCounted.1, hCounted.2]
    rfl

end Loop

------------------------------------------------------------
-- The Bounds
------------------------------------------------------------

/- The sum of the bounds that are read from a text. -/
def boundsSum (text : List Byte) : Int :=
  toInt
    ((text.getD (text.idxOf 91 + 1) 0).toInt - 48 +
      toInt (strtol (text.drop (text.idxOf 91 + 4))))

/- A number ends with the text. -/
theorem strtol_append (text rest : List Byte) :
    strtol (text ++ 0 :: rest) = strtol text := by
  have hTake :
      ∀ l : List Byte,
        (l ++ 0 :: rest).takeWhile isDigit =
          l.takeWhile isDigit := by
    intro l
    rw [List.takeWhile_append]
    split
    · rename_i hAll
      have hSame : l.takeWhile isDigit = l :=
        (List.takeWhile_prefix isDigit).eq_of_length hAll
      have hZero : isDigit 0 = false := by
        decide
      rw [hSame, List.takeWhile_cons, hZero]
      simp
    · rfl
  have hDrop :
      (text ++ 0 :: rest).dropWhile isSpace =
        text.dropWhile isSpace ++ 0 :: rest := by
    rw [List.dropWhile_append]
    split
    · rename_i hEmpty
      have hZero : isSpace 0 = false := by
        decide
      rw [List.isEmpty_iff.mp hEmpty, List.dropWhile_cons, hZero]
      simp
    · rfl
  unfold strtol
  dsimp only
  rw [hDrop]
  cases text.dropWhile isSpace with
  | nil =>
      have hNone := hTake []
      rw [List.nil_append] at hNone
      rw [List.nil_append, List.head?_cons, if_neg (by decide),
        if_neg (by decide), hNone]
      rfl
  | cons c l =>
      have hHead := hTake (c :: l)
      rw [List.cons_append] at hHead
      rw [List.cons_append, List.head?_cons, List.head?_cons,
        List.drop_one, List.drop_one, List.tail_cons,
        List.tail_cons, hTake l, hHead]

section Interval

variable {text : List Byte}

/- The bounds of a text lie before its end. -/
theorem readInterval_behind
    (front rest : List Byte)
    (hNoNul : 0 ∉ front ++ text)
    (hFront : 91 ∉ front)
    (hInterval : text.idxOf 91 + 4 ≤ text.length) :
    ∃ bounds,
      readInterval (front ++ text ++ 0 :: rest) = some bounds ∧
        toInt (bounds.1 + bounds.2) = boundsSum text := by
  have hMem : 91 ∈ text := by
    rw [← List.idxOf_lt_length_iff]
    omega
  have hPch :
      (front ++ text).idxOf 91 =
        front.length + text.idxOf 91 := by
    rw [List.idxOf_append, if_neg hFront, Nat.add_comm]
  have hFirst :
      (front ++ text ++ 0 :: rest).getD
          (front.length + text.idxOf 91 + 1) 0 =
        text.getD (text.idxOf 91 + 1) 0 := by
    rw [List.append_assoc, List.getD_append_right _ _ _ _
      (by omega), Nat.add_assoc, Nat.add_sub_cancel_left,
      List.getD_append _ _ _ _ (by omega)]
  have hUpper :
      (front ++ text ++ 0 :: rest).drop
          (front.length + text.idxOf 91 + 4) =
        text.drop (text.idxOf 91 + 4) ++ 0 :: rest := by
    rw [List.append_assoc, Nat.add_assoc, List.drop_append,
      List.drop_of_length_le (by omega), List.nil_append,
      Nat.add_sub_cancel_left,
      List.drop_append_of_le_length hInterval]
  refine
    ⟨((text.getD (text.idxOf 91 + 1) 0).toInt - 48,
      toInt (strtol (text.drop (text.idxOf 91 + 4)))), ?_, rfl⟩
  unfold readInterval
  dsimp only
  rw [cString_append hNoNul,
    if_pos (List.mem_append_right front hMem), hPch, hFirst,
    hUpper, strtol_append]

end Interval

/- The characters of a guess behind the eighth. -/
def surplus (sum : Int) : Nat :=
  if -2 * 10 ^ 7 < sum ∧ sum < 2 * 10 ^ 8 then
    0
  else if -2 * 10 ^ 8 < sum ∧ sum < 2 * 10 ^ 9 then
    1
  else if -2 * 10 ^ 9 < sum then
    2
  else
    3

theorem length_decimal (v : Int) :
    (decimal v).length =
      (if v < 0 then 1 else 0) +
        (Nat.toDigits 10 v.natAbs).length := by
  unfold decimal ascii
  split
  · rw [List.length_cons, List.length_map, Nat.add_comm]
  · rw [List.length_map, Nat.zero_add]

theorem surplus_eq
    {sum : Int}
    (hLow : -2 ^ 31 ≤ sum)
    (hHigh : sum < 2 ^ 31) :
    (decimal (sum.tdiv 2)).length - 8 = surplus sum := by
  have hDigits :
      ∀ k, 0 < k →
        ((Nat.toDigits 10 (sum.tdiv 2).natAbs).length ≤ k ↔
          (sum.tdiv 2).natAbs < 10 ^ k) :=
    fun k hPos => Nat.length_toDigits_le_iff (by decide) hPos
  have hSeven := hDigits 7 (by decide)
  have hEight := hDigits 8 (by decide)
  have hNine := hDigits 9 (by decide)
  have hTen := hDigits 10 (by decide)
  have hSome := Nat.length_toDigits_pos (b := 10)
    (n := (sum.tdiv 2).natAbs)
  rw [length_decimal]
  unfold surplus
  rcases Int.le_total 0 sum with hPos | hNeg
  · have hHalf : sum.tdiv 2 = sum / 2 :=
      Int.tdiv_eq_ediv_of_nonneg hPos
    rw [if_neg (by omega)]
    split_ifs <;> omega
  · have hHalf : -sum.tdiv 2 = -sum / 2 := by
      rw [← Int.neg_tdiv]
      exact Int.tdiv_eq_ediv_of_nonneg (by omega)
    split_ifs <;> omega

------------------------------------------------------------
-- What the Functions Send
------------------------------------------------------------

/-
  A text that is no answer to a guess, and that announces at
  most one interval: there are four characters from the first
  `[` on.
-/
structure Readable (text : List Byte) : Prop where
  noNul : 0 ∉ text
  quiet : Quiet text
  random :
    ∀ before token behind,
      tokens text = before ++ token :: behind →
        randomText.isPrefixOf token = true →
          (∀ other ∈ before ++ behind,
            randomText.isPrefixOf other = false) ∧
          text.idxOf 91 + 4 ≤ text.length

/- Besides at most one guess, the answers are sent in order. -/
def AnswersWith
    (encode : List Byte → List Byte) (text : List Byte)
    (result : Except (List Sent) (List Sent)) : Prop :=
  ∃ guess,
    guess.length ≤ 1 ∧
      (∀ s ∈ guess, (guessed s).isSome = true) ∧
      result =
        .ok (guess ++
          (answersOf (tokens text)).map
            (fun token => .answer token (encode token)))

/- The text is answered alike in the three protocols. -/
def Alike (text : List Byte) : Prop :=
  ∀ g rest,
    AnswersWith plainFrame text
        (test0 g text (plainFrame text ++ rest)) ∧
      AnswersWith parityFrame text
        (testParity g text (parityFrame text ++ rest)
          (parityFrame text).length) ∧
      AnswersWith hammingFrame text
        (testHamming g text (plainFrame text ++ rest))

/-
  The characters of the guess leave the counters less than 1
  apart, or a `word` or the end of the text comes before they
  meet; and the text is not as long as a `NACK`.
-/
def CountersApart (text : List Byte) : Prop :=
  text.length ≠ 3 ∧
    ∀ before token behind,
      tokens text = before ++ token :: behind →
        randomText.isPrefixOf token = true →
          surplus (boundsSum text) = 0 ∨
            wordText ∈
              behind.take (surplus (boundsSum text)) ∨
            behind.length < surplus (boundsSum text)

/- The text that is sent as an answer. -/
def answered : Sent → Option (List Byte)
| .answer token _ => some token
| _ => none

theorem answered_of_guessed
    {guess : List Sent}
    (hGuess : ∀ s ∈ guess, (guessed s).isSome = true) :
    guess.filterMap answered = [] := by
  rw [List.filterMap_eq_nil_iff]
  intro s hMem
  have hSome := hGuess s hMem
  cases s with
  | guess => rfl
  | ack => exact absurd hSome (by simp [guessed])
  | nack => exact absurd hSome (by simp [guessed])
  | answer => exact absurd hSome (by simp [guessed])
  | again => exact absurd hSome (by simp [guessed])

theorem answered_map
    (encode : List Byte → List Byte) (l : List (List Byte)) :
    (l.map fun token =>
        Sent.answer token (encode token)).filterMap answered =
      l := by
  rw [List.filterMap_map]
  have hSome :
      (answered ∘ fun token : List Byte =>
        Sent.answer token (encode token)) = some :=
    rfl
  rw [hSome, List.filterMap_some]

/- Only the answers matter. -/
theorem answersWith_iff
    {encode : List Byte → List Byte} {text : List Byte}
    {guess : List Sent} {a : List (List Byte)}
    (hOne : guess.length ≤ 1)
    (hGuess : ∀ s ∈ guess, (guessed s).isSome = true) :
    AnswersWith encode text
        (.ok (guess ++
          a.map fun token => .answer token (encode token))) ↔
      a = answersOf (tokens text) := by
  constructor
  · rintro ⟨guess', _, hGuess', hSame⟩
    have hAnswered :=
      congrArg (List.filterMap answered) (Except.ok.inj hSame)
    rw [List.filterMap_append, List.filterMap_append,
      answered_of_guessed hGuess, answered_of_guessed hGuess',
      answered_map, answered_map] at hAnswered
    exact hAnswered
  · rintro rfl
    exact ⟨guess, hOne, hGuess, rfl⟩

/- A message that is sent again is neither. -/
theorem not_answersWith
    {encode : List Byte → List Byte} {text frame : List Byte}
    {sent : List Sent}
    (hMem : Sent.again frame ∈ sent) :
    ¬ AnswersWith encode text (.ok sent) := by
  rintro ⟨guess, _, hGuess, hSame⟩
  rw [Except.ok.inj hSame, List.mem_append] at hMem
  rcases hMem with hFirst | hAnswer
  · exact absurd (hGuess _ hFirst) (by simp [guessed])
  · rcases List.mem_map.mp hAnswer with ⟨token, _, hSame⟩
    cases hSame

section Answers

variable {text : List Byte}

/- Behind the announcement no `word` is pending. -/
theorem answersOf_announced
    {before behind : List (List Byte)} {token : List Byte}
    (hTokens : tokens text = before ++ token :: behind)
    (hToken : randomText.isPrefixOf token = true) :
    gapAfter 0 (before ++ [token]) ≤ 0 ∧
      answersOf (tokens text) =
        extract 0 (before ++ [token]) ++ answersOf behind := by
  have hWord : token ≠ wordText := by
    rintro rfl
    revert hToken
    decide
  have hGap : gapAfter 0 (before ++ [token]) ≤ 0 := by
    have hBefore := gapAfter_le (show (0 : Int) ≤ 1 by decide)
      before
    unfold gapAfter at hBefore ⊢
    rw [List.foldl_append, List.foldl_cons, List.foldl_nil,
      if_neg hWord]
    omega
  refine ⟨hGap, ?_⟩
  rw [← (extract_eq (tokens text)).2 0 le_rfl, hTokens,
    List.append_cons, extract_append,
    (extract_eq behind).2 _ hGap]

theorem not_random
    {l : List (List Byte)}
    (hRandom :
      ¬ ∃ token ∈ l, randomText.isPrefixOf token = true) :
    ∀ token ∈ l, randomText.isPrefixOf token = false := by
  intro token hMem
  by_contra hToken
  apply hRandom
  exact ⟨token, hMem, by simpa using hToken⟩

theorem isSome_guessed
    {s : Sent} {mid : Int} {frame : List Byte}
    (hMem : s ∈ [Sent.guess mid frame]) :
    (guessed s).isSome = true := by
  rw [List.mem_singleton.mp hMem]
  rfl

/- The guess leaves the counters of these two as they are. -/
theorem answersWith_testWith
    {encode : List Byte → List Byte}
    (hEncode : QuietEncoding encode)
    (hText : Readable text)
    (g : Garbage)
    (rest : List Byte) :
    AnswersWith encode text
      (testWith encode g text (plainFrame text ++ rest)) := by
  have hPayload : plainFrame text ++ rest = text ++ 0 :: rest := by
    rw [plainFrame, List.append_assoc]
    rfl
  have hQuiet : Quiet (cString (text ++ 0 :: rest)) := by
    rw [cString_append hText.noNul]
    exact hText.quiet
  rw [hPayload]
  unfold testWith
  by_cases hRandom :
      ∃ token ∈ tokens text, randomText.isPrefixOf token = true
  · rcases hRandom with ⟨token, hMem, hToken⟩
    rcases List.append_of_mem hMem with
      ⟨before, behind, hTokens⟩
    rcases hText.random before token behind hTokens hToken with
      ⟨hOthers, hLong⟩
    rcases readInterval_behind [] rest hText.noNul (by simp)
        hLong with ⟨bounds, hRead, _⟩
    rw [List.nil_append] at hRead
    rcases foldlM_with (f := tokenStep encode)
        (I := fun payload => Quiet (cString payload))
        (.guess (middle bounds.1 bounds.2)
          (encode (decimal (middle bounds.1 bounds.2))))
        id tokenStep_other
        (fun st token hToken hSame =>
          ⟨_, tokenStep_random hEncode hToken
            (by rw [hSame, hRead]), hEncode _ _, rfl, rfl, rfl⟩)
        hQuiet hToken hOthers g with
      ⟨st, hLoop, hSent, hFound⟩
    rcases answersOf_announced hTokens hToken with
      ⟨hGap, hAnswers⟩
    rw [hTokens, hLoop, Except.map, hSent, hFound]
    refine (answersWith_iff (by simp)
      (fun s => isSome_guessed)).mpr ?_
    rw [hAnswers, id_eq, (extract_eq behind).2 _ hGap]
  · have hNone := not_random hRandom
    rcases foldlM_without (f := tokenStep encode)
        (I := fun payload => Quiet (cString payload))
        tokenStep_other hQuiet hNone g with
      ⟨st, hLoop, hSent, hFound⟩
    rw [hLoop, Except.map, hSent, hFound]
    exact (answersWith_iff (by simp) (by simp)).mpr rfl

theorem parityFrame_append (text rest : List Byte) :
    parityFrame text ++ rest =
      (48 + parityOf text) :: text ++ 0 :: rest := by
  rw [parityFrame, List.append_assoc]
  rfl

theorem quiet_parity
    (hText : Readable text)
    (rest : List Byte) :
    Quiet (cString ((parityFrame text ++ rest).drop 1)) := by
  rw [parityFrame_append, cString_behind hText.noNul]
  exact hText.quiet

/- The loop of `test_parity` over a text with an interval. -/
theorem foldlM_tokenStepParity
    (hText : Readable text)
    {before behind : List (List Byte)} {token : List Byte}
    (hTokens : tokens text = before ++ token :: behind)
    (hToken : randomText.isPrefixOf token = true)
    (g : Garbage)
    (rest : List Byte) :
    ∃ st,
      (tokens text).foldlM tokenStepParity
          (enter g (parityFrame text ++ rest)) = .ok st ∧
        st.sent.length ≤ 1 ∧
        (∀ s ∈ st.sent, (guessed s).isSome = true) ∧
        (st.a = answersOf (tokens text) ↔
          surplus (boundsSum text) = 0 ∨
            wordText ∈
              behind.take (surplus (boundsSum text)) ∨
            behind.length < surplus (boundsSum text)) := by
  have hCharacter := parityCharacter_ne text
  rcases hText.random before token behind hTokens hToken with
    ⟨hOthers, hLong⟩
  rcases readInterval_behind [48 + parityOf text] rest
      (by
        rw [List.singleton_append, List.mem_cons]
        exact fun h =>
          h.elim (fun h => hCharacter.2 h.symm) hText.noNul)
      (by
        rw [List.mem_singleton]
        exact hCharacter.1.symm)
      hLong with ⟨bounds, hRead, hSum⟩
  rw [List.singleton_append, ← parityFrame_append] at hRead
  have hDigits :
      (decimal (middle bounds.1 bounds.2)).length - 8 =
        surplus (boundsSum text) := by
    rw [middle, hSum]
    exact surplus_eq (Int.le_bmod (by decide))
      (Int.bmod_lt (by decide))
  rcases foldlM_with (f := tokenStepParity)
      (I := fun payload => Quiet (cString (payload.drop 1)))
      (.guess (middle bounds.1 bounds.2)
        (parityFrame (decimal (middle bounds.1 bounds.2))))
      (fun _ =>
        (decimal (middle bounds.1 bounds.2)).length - 8)
      tokenStepParity_other
      (fun st token hToken hSame =>
        ⟨_, tokenStepParity_random hToken
          (by rw [hSame]; exact hRead),
          by
            change Quiet (cString (st.payload.drop 1))
            rw [hSame]
            exact quiet_parity hText rest,
          rfl, rfl, rfl⟩)
      (quiet_parity hText rest) hToken hOthers g with
    ⟨st, hLoop, hSent, hFound⟩
  rcases answersOf_announced hTokens hToken with ⟨_, hAnswers⟩
  refine ⟨st, by rw [hTokens, hLoop], by simp [hSent], ?_, ?_⟩
  · rw [hSent]
    exact fun s => isSome_guessed
  · rw [hFound, hAnswers, List.append_cancel_left_eq]
    -- Up to eight characters are as good as none.
    have hSurplus :
        extract
            ((decimal (middle bounds.1 bounds.2)).length - 8 :
              Int)
            behind = answersOf behind ↔
          extract (surplus (boundsSum text)) behind =
            answersOf behind := by
      by_cases hShort :
          (decimal (middle bounds.1 bounds.2)).length ≤ 8
      · rw [(extract_eq behind).2 _ (by omega),
          (extract_eq behind).2 _ (by omega)]
      · rw [← hDigits, Nat.cast_sub (by omega)]
        rfl
    rw [hSurplus, extract_eq_iff]

/- All of `test_parity`; a `NACK` has length 5. -/
theorem testParity_eq
    (hText : Readable text)
    (g : Garbage)
    (rest : List Byte)
    (len : Nat) :
    ∃ guess frame a,
      testParity g text (parityFrame text ++ rest) len =
          .ok (guess ++
            (if len = 5 then [.again frame] else []) ++
            a.map
              (fun token => .answer token (parityFrame token))) ∧
        guess.length ≤ 1 ∧
        (∀ s ∈ guess, (guessed s).isSome = true) ∧
        (a = answersOf (tokens text) ↔
          ∀ before token behind,
            tokens text = before ++ token :: behind →
              randomText.isPrefixOf token = true →
                surplus (boundsSum text) = 0 ∨
                  wordText ∈
                    behind.take (surplus (boundsSum text)) ∨
                  behind.length <
                    surplus (boundsSum text)) := by
  unfold testParity
  by_cases hRandom :
      ∃ token ∈ tokens text, randomText.isPrefixOf token = true
  · rcases hRandom with ⟨token, hMem, hToken⟩
    rcases List.append_of_mem hMem with
      ⟨before, behind, hTokens⟩
    rcases foldlM_tokenStepParity hText hTokens hToken g rest with
      ⟨st, hLoop, hOne, hGuess, hFound⟩
    refine ⟨st.sent, st.t, st.a, ?_, hOne, hGuess, ?_⟩
    · rw [hLoop, Except.map]
    · constructor
      · intro hSame before token behind hTokens hToken
        rcases foldlM_tokenStepParity hText hTokens hToken g
            rest with ⟨st', hLoop', _, _, hFound'⟩
        rw [hLoop] at hLoop'
        rw [← Except.ok.inj hLoop'] at hFound'
        exact hFound'.mp hSame
      · intro hApart
        exact hFound.mpr (hApart before token behind hTokens hToken)
  · have hNone := not_random hRandom
    rcases foldlM_without (f := tokenStepParity)
        (I := fun payload => Quiet (cString (payload.drop 1)))
        tokenStepParity_other (quiet_parity hText rest) hNone
        g with ⟨st, hLoop, hSent, hFound⟩
    refine ⟨st.sent, st.t, st.a, ?_, ?_, ?_, ?_⟩
    · rw [hLoop, Except.map]
    · simp [hSent]
    · simp [hSent]
    · refine iff_of_true hFound ?_
      intro before token behind hTokens hToken
      exact absurd ⟨token, by simp [hTokens], hToken⟩ hRandom

theorem answersWith_testParity_iff
    (hText : Readable text)
    (g : Garbage)
    (rest : List Byte) :
    AnswersWith parityFrame text
        (testParity g text (parityFrame text ++ rest)
          (parityFrame text).length) ↔
      CountersApart text := by
  have hLength : (parityFrame text).length = text.length + 2 := by
    rw [parityFrame, List.length_append]
    rfl
  rcases testParity_eq hText g rest (parityFrame text).length
    with ⟨guess, frame, a, hSent, hOne, hGuess, hFound⟩
  rw [hSent, hLength]
  by_cases hThree : text.length = 3
  · have hAgain :
        Sent.again frame ∈
          guess ++
            (if text.length + 2 = 5 then [.again frame] else []) ++
            a.map
              (fun token => .answer token (parityFrame token)) := by
      simp [hThree]
    exact iff_of_false (not_answersWith hAgain)
      (fun hApart => hApart.1 hThree)
  · rw [if_neg (by omega), List.append_nil,
      answersWith_iff hOne hGuess, hFound]
    exact ⟨fun hApart => ⟨hThree, hApart⟩, fun h => h.2⟩

/-
  The three functions answer alike exactly if the guess does
  not bring the counters together.
-/
theorem alike_iff (hText : Readable text) :
    Alike text ↔ CountersApart text := by
  constructor
  · intro hAlike
    exact (answersWith_testParity_iff hText noGarbage []).mp
      (hAlike noGarbage []).2.1
  · intro hApart g rest
    exact
      ⟨answersWith_testWith quietEncoding_plain hText g rest,
        (answersWith_testParity_iff hText g rest).mpr hApart,
        answersWith_testWith quietEncoding_hamming hText g rest⟩

end Answers

/- An announcement at the start of a text. -/
theorem behind_of_first
    {first token : List Byte}
    {rest before behind : List (List Byte)}
    (hRest :
      ∀ other ∈ rest, randomText.isPrefixOf other = false)
    (hSame : first :: rest = before ++ token :: behind)
    (hToken : randomText.isPrefixOf token = true) :
    before = [] ∧ behind = rest := by
  cases before with
  | nil => exact ⟨rfl, (List.cons.inj hSame).2.symm⟩
  | cons other before =>
      have hMem : token ∈ rest := by
        rw [(List.cons.inj hSame).2]
        exact List.mem_append_right _ List.mem_cons_self
      rw [hRest token hMem] at hToken
      cases hToken

theorem readable_of_first
    {text first : List Byte} {rest : List (List Byte)}
    (hNoNul : 0 ∉ text)
    (hQuiet : Quiet text)
    (hTokens : tokens text = first :: rest)
    (hRest :
      ∀ other ∈ rest, randomText.isPrefixOf other = false)
    (hLong : text.idxOf 91 + 4 ≤ text.length) :
    Readable text where
  noNul := hNoNul
  quiet := hQuiet
  random := by
    intro before token behind hSame hToken
    rw [hTokens] at hSame
    rcases behind_of_first hRest hSame hToken with ⟨rfl, rfl⟩
    exact ⟨hRest, hLong⟩

/-
  The guess has nine digits, and a `word` comes in time; two
  answers are asked for.
-/
def wordAnnouncement : List Byte :=
  ascii "random word yes [0, 200000000] word no".toList

theorem readable_wordAnnouncement :
    Readable wordAnnouncement := by
  have hTokens :
      tokens wordAnnouncement =
        [randomText, wordText, ascii "yes".toList,
          ascii "[0,".toList, ascii "200000000]".toList,
          wordText, ascii "no".toList] := by
    decide
  exact readable_of_first (by decide) ⟨by decide, by decide⟩
    hTokens (by decide) (by decide)

theorem alike_wordAnnouncement :
    answersOf (tokens wordAnnouncement) =
        [ascii "yes".toList, ascii "no".toList] ∧
      surplus (boundsSum wordAnnouncement) = 1 ∧
      Alike wordAnnouncement := by
  have hTokens :
      tokens wordAnnouncement =
        randomText :: wordText ::
          [ascii "yes".toList, ascii "[0,".toList,
            ascii "200000000]".toList, wordText,
            ascii "no".toList] := by
    decide
  have hSurplus : surplus (boundsSum wordAnnouncement) = 1 := by
    decide
  refine ⟨by decide, hSurplus,
    (alike_iff readable_wordAnnouncement).mpr ⟨by decide, ?_⟩⟩
  intro before token behind hSame hToken
  rw [hTokens] at hSame
  rcases behind_of_first (by decide) hSame hToken with ⟨_, rfl⟩
  refine .inr (.inl ?_)
  rw [hSurplus]
  exact List.mem_cons_self

/- The guess has nine digits, and no answer is asked for. -/
def wideAnnouncement : List Byte :=
  ascii "random [0, 200000000]".toList

theorem tokens_wideAnnouncement :
    tokens wideAnnouncement =
      [randomText, ascii "[0,".toList,
        ascii "200000000]".toList] := by
  decide

theorem readable_wideAnnouncement :
    Readable wideAnnouncement :=
  readable_of_first (by decide) ⟨by decide, by decide⟩
    tokens_wideAnnouncement (by decide) (by decide)

/- `test_parity` takes the lower bound for an answer. -/
theorem not_alike_always :
    ¬ ∀ text, Readable text → Alike text := by
  intro hAlways
  have hApart :=
    (answersWith_testParity_iff readable_wideAnnouncement
      noGarbage []).mp
      (hAlways _ readable_wideAnnouncement noGarbage []).2.1
  have hCounters :=
    hApart.2 [] randomText _ tokens_wideAnnouncement (by decide)
  revert hCounters
  decide

end Receiver

end TcpServer

end ProgrammingTasks
