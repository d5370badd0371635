import ProgrammingTasks.Shell.Words
import Mathlib.Data.Set.Basic
import Mathlib.Algebra.GroupWithZero.Nat

/-
  The lines that the shell reads (`main.c`).

  A line is put together from the chunks that `fgets` returns,
  and its end is looked for in the last chunk only.  If that
  chunk is the newline alone, a carriage return in front of it
  stays in the line.

  Main declarations:
    * `fgets`, `trimChunk`, `readLine`, `readLines`
    * `segments`, `withoutEnd`, `linesOf`
    * `readLine_segment`
    * `readLines_eq_iff`
-/

------------------------------------------------------------
-- `read_line`
------------------------------------------------------------

namespace ProgrammingTasks

namespace Shell

/- `CHUNK_SIZE`. -/
def chunkSize : Nat := 100

/- The largest `int`. -/
def intMax : Nat := 2 ^ 31 - 1

/-
  At most `n` characters up to a newline, and the rest of the
  stream.  No character of a stream is NUL.
-/
def readChunk : Nat → Text → Text × Text
| 0, stream => ([], stream)
| _ + 1, [] => ([], [])
| n + 1, c :: stream =>
    if c = '\n' then
      ([c], stream)
    else
      (c :: (readChunk n stream).1, (readChunk n stream).2)

/- `fgets`; there is no result at the end of the stream. -/
def fgets (size : Nat) (stream : Text) : Option (Text × Text) :=
  if stream = [] then none else some (readChunk (size - 1) stream)

/- Cut the end of a line off a chunk, and tell if it has one. -/
def trimChunk (chunk : Text) : Text × Bool :=
  let chunkLength := chunk.length
  if chunk[chunkLength - 1]? = some '\n' then
    if chunkLength > 1 ∧ chunk[chunkLength - 2]? = some '\r' then
      (chunk.take (chunkLength - 2), true)
    else
      (chunk.take (chunkLength - 1), true)
  else
    (chunk, false)

/-
  The loop of `read_line`: the line, which may be NULL, and
  the rest of the stream.  There is no result if the size for
  `realloc` is beyond `int`.
-/
def readLoop :
    Nat → Option Text → Nat → Text → Option (Option Text × Text)
| 0, _, _, _ => none
| fuel + 1, instr, instrLength, stream =>
    match fgets chunkSize stream with
    | none => some (instr, stream)
    | some (chunk, stream) =>
        let trimmed := trimChunk chunk
        if instrLength + chunkSize + 1 > intMax then
          none
        else
          let instr := some (instr.getD [] ++ trimmed.1)
          if trimmed.2 then
            some (instr, stream)
          else
            readLoop fuel instr (instrLength + chunk.length)
              stream

/- `read_line`. -/
def readLine (stream : Text) : Option (Option Text × Text) :=
  readLoop (stream.length + 1) none 0 stream

/- The results of successive calls up to the first NULL. -/
def readLinesFrom : Nat → Text → Option (List Text)
| 0, _ => none
| fuel + 1, stream =>
    match readLine stream with
    | none => none
    | some (none, _) => some []
    | some (some line, stream) =>
        (readLinesFrom fuel stream).map (fun lines => line :: lines)

def readLines (stream : Text) : Option (List Text) :=
  readLinesFrom (stream.length + 1) stream

------------------------------------------------------------
-- Lines
------------------------------------------------------------

/- The lines of a stream with their newlines. -/
def segments : Text → List Text
| [] => []
| c :: stream =>
    if c = '\n' then
      [c] :: segments stream
    else
      match segments stream with
      | [] => [[c]]
      | s :: rest => (c :: s) :: rest

/- A line without its newline and the return in front of it. -/
def withoutEnd (s : Text) : Text :=
  if ['\r', '\n'] <:+ s then s.dropLast.dropLast
  else if ['\n'] <:+ s then s.dropLast
  else s

def linesOf (stream : Text) : List Text :=
  (segments stream).map withoutEnd

/-
  A line, with its end, of which `read_line` returns the text:
  a return and a newline are not in two chunks, and the sizes
  stay within `int`.
-/
structure ReadsWhole (s : Text) : Prop where
  oneChunk :
    ['\r', '\n'] <:+ s → s.length % (chunkSize - 1) ≠ 1
  inRange :
    (s.length - 1) / (chunkSize - 1) * (chunkSize - 1) +
      chunkSize + 1 ≤ intMax

/- The first line of a stream, and what is behind it. -/
structure IsSegment (s rest : Text) : Prop where
  nonempty : s ≠ []
  body : '\n' ∉ s.dropLast
  ended : s.getLast? = some '\n' ∨ rest = []

theorem exists_segment :
    ∀ {stream : Text}, stream ≠ [] →
      ∃ s rest,
        stream = s ++ rest ∧ IsSegment s rest ∧
          segments stream = s :: segments rest
| [], hStream => absurd rfl hStream
| c :: stream, _ => by
    by_cases hNewline : c = '\n'
    · refine ⟨[c], stream, rfl, ⟨by simp, by simp, ?_⟩, ?_⟩
      · exact Or.inl (by simp [hNewline])
      · rw [segments, if_pos hNewline]
    · by_cases hLast : stream = []
      · subst hLast
        refine ⟨[c], [], rfl,
          ⟨by simp, by simp, Or.inr rfl⟩, ?_⟩
        simp [segments, hNewline]
      · rcases exists_segment hLast with
          ⟨s, rest, hSplit, hSegment, hSegments⟩
        refine ⟨c :: s, rest, by rw [hSplit]; rfl, ⟨?_, ?_, ?_⟩,
          ?_⟩
        · exact List.cons_ne_nil _ _
        · rw [List.dropLast_cons_of_ne_nil hSegment.nonempty,
            List.mem_cons, not_or]
          exact ⟨Ne.symm hNewline, hSegment.body⟩
        · rw [List.getLast?_cons_of_ne_nil hSegment.nonempty]
          exact hSegment.ended
        · rw [segments, if_neg hNewline, hSegments]

------------------------------------------------------------
-- Chunks of a Line
------------------------------------------------------------

/- A chunk does not go beyond the line. -/
theorem readChunk_segment :
    ∀ (n : Nat) {s rest : Text},
      IsSegment s rest →
        readChunk n (s ++ rest) = (s.take n, s.drop n ++ rest)
| 0, _, _, _ => rfl
| _ + 1, [], _, hSegment => absurd rfl hSegment.nonempty
| n + 1, [c], rest, hSegment => by
    by_cases hNewline : c = '\n'
    · simp [readChunk, hNewline]
    · have hRest : rest = [] := by
        refine hSegment.ended.resolve_left ?_
        simpa using hNewline
      cases n with
      | zero => simp [readChunk, hNewline, hRest]
      | succ n => simp [readChunk, hNewline, hRest]
| n + 1, c :: d :: s, rest, hSegment => by
    have hBody := hSegment.body
    rw [List.dropLast_cons_of_ne_nil (List.cons_ne_nil d s),
      List.mem_cons, not_or] at hBody
    have hTail : IsSegment (d :: s) rest :=
      ⟨List.cons_ne_nil _ _, hBody.2, by
        rw [← List.getLast?_cons_of_ne_nil
          (List.cons_ne_nil d s)]
        exact hSegment.ended⟩
    rw [List.cons_append, readChunk, if_neg (Ne.symm hBody.1),
      readChunk_segment n hTail, List.take_succ_cons,
      List.drop_succ_cons]

/- What is left of a line behind a chunk. -/
theorem IsSegment.drop
    {s rest : Text} {n : Nat}
    (hSegment : IsSegment s rest)
    (hLonger : n < s.length) :
    IsSegment (s.drop n) rest := by
  have hLeft : s.drop n ≠ [] := by
    rw [Ne, List.drop_eq_nil_iff]
    omega
  refine ⟨hLeft, ?_, ?_⟩
  · have hSplit :
        s.dropLast = s.take n ++ (s.drop n).dropLast := by
      conv_lhs => rw [← List.take_append_drop n s]
      exact List.dropLast_append_of_ne_nil hLeft
    intro hMem
    apply hSegment.body
    rw [hSplit]
    exact List.mem_append_right _ hMem
  · rw [List.getLast?_drop, if_neg (by omega)]
    exact hSegment.ended

/- A chunk that does not reach the end has no newline. -/
theorem IsSegment.take
    {s rest : Text} {n : Nat}
    (hSegment : IsSegment s rest)
    (hLonger : n < s.length) :
    ¬ ['\n'] <:+ s.take n := by
  intro hSuffix
  apply hSegment.body
  rw [List.dropLast_eq_take]
  have hMem : '\n' ∈ s.take n :=
    hSuffix.subset List.mem_cons_self
  exact (List.take_subset_take_left s (by omega)) hMem

theorem newline_suffix_iff (body : Text) (c : Char) :
    ['\n'] <:+ body ++ [c] ↔ c = '\n' := by
  rw [← List.reverse_prefix]
  simp [eq_comm]

theorem return_suffix_iff (body : Text) (d c : Char) :
    ['\r', '\n'] <:+ body ++ [d, c] ↔ d = '\r' ∧ c = '\n' := by
  rw [← List.reverse_prefix]
  simp [eq_comm, and_comm]

/- A text of no or one character, or its last two. -/
theorem last_two_cases (s : Text) :
    s = [] ∨ (∃ c, s = [c]) ∨ ∃ body d c, s = body ++ [d, c] := by
  rcases List.eq_nil_or_concat s with rfl | ⟨body, c, rfl⟩
  · exact Or.inl rfl
  · rcases List.eq_nil_or_concat body with rfl | ⟨body, d, rfl⟩
    · exact Or.inr (Or.inl ⟨c, rfl⟩)
    · exact Or.inr (Or.inr ⟨body, d, c, by simp⟩)

/- The end of a chunk is that of the text in it. -/
theorem trimChunk_eq (chunk : Text) :
    trimChunk chunk =
      (withoutEnd chunk, decide (['\n'] <:+ chunk)) := by
  rcases last_two_cases chunk with
    rfl | ⟨c, rfl⟩ | ⟨body, d, c, rfl⟩
  · decide
  · have hEnds : ['\n'] <:+ [c] ↔ c = '\n' :=
      newline_suffix_iff [] c
    have hShort : ¬ ['\r', '\n'] <:+ [c] := by
      intro hSuffix
      have hLength := hSuffix.length_le
      simp at hLength
    by_cases hNewline : c = '\n'
    · subst hNewline
      decide
    · simp [trimChunk, withoutEnd, hEnds, hShort, hNewline]
  · have hEnds :
        ['\n'] <:+ body ++ [d, c] ↔ c = '\n' := by
      have hLast := newline_suffix_iff (body ++ [d]) c
      rwa [List.append_assoc] at hLast
    have hLast :
        (body ++ [d, c])[(body ++ [d, c]).length - 1]? =
          some c := by
      simp
    have hBefore :
        (body ++ [d, c])[(body ++ [d, c]).length - 2]? =
          some d := by
      simp
    have hTake :
        (body ++ [d, c]).take ((body ++ [d, c]).length - 2) =
          body := by
      simp
    have hDrop :
        (body ++ [d, c]).take ((body ++ [d, c]).length - 1) =
          body ++ [d] := by
      rw [← List.dropLast_eq_take]
      simp
    have hLength : (body ++ [d, c]).length > 1 := by
      simp
    have hCut :
        withoutEnd (body ++ [d, c]) =
          if d = '\r' ∧ c = '\n' then body
          else if c = '\n' then body ++ [d]
          else body ++ [d, c] := by
      simp [withoutEnd, hEnds, return_suffix_iff]
    rw [trimChunk, hCut]
    simp only [hLast, hBefore, hTake, hDrop, hEnds, hLength,
      Option.some.injEq, true_and]
    by_cases hNewline : c = '\n'
    · by_cases hReturn : d = '\r'
      · simp [hNewline, hReturn]
      · simp [hNewline, hReturn]
    · simp [hNewline]

------------------------------------------------------------
-- One Line
------------------------------------------------------------

/- Where the last chunk of a line begins. -/
def lastChunk (s : Text) : Nat :=
  (s.length - 1) / (chunkSize - 1) * (chunkSize - 1)

/- The text that `read_line` returns for a line. -/
def readText (s : Text) : Text :=
  s.take (lastChunk s) ++ withoutEnd (s.drop (lastChunk s))

/- A line of one chunk. -/
theorem lastChunk_eq_zero
    {s : Text} (hShort : s.length ≤ chunkSize - 1) :
    lastChunk s = 0 := by
  rw [lastChunk, Nat.mul_eq_zero]
  unfold chunkSize at hShort ⊢
  omega

/- A line of more than one chunk. -/
theorem lastChunk_drop
    {s : Text} (hLong : chunkSize - 1 < s.length) :
    lastChunk s =
      chunkSize - 1 + lastChunk (s.drop (chunkSize - 1)) := by
  unfold lastChunk
  rw [List.length_drop]
  unfold chunkSize at hLong ⊢
  omega

theorem readText_drop
    {s : Text} (hLong : chunkSize - 1 < s.length) :
    readText s =
      s.take (chunkSize - 1) ++
        readText (s.drop (chunkSize - 1)) := by
  unfold readText
  rw [lastChunk_drop hLong, List.take_add, List.append_assoc,
    List.drop_drop]

section Loop

variable {s rest : Text}
variable (fuel : Nat) (instr : Option Text) (instrLength : Nat)

/- The chunk at the start of what is left of a line. -/
theorem fgets_segment (hSegment : IsSegment s rest) :
    fgets chunkSize (s ++ rest) =
      some (s.take (chunkSize - 1),
        s.drop (chunkSize - 1) ++ rest) := by
  have hStream : s ++ rest ≠ [] :=
    List.append_ne_nil_of_left_ne_nil hSegment.nonempty rest
  rw [fgets, if_neg hStream, readChunk_segment _ hSegment]

/- The size for `realloc` is not an `int`. -/
theorem readLoop_beyond
    (hSegment : IsSegment s rest)
    (hBeyond : instrLength + chunkSize + 1 > intMax) :
    readLoop (fuel + 1) instr instrLength (s ++ rest) = none := by
  rw [readLoop, fgets_segment hSegment]
  exact if_pos hBeyond

/- The last chunk of a line. -/
theorem readLoop_last
    (hSegment : IsSegment s rest)
    (hRange : instrLength + chunkSize + 1 ≤ intMax)
    (hShort : s.length ≤ chunkSize - 1)
    (hFuel : s.length ≤ fuel) :
    readLoop (fuel + 1) instr instrLength (s ++ rest) =
      some (some (instr.getD [] ++ withoutEnd s), rest) := by
  rw [readLoop, fgets_segment hSegment,
    List.take_of_length_le hShort,
    List.drop_of_length_le hShort, List.nil_append]
  simp only [trimChunk_eq]
  rw [if_neg (Nat.not_lt.mpr hRange)]
  by_cases hEnds : ['\n'] <:+ s
  · rw [if_pos (by simpa using hEnds)]
  · -- the next `fgets` finds the end of the stream
    rw [if_neg (by simpa using hEnds)]
    have hRest : rest = [] := by
      refine hSegment.ended.resolve_left ?_
      intro hLast
      rcases List.getLast?_eq_some_iff.mp hLast with
        ⟨body, rfl⟩
      exact hEnds (List.suffix_append _ _)
    have hPositive := List.length_pos_iff.mpr hSegment.nonempty
    obtain ⟨fuel', rfl⟩ : ∃ fuel', fuel = fuel' + 1 :=
      Nat.exists_eq_succ_of_ne_zero (by omega)
    rw [hRest]
    rfl

/- A chunk before the last one is kept as it is. -/
theorem readLoop_longer
    (hSegment : IsSegment s rest)
    (hRange : instrLength + chunkSize + 1 ≤ intMax)
    (hLong : chunkSize - 1 < s.length) :
    readLoop (fuel + 1) instr instrLength (s ++ rest) =
      readLoop fuel
        (some (instr.getD [] ++ s.take (chunkSize - 1)))
        (instrLength + (chunkSize - 1))
        (s.drop (chunkSize - 1) ++ rest) := by
  have hNoEnd := hSegment.take hLong
  have hTaken :
      (s.take (chunkSize - 1)).length = chunkSize - 1 :=
    List.length_take_of_le (Nat.le_of_lt hLong)
  have hWhole :
      withoutEnd (s.take (chunkSize - 1)) =
        s.take (chunkSize - 1) := by
    unfold withoutEnd
    rw [if_neg, if_neg hNoEnd]
    exact fun hReturn =>
      hNoEnd ((List.suffix_cons _ _).trans hReturn)
  rw [readLoop, fgets_segment hSegment]
  simp only [trimChunk_eq]
  rw [if_neg (Nat.not_lt.mpr hRange), hWhole,
    if_neg (by simpa using hNoEnd), hTaken]

end Loop

/-
  The loop, as it starts on what is left of a line, puts the
  text behind what it has read before.
-/
theorem readLoop_segment :
    ∀ (fuel : Nat) (instr : Option Text) (instrLength : Nat)
      {s rest : Text},
      IsSegment s rest → s.length < fuel →
        readLoop fuel instr instrLength (s ++ rest) =
          if instrLength + lastChunk s + chunkSize + 1 ≤
              intMax then
            some (some (instr.getD [] ++ readText s), rest)
          else
            none
| 0, _, _, _, _, _, hFuel => absurd hFuel (Nat.not_lt_zero _)
| fuel + 1, instr, instrLength, s, rest, hSegment, hFuel => by
    by_cases hRange : instrLength + chunkSize + 1 ≤ intMax
    · by_cases hShort : s.length ≤ chunkSize - 1
      · have hZero := lastChunk_eq_zero hShort
        have hFits :
            instrLength + lastChunk s + chunkSize + 1 ≤
              intMax := by
          rw [hZero]
          exact hRange
        rw [readLoop_last fuel instr instrLength hSegment hRange
          hShort (Nat.le_of_lt_succ hFuel), if_pos hFits,
          readText, hZero, List.take_zero, List.drop_zero,
          List.nil_append]
      · have hLong : chunkSize - 1 < s.length :=
          Nat.not_le.mp hShort
        have hLeft :
            (s.drop (chunkSize - 1)).length < fuel := by
          rw [List.length_drop]
          unfold chunkSize
          omega
        rw [readLoop_longer fuel instr instrLength hSegment
          hRange hLong,
          readLoop_segment fuel _ _ (hSegment.drop hLong) hLeft,
          lastChunk_drop hLong, readText_drop hLong,
          ← Nat.add_assoc instrLength, Option.getD_some,
          List.append_assoc]
    · have hBeyond :
          ¬ instrLength + lastChunk s + chunkSize + 1 ≤ intMax := by
        omega
      rw [readLoop_beyond fuel instr instrLength hSegment
        (Nat.not_le.mp hRange), if_neg hBeyond]

/- A call returns the next line, or nothing beyond `int`. -/
theorem readLine_segment
    {s rest : Text} (hSegment : IsSegment s rest) :
    readLine (s ++ rest) =
      if lastChunk s + chunkSize + 1 ≤ intMax then
        some (some (readText s), rest)
      else
        none := by
  rw [readLine, readLoop_segment _ _ _ hSegment
    (by rw [List.length_append]; omega)]
  simp

/- The end is cut off rightly if it is in the last chunk. -/
theorem withoutEnd_append
    (x : Text) {y : Text}
    (hLast : y ≠ [])
    (hWhole : ['\r', '\n'] <:+ x ++ y → y.length ≠ 1) :
    withoutEnd (x ++ y) = x ++ withoutEnd y := by
  rcases last_two_cases y with
    rfl | ⟨c, rfl⟩ | ⟨body, d, c, rfl⟩
  · exact absurd rfl hLast
  · have hNoReturn : ¬ ['\r', '\n'] <:+ x ++ [c] :=
      fun hReturn => hWhole hReturn rfl
    have hShort : ¬ ['\r', '\n'] <:+ [c] := by
      intro hReturn
      have hLength := hReturn.length_le
      simp at hLength
    have hEnds := newline_suffix_iff [] c
    rw [List.nil_append] at hEnds
    unfold withoutEnd
    simp only [hNoReturn, hShort, if_false, newline_suffix_iff,
      hEnds]
    split
    · simp
    · rfl
  · have hSplit :
        x ++ (body ++ [d, c]) = (x ++ body) ++ [d, c] :=
      (List.append_assoc _ _ _).symm
    have hEnds :
        ∀ z : Text, ['\n'] <:+ z ++ [d, c] ↔ c = '\n' := by
      intro z
      have hNewline := newline_suffix_iff (z ++ [d]) c
      rwa [List.append_assoc] at hNewline
    unfold withoutEnd
    simp only [hSplit, return_suffix_iff, hEnds]
    split_ifs
    · simp
    · simp
    · exact List.append_assoc _ _ _

/- The text returned for a line is its text, or it is not. -/
theorem readText_eq_iff
    {s : Text} (hLine : s ≠ []) :
    readText s = withoutEnd s ↔
      (['\r', '\n'] <:+ s → s.length % (chunkSize - 1) ≠ 1) := by
  have hPositive := List.length_pos_iff.mpr hLine
  have hBefore : lastChunk s < s.length := by
    unfold lastChunk chunkSize
    omega
  have hLast : s.drop (lastChunk s) ≠ [] := by
    rw [Ne, List.drop_eq_nil_iff]
    omega
  have hLength :
      (s.drop (lastChunk s)).length = 1 ↔
        s.length % (chunkSize - 1) = 1 := by
    rw [List.length_drop]
    unfold lastChunk chunkSize
    omega
  constructor
  · intro hSame hReturn hAlone
    -- the return is in the chunk before the newline
    have hOne := hLength.mpr hAlone
    rcases List.length_eq_one_iff.mp hOne with ⟨c, hChunk⟩
    have hNewline : c = '\n' := by
      have hSuffix : ['\n'] <:+ s :=
        (List.suffix_cons _ _).trans hReturn
      rw [← List.take_append_drop (lastChunk s) s, hChunk,
        newline_suffix_iff] at hSuffix
      exact hSuffix
    have hShorter :
        (withoutEnd s).length = s.length - 1 - 1 := by
      rw [withoutEnd, if_pos hReturn, List.length_dropLast,
        List.length_dropLast]
    have hKept : (readText s).length = s.length - 1 := by
      have hEmpty : withoutEnd ['\n'] = [] := by decide
      rw [readText, hChunk, hNewline, hEmpty, List.append_nil,
        List.length_take_of_le (Nat.le_of_lt hBefore)]
      rw [List.length_drop] at hOne
      omega
    have hTwo := hReturn.length_le
    rw [hSame, hShorter] at hKept
    simp only [List.length_cons, List.length_nil] at hTwo
    omega
  · intro hWhole
    have hSplit := List.take_append_drop (lastChunk s) s
    conv_rhs => rw [← hSplit]
    rw [readText]
    refine (withoutEnd_append _ hLast ?_).symm
    rw [hSplit]
    exact fun hReturn hOne => hWhole hReturn (hLength.mp hOne)

theorem readsWhole_iff (s : Text) :
    ReadsWhole s ↔
      (['\r', '\n'] <:+ s → s.length % (chunkSize - 1) ≠ 1) ∧
        lastChunk s + chunkSize + 1 ≤ intMax :=
  ⟨fun hReads => ⟨hReads.oneChunk, hReads.inRange⟩,
    fun hBoth => ⟨hBoth.1, hBoth.2⟩⟩

------------------------------------------------------------
-- The Lines of a Stream
------------------------------------------------------------

theorem readLinesFrom_eq_iff :
    ∀ (fuel : Nat) (stream : Text),
      stream.length < fuel →
        (readLinesFrom fuel stream = some (linesOf stream) ↔
          ∀ s ∈ segments stream, ReadsWhole s)
| 0, _, hFuel => absurd hFuel (Nat.not_lt_zero _)
| fuel + 1, stream, hFuel => by
    by_cases hStream : stream = []
    · subst hStream
      exact iff_of_true rfl nofun
    · rcases exists_segment hStream with
        ⟨s, rest, rfl, hSegment, hSegments⟩
      have hPositive :=
        List.length_pos_iff.mpr hSegment.nonempty
      have hRest :=
        readLinesFrom_eq_iff fuel rest
          (by rw [List.length_append] at hFuel; omega)
      rw [readLinesFrom, readLine_segment hSegment, linesOf,
        hSegments, List.map_cons, List.forall_mem_cons,
        readsWhole_iff s, ← hRest,
        ← readText_eq_iff hSegment.nonempty]
      by_cases hRange : lastChunk s + chunkSize + 1 ≤ intMax
      · simp only [hRange, if_true, and_true,
          Option.map_eq_some_iff, List.cons.injEq]
        constructor
        · rintro ⟨lines, hLines, hSame, rfl⟩
          exact ⟨hSame, hLines⟩
        · rintro ⟨hSame, hLines⟩
          exact ⟨_, hLines, hSame, rfl⟩
      · simp [hRange]

/-
  For every stream, the calls return its lines and then NULL
  exactly if each line is read whole.
-/
theorem readLines_eq_iff (stream : Text) :
    readLines stream = some (linesOf stream) ↔
      ∀ s ∈ segments stream, ReadsWhole s :=
  readLinesFrom_eq_iff _ stream (Nat.lt_succ_self _)

example :
    readLines "ls\r\n\ncd x".toList =
      some ["ls".toList, [], "cd x".toList] := by
  decide

/- A return as the last character of the first chunk. -/
theorem not_readLines_always :
    ¬ ∀ stream : Text,
        readLines stream = some (linesOf stream) := by
  intro hAlways
  have hWhole :=
    (readLinesFrom_eq_iff _
      (List.replicate 98 'a' ++ ['\r', '\n'])
      (Nat.lt_succ_self _)).mp (hAlways _)
  have hLine :
      List.replicate 98 'a' ++ ['\r', '\n'] ∈
        segments (List.replicate 98 'a' ++ ['\r', '\n']) := by
    decide
  exact (hWhole _ hLine).oneChunk (List.suffix_append _ _)
    (by decide)

end Shell

end ProgrammingTasks
