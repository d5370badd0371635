import ProgrammingTasks.Shell.ReadLine

/-
  The two builds of `get_word` (`utils-lin.c`, `utils-win.c`).

  The one for Linux has a string of its own for each part.
  The one for Windows puts all parts into one buffer, which a
  long text does not fit in and a long value leaves as it is.

  Main declarations:
    * `Linux.getWord`, `Windows.getWord`
    * `Linux.loop_eq_iff`, `Windows.loop_length`
    * `ExpandAlike`, `FitsBuffer`
    * `expandAlike_iff`
-/

------------------------------------------------------------
-- Linux
------------------------------------------------------------

namespace ProgrammingTasks

namespace Shell

namespace Linux

/-
  The loop over the parts.  There is no result if the size for
  `realloc` is beyond `int`.
-/
def loop (env : Environment) : List Part → Text → Option Text
| [], string => some string
| s :: parts, string =>
    let substring := s.text env
    if string.length + substring.length + 1 > intMax then
      none
    else
      loop env parts (string ++ substring)

/- `get_word` with the arithmetic of its lengths. -/
def getWord (env : Environment) (w : Word) : Option Text :=
  loop env (w.first :: w.nextParts) []

/- The parts are put together if the lengths are in range. -/
theorem loop_eq_iff
    (env : Environment) :
    ∀ (parts : List Part) (string : Text),
      string.length + 1 ≤ intMax →
        (loop env parts string =
            some (string ++ parts.flatMap (Part.text env)) ↔
          (string ++ parts.flatMap (Part.text env)).length + 1 ≤
            intMax)
| [], string, hString => by
    rw [loop, List.flatMap_nil, List.append_nil]
    exact iff_of_true rfl hString
| s :: parts, string, _ => by
    rw [loop, List.flatMap_cons, ← List.append_assoc]
    by_cases hRange :
        string.length + (s.text env).length + 1 > intMax
    · rw [if_pos hRange]
      refine iff_of_false nofun ?_
      rw [List.length_append, List.length_append]
      omega
    · rw [if_neg hRange]
      refine loop_eq_iff env parts (string ++ s.text env) ?_
      rw [List.length_append]
      omega

end Linux

------------------------------------------------------------
-- Windows
------------------------------------------------------------

/- `MAX_SIZE_ENVIRONMENT_VARIABLE`. -/
def maxSizeEnvironmentVariable : Nat := 512

/- The largest `DWORD`. -/
def dwordMax : Nat := 2 ^ 32 - 1

/-
  `GetEnvironmentVariable`: the number that it returns, and
  the string in the buffer.  A value that does not fit is not
  written; the number is then the size that it needs.
-/
def getEnvironmentVariable
    (env : Environment) (name : Text) (buffer : Option Text)
    (size : Nat) : Nat × Option Text :=
  match env name with
  | none => (0, buffer)
  | some value =>
      if value.length < size then
        (value.length, some value)
      else
        (value.length + 1, buffer)

namespace Windows

/-
  What `substring` holds after a part; nothing before the
  first write.  There is no result if `strcpy` writes past it.
-/
def fillSubstring
    (env : Environment) (s : Part) (substring : Option Text) :
    Option (Option Text) :=
  if s.expand then
    let (dwret, substring) :=
      getEnvironmentVariable env s.string substring
        maxSizeEnvironmentVariable
    if dwret = 0 then some (some []) else some substring
  else if s.string.length < maxSizeEnvironmentVariable then
    some (some s.string)
  else
    none

/- The loop; `strlen` reads the buffer, which must be written. -/
def loop (env : Environment) :
    List Part → Text → Option Text → Option Text
| [], string, _ => some string
| s :: parts, string, substring =>
    match fillSubstring env s substring with
    | none => none
    | some none => none
    | some (some substring) =>
        if string.length + substring.length + 1 > dwordMax then
          none
        else
          loop env parts (string ++ substring) (some substring)

/- `get_word` of the build for Windows. -/
def getWord (env : Environment) (w : Word) : Option Text :=
  loop env (w.first :: w.nextParts) [] none

end Windows

------------------------------------------------------------
-- The Law and Its Condition
------------------------------------------------------------

/- Both builds return the parts put together. -/
structure ExpandAlike (env : Environment) (w : Word) : Prop where
  windows : Windows.getWord env w = some (getWord env w)
  linux : Linux.getWord env w = some (getWord env w)

/- The text of the part and its end fit the buffer. -/
def FitsBuffer (env : Environment) (s : Part) : Prop :=
  (s.text env).length < maxSizeEnvironmentVariable

instance (env : Environment) (s : Part) :
    Decidable (FitsBuffer env s) :=
  inferInstanceAs (Decidable (_ < _))

namespace Windows

variable {env : Environment}

/- A part that fits is what the buffer holds. -/
theorem fillSubstring_of_fits
    {s : Part} (hFits : FitsBuffer env s)
    (substring : Option Text) :
    fillSubstring env s substring = some (some (s.text env)) := by
  unfold FitsBuffer Part.text at hFits
  unfold fillSubstring getEnvironmentVariable Part.text
  by_cases hExpand : s.expand = true
  · rw [if_pos hExpand] at hFits
    rw [if_pos hExpand, if_pos hExpand]
    cases hValue : env s.string with
    | none => rfl
    | some value =>
        rw [hValue, Option.getD_some] at hFits
        dsimp only
        rw [if_pos hFits, Option.getD_some]
        dsimp only
        split
        · rename_i hEmpty
          rw [List.length_eq_zero_iff.mp hEmpty]
        · rfl
  · rw [if_neg hExpand] at hFits
    rw [if_neg hExpand, if_neg hExpand, if_pos hFits]

/- A part that does not fit leaves the buffer, or writes past. -/
theorem fillSubstring_of_long
    {s : Part} (hLong : ¬ FitsBuffer env s)
    (substring : Option Text) :
    fillSubstring env s substring = none ∨
      fillSubstring env s substring = some substring := by
  unfold FitsBuffer Part.text at hLong
  unfold fillSubstring getEnvironmentVariable
  by_cases hExpand : s.expand = true
  · rw [if_pos hExpand] at hLong
    rw [if_pos hExpand]
    cases hValue : env s.string with
    | none =>
        rw [hValue] at hLong
        exact absurd (by decide) hLong
    | some value =>
        rw [hValue, Option.getD_some] at hLong
        dsimp only
        rw [if_neg hLong]
        exact Or.inr rfl
  · rw [if_neg hExpand] at hLong
    rw [if_neg hExpand, if_neg hLong]
    exact Or.inl rfl

/- What the buffer holds fits it. -/
def Holds (substring : Option Text) : Prop :=
  ∀ text ∈ substring, text.length < maxSizeEnvironmentVariable

theorem holds_none : Holds none := by
  intro text hText
  cases hText

/- Parts that fit are put together. -/
theorem loop_of_fits :
    ∀ (parts : List Part) (string : Text)
      (substring : Option Text),
      (∀ s ∈ parts, FitsBuffer env s) →
        (string ++ parts.flatMap (Part.text env)).length + 1 ≤
            dwordMax →
          loop env parts string substring =
            some (string ++ parts.flatMap (Part.text env))
| [], string, _, _, _ => by
    rw [loop, List.flatMap_nil, List.append_nil]
| s :: parts, string, substring, hFits, hRange => by
    rw [List.flatMap_cons, ← List.append_assoc] at hRange ⊢
    have hHere :
        ¬ string.length + (s.text env).length + 1 >
            dwordMax := by
      rw [List.length_append, List.length_append] at hRange
      omega
    rw [loop, fillSubstring_of_fits (hFits s List.mem_cons_self)]
    dsimp only
    rw [if_neg hHere]
    exact loop_of_fits parts _ _
      (fun s' hMem => hFits s' (List.mem_cons_of_mem _ hMem))
      hRange

/-
  A result is shorter than the parts put together by at least
  the number of the parts that do not fit.
-/
theorem loop_length :
    ∀ (parts : List Part) (string : Text)
      (substring : Option Text) {result : Text},
      Holds substring →
        loop env parts string substring = some result →
          result.length +
              parts.countP (fun s => ¬ FitsBuffer env s) ≤
            (string ++ parts.flatMap (Part.text env)).length
| [], string, _, result, _, hResult => by
    cases hResult
    simp
| s :: parts, string, substring, result, hHolds, hResult => by
    rw [loop] at hResult
    rw [List.flatMap_cons, ← List.append_assoc]
    by_cases hFits : FitsBuffer env s
    · rw [fillSubstring_of_fits hFits] at hResult
      dsimp only at hResult
      split at hResult
      · cases hResult
      · have hHeld : Holds (some (s.text env)) := by
          rintro text hText
          cases hText
          exact hFits
        have hRest := loop_length parts _ _ hHeld hResult
        rw [List.countP_cons_of_neg (by simpa using hFits)]
        exact hRest
    · rw [List.countP_cons_of_pos (by simpa using hFits)]
      have hLong : maxSizeEnvironmentVariable ≤
          (s.text env).length := Nat.not_lt.mp hFits
      rcases fillSubstring_of_long hFits substring with
        hPast | hKept
      · rw [hPast] at hResult
        cases hResult
      · rw [hKept] at hResult
        cases substring with
        | none => cases hResult
        | some before =>
            have hBefore := hHolds before rfl
            dsimp only at hResult
            split at hResult
            · cases hResult
            · have hRest := loop_length parts _ _ hHolds hResult
              simp only [List.length_append] at hRest ⊢
              omega

/- The parts are put together only if all of them fit. -/
theorem fits_of_loop
    {parts : List Part} {string : Text}
    {substring : Option Text}
    (hHolds : Holds substring)
    (hResult :
      loop env parts string substring =
        some (string ++ parts.flatMap (Part.text env))) :
    ∀ s ∈ parts, FitsBuffer env s := by
  have hLength := loop_length parts string substring hHolds
    hResult
  have hNone :
      parts.countP (fun s => ¬ FitsBuffer env s) = 0 := by
    omega
  intro s hMem
  have hFits := List.countP_eq_zero.mp hNone s hMem
  simpa using hFits

end Windows

/-
  For every environment and every word, the builds expand the
  word alike exactly if each part fits the buffer and the word
  itself is within `int`.
-/
theorem expandAlike_iff
    (env : Environment) (w : Word) :
    ExpandAlike env w ↔
      (∀ s ∈ w.first :: w.nextParts, FitsBuffer env s) ∧
        (getWord env w).length + 1 ≤ intMax := by
  have hLinux :
      Linux.getWord env w = some (getWord env w) ↔
        (getWord env w).length + 1 ≤ intMax :=
    Linux.loop_eq_iff env (w.first :: w.nextParts) []
      (by decide)
  constructor
  · intro hAlike
    refine ⟨?_, hLinux.mp hAlike.linux⟩
    exact Windows.fits_of_loop Windows.holds_none hAlike.windows
  · rintro ⟨hFits, hRange⟩
    refine ⟨?_, hLinux.mpr hRange⟩
    refine Windows.loop_of_fits _ [] none hFits ?_
    exact hRange.trans (by decide)

/- A text of 512 characters writes past the buffer. -/
theorem not_expandAlike_always :
    ¬ ∀ (env : Environment) (w : Word), ExpandAlike env w := by
  intro hAlways
  have hAlike :=
    hAlways (fun _ => none) (plainWord (List.replicate 512 'a'))
  have hFits :=
    Windows.fits_of_loop Windows.holds_none hAlike.windows
      ⟨List.replicate 512 'a', false⟩ List.mem_cons_self
  have hLength : (List.replicate 512 'a').length < 512 := hFits
  rw [List.length_replicate] at hLength
  exact absurd hLength (Nat.lt_irrefl 512)

end Shell

end ProgrammingTasks
