import ProgrammingTasks.Foundations.DigitalLine

/-
  The lines on the display (`gfx.c`).

  All values have 16 bits, as `int` has on this processor.  An
  operation that overflows has no result here, and neither has
  a loop that does not end.  The loop follows the error term of
  a line of pixels.

  Main declarations:
    * `swap`, `iteration`, `drawLoop`, `gfxDrawLine`
    * `iteration_at`, `drawLoop_eq`
    * `gfxDrawLine_eq`
    * `Draws`, `draws_exactLine`
-/

------------------------------------------------------------
-- `GFX_draw_line`
------------------------------------------------------------

namespace ProgrammingTasks

namespace Gfx

open DigitalLine

/- The value of an expression, if it does not overflow. -/
def toInt16 (v : Int) : Option Int16 :=
  if -2 ^ 15 ≤ v ∧ v < 2 ^ 15 then some (Int16.ofInt v)
  else none

def add (a b : Int16) : Option Int16 :=
  toInt16 (a.toInt + b.toInt)

def sub (a b : Int16) : Option Int16 :=
  toInt16 (a.toInt - b.toInt)

/- `abs(a - b)`. -/
def distance (a b : Int16) : Option Int16 := do
  let difference ← sub a b
  if difference < 0 then sub 0 difference else some difference

/- `swap`: the values of `a` and `b` after the macro. -/
def swap (a b : Int16) : Int16 × Int16 :=
  let a := a ^^^ b
  let b := a ^^^ b
  let a := a ^^^ b
  (a, b)

/- A call of `LCD_draw_pixel`. -/
structure DrawPixel where
  x : Int16
  y : Int16
  color : UInt16
deriving DecidableEq, Repr

/- The variables that the loop reads only. -/
structure Line where
  x2 : Int16
  dx : Int16
  dy : Int16
  ystep : Int16
  gradient : Bool
  color : UInt16
deriving DecidableEq, Repr

/- The variables that it writes. -/
structure Cursor where
  x1 : Int16
  y1 : Int16
  err : Int16
deriving DecidableEq, Repr

def Line.drawPixel (l : Line) (s : Cursor) : DrawPixel :=
  if l.gradient then
    ⟨s.y1, s.x1, l.color⟩
  else
    ⟨s.x1, s.y1, l.color⟩

/- The statement that follows `err -= dy`. -/
def correct (l : Line) (s : Cursor) : Option Cursor :=
  if s.err < 0 then do
    let y1 ← add s.y1 l.ystep
    let err ← add s.err l.dx
    some { s with y1 := y1, err := err }
  else
    some s

/- One iteration behind its call, with the `x1++` of the loop. -/
def iteration (l : Line) (s : Cursor) : Option Cursor := do
  let err ← sub s.err l.dy
  let s ← correct l { s with err := err }
  let x1 ← add s.x1 1
  some { s with x1 := x1 }

/- The loop, as the calls that it makes. -/
def drawLoop (l : Line) : Nat → Cursor → Option (List DrawPixel)
| 0, _ => none
| fuel + 1, s =>
    if s.x1 ≤ l.x2 then do
      let next ← iteration l s
      let calls ← drawLoop l fuel next
      some (l.drawPixel s :: calls)
    else
      some []

/- What follows the exchanges of the ends. -/
def drawSorted
    (fuel : Nat) (gradient : Bool) (x1 y1 x2 y2 : Int16)
    (color : UInt16) : Option (List DrawPixel) := do
  let dx ← sub x2 x1
  let dy ← distance y2 y1
  let err := dx / 2
  let ystep := if y1 < y2 then 1 else -1
  drawLoop ⟨x2, dx, dy, ystep, gradient, color⟩ fuel
    ⟨x1, y1, err⟩

/- What follows the exchange of the axes. -/
def drawFlat
    (fuel : Nat) (gradient : Bool) (x1 y1 x2 y2 : Int16)
    (color : UInt16) : Option (List DrawPixel) :=
  if x1 > x2 then
    let (x1, x2) := swap x1 x2
    let (y1, y2) := swap y1 y2
    drawSorted fuel gradient x1 y1 x2 y2 color
  else
    drawSorted fuel gradient x1 y1 x2 y2 color

/- `GFX_draw_line`. -/
def gfxDrawLine
    (fuel : Nat) (x1 y1 x2 y2 : Int16) (color : UInt16) :
    Option (List DrawPixel) := do
  let height ← distance y2 y1
  let width ← distance x2 x1
  if height > width then
    let (x1, y1) := swap x1 y1
    let (x2, y2) := swap x2 y2
    drawFlat fuel true x1 y1 x2 y2 color
  else
    drawFlat fuel false x1 y1 x2 y2 color

example :
    gfxDrawLine 6 1 4 0 0 7 =
      some [⟨0, 0, 7⟩, ⟨0, 1, 7⟩, ⟨0, 2, 7⟩, ⟨1, 3, 7⟩,
        ⟨1, 4, 7⟩] := by
  decide

------------------------------------------------------------
-- Values of 16 Bits
------------------------------------------------------------

theorem swap_eq (a b : Int16) : swap a b = (b, a) := by
  have hFirst : a ^^^ b ^^^ b = a := by
    rw [Int16.xor_assoc, Int16.xor_self, Int16.xor_zero]
  have hSecond : a ^^^ b ^^^ a = b := by
    rw [Int16.xor_comm a, Int16.xor_assoc, Int16.xor_self,
      Int16.xor_zero]
  unfold swap
  dsimp only
  rw [hFirst, hSecond]

/- Below this no operation overflows. -/
def Small (v : Int) : Prop :=
  -2 ^ 14 ≤ v ∧ v ≤ 2 ^ 14

theorem toInt16_spec
    {v : Int}
    (hSmall : Small v) :
    ∃ c, toInt16 v = some c ∧ c.toInt = v := by
  rcases hSmall with ⟨hLow, hHigh⟩
  refine ⟨Int16.ofInt v, if_pos ⟨by omega, by omega⟩, ?_⟩
  exact Int16.toInt_ofInt_of_le (by omega) (by omega)

theorem add_spec
    {a b : Int16}
    (hSmall : Small (a.toInt + b.toInt)) :
    ∃ c, add a b = some c ∧ c.toInt = a.toInt + b.toInt :=
  toInt16_spec hSmall

theorem sub_spec
    {a b : Int16}
    (hSmall : Small (a.toInt - b.toInt)) :
    ∃ c, sub a b = some c ∧ c.toInt = a.toInt - b.toInt :=
  toInt16_spec hSmall

theorem distance_spec
    {a b : Int16}
    (hSmall : Small (a.toInt - b.toInt)) :
    ∃ c, distance a b = some c ∧
      c.toInt = |a.toInt - b.toInt| := by
  rcases sub_spec hSmall with ⟨c, hSub, hValue⟩
  have hSign : c < 0 ↔ a.toInt - b.toInt < 0 := by
    rw [Int16.lt_iff_toInt_lt, hValue]
    rfl
  by_cases hNegative : a.toInt - b.toInt < 0
  · have hOpposite : Small ((0 : Int16).toInt - c.toInt) := by
      rw [hValue, Int16.toInt_zero]
      unfold Small at hSmall ⊢
      omega
    rcases sub_spec hOpposite with ⟨d, hNegate, hResult⟩
    refine ⟨d, ?_, ?_⟩
    · simp only [distance, hSub, Option.bind_eq_bind,
        Option.bind_some, hSign, if_pos hNegative, hNegate]
    · rw [hResult, hValue, Int16.toInt_zero,
        abs_of_neg hNegative, zero_sub]
  · refine ⟨c, ?_, ?_⟩
    · simp only [distance, hSub, Option.bind_eq_bind,
        Option.bind_some, hSign, if_neg hNegative]
    · rw [hValue, abs_of_nonneg (not_lt.mp hNegative)]

theorem toInt_half
    {a : Int16}
    (hPositive : 0 ≤ a.toInt) :
    (a / 2).toInt = a.toInt / 2 := by
  rw [Int16.toInt_div_of_ne_right a 2 (by decide)]
  exact Int.tdiv_eq_ediv_of_nonneg hPositive

------------------------------------------------------------
-- The Loop
------------------------------------------------------------

/- The values that the ends may have. -/
def InRange (v : Int) : Prop :=
  0 ≤ v ∧ v < 2 ^ 14

structure OnScreen (pixel : Pixel) : Prop where
  x : InRange pixel.1
  y : InRange pixel.2

/- A segment as the loop draws it. -/
structure Flat (p q : Pixel) : Prop where
  start : OnScreen p
  finish : OnScreen q
  flat : |q.2 - p.2| ≤ q.1 - p.1

/- The line is the one of the segment. -/
structure Line.Of (p q : Pixel) (l : Line) : Prop where
  x2 : l.x2.toInt = q.1
  dx : l.dx.toInt = q.1 - p.1
  dy : l.dy.toInt = |q.2 - p.2|
  ystep : l.ystep.toInt = toward p q

/- The cursor is at a pixel, with the error term there. -/
structure Cursor.At (p q : Pixel) (k : ℕ) (s : Cursor) :
    Prop where
  x1 : s.x1.toInt = (flatPixel p q k).1
  y1 : s.y1.toInt = (flatPixel p q k).2
  err : s.err.toInt = errorTerm (q.1 - p.1) |q.2 - p.2| k

theorem small_sub
    {v w : Int}
    (hV : InRange v)
    (hW : InRange w) :
    Small (v - w) := by
  rcases hV with ⟨hV, hV'⟩
  rcases hW with ⟨hW, hW'⟩
  constructor
  · omega
  · omega

/- The rectangle of the ends has no other values. -/
theorem onScreen_of_inBox
    {p q pixel : Pixel}
    (hStart : OnScreen p)
    (hFinish : OnScreen q)
    (hBox : InBox p q pixel) :
    OnScreen pixel := by
  rcases hStart with ⟨⟨hX1, hX1'⟩, hY1, hY1'⟩
  rcases hFinish with ⟨⟨hX2, hX2'⟩, hY2, hY2'⟩
  exact ⟨⟨(le_min hX1 hX2).trans hBox.left,
      hBox.right.trans_lt (max_lt hX1' hX2')⟩,
    (le_min hY1 hY2).trans hBox.bottom,
    hBox.top.trans_lt (max_lt hY1' hY2')⟩

section Loop

variable {p q : Pixel} {l : Line}

theorem errorTerm_small
    (hFlat : Flat p q)
    (k : ℕ) :
    0 ≤ errorTerm (q.1 - p.1) |q.2 - p.2| k ∧
      errorTerm (q.1 - p.1) |q.2 - p.2| k ≤ q.1 - p.1 := by
  rcases (abs_nonneg _ |>.trans hFlat.flat).eq_or_lt with
    hPoint | hLong
  · have hZero : |q.2 - p.2| = 0 :=
      le_antisymm (hFlat.flat.trans hPoint.ge) (abs_nonneg _)
    rw [← hPoint, hZero]
    simp [errorTerm]
  · have hRange := errorTerm_range hLong |q.2 - p.2| k
    omega

theorem onScreen_flatPixel
    (hFlat : Flat p q)
    {k : ℕ}
    (hLess : (k : ℤ) ≤ q.1 - p.1) :
    OnScreen (flatPixel p q k) :=
  onScreen_of_inBox hFlat.start hFlat.finish
    (inBox_flatPixel hFlat.flat hLess)

/- The correction brings the cursor to the next pixel's row. -/
theorem correct_spec
    (hFlat : Flat p q)
    (hLine : l.Of p q)
    {k : ℕ}
    (hLess : (k : ℤ) ≤ q.1 - p.1)
    {s : Cursor}
    (hRow : s.y1.toInt = (flatPixel p q k).2)
    (hErr :
      s.err.toInt =
        errorTerm (q.1 - p.1) |q.2 - p.2| k - |q.2 - p.2|) :
    ∃ y1 err, correct l s = some { s with y1 := y1, err := err } ∧
      y1.toInt = (flatPixel p q (k + 1)).2 ∧
      err.toInt =
        errorTerm (q.1 - p.1) |q.2 - p.2| (k + 1) := by
  have hSign :
      s.err < 0 ↔
        errorTerm (q.1 - p.1) |q.2 - p.2| k - |q.2 - p.2| < 0 := by
    rw [Int16.lt_iff_toInt_lt, hErr]
    rfl
  have hNextRow := second_succ hFlat.flat k
  have hTerm :=
    errorTerm_succ (abs_nonneg (q.2 - p.2)) hFlat.flat k
  by_cases hSpent :
      errorTerm (q.1 - p.1) |q.2 - p.2| k - |q.2 - p.2| < 0
  · -- one step along the shorter axis
    rw [if_pos hSpent] at hNextRow hTerm
    have hRowSmall : Small (s.y1.toInt + l.ystep.toInt) := by
      have hRange := (onScreen_flatPixel hFlat hLess).y
      have hToward := abs_le.mp (abs_toward p q).le
      rw [hRow, hLine.ystep]
      unfold InRange at hRange
      unfold Small
      omega
    have hErrSmall : Small (s.err.toInt + l.dx.toInt) := by
      have hRange := errorTerm_small hFlat (k + 1)
      have hRight := hFlat.finish.x.2
      have hLeft := hFlat.start.x.1
      rw [hErr, hLine.dx, ← hTerm]
      unfold Small
      omega
    rcases add_spec hRowSmall with ⟨y1, hAddRow, hY1⟩
    rcases add_spec hErrSmall with ⟨err, hAddErr, hNext⟩
    refine ⟨y1, err, ?_, ?_, ?_⟩
    · simp only [correct, hSign, if_pos hSpent, hAddRow,
        hAddErr, Option.bind_eq_bind, Option.bind_some]
    · rw [hY1, hRow, hLine.ystep, hNextRow]
    · rw [hNext, hErr, hLine.dx, hTerm]
  · -- the same row
    rw [if_neg hSpent] at hNextRow hTerm
    refine ⟨s.y1, s.err, ?_, ?_, ?_⟩
    · simp only [correct, hSign, if_neg hSpent]
    · rw [hRow, hNextRow]
    · rw [hErr, hTerm]

/- One iteration goes from a pixel to the next one. -/
theorem iteration_at
    (hFlat : Flat p q)
    (hLine : l.Of p q)
    {k : ℕ}
    (hLess : (k : ℤ) ≤ q.1 - p.1)
    {s : Cursor}
    (hAt : s.At p q k) :
    ∃ next, iteration l s = some next ∧ next.At p q (k + 1) := by
  have hErrSmall : Small (s.err.toInt - l.dy.toInt) := by
    have hRange := errorTerm_small hFlat k
    have hShorter := hFlat.flat
    have hPositive := abs_nonneg (q.2 - p.2)
    have hRight := hFlat.finish.x.2
    have hLeft := hFlat.start.x.1
    rw [hAt.err, hLine.dy]
    unfold Small
    omega
  rcases sub_spec hErrSmall with ⟨err, hSub, hErr⟩
  rw [hAt.err, hLine.dy] at hErr
  rcases correct_spec hFlat hLine hLess
      (s := { s with err := err }) hAt.y1 hErr with
    ⟨y1, err', hCorrect, hRow, hTerm⟩
  have hColumnSmall :
      Small (s.x1.toInt + (1 : Int16).toInt) := by
    have hRange := (onScreen_flatPixel hFlat hLess).x
    rw [hAt.x1, Int16.toInt_one]
    unfold InRange at hRange
    unfold Small
    omega
  rcases add_spec hColumnSmall with ⟨x1, hAdd, hX1⟩
  refine ⟨⟨x1, y1, err'⟩, ?_, ?_, hRow, hTerm⟩
  · simp only [iteration, hSub, hCorrect, hAdd,
      Option.bind_eq_bind, Option.bind_some]
  · rw [hX1, hAt.x1, Int16.toInt_one, first_succ]

/- The pixel with its axes as they were given. -/
def restore (gradient : Bool) (pixel : Pixel) : Pixel :=
  if gradient then pixel.swap else pixel

/- The call for a pixel. -/
def callAt (color : UInt16) (pixel : Pixel) : DrawPixel :=
  ⟨Int16.ofInt pixel.1, Int16.ofInt pixel.2, color⟩

theorem drawPixel_eq
    {k : ℕ} {s : Cursor}
    (hAt : s.At p q k) :
    l.drawPixel s =
      callAt l.color (restore l.gradient (flatPixel p q k)) := by
  have hX1 : Int16.ofInt (flatPixel p q k).1 = s.x1 := by
    rw [← hAt.x1, Int16.ofInt_toInt]
  have hY1 : Int16.ofInt (flatPixel p q k).2 = s.y1 := by
    rw [← hAt.y1, Int16.ofInt_toInt]
  unfold Line.drawPixel restore
  split
  · simp only [callAt, Prod.fst_swap, Prod.snd_swap, hX1, hY1]
  · simp only [callAt, hX1, hY1]

/- The condition of the loop. -/
theorem condition_iff
    (hLine : l.Of p q)
    {k : ℕ} {s : Cursor}
    (hAt : s.At p q k) :
    s.x1 ≤ l.x2 ↔ (k : ℤ) ≤ q.1 - p.1 := by
  rw [Int16.le_iff_toInt_le, hAt.x1, hLine.x2]
  unfold flatPixel
  dsimp only
  omega

/- The loop draws the pixels that are left. -/
theorem drawLoop_eq
    (hFlat : Flat p q)
    (hLine : l.Of p q)
    (left : ℕ)
    {k fuel : ℕ} {s : Cursor}
    (hAt : s.At p q k)
    (hLeft : (k : ℤ) + left = q.1 - p.1 + 1)
    (hFuel : left < fuel) :
    drawLoop l fuel s =
      some ((List.range' k left).map fun j =>
        callAt l.color
          (restore l.gradient (flatPixel p q j))) := by
  induction left generalizing k fuel s with
  | zero =>
      rcases fuel with _ | fuel
      · omega
      · have hPast : ¬ s.x1 ≤ l.x2 := by
          rw [condition_iff hLine hAt]
          omega
        rw [drawLoop, if_neg hPast]
        rfl
  | succ left ih =>
      rcases fuel with _ | fuel
      · omega
      · have hLess : (k : ℤ) ≤ q.1 - p.1 := by
          omega
        rcases iteration_at hFlat hLine hLess hAt with
          ⟨next, hIteration, hNext⟩
        have hRest :=
          ih hNext (by push_cast at hLeft ⊢; omega)
            (Nat.lt_of_succ_lt_succ hFuel)
        have hInside := (condition_iff hLine hAt).mpr hLess
        rw [drawLoop, if_pos hInside, hIteration,
          List.range'_succ, List.map_cons, ← drawPixel_eq hAt]
        simp only [Option.bind_eq_bind, Option.bind_some, hRest]

end Loop

------------------------------------------------------------
-- The Whole Line
------------------------------------------------------------

/- The place of the values of two variables. -/
def place (x y : Int16) : Pixel :=
  (x.toInt, y.toInt)

/- More than the iterations of any line. -/
def enough : ℕ :=
  2 ^ 14 + 1

section WholeLine

variable {fuel : ℕ} {x1 y1 x2 y2 : Int16}

theorem line_of
    {dx dy : Int16}
    (hDx : dx.toInt = x2.toInt - x1.toInt)
    (hDy : dy.toInt = |y2.toInt - y1.toInt|)
    (gradient : Bool) (color : UInt16) :
    Line.Of (place x1 y1) (place x2 y2)
      ⟨x2, dx, dy, if y1 < y2 then 1 else -1, gradient, color⟩ := by
  refine ⟨rfl, hDx, hDy, ?_⟩
  have hUp : y1 < y2 ↔ (place x1 y1).2 < (place x2 y2).2 :=
    Int16.lt_iff_toInt_lt
  unfold toward
  by_cases hLess : y1 < y2
  · rw [if_pos hLess, if_pos (hUp.mp hLess)]
    rfl
  · rw [if_neg hLess, if_neg (mt hUp.mpr hLess)]
    rfl

theorem start_at
    {dx : Int16}
    (hDx : dx.toInt = x2.toInt - x1.toInt)
    (hPositive : 0 ≤ dx.toInt) :
    Cursor.At (place x1 y1) (place x2 y2) 0 ⟨x1, y1, dx / 2⟩ := by
  refine ⟨?_, ?_, ?_⟩
  · rw [flatPixel_zero]
    rfl
  · rw [flatPixel_zero]
    rfl
  · rw [errorTerm_zero, toInt_half hPositive, hDx]
    rfl

theorem drawSorted_eq
    (hFlat : Flat (place x1 y1) (place x2 y2))
    (hFuel : enough ≤ fuel)
    (gradient : Bool) (color : UInt16) :
    drawSorted fuel gradient x1 y1 x2 y2 color =
      some ((flatLine (place x1 y1) (place x2 y2)).map fun pixel =>
        callAt color (restore gradient pixel)) := by
  have hLong : 0 ≤ x2.toInt - x1.toInt :=
    (abs_nonneg _).trans hFlat.flat
  have hWidth : x2.toInt - x1.toInt < 2 ^ 14 := by
    have hRight : x2.toInt < 2 ^ 14 := hFlat.finish.x.2
    have hLeft : 0 ≤ x1.toInt := hFlat.start.x.1
    omega
  have hWidthSmall : Small (x2.toInt - x1.toInt) :=
    small_sub hFlat.finish.x hFlat.start.x
  have hHeightSmall : Small (y2.toInt - y1.toInt) :=
    small_sub hFlat.finish.y hFlat.start.y
  rcases sub_spec hWidthSmall with ⟨dx, hSub, hDx⟩
  rcases distance_spec hHeightSmall with ⟨dy, hDistance, hDy⟩
  have hSteps : (x2.toInt - x1.toInt).toNat + 1 < fuel := by
    unfold enough at hFuel
    omega
  have hLoop :=
    drawLoop_eq hFlat (line_of hDx hDy gradient color) _
      (start_at hDx (hLong.trans hDx.ge))
      (by simp only [place]; omega) hSteps
  simp only [drawSorted, hSub, hDistance, Option.bind_eq_bind,
    Option.bind_some, hLoop, flatLine, List.map_map,
    List.range_eq_range']
  rfl

theorem drawFlat_eq
    (hStart : OnScreen (place x1 y1))
    (hFinish : OnScreen (place x2 y2))
    (hShorter :
      |(place x2 y2).2 - (place x1 y1).2| ≤
        |(place x2 y2).1 - (place x1 y1).1|)
    (hFuel : enough ≤ fuel)
    (gradient : Bool) (color : UInt16) :
    drawFlat fuel gradient x1 y1 x2 y2 color =
      some ((sortedLine (place x1 y1) (place x2 y2)).map
        fun pixel => callAt color (restore gradient pixel)) := by
  have hOrder : x1 > x2 ↔ (place x2 y2).1 < (place x1 y1).1 :=
    Int16.lt_iff_toInt_lt
  by_cases hRight : x1 > x2
  · have hFlat :
        Flat (place x2 y2) (place x1 y1) :=
      ⟨hFinish, hStart,
        flat_of_le (flat_comm hShorter) (hOrder.mp hRight).le⟩
    rw [drawFlat, if_pos hRight, sortedLine,
      if_pos (hOrder.mp hRight)]
    simp only [swap_eq]
    exact drawSorted_eq hFlat hFuel gradient color
  · have hFlat :
        Flat (place x1 y1) (place x2 y2) :=
      ⟨hStart, hFinish,
        flat_of_le hShorter (not_lt.mp (mt hOrder.mpr hRight))⟩
    rw [drawFlat, if_neg hRight, sortedLine,
      if_neg (mt hOrder.mpr hRight)]
    exact drawSorted_eq hFlat hFuel gradient color

/- The calls of the function are the pixels of the line. -/
theorem gfxDrawLine_eq
    (hStart : OnScreen (place x1 y1))
    (hFinish : OnScreen (place x2 y2))
    (hFuel : enough ≤ fuel)
    (color : UInt16) :
    gfxDrawLine fuel x1 y1 x2 y2 color =
      some ((linePixels (place x1 y1) (place x2 y2)).map
        (callAt color)) := by
  have hWidthSmall : Small (x2.toInt - x1.toInt) :=
    small_sub hFinish.x hStart.x
  have hHeightSmall : Small (y2.toInt - y1.toInt) :=
    small_sub hFinish.y hStart.y
  rcases distance_spec hHeightSmall with
    ⟨height, hDistance, hHeight⟩
  rcases distance_spec hWidthSmall with
    ⟨width, hDistance', hWidth⟩
  have hGradient :
      height > width ↔ Steep (place x1 y1) (place x2 y2) := by
    rw [gt_iff_lt, Int16.lt_iff_toInt_lt, hHeight, hWidth]
    rfl
  simp only [gfxDrawLine, hDistance, hDistance', swap_eq,
    Option.bind_eq_bind, Option.bind_some]
  by_cases hSteep : Steep (place x1 y1) (place x2 y2)
  · rw [if_pos (hGradient.mpr hSteep), linePixels,
      if_pos hSteep, List.map_map]
    exact drawFlat_eq ⟨hStart.y, hStart.x⟩
      ⟨hFinish.y, hFinish.x⟩ (le_of_lt hSteep) hFuel _ _
  · rw [if_neg (mt hGradient.mp hSteep), linePixels,
      if_neg hSteep]
    exact drawFlat_eq hStart hFinish (not_lt.mp hSteep) hFuel _ _

end WholeLine

/- The pixel of a call. -/
def DrawPixel.pixel (call : DrawPixel) : Pixel :=
  place call.x call.y

theorem pixel_callAt
    (color : UInt16)
    {pixel : Pixel}
    (hScreen : OnScreen pixel) :
    (callAt color pixel).pixel = pixel := by
  rcases hScreen with ⟨⟨hLeft, hRight⟩, hBottom, hTop⟩
  ext
  · exact Int16.toInt_ofInt_of_le (by omega) (by omega)
  · exact Int16.toInt_ofInt_of_le (by omega) (by omega)

/- No pixel of a line is lost in 16 bits. -/
theorem map_pixel_callAt
    {p q : Pixel}
    (hStart : OnScreen p)
    (hFinish : OnScreen q)
    (color : UInt16) :
    ((linePixels p q).map (callAt color)).map DrawPixel.pixel =
      linePixels p q := by
  rw [List.map_map]
  refine (List.map_congr_left ?_).trans (List.map_id _)
  intro pixel hMem
  exact pixel_callAt color
    (onScreen_of_inBox hStart hFinish (inBox_linePixels hMem))

/-
  The function ends without an overflow, and these are its
  calls.
-/
def Draws
    (x1 y1 x2 y2 : Int16) (color : UInt16)
    (calls : List DrawPixel) : Prop :=
  ∃ fuel, ∀ more, fuel ≤ more →
    gfxDrawLine more x1 y1 x2 y2 color = some calls

/-
  Any line with such ends is drawn exactly, and it is the same
  line from its other end.
-/
theorem draws_exactLine
    {x1 y1 x2 y2 : Int16}
    (hStart : OnScreen (place x1 y1))
    (hFinish : OnScreen (place x2 y2))
    (color : UInt16) :
    ∃ calls,
      Draws x1 y1 x2 y2 color calls ∧
      Draws x2 y2 x1 y1 color calls ∧
      (∀ call ∈ calls, call.color = color) ∧
      ExactLine (place x1 y1) (place x2 y2)
        (calls.map DrawPixel.pixel) := by
  refine ⟨_, ⟨enough, fun fuel hFuel =>
    gfxDrawLine_eq hStart hFinish hFuel color⟩, ⟨enough, ?_⟩,
    ?_, ?_⟩
  · intro fuel hFuel
    rw [linePixels_comm]
    exact gfxDrawLine_eq hFinish hStart hFuel color
  · intro call hMem
    rcases List.mem_map.mp hMem with ⟨pixel, -, rfl⟩
    rfl
  · rw [map_pixel_callAt hStart hFinish]
    exact exactLine_linePixels _ _

theorem draws_exactLine_steep :
    ∃ calls,
      Draws 3 9 1 0 7 calls ∧
      Draws 1 0 3 9 7 calls ∧
      (∀ call ∈ calls, call.color = 7) ∧
      ExactLine (place 3 9) (place 1 0)
        (calls.map DrawPixel.pixel) :=
  draws_exactLine
    ⟨⟨by decide, by decide⟩, ⟨by decide, by decide⟩⟩
    ⟨⟨by decide, by decide⟩, ⟨by decide, by decide⟩⟩ 7

end Gfx

end ProgrammingTasks
