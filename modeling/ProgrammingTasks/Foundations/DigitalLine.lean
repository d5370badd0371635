import Mathlib.Algebra.Order.Floor.Ring
import Mathlib.Analysis.Convex.Segment
import Mathlib.Data.Rat.Floor
import Mathlib.Data.List.Range
import Mathlib.Data.List.Chain
import Mathlib.Tactic.Linarith
import Mathlib.Tactic.FieldSimp

/-
  Lines of pixels.

  A segment is drawn with one pixel for each step along its
  longer axis, each at the nearest place along the other one.
  The place can be found without division, by an error term
  that is kept between 0 and the length of the longer axis.

  Main declarations:
    * `nearest`, `offset`, `errorTerm`
    * `offset_succ`, `errorTerm_succ`
    * `flatLine`, `linePixels`
    * `ExactLine`, `exactLine_linePixels`
-/

------------------------------------------------------------
-- The Nearest Integer
------------------------------------------------------------

namespace DigitalLine

section Nearest

variable {K : Type} [Field K] [LinearOrder K]
variable [IsStrictOrderedRing K] [FloorRing K]

/- The nearest integer; of two the smaller one. -/
def nearest (t : K) : ℤ :=
  ⌈t - 1 / 2⌉

theorem nearest_eq_iff (t : K) (c : ℤ) :
    nearest t = c ↔ t - 1 / 2 ≤ c ∧ (c : K) < t + 1 / 2 := by
  unfold nearest
  rw [Int.ceil_eq_iff]
  constructor
  · rintro ⟨hBelow, hAbove⟩
    exact ⟨hAbove, by linarith⟩
  · rintro ⟨hAbove, hBelow⟩
    exact ⟨by linarith, hAbove⟩

theorem abs_nearest_sub_le (t : K) :
    |(nearest t : K) - t| ≤ 1 / 2 := by
  rcases (nearest_eq_iff t _).mp rfl with ⟨hAbove, hBelow⟩
  rw [abs_le]
  constructor
  · linarith
  · linarith

theorem nearest_intCast (n : ℤ) : nearest (n : K) = n := by
  rw [nearest_eq_iff]
  constructor
  · linarith
  · linarith

end Nearest

------------------------------------------------------------
-- The Error Term
------------------------------------------------------------

/- The steps along the shorter axis after `k` pixels. -/
def offset (dx dy : ℤ) (k : ℕ) : ℤ :=
  nearest ((k : ℚ) * dy / dx)

/- How far the steps are ahead, and half of the longer axis. -/
def errorTerm (dx dy : ℤ) (k : ℕ) : ℤ :=
  dx / 2 - k * dy + offset dx dy k * dx

/- The steps are those that keep the error term in its range. -/
theorem offset_eq_iff
    {dx : ℤ}
    (hLong : 0 < dx)
    (dy : ℤ) (k : ℕ) (c : ℤ) :
    offset dx dy k = c ↔
      0 ≤ dx / 2 - k * dy + c * dx ∧
        dx / 2 - k * dy + c * dx < dx := by
  have hLongRat : (0 : ℚ) < dx := Int.cast_pos.mpr hLong
  have hAbove :
      (k : ℚ) * dy / dx - 1 / 2 ≤ c ↔
        2 * (k * dy) - dx ≤ 2 * (c * dx) := by
    rw [sub_le_iff_le_add, div_le_iff₀ hLongRat,
      ← Int.cast_le (R := ℚ)]
    push_cast
    constructor
    · intro hLess
      linarith
    · intro hLess
      linarith
  have hBelow :
      (c : ℚ) < (k : ℚ) * dy / dx + 1 / 2 ↔
        2 * (c * dx) < 2 * (k * dy) + dx := by
    rw [← sub_lt_iff_lt_add, lt_div_iff₀ hLongRat,
      ← Int.cast_lt (R := ℚ)]
    push_cast
    constructor
    · intro hLess
      linarith
    · intro hLess
      linarith
  rw [offset, nearest_eq_iff, hAbove, hBelow]
  constructor
  · rintro ⟨hFirst, hSecond⟩
    omega
  · rintro ⟨hFirst, hSecond⟩
    omega

@[simp]
theorem offset_zero (dx dy : ℤ) : offset dx dy 0 = 0 := by
  unfold offset
  rw [Nat.cast_zero, zero_mul, zero_div]
  exact nearest_intCast 0

@[simp]
theorem errorTerm_zero (dx dy : ℤ) :
    errorTerm dx dy 0 = dx / 2 := by
  simp [errorTerm]

/- A line that is not longer than a point has no steps. -/
theorem offset_point (dy : ℤ) (k : ℕ) : offset 0 dy k = 0 := by
  unfold offset
  rw [Int.cast_zero, div_zero]
  exact nearest_intCast 0

section Steps

variable {dx dy : ℤ}

theorem errorTerm_range
    (hLong : 0 < dx)
    (dy : ℤ) (k : ℕ) :
    0 ≤ errorTerm dx dy k ∧ errorTerm dx dy k < dx :=
  (offset_eq_iff hLong dy k _).mp rfl

/- The next pixel is a step further if the error term is spent. -/
theorem offset_succ
    (hPositive : 0 ≤ dy)
    (hShorter : dy ≤ dx)
    (k : ℕ) :
    offset dx dy (k + 1) =
      if errorTerm dx dy k - dy < 0 then
        offset dx dy k + 1
      else
        offset dx dy k := by
  rcases (hPositive.trans hShorter).eq_or_lt with hPoint | hLong
  · subst hPoint
    have hZero : dy = 0 := le_antisymm hShorter hPositive
    simp [errorTerm, offset_point, hZero]
  · have hRange := errorTerm_range hLong dy k
    rw [offset_eq_iff hLong]
    unfold errorTerm at hRange ⊢
    push_cast
    split
    · rename_i hSpent
      rw [add_mul, add_mul]
      omega
    · rename_i hLeft
      rw [add_mul]
      omega

/- What the loop computes instead. -/
theorem errorTerm_succ
    (hPositive : 0 ≤ dy)
    (hShorter : dy ≤ dx)
    (k : ℕ) :
    errorTerm dx dy (k + 1) =
      if errorTerm dx dy k - dy < 0 then
        errorTerm dx dy k - dy + dx
      else
        errorTerm dx dy k - dy := by
  rw [errorTerm, offset_succ hPositive hShorter k]
  split
  · rw [errorTerm]
    push_cast
    ring
  · rw [errorTerm]
    push_cast
    ring

/- The last pixel is at the end of the segment. -/
theorem offset_last
    (hPositive : 0 ≤ dy)
    (hShorter : dy ≤ dx)
    {k : ℕ}
    (hLast : (k : ℤ) = dx) :
    offset dx dy k = dy := by
  rcases (hPositive.trans hShorter).eq_or_lt with hPoint | hLong
  · subst hPoint
    rw [offset_point]
    exact le_antisymm hPositive hShorter
  · rw [offset_eq_iff hLong, hLast, mul_comm dy dx]
    omega

theorem offset_mono
    (hPositive : 0 ≤ dy)
    (hShorter : dy ≤ dx)
    {j k : ℕ}
    (hOrder : j ≤ k) :
    offset dx dy j ≤ offset dx dy k := by
  induction hOrder with
  | refl => exact le_refl _
  | step _ ih =>
      apply ih.trans
      rw [offset_succ hPositive hShorter]
      split
      · omega
      · exact le_refl _

theorem offset_range
    (hPositive : 0 ≤ dy)
    (hShorter : dy ≤ dx)
    {k : ℕ}
    (hLess : (k : ℤ) ≤ dx) :
    0 ≤ offset dx dy k ∧ offset dx dy k ≤ dy := by
  have hOrder : k ≤ dx.toNat := by omega
  have hFirst := offset_mono hPositive hShorter (Nat.zero_le k)
  have hLast := offset_mono hPositive hShorter hOrder
  have hEnd : offset dx dy dx.toNat = dy :=
    offset_last hPositive hShorter (by omega)
  rw [offset_zero] at hFirst
  rw [hEnd] at hLast
  exact ⟨hFirst, hLast⟩

theorem abs_offset_sub_le (dx dy : ℤ) (k : ℕ) :
    |(offset dx dy k : ℚ) - k * dy / dx| ≤ 1 / 2 :=
  abs_nearest_sub_le _

end Steps

------------------------------------------------------------
-- Exact Lines
------------------------------------------------------------

/- A pixel, by its two coordinates. -/
abbrev Pixel := ℤ × ℤ

/- The second axis is the longer one. -/
def Steep (p q : Pixel) : Prop :=
  |q.1 - p.1| < |q.2 - p.2|

instance (p q : Pixel) : Decidable (Steep p q) :=
  inferInstanceAs (Decidable (_ < _))

/- The coordinate of a pixel on the longer axis of a segment. -/
def longer (p q pixel : Pixel) : ℤ :=
  if Steep p q then pixel.2 else pixel.1

/- The place of a pixel in the plane. -/
def ideal (pixel : Pixel) : ℚ × ℚ :=
  (pixel.1, pixel.2)

/-
  Where the segment has the same coordinate on the longer axis,
  it is at most half a pixel away on the other one.
-/
def NearSegment (p q pixel : Pixel) : Prop :=
  ∃ z ∈ segment ℚ (ideal p) (ideal q),
    if Steep p q then
      z.2 = pixel.2 ∧ |z.1 - pixel.1| ≤ 1 / 2
    else
      z.1 = pixel.1 ∧ |z.2 - pixel.2| ≤ 1 / 2

/- The pixels differ by at most 1 on each axis. -/
def Adjacent (pixel pixel' : Pixel) : Prop :=
  |pixel'.1 - pixel.1| ≤ 1 ∧ |pixel'.2 - pixel.2| ≤ 1

/-
  A segment as pixels: one for each step of the longer axis, in
  this order, with both ends, near to the segment and without
  gaps.
-/
structure ExactLine (p q : Pixel) (pixels : List Pixel) :
    Prop where
  length :
    (pixels.length : ℤ) = max |q.1 - p.1| |q.2 - p.2| + 1
  steps :
    ∀ (k : ℕ) pixel, pixels[k]? = some pixel →
      longer p q pixel =
        min (longer p q p) (longer p q q) + k
  ends : p ∈ pixels ∧ q ∈ pixels
  near : ∀ pixel ∈ pixels, NearSegment p q pixel
  connected : pixels.IsChain Adjacent

section Symmetry

variable {p q : Pixel} {pixels : List Pixel}

theorem steep_comm : Steep p q ↔ Steep q p := by
  unfold Steep
  rw [abs_sub_comm q.1, abs_sub_comm q.2]

theorem longer_comm (pixel : Pixel) :
    longer p q pixel = longer q p pixel := by
  unfold longer
  simp only [steep_comm (p := p)]

/- A line is one between its ends in any order. -/
theorem ExactLine.symm
    (hLine : ExactLine p q pixels) :
    ExactLine q p pixels where
  length := by
    rw [hLine.length, abs_sub_comm q.1, abs_sub_comm q.2]
  steps := by
    intro k pixel hAt
    rw [longer_comm (p := q), longer_comm (p := q) q,
      longer_comm (p := q) p, min_comm]
    exact hLine.steps k pixel hAt
  ends := hLine.ends.symm
  near := by
    intro pixel hMem
    rcases hLine.near pixel hMem with ⟨z, hSegment, hNear⟩
    rw [segment_symm] at hSegment
    simp only [steep_comm (p := p) (q := q)] at hNear
    exact ⟨z, hSegment, hNear⟩
  connected := hLine.connected

/- A flat line with its axes exchanged is a steep one. -/
theorem ExactLine.swap
    (hLine : ExactLine p q pixels)
    (hFlat : |q.2 - p.2| < |q.1 - p.1|) :
    ExactLine p.swap q.swap (pixels.map Prod.swap) := by
  have hNotSteep : ¬ Steep p q := not_lt.mpr hFlat.le
  have hSteep : Steep p.swap q.swap := hFlat
  have hLonger :
      ∀ pixel : Pixel,
        longer p.swap q.swap pixel.swap = longer p q pixel := by
    intro pixel
    rw [longer, longer, if_pos hSteep, if_neg hNotSteep]
    rfl
  refine ⟨?_, ?_, ?_, ?_, ?_⟩
  · rw [List.length_map, hLine.length]
    exact congrArg (· + 1) (max_comm _ _)
  · intro k pixel hAt
    rw [List.getElem?_map, Option.map_eq_some_iff] at hAt
    rcases hAt with ⟨before, hBefore, rfl⟩
    rw [hLonger, hLonger, hLonger]
    exact hLine.steps k before hBefore
  · exact ⟨List.mem_map_of_mem hLine.ends.1,
      List.mem_map_of_mem hLine.ends.2⟩
  · intro pixel hMem
    rcases List.mem_map.mp hMem with ⟨before, hBefore, rfl⟩
    rcases hLine.near before hBefore with ⟨z, hSegment, hNear⟩
    rw [if_neg hNotSteep] at hNear
    refine ⟨z.swap, ?_, ?_⟩
    · rcases hSegment with ⟨a, b, hA, hB, hOne, rfl⟩
      exact ⟨a, b, hA, hB, hOne, rfl⟩
    · rw [if_pos hSteep]
      exact hNear
  · apply List.isChain_map_of_isChain Prod.swap _ hLine.connected
    intro pixel pixel' hAdjacent
    exact hAdjacent.symm

end Symmetry

------------------------------------------------------------
-- Drawing a Segment
------------------------------------------------------------

/- The direction along the shorter axis. -/
def toward (p q : Pixel) : ℤ :=
  if p.2 < q.2 then 1 else -1

/- The pixel is in the rectangle of the ends. -/
structure InBox (p q pixel : Pixel) : Prop where
  left : min p.1 q.1 ≤ pixel.1
  right : pixel.1 ≤ max p.1 q.1
  bottom : min p.2 q.2 ≤ pixel.2
  top : pixel.2 ≤ max p.2 q.2

/- A pixel of a segment that is not steep, from the left. -/
def flatPixel (p q : Pixel) (k : ℕ) : Pixel :=
  (p.1 + k,
    p.2 + toward p q * offset (q.1 - p.1) |q.2 - p.2| k)

def flatLine (p q : Pixel) : List Pixel :=
  (List.range ((q.1 - p.1).toNat + 1)).map (flatPixel p q)

/- The ends may be given in any order. -/
def sortedLine (p q : Pixel) : List Pixel :=
  if q.1 < p.1 then flatLine q p else flatLine p q

/- Any segment. -/
def linePixels (p q : Pixel) : List Pixel :=
  if Steep p q then
    (sortedLine p.swap q.swap).map Prod.swap
  else
    sortedLine p q

section FlatLine

variable {p q : Pixel}

theorem toward_mul (p q : Pixel) :
    toward p q * |q.2 - p.2| = q.2 - p.2 := by
  unfold toward
  split
  · rename_i hUp
    rw [abs_of_nonneg (by omega)]
    ring
  · rename_i hDown
    rw [abs_of_nonpos (by omega)]
    ring

theorem abs_toward (p q : Pixel) : |toward p q| = 1 := by
  unfold toward
  split
  · rfl
  · rfl

theorem mem_flatLine_iff
    (hOrder : p.1 ≤ q.1) (pixel : Pixel) :
    pixel ∈ flatLine p q ↔
      ∃ k : ℕ, (k : ℤ) ≤ q.1 - p.1 ∧ flatPixel p q k = pixel := by
  unfold flatLine
  rw [List.mem_map]
  constructor
  · rintro ⟨k, hMem, rfl⟩
    have hLess := List.mem_range.mp hMem
    exact ⟨k, by omega, rfl⟩
  · rintro ⟨k, hLess, rfl⟩
    exact ⟨k, List.mem_range.mpr (by omega), rfl⟩

/- The line starts at the left end. -/
theorem flatPixel_zero (p q : Pixel) : flatPixel p q 0 = p := by
  unfold flatPixel
  simp

/- The next pixel is in the next column. -/
theorem first_succ (p q : Pixel) (k : ℕ) :
    (flatPixel p q (k + 1)).1 = (flatPixel p q k).1 + 1 := by
  unfold flatPixel
  push_cast
  ring

/- It is in the next row if the error term is spent. -/
theorem second_succ
    (hFlat : |q.2 - p.2| ≤ q.1 - p.1)
    (k : ℕ) :
    (flatPixel p q (k + 1)).2 =
      if errorTerm (q.1 - p.1) |q.2 - p.2| k - |q.2 - p.2| < 0
      then (flatPixel p q k).2 + toward p q
      else (flatPixel p q k).2 := by
  unfold flatPixel
  rw [offset_succ (abs_nonneg _) hFlat]
  split
  · ring
  · rfl

theorem flatPixel_last
    (hFlat : |q.2 - p.2| ≤ q.1 - p.1)
    {k : ℕ}
    (hLast : (k : ℤ) = q.1 - p.1) :
    flatPixel p q k = q := by
  have hOffset :=
    offset_last (abs_nonneg (q.2 - p.2)) hFlat hLast
  unfold flatPixel
  rw [hOffset, toward_mul, hLast]
  ext
  · exact add_sub_cancel p.1 q.1
  · exact add_sub_cancel p.2 q.2

/- On the longer axis the pixel is where the segment is. -/
theorem first_eq
    (p : Pixel) (k : ℕ)
    (hLong : ((q.1 - p.1 : ℤ) : ℚ) ≠ 0) :
    (1 - (k : ℚ) / (q.1 - p.1 : ℤ)) * p.1 +
        k / (q.1 - p.1 : ℤ) * q.1 =
      ((flatPixel p q k).1 : ℤ) := by
  have hMove :
      (k : ℚ) / (q.1 - p.1 : ℤ) * (q.1 - p.1 : ℤ) = k :=
    div_mul_cancel₀ _ hLong
  unfold flatPixel
  push_cast at hMove ⊢
  linear_combination hMove

/- On the shorter axis it is off by the rounding. -/
theorem abs_second_sub_le (p q : Pixel) (k : ℕ) :
    |(1 - (k : ℚ) / (q.1 - p.1 : ℤ)) * p.2 +
        k / (q.1 - p.1 : ℤ) * q.2 -
        ((flatPixel p q k).2 : ℤ)| ≤ 1 / 2 := by
  have hHeight :
      (toward p q : ℚ) * (|q.2 - p.2| : ℤ) = q.2 - p.2 := by
    exact_mod_cast toward_mul p q
  have hSign : |(toward p q : ℚ)| = 1 := by
    exact_mod_cast abs_toward p q
  have hOff :
      (1 - (k : ℚ) / (q.1 - p.1 : ℤ)) * p.2 +
          k / (q.1 - p.1 : ℤ) * q.2 -
          ((flatPixel p q k).2 : ℤ) =
        -(toward p q *
          (offset (q.1 - p.1) |q.2 - p.2| k -
            k * (|q.2 - p.2| : ℤ) / (q.1 - p.1 : ℤ))) := by
    unfold flatPixel
    rw [mul_div_right_comm]
    push_cast at hHeight ⊢
    linear_combination -(k : ℚ) / (q.1 - p.1) * hHeight
  rw [hOff, abs_neg, abs_mul, hSign, one_mul]
  exact abs_offset_sub_le _ _ _

/- The segment at the place of a pixel, and how far it is. -/
theorem nearSegment_flatPixel
    (hFlat : |q.2 - p.2| ≤ q.1 - p.1)
    {k : ℕ}
    (hLess : (k : ℤ) ≤ q.1 - p.1) :
    NearSegment p q (flatPixel p q k) := by
  have hNotSteep : ¬ Steep p q :=
    not_lt.mpr (hFlat.trans (le_abs_self _))
  rcases (abs_nonneg _ |>.trans hFlat).eq_or_lt with
    hPoint | hLong
  · -- a point
    have hZero : k = 0 := by
      omega
    rw [hZero, flatPixel_zero]
    refine ⟨ideal p, left_mem_segment ℚ _ _, ?_⟩
    rw [if_neg hNotSteep]
    exact ⟨rfl, by simp [ideal]⟩
  · have hLongRat : (0 : ℚ) < (q.1 - p.1 : ℤ) :=
      Int.cast_pos.mpr hLong
    have hPart : (0 : ℚ) ≤ k / (q.1 - p.1 : ℤ) :=
      div_nonneg (Nat.cast_nonneg k) hLongRat.le
    have hWhole : (k : ℚ) / (q.1 - p.1 : ℤ) ≤ 1 := by
      rw [div_le_one hLongRat]
      exact_mod_cast hLess
    refine ⟨_, ⟨1 - k / (q.1 - p.1 : ℤ), k / (q.1 - p.1 : ℤ),
      sub_nonneg.mpr hWhole, hPart, sub_add_cancel _ _, rfl⟩, ?_⟩
    rw [if_neg hNotSteep]
    exact ⟨first_eq p k hLongRat.ne', abs_second_sub_le p q k⟩

/- On both axes the pixels are between the ends. -/
theorem inBox_flatPixel
    (hFlat : |q.2 - p.2| ≤ q.1 - p.1)
    {k : ℕ}
    (hLess : (k : ℤ) ≤ q.1 - p.1) :
    InBox p q (flatPixel p q k) := by
  have hRange := offset_range (abs_nonneg (q.2 - p.2)) hFlat hLess
  have hFirst : min p.1 q.1 ≤ p.1 + k ∧ p.1 + k ≤ max p.1 q.1 := by
    omega
  have hSecond :
      min p.2 q.2 ≤ (flatPixel p q k).2 ∧
        (flatPixel p q k).2 ≤ max p.2 q.2 := by
    unfold flatPixel toward
    split
    · rw [abs_of_nonneg (by omega)] at hRange ⊢
      dsimp only
      omega
    · rw [abs_of_nonpos (by omega)] at hRange ⊢
      dsimp only
      omega
  exact ⟨hFirst.1, hFirst.2, hSecond.1, hSecond.2⟩

theorem inBox_flatLine
    (hFlat : |q.2 - p.2| ≤ q.1 - p.1)
    {pixel : Pixel}
    (hMem : pixel ∈ flatLine p q) :
    InBox p q pixel := by
  have hOrder : p.1 ≤ q.1 :=
    sub_nonneg.mp ((abs_nonneg _).trans hFlat)
  rcases (mem_flatLine_iff hOrder pixel).mp hMem with
    ⟨k, hLess, rfl⟩
  exact inBox_flatPixel hFlat hLess

theorem adjacent_flatPixel
    (hFlat : |q.2 - p.2| ≤ q.1 - p.1)
    (k : ℕ) :
    Adjacent (flatPixel p q k) (flatPixel p q (k + 1)) := by
  constructor
  · rw [first_succ, add_sub_cancel_left, abs_one]
  · rw [second_succ hFlat]
    split
    · rw [add_sub_cancel_left, abs_toward]
    · rw [sub_self, abs_zero]
      exact zero_le_one

/- A segment that is not steep, with its left end first. -/
theorem exactLine_flatLine
    (hFlat : |q.2 - p.2| ≤ q.1 - p.1) :
    ExactLine p q (flatLine p q) := by
  have hOrder : p.1 ≤ q.1 :=
    sub_nonneg.mp ((abs_nonneg _).trans hFlat)
  have hWidth : |q.1 - p.1| = q.1 - p.1 :=
    abs_of_nonneg (sub_nonneg.mpr hOrder)
  have hNotSteep : ¬ Steep p q :=
    not_lt.mpr (hFlat.trans (le_abs_self _))
  have hLonger :
      ∀ pixel : Pixel, longer p q pixel = pixel.1 :=
    fun _ => if_neg hNotSteep
  refine ⟨?_, ?_, ⟨?_, ?_⟩, ?_, ?_⟩
  · rw [flatLine, List.length_map, List.length_range, hWidth,
      max_eq_left hFlat]
    omega
  · intro k pixel hAt
    rw [flatLine, List.getElem?_map, Option.map_eq_some_iff]
      at hAt
    rcases hAt with ⟨j, hAt, rfl⟩
    rcases List.getElem?_eq_some_iff.mp hAt with ⟨_, rfl⟩
    rw [hLonger, hLonger, hLonger, min_eq_left hOrder,
      List.getElem_range]
    rfl
  · exact (mem_flatLine_iff hOrder p).mpr
      ⟨0, sub_nonneg.mpr hOrder, flatPixel_zero p q⟩
  · refine (mem_flatLine_iff hOrder q).mpr
      ⟨(q.1 - p.1).toNat, ?_, flatPixel_last hFlat ?_⟩
    · omega
    · omega
  · intro pixel hMem
    rcases (mem_flatLine_iff hOrder pixel).mp hMem with
      ⟨k, hLess, rfl⟩
    exact nearSegment_flatPixel hFlat hLess
  · rw [flatLine, List.isChain_map, List.isChain_range_succ]
    exact fun k _ => adjacent_flatPixel hFlat k

end FlatLine

section LinePixels

variable {p q : Pixel}

theorem flat_of_le
    (hFlat : |q.2 - p.2| ≤ |q.1 - p.1|)
    (hOrder : p.1 ≤ q.1) :
    |q.2 - p.2| ≤ q.1 - p.1 := by
  rw [abs_of_nonneg (sub_nonneg.mpr hOrder)] at hFlat
  exact hFlat

theorem flat_comm
    (hFlat : |q.2 - p.2| ≤ |q.1 - p.1|) :
    |p.2 - q.2| ≤ |p.1 - q.1| := by
  rw [abs_sub_comm p.2, abs_sub_comm p.1]
  exact hFlat

/- The line is drawn from one of the ends to the right. -/
theorem sortedLine_cases
    (hFlat : |q.2 - p.2| ≤ |q.1 - p.1|) :
    (|q.2 - p.2| ≤ q.1 - p.1 ∧
        sortedLine p q = flatLine p q) ∨
      (|p.2 - q.2| ≤ p.1 - q.1 ∧
        sortedLine p q = flatLine q p) := by
  by_cases hRight : q.1 < p.1
  · exact Or.inr
      ⟨flat_of_le (flat_comm hFlat) hRight.le, if_pos hRight⟩
  · exact Or.inl
      ⟨flat_of_le hFlat (not_lt.mp hRight), if_neg hRight⟩

theorem exactLine_sortedLine
    (hFlat : |q.2 - p.2| ≤ |q.1 - p.1|) :
    ExactLine p q (sortedLine p q) := by
  rcases sortedLine_cases hFlat with
    ⟨hLeft, hLine⟩ | ⟨hRight, hLine⟩
  · rw [hLine]
    exact exactLine_flatLine hLeft
  · rw [hLine]
    exact (exactLine_flatLine hRight).symm

/- The pixels are an exact line, whatever the ends are. -/
theorem exactLine_linePixels (p q : Pixel) :
    ExactLine p q (linePixels p q) := by
  unfold linePixels
  split
  · rename_i hSteep
    have hFlat :
        |q.swap.2 - p.swap.2| < |q.swap.1 - p.swap.1| :=
      hSteep
    exact (exactLine_sortedLine hFlat.le).swap hFlat
  · rename_i hFlat
    exact exactLine_sortedLine (not_lt.mp hFlat)

theorem InBox.symm
    {pixel : Pixel}
    (hBox : InBox p q pixel) :
    InBox q p pixel := by
  rcases hBox with ⟨hLeft, hRight, hBottom, hTop⟩
  rw [min_comm] at hLeft hBottom
  rw [max_comm] at hRight hTop
  exact ⟨hLeft, hRight, hBottom, hTop⟩

theorem inBox_sortedLine
    (hFlat : |q.2 - p.2| ≤ |q.1 - p.1|)
    {pixel : Pixel}
    (hMem : pixel ∈ sortedLine p q) :
    InBox p q pixel := by
  rcases sortedLine_cases hFlat with
    ⟨hLeft, hLine⟩ | ⟨hRight, hLine⟩
  · rw [hLine] at hMem
    exact inBox_flatLine hLeft hMem
  · rw [hLine] at hMem
    exact (inBox_flatLine hRight hMem).symm

/- No pixel of a line is outside of the rectangle of its ends. -/
theorem inBox_linePixels
    {pixel : Pixel}
    (hMem : pixel ∈ linePixels p q) :
    InBox p q pixel := by
  unfold linePixels at hMem
  split at hMem
  · rename_i hSteep
    rcases List.mem_map.mp hMem with ⟨before, hBefore, rfl⟩
    have hBox :=
      inBox_sortedLine (p := p.swap) (q := q.swap)
        (le_of_lt hSteep) hBefore
    exact ⟨hBox.bottom, hBox.top, hBox.left, hBox.right⟩
  · rename_i hFlat
    exact inBox_sortedLine (not_lt.mp hFlat) hMem

/- The pixels do not depend on the order of the ends. -/
theorem sortedLine_comm
    (hFlat : |q.2 - p.2| ≤ |q.1 - p.1|) :
    sortedLine p q = sortedLine q p := by
  unfold sortedLine
  rcases lt_trichotomy p.1 q.1 with hLeft | hSame | hRight
  · rw [if_neg hLeft.not_gt, if_pos hLeft]
  · have hPoint : p = q := by
      rw [hSame, sub_self, abs_zero, abs_nonpos_iff,
        sub_eq_zero] at hFlat
      exact Prod.ext hSame hFlat.symm
    rw [hPoint]
  · rw [if_pos hRight, if_neg hRight.not_gt]

theorem linePixels_comm (p q : Pixel) :
    linePixels p q = linePixels q p := by
  unfold linePixels
  by_cases hSteep : Steep p q
  · rw [if_pos hSteep, if_pos (steep_comm.mp hSteep)]
    exact congrArg (List.map Prod.swap)
      (sortedLine_comm (le_of_lt hSteep))
  · rw [if_neg hSteep, if_neg (fun h => hSteep (steep_comm.mpr h))]
    exact sortedLine_comm (not_lt.mp hSteep)

end LinePixels

end DigitalLine
