import ProgrammingTasks.Algorithms.Wiring

/-
  The heights of the links (`p3.py`).

  The program takes the height of a link from the link closed
  last, or from the highest link so far where that one runs
  inside.  It never takes too much; it takes too little where
  the last group inside is low and the highest link lies
  outside.

  Main declarations:
    * `height`, `height_spec`
    * `measured`, `Measures`, `measures_wire`
    * `Misled`, `nextHeight_eq_iff`
    * `minimumLength_eq_iff`
-/

------------------------------------------------------------
-- Heights of Nested Links
------------------------------------------------------------

namespace ProgrammingTasks

namespace Algorithms

open Matchings

/- The height of a link, if `fuel` covers its length. -/
def heightUpTo (links : List Link) : Nat → Link → Nat
| 0, _ => 0
| fuel + 1, l =>
    1 + ((links.filter (fun l' => Inside l l')).map
      (heightUpTo links fuel)).foldr max 0

/- One more than the highest link strictly inside. -/
def height (links : List Link) (l : Link) : Nat :=
  heightUpTo links (Matchings.length l) l

theorem le_foldr_max :
    ∀ {values : List Nat} {v : Nat},
      v ∈ values → v ≤ values.foldr max 0
| w :: values, v, hMem => by
    rw [List.foldr_cons]
    rcases List.mem_cons.mp hMem with rfl | hRest
    · exact Nat.le_max_left _ _
    · exact (le_foldr_max hRest).trans (Nat.le_max_right _ _)

theorem foldr_max_mem :
    ∀ values : List Nat,
      values.foldr max 0 = 0 ∨ values.foldr max 0 ∈ values
| [] => Or.inl rfl
| w :: values => by
    rw [List.foldr_cons]
    rcases Nat.le_total (values.foldr max 0) w with hLe | hLe
    · rw [Nat.max_eq_left hLe]
      exact Or.inr List.mem_cons_self
    · rw [Nat.max_eq_right hLe]
      exact (foldr_max_mem values).imp id
        (List.mem_cons_of_mem _)

section Height

variable {links : List Link}
variable (hForward : ∀ l ∈ links, l.1 < l.2)

include hForward in
/- A link inside is shorter. -/
theorem shorter_of_mem_filter
    {l l' : Link}
    (hMem : l' ∈ links.filter (fun l' => Inside l l')) :
    l'.1 < l'.2 ∧ Matchings.length l' < Matchings.length l := by
  rw [List.mem_filter, decide_eq_true_eq] at hMem
  have hL' := hForward l' hMem.1
  have hInside := hMem.2
  unfold Inside at hInside
  unfold Matchings.length
  omega

include hForward in
theorem heightUpTo_congr :
    ∀ {n m : Nat} {l : Link},
      l.1 < l.2 → Matchings.length l ≤ n →
        Matchings.length l ≤ m →
          heightUpTo links n l = heightUpTo links m l
| 0, _, l, hL, hN, _ => by
    unfold Matchings.length at hN
    omega
| _ + 1, 0, l, hL, _, hM => by
    unfold Matchings.length at hM
    omega
| n + 1, m + 1, l, hL, hN, hM => by
    rw [heightUpTo, heightUpTo]
    congr 2
    apply List.map_congr_left
    intro l' hMem
    rcases shorter_of_mem_filter hForward hMem with
      ⟨hL', hShorter⟩
    exact heightUpTo_congr hL' (by omega) (by omega)

include hForward in
theorem height_eq
    {l : Link}
    (hL : l.1 < l.2) :
    height links l =
      1 + ((links.filter (fun l' => Inside l l')).map
        (height links)).foldr max 0 := by
  have hFuel :
      height links l =
        heightUpTo links (Matchings.length l + 1) l :=
    heightUpTo_congr hForward hL (Nat.le_refl _)
      (Nat.le_succ _)
  rw [hFuel, heightUpTo]
  congr 2
  apply List.map_congr_left
  intro l' hMem
  rcases shorter_of_mem_filter hForward hMem with
    ⟨hL', hShorter⟩
  exact heightUpTo_congr hForward hL' (by omega) (Nat.le_refl _)

/- What a height is, without an order of the links. -/
structure IsHeight
    (h : Link → Nat) (links : List Link) (l : Link) : Prop where
  above : ∀ l' ∈ links, Inside l l' → h l' < h l
  attained :
    h l = 1 ∨ ∃ l' ∈ links, Inside l l' ∧ h l = h l' + 1

include hForward in
theorem height_spec
    {l : Link}
    (hMem : l ∈ links) :
    IsHeight (height links) links l := by
  have hValue := height_eq hForward (hForward l hMem)
  constructor
  · intro l' hMem' hInside
    have hInner :
        l' ∈ links.filter (fun l' => Inside l l') :=
      List.mem_filter.mpr ⟨hMem', decide_eq_true hInside⟩
    have hMax :=
      le_foldr_max
        (List.mem_map_of_mem (f := height links) hInner)
    omega
  · rcases foldr_max_mem
        ((links.filter (fun l' => Inside l l')).map
          (height links)) with hZero | hSome
    · exact Or.inl (by omega)
    · rcases List.mem_map.mp hSome with ⟨l', hInside, hMax⟩
      rw [List.mem_filter, decide_eq_true_eq] at hInside
      exact Or.inr ⟨l', hInside.1, hInside.2, by omega⟩

theorem IsHeight.pos
    {h : Link → Nat} {l : Link}
    (hHeight : IsHeight h links l) :
    1 ≤ h l := by
  rcases hHeight.attained with hOne | ⟨l', _, _, hSucc⟩
  · omega
  · omega

end Height

------------------------------------------------------------
-- The Heights That Are Taken
------------------------------------------------------------

/- A link with the height the program takes for it. -/
abbrev Entry := Link × Nat

/- `h_max` after the given links, the latest one first. -/
def best : List Entry → Nat × Nat × Nat
| [] => (0, 0, 1000)
| e :: older =>
    if e.2 ≥ (best older).1 then (e.2, e.1.1, e.1.2)
    else best older

/- `h` where the given link is closed. -/
def lastHeight (entries : List Entry) (l : Link) : Nat :=
  match entries with
  | [] => 0
  | e :: _ => if Inside l e.1 then e.2 else 0

def nextHeight (entries : List Entry) (l : Link) : Nat :=
  if l.1 < (best entries).2.1 ∧ l.2 > (best entries).2.2 then
    (best entries).1 + 1
  else
    lastHeight entries l + 1

/- The links, the latest one first, with their heights. -/
def measured : List Link → List Entry
| [] => []
| l :: older =>
    (l, nextHeight (measured older) l) :: measured older

def entriesLength (entries : List Entry) : Nat :=
  (entries.map
    (fun e => Matchings.length e.1 + 2 * e.2)).sum

theorem mem_of_mem_measured :
    ∀ {ls : List Link} {e : Entry},
      e ∈ measured ls → e.1 ∈ ls
| l :: older, e, hMem => by
    rw [measured] at hMem
    rcases List.mem_cons.mp hMem with rfl | hOlder
    · exact List.mem_cons_self
    · exact List.mem_cons_of_mem _ (mem_of_mem_measured hOlder)

/- The variables for heights, by the links closed so far. -/
structure Measures (st : Wiring) (w : Wires) : Prop where
  hMax : st.hMax = best (measured w.closed)
  minimumLength :
    st.minimumLength = entriesLength (measured w.closed)
  h :
    (st.h = 0 ∧
        ∀ e rest, measured w.closed = e :: rest →
          ∀ pin rest', w.free = pin :: rest' →
            e.1.2 < pin.1) ∨
      ∃ e rest, measured w.closed = e :: rest ∧
        st.h = e.2 ∧ ∀ pin ∈ w.free, pin.1 < e.1.1

section Measures

variable {s : List Char} {st : Wiring} {w : Wires} {c : Char}

/- Where a link is closed, `h` comes from inside it. -/
theorem Measures.lastHeight_eq
    (hMeasures : Measures st w)
    (hSound : Sound s w)
    {x : Nat} {d : Char} {rest : List (Nat × Char)}
    (hFree : w.free = (x, d) :: rest) :
    st.h = lastHeight (measured w.closed) (x, s.length) := by
  rcases hMeasures.h with
    ⟨hZero, hPushed⟩ | ⟨e, older, hEntries, hLast, hUnder⟩
  · rw [hZero]
    cases hEntries : measured w.closed with
    | nil => rfl
    | cons e older =>
        have hBefore :=
          hPushed e older hEntries (x, d) rest hFree
        have hMem : e.1 ∈ w.closed :=
          mem_of_mem_measured
            (by rw [hEntries]; exact List.mem_cons_self)
        have hForward := (hSound.joins e.1 hMem).2
        have hOutside : ¬ Inside (x, s.length) e.1 := by
          unfold Inside
          omega
        simp only [lastHeight, if_neg hOutside]
  · have hMem : e.1 ∈ w.closed :=
      mem_of_mem_measured
        (by rw [hEntries]; exact List.mem_cons_self)
    have hInside : Inside (x, s.length) e.1 :=
      ⟨hUnder (x, d) (by rw [hFree]; exact List.mem_cons_self),
        hSound.closed_below hMem⟩
    rw [hEntries, hLast]
    simp only [lastHeight, if_pos hInside]

theorem Measures.push
    {st' : Wiring}
    (hMeasures : Measures st w)
    (hSound : Sound s w)
    (hH : st'.h = 0)
    (hMax : st'.hMax = st.hMax)
    (hLength : st'.minimumLength = st.minimumLength) :
    Measures st' { w with free := (s.length, c) :: w.free } := by
  refine ⟨?_, ?_, Or.inl ⟨hH, ?_⟩⟩
  · rw [hMax]
    exact hMeasures.hMax
  · rw [hLength]
    exact hMeasures.minimumLength
  · intro e older hEntries pin rest hFree
    have hPin : (s.length, c) = pin := (List.cons.inj hFree).1
    rw [← hPin]
    exact hSound.closed_below
      (mem_of_mem_measured
        (by rw [hEntries]; exact List.mem_cons_self))

theorem Measures.connect
    (hMeasures : Measures st w)
    (hSound : Sound s w)
    {x : Nat} {d : Char} {rest : List (Nat × Char)}
    (hFree : w.free = (x, d) :: rest) :
    Measures (connect s.length x st)
      { free := rest, closed := (x, s.length) :: w.closed } := by
  have hOrdered := hSound.ordered
  rw [hFree] at hOrdered
  have hHeight :
      linkHeight s.length x st =
        nextHeight (measured w.closed) (x, s.length) := by
    rw [linkHeight, hMeasures.hMax,
      hMeasures.lastHeight_eq hSound hFree]
    rfl
  refine ⟨?_, ?_, Or.inr ⟨_, _, rfl, hHeight, ?_⟩⟩
  · simp only [Algorithms.connect, hHeight, hMeasures.hMax,
      measured, best]
  · simp only [Algorithms.connect, hHeight,
      hMeasures.minimumLength, measured, entriesLength,
      List.map_cons, List.sum_cons, Matchings.length]
    omega
  · exact fun pin hMem =>
      (List.pairwise_cons.mp hOrdered).1 pin hMem

/- The program reads on with the free pins at hand. -/
theorem Measures.next
    {st' : Wiring} {w' : Wires}
    (hMeasures : Measures st w)
    (hSound : Sound s w)
    (hRead : PinRead st w s.length c st' w') :
    Measures st' w' := by
  cases hRead with
  | skipped => exact hMeasures
  | pushed _ _ => exact hMeasures.push hSound rfl rfl rfl
  | @linked _ _ zeros ones hFree _ =>
      have hStacks :
          Measures
            { st with zeroList := zeros, oneList := ones } w :=
        ⟨hMeasures.hMax, hMeasures.minimumLength, hMeasures.h⟩
      exact hStacks.connect hSound hFree

end Measures

theorem measures_wire (s : List Char) :
    Measures (wire s) (wires s) := by
  induction s using List.reverseRecOn with
  | nil =>
      refine ⟨rfl, rfl, Or.inl ⟨rfl, ?_⟩⟩
      intro e rest hEntries
      cases hEntries
  | append_singleton s c ih =>
      rw [wire_concat, wires_concat]
      exact ih.next (sound_wires s)
        ((refines_wires s).pinRead s.length c)

------------------------------------------------------------
-- Where the Height Is Wrong
------------------------------------------------------------

/-
  The last group inside is lower than another one inside, and
  some group before the link is higher than all inside.
-/
def Misled
    (h : Link → Nat) (links : List Link) (l : Link) : Prop :=
  (∃ before ∈ links,
    before.2 < l.1 ∧
      ∀ inner ∈ links, Inside l inner → h inner < h before) ∧
  ∃ last ∈ links,
    Inside l last ∧
      (∀ inner ∈ links, Inside l inner → inner.2 ≤ last.2) ∧
      ∃ inner ∈ links, Inside l inner ∧ h last < h inner

/- It depends only on links that are closed before. -/
theorem Misled.congr
    {h : Link → Nat} {links links' : List Link} {l : Link}
    (hForward : l.1 < l.2)
    (hSame : ∀ l', l'.2 < l.2 → (l' ∈ links ↔ l' ∈ links')) :
    Misled h links l ↔ Misled h links' l := by
  have hAll :
      ∀ {P : Link → Prop},
        (∀ inner ∈ links, Inside l inner → P inner) ↔
          ∀ inner ∈ links', Inside l inner → P inner := by
    intro P
    refine forall_congr' (fun inner => ?_)
    constructor
    · intro hInner hMem hInside
      exact hInner ((hSame inner hInside.2).mpr hMem) hInside
    · intro hInner hMem hInside
      exact hInner ((hSame inner hInside.2).mp hMem) hInside
  have hSome :
      ∀ {P : Link → Prop},
        (∃ inner ∈ links, Inside l inner ∧ P inner) ↔
          ∃ inner ∈ links', Inside l inner ∧ P inner := by
    intro P
    refine exists_congr (fun inner => ?_)
    constructor
    · rintro ⟨hMem, hInside, hP⟩
      exact ⟨(hSame inner hInside.2).mp hMem, hInside, hP⟩
    · rintro ⟨hMem, hInside, hP⟩
      exact ⟨(hSame inner hInside.2).mpr hMem, hInside, hP⟩
  unfold Misled
  refine and_congr ?_ ?_
  · refine exists_congr (fun before => ?_)
    constructor
    · rintro ⟨hMem, hBefore, hInner⟩
      exact ⟨(hSame before (by omega)).mp hMem, hBefore,
        hAll.mp hInner⟩
    · rintro ⟨hMem, hBefore, hInner⟩
      exact ⟨(hSame before (by omega)).mpr hMem, hBefore,
        hAll.mpr hInner⟩
  · rw [hSome]
    refine exists_congr (fun last => ?_)
    rw [hAll, hSome]

/- Links in the order in which they close, with heights. -/
def Stacked (h : Link → Nat) : List Link → Prop
| [] => True
| l :: older =>
    l.1 < l.2 ∧
      (∀ l' ∈ older,
        l'.2 < l.2 ∧ (l'.2 < l.1 ∨ Inside l l')) ∧
      IsHeight h older l ∧
      Stacked h older

section Stacked

variable {h : Link → Nat} {l : Link} {older : List Link}

theorem Stacked.mem :
    ∀ {ls : List Link} {l : Link},
      Stacked h ls → l ∈ ls → 1 ≤ h l ∧ l.1 < l.2
| l :: older, l', hStacked, hMem => by
    rcases hStacked with ⟨hForward, _, hHeight, hOlder⟩
    rcases List.mem_cons.mp hMem with rfl | hRest
    · exact ⟨hHeight.pos, hForward⟩
    · exact hOlder.mem hRest

/- The highest link so far, the latest one among equals. -/
theorem best_spec :
    ∀ {ls : List Link},
      Stacked h ls → (∀ e ∈ measured ls, e.2 ≤ h e.1) →
        (best (measured ls) = (0, 0, 1000) ∧ ls = []) ∨
          ∃ e ∈ measured ls,
            best (measured ls) = (e.2, e.1.1, e.1.2) ∧
              ∀ e' ∈ measured ls,
                e'.2 < e.2 ∨ (e'.2 = e.2 ∧ e'.1.2 ≤ e.1.2)
| [], _, _ => Or.inl ⟨rfl, rfl⟩
| l :: older, hStacked, hBelow => by
    right
    rcases hStacked with ⟨_, hBefore, _, hOlder⟩
    have hHere : (l, nextHeight (measured older) l) ∈
        measured (l :: older) := List.mem_cons_self
    have hClosed :
        ∀ e ∈ measured older, e.1.2 < l.2 :=
      fun e hMem => (hBefore e.1 (mem_of_mem_measured hMem)).1
    rcases best_spec hOlder
        (fun e hMem => hBelow e (List.mem_cons_of_mem _ hMem)) with
      ⟨hBest, rfl⟩ | ⟨e, hMem, hBest, hHighest⟩
    · refine ⟨_, hHere, ?_, ?_⟩
      · simp [measured, best]
      · intro e' hMem'
        rw [measured, measured, List.mem_singleton] at hMem'
        exact Or.inr ⟨by rw [hMem']; rfl, by rw [hMem']⟩
    · by_cases hMore :
          nextHeight (measured older) l ≥ (best (measured older)).1
      · refine ⟨_, hHere, ?_, ?_⟩
        · rw [measured, best, if_pos hMore]
        · intro e' hMem'
          rcases List.mem_cons.mp hMem' with rfl | hRest
          · exact Or.inr ⟨rfl, Nat.le_refl _⟩
          · have hClosed' := hClosed e' hRest
            rw [hBest] at hMore
            rcases hHighest e' hRest with hLess | hEqual
            · exact Or.inl (by dsimp only at *; omega)
            · dsimp only at *
              omega
      · refine ⟨e, List.mem_cons_of_mem _ hMem, ?_, ?_⟩
        · rw [measured, best, if_neg hMore, hBest]
        · intro e' hMem'
          rcases List.mem_cons.mp hMem' with rfl | hRest
          · rw [hBest] at hMore
            exact Or.inl (by dsimp only at *; omega)
          · exact hHighest e' hRest

/- The program never takes too great a height. -/
theorem measured_le :
    ∀ {ls : List Link},
      Stacked h ls → ∀ e ∈ measured ls, e.2 ≤ h e.1
| l :: older, hStacked, e, hMem => by
    have hFull := hStacked
    rcases hStacked with ⟨_, _, hHeight, hOlder⟩
    have hBelow := measured_le hOlder
    rcases List.mem_cons.mp hMem with rfl | hRest
    · dsimp only
      unfold nextHeight
      split
      · rename_i hEncloses
        rcases best_spec hOlder hBelow with
          ⟨hBest, _⟩ | ⟨e, hMem', hBest, _⟩
        · rw [hBest] at hEncloses
          exact absurd hEncloses.1 (Nat.not_lt_zero _)
        · rw [hBest] at hEncloses ⊢
          have hAbove :=
            hHeight.above e.1 (mem_of_mem_measured hMem')
              hEncloses
          have hLess := hBelow e hMem'
          dsimp only
          omega
      · have hPos := hHeight.pos
        cases hEntries : measured older with
        | nil => exact hPos
        | cons e rest =>
            have hHead : e ∈ measured older := by
              rw [hEntries]
              exact List.mem_cons_self
            simp only [lastHeight]
            split
            · rename_i hInside
              have hAbove :=
                hHeight.above e.1 (mem_of_mem_measured hHead)
                  hInside
              have hLess := hBelow e hHead
              omega
            · omega
    · exact hBelow e hRest

theorem mem_measured :
    ∀ {ls : List Link} {l : Link},
      l ∈ ls → ∃ v, (l, v) ∈ measured ls
| l :: older, l', hMem => by
    rcases List.mem_cons.mp hMem with rfl | hOlder
    · exact ⟨_, List.mem_cons_self⟩
    · rcases mem_measured hOlder with ⟨v, hV⟩
      exact ⟨v, List.mem_cons_of_mem _ hV⟩

/- The highest link runs inside: the height is right. -/
theorem nextHeight_of_inside
    {high : Link}
    (hHeight : IsHeight h older l)
    (hMem : high ∈ older)
    (hPos : 1 ≤ h high)
    (hInside : Inside l high)
    (hHighest : ∀ l' ∈ older, h l' ≤ h high) :
    h high + 1 = h l ∧ ¬ Misled h older l := by
  have hAbove := hHeight.above high hMem hInside
  constructor
  · rcases hHeight.attained with hOne | ⟨l', hMem', _, hSucc⟩
    · omega
    · have hLess := hHighest l' hMem'
      omega
  · rintro ⟨⟨before, hBefore, _, hInner⟩, _⟩
    have hMore := hInner high hMem hInside
    have hLess := hHighest before hBefore
    omega

/- The link closed last runs inside, and gives the height. -/
theorem lastHeight_of_inside
    {last high : Link} {rest : List Link}
    (hHeight : IsHeight h (last :: rest) l)
    (hPos : 1 ≤ h last)
    (hRest : ∀ l' ∈ rest, l'.2 < last.2)
    (hInside : Inside l last)
    (hMem : high ∈ last :: rest)
    (hOutside : high.2 < l.1)
    (hHigher :
      ∀ inner ∈ last :: rest, Inside l inner →
        h inner < h high) :
    h last + 1 = h l ↔ ¬ Misled h (last :: rest) l := by
  have hAbove := hHeight.above last List.mem_cons_self hInside
  constructor
  · rintro hRight ⟨_, last', hMem', _, hLatest, inner, hInner⟩
    have hLast :=
      hLatest last List.mem_cons_self hInside
    rcases List.mem_cons.mp hMem' with rfl | hEarlier
    · have hBelow := hHeight.above inner hInner.1 hInner.2.1
      omega
    · have hBefore := hRest last' hEarlier
      omega
  · intro hLed
    by_contra hWrong
    apply hLed
    refine ⟨⟨high, hMem, hOutside, hHigher⟩, last,
      List.mem_cons_self, hInside, ?_, ?_⟩
    · intro inner hInner _
      rcases List.mem_cons.mp hInner with rfl | hEarlier
      · exact Nat.le_refl _
      · exact Nat.le_of_lt (hRest inner hEarlier)
    · rcases hHeight.attained with
        hOne | ⟨inner, hInner, hInside', hSucc⟩
      · omega
      · exact ⟨inner, hInner, hInside', by omega⟩

/- Where the link closed last is outside, nothing is inside. -/
theorem not_inside_of_last
    {last : Link} {rest : List Link}
    (hStacked : Stacked h (l :: last :: rest))
    (hLast : ¬ Inside l last) :
    ∀ inner ∈ last :: rest, ¬ Inside l inner := by
  rcases hStacked with ⟨_, hBefore, _, hOlder⟩
  intro inner hInner hInside
  have hEnd :=
    (hBefore last List.mem_cons_self).2.resolve_right hLast
  have hForward := (hOlder.mem hInner).2
  have hEarlier : inner.2 ≤ last.2 := by
    rcases List.mem_cons.mp hInner with rfl | hRest
    · exact Nat.le_refl _
    · exact Nat.le_of_lt (hOlder.2.1 inner hRest).1
  unfold Inside at hInside
  omega

/- The height where the highest link so far is outside. -/
theorem lastHeight_eq_iff
    {highest : Link}
    (hStacked : Stacked h (l :: older))
    (hRight : ∀ e ∈ measured older, e.2 = h e.1)
    (hHigh : highest ∈ older)
    (hOutside : highest.2 < l.1)
    (hHigher :
      ∀ inner ∈ older, Inside l inner → h inner < h highest) :
    lastHeight (measured older) l + 1 = h l ↔
      ¬ Misled h older l := by
  cases older with
  | nil => cases hHigh
  | cons last rest =>
      have hNone := not_inside_of_last hStacked
      rcases hStacked with ⟨_, _, hHeight, hOlder⟩
      by_cases hLast : Inside l last
      · have hHere :
            lastHeight (measured (last :: rest)) l =
              h last := by
          simp only [measured, lastHeight, if_pos hLast]
          exact hRight _ List.mem_cons_self
        rw [hHere]
        exact lastHeight_of_inside hHeight
          (hOlder.mem List.mem_cons_self).1
          (fun l' hMem => (hOlder.2.1 l' hMem).1) hLast
          hHigh hOutside hHigher
      · refine iff_of_true ?_ ?_
        · rcases hHeight.attained with
            hOne | ⟨inner, hInner, hInside, _⟩
          · simp only [measured, lastHeight, if_neg hLast, hOne]
          · exact absurd hInside (hNone hLast inner hInner)
        · rintro ⟨_, inner, hInner, hInside, _⟩
          exact hNone hLast inner hInner hInside

/- With right heights before, the next one is right or not. -/
theorem nextHeight_eq_iff
    (hStacked : Stacked h (l :: older))
    (hRight : ∀ e ∈ measured older, e.2 = h e.1) :
    nextHeight (measured older) l = h l ↔
      ¬ Misled h older l := by
  have hAll := hStacked
  rcases hStacked with ⟨_, hBefore, hHeight, hOlder⟩
  rcases best_spec hOlder
      (fun e hMem => (hRight e hMem).le) with
    ⟨_, rfl⟩ | ⟨e, hMem, hBest, hHighest⟩
  · refine iff_of_true ?_ ?_
    · rcases hHeight.attained with hOne | ⟨l', hMem, _⟩
      · exact hOne.symm
      · cases hMem
    · rintro ⟨⟨before, hMem, _⟩, _⟩
      cases hMem
  · have hHigh : e.1 ∈ older := mem_of_mem_measured hMem
    have hValue := hRight e hMem
    have hBelow :
        ∀ l' ∈ older,
          h l' < h e.1 ∨ (h l' = h e.1 ∧ l'.2 ≤ e.1.2) := by
      intro l' hMem'
      rcases mem_measured hMem' with ⟨v, hV⟩
      have hRight' := hRight (l', v) hV
      have hHighest' := hHighest (l', v) hV
      dsimp only at *
      rwa [hRight', hValue] at hHighest'
    have hCondition :
        (l.1 < (best (measured older)).2.1 ∧
          l.2 > (best (measured older)).2.2) ↔
            Inside l e.1 := by
      rw [hBest]
      exact Iff.rfl
    by_cases hInside : Inside l e.1
    · have hHere :=
        nextHeight_of_inside hHeight hHigh
          (hOlder.mem hHigh).1 hInside
          (fun l' hMem' => by
            rcases hBelow l' hMem' with hLess | hEqual
            · exact Nat.le_of_lt hLess
            · exact hEqual.1.le)
      refine iff_of_true ?_ hHere.2
      rw [nextHeight, if_pos (hCondition.mpr hInside), hBest,
        hValue]
      exact hHere.1
    · have hOutside : e.1.2 < l.1 :=
        (hBefore e.1 hHigh).2.resolve_right hInside
      rw [nextHeight, if_neg (mt hCondition.mp hInside)]
      refine lastHeight_eq_iff hAll hRight hHigh hOutside ?_
      intro inner hInner hInside'
      rcases hBelow inner hInner with hLess | ⟨_, hEnd⟩
      · exact hLess
      · have hForward := (hOlder.mem hInner).2
        unfold Inside at hInside'
        omega

/- All heights are right if no link is misled. -/
theorem measured_eq_iff :
    ∀ {ls : List Link},
      Stacked h ls →
        ((∀ e ∈ measured ls, e.2 = h e.1) ↔
          ∀ l ∈ ls, ¬ Misled h ls l)
| [], _ => by simp [measured]
| l :: older, hStacked => by
    have hFull := hStacked
    rcases hStacked with ⟨hForward, hBefore, hHeight, hOlder⟩
    have hRest := measured_eq_iff hOlder
    have hOwn :
        Misled h (l :: older) l ↔ Misled h older l :=
      Misled.congr hForward
        (fun l' hEnd => by
          rw [List.mem_cons, or_iff_right]
          rintro rfl
          omega)
    have hOthers :
        ∀ l' ∈ older,
          (Misled h (l :: older) l' ↔ Misled h older l') :=
      fun l' hMem =>
        Misled.congr (hOlder.mem hMem).2
          (fun l'' hEnd => by
            have hEarlier := (hBefore l' hMem).1
            rw [List.mem_cons, or_iff_right]
            rintro rfl
            omega)
    rw [measured, List.forall_mem_cons, List.forall_mem_cons,
      hOwn]
    constructor
    · rintro ⟨hNow, hRight⟩
      refine ⟨(nextHeight_eq_iff hFull hRight).mp hNow, ?_⟩
      intro l' hMem
      rw [hOthers l' hMem]
      exact hRest.mp hRight l' hMem
    · rintro ⟨hNow, hLed⟩
      have hRight :=
        hRest.mpr
          (fun l' hMem => by
            rw [← hOthers l' hMem]
            exact hLed l' hMem)
      exact ⟨(nextHeight_eq_iff hFull hRight).mpr hNow, hRight⟩

/- Too small heights are not made up for elsewhere. -/
theorem entriesLength_eq_iff :
    ∀ {entries : List Entry},
      (∀ e ∈ entries, e.2 ≤ h e.1) →
        entriesLength entries ≤
            entriesLength (entries.map (fun e => (e.1, h e.1))) ∧
          (entriesLength entries =
              entriesLength
                (entries.map (fun e => (e.1, h e.1))) ↔
            ∀ e ∈ entries, e.2 = h e.1)
| [], _ => by simp
| e :: entries, hBelow => by
    have hRest :=
      entriesLength_eq_iff
        (fun e' hMem => hBelow e' (List.mem_cons_of_mem _ hMem))
    have hFirst := hBelow e List.mem_cons_self
    rw [List.forall_mem_cons, ← hRest.2]
    simp only [entriesLength, List.map_cons, List.sum_cons] at *
    omega

end Stacked

------------------------------------------------------------
-- The Length of the Wiring
------------------------------------------------------------

theorem map_fst_measured :
    ∀ ls : List Link,
      (measured ls).map Prod.fst = ls
| [] => rfl
| l :: older => by
    rw [measured, List.map_cons, map_fst_measured older]

theorem stacked_of_sound
    {h : Link → Nat} {ls : List Link} :
    ∀ {older : List Link},
      older.Pairwise
          (fun l l' => l'.2 < l.2 ∧ (l'.2 < l.1 ∨ Inside l l')) →
        (∀ l ∈ older, l.1 < l.2 ∧ IsHeight h ls l) →
          (∀ l ∈ older, ∀ l' ∈ ls, l'.2 < l.2 → l' ∈ older) →
            (∀ l ∈ older, l ∈ ls) →
              Stacked h older
| [], _, _, _, _ => trivial
| l :: older, hClosing, hHeights, hClosed, hSub => by
    rcases List.pairwise_cons.mp hClosing with
      ⟨hBefore, hOlder⟩
    have hHere := hHeights l List.mem_cons_self
    have hMem :
        ∀ l' ∈ ls, l'.2 < l.2 → l' ∈ older := by
      intro l' hLs hEnd
      rcases List.mem_cons.mp
          (hClosed l List.mem_cons_self l' hLs hEnd) with
        rfl | hRest
      · omega
      · exact hRest
    refine ⟨hHere.1, hBefore, ⟨?_, ?_⟩,
      stacked_of_sound hOlder
        (fun l' hRest => hHeights l' (List.mem_cons_of_mem _ hRest))
        ?_
        (fun l' hRest => hSub l' (List.mem_cons_of_mem _ hRest))⟩
    · exact fun l' hRest hInside =>
        hHere.2.above l' (hSub l' (List.mem_cons_of_mem _ hRest))
          hInside
    · rcases hHere.2.attained with
        hOne | ⟨l', hLs, hInside, hSucc⟩
      · exact Or.inl hOne
      · exact Or.inr
          ⟨l', hMem l' hLs hInside.2, hInside, hSucc⟩
    · intro l' hRest l'' hLs hEnd
      exact hMem l'' hLs
        (hEnd.trans (hBefore l' hRest).1)

/-
  The length is that of the nested heights exactly if no link
  is misled.
-/
theorem minimumLength_eq_iff (s : List Char) :
    (minimumLength s).1 =
        ((links s).map
          (fun l =>
            Matchings.length l + 2 * height (links s) l)).sum ↔
      ∀ l ∈ links s, ¬ Misled (height (links s)) (links s) l := by
  have hSound := sound_wires s
  have hMem : ∀ l, l ∈ links s ↔ l ∈ (wires s).closed :=
    fun l => List.mem_reverse
  have hForward : ∀ l ∈ links s, l.1 < l.2 :=
    fun l hL => (hSound.joins l ((hMem l).mp hL)).2
  have hStacked :
      Stacked (height (links s)) (wires s).closed :=
    stacked_of_sound hSound.closing
      (fun l hL =>
        ⟨(hSound.joins l hL).2,
          height_spec hForward ((hMem l).mpr hL)⟩)
      (fun _ _ l' hL' _ => (hMem l').mp hL')
      (fun l hL => (hMem l).mpr hL)
  have hEntries := entriesLength_eq_iff (measured_le hStacked)
  have hSum :
      entriesLength
          ((measured (wires s).closed).map
            (fun e => (e.1, height (links s) e.1))) =
        ((links s).map
          (fun l =>
            Matchings.length l + 2 * height (links s) l)).sum := by
    have hLinks :
        (measured (wires s).closed).map
            (fun e => (e.1, height (links s) e.1)) =
          (wires s).closed.map
            (fun l => (l, height (links s) l)) := by
      conv_rhs => rw [← map_fst_measured (wires s).closed]
      rw [List.map_map]
      rfl
    rw [hLinks, entriesLength, List.map_map]
    exact ((List.reverse_perm (wires s).closed).map _).sum_eq.symm
  have hCongr :
      ∀ l ∈ (wires s).closed,
        (Misled (height (links s)) (links s) l ↔
          Misled (height (links s)) (wires s).closed l) :=
    fun l hL =>
      Misled.congr (hSound.joins l hL).2 (fun l' _ => hMem l')
  have hLength :
      (minimumLength s).1 =
        entriesLength (measured (wires s).closed) :=
    (measures_wire s).minimumLength
  rw [hLength, ← hSum, hEntries.2, measured_eq_iff hStacked]
  constructor
  · intro hLed l hL
    rw [hCongr l ((hMem l).mp hL)]
    exact hLed l ((hMem l).mp hL)
  · intro hLed l hL
    rw [← hCongr l hL]
    exact hLed l ((hMem l).mpr hL)

/- A high group, then a link with a low last group inside. -/
theorem not_minimumLength_eq_always :
    ¬ ∀ s : List Char,
        (∀ c ∈ s, c = '0' ∨ c = '1') →
          s.count '0' = s.count '1' →
            (minimumLength s).1 =
              ((links s).map
                (fun l =>
                  Matchings.length l +
                    2 * height (links s) l)).sum := by
  intro hAlways
  have hDigits :
      "00011100011011".toList.all
        (fun c => c = '0' || c = '1') = true := by
    decide
  have hFails :=
    hAlways "00011100011011".toList
      (fun c hMem => by
        simpa using List.all_eq_true.mp hDigits c hMem)
      (by decide)
  revert hFails
  decide

end Algorithms

end ProgrammingTasks
