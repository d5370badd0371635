import Mathlib.Data.List.Induction
import Mathlib.Order.Bounds.Basic
import ProgrammingTasks.Foundations.Matchings

/-
  The links between pins (`p3.py`).

  The two stacks of the program are one stack of free pins of
  one kind.  What the links so far and the free pins span
  together is the sum of the excess of one kind over the gaps,
  which no other way to link the pins undercuts.

  Main declarations:
    * `readPin`, `wire`, `minimumLength`
    * `Wires`, `wires`, `links`
    * `Refines`, `refines_wires`
    * `Sound`, `sound_wires`
    * `IsMatching`, `pins_optimal`
-/

------------------------------------------------------------
-- The Program
------------------------------------------------------------

namespace ProgrammingTasks

namespace Algorithms

open Matchings

/- The variables of `minimum_length`; the lists grow in front. -/
structure Wiring where
  oneList : List Nat
  zeroList : List Nat
  minimumLength : Nat
  pins : List (Nat × Nat)
  h : Nat
  hMax : Nat × Nat × Nat
deriving DecidableEq, Repr

def Wiring.start : Wiring where
  oneList := []
  zeroList := []
  minimumLength := 0
  pins := []
  h := 0
  hMax := (0, 0, 1000)

/- The height for a link from `x` to `i`. -/
def linkHeight (i x : Nat) (st : Wiring) : Nat :=
  if x < st.hMax.2.1 ∧ i > st.hMax.2.2 then
    st.hMax.1 + 1
  else
    st.h + 1

/- What both branches do with the pin that was popped. -/
def connect (i x : Nat) (st : Wiring) : Wiring :=
  let h := linkHeight i x st
  { st with
    h := h
    hMax := if h ≥ st.hMax.1 then (h, x, i) else st.hMax
    minimumLength :=
      st.minimumLength + (((i : Int) - x).natAbs + 2 * h)
    pins := st.pins ++ [(x + 1, i + 1)] }

def readPin (st : Wiring) (i : Nat) (c : Char) : Wiring :=
  if c = '1' then
    match st.zeroList with
    | [] => { st with h := 0, oneList := i :: st.oneList }
    | x :: rest => connect i x { st with zeroList := rest }
  else if c = '0' then
    match st.oneList with
    | [] => { st with h := 0, zeroList := i :: st.zeroList }
    | x :: rest => connect i x { st with oneList := rest }
  else
    st

def wire (cablaj : List Char) : Wiring :=
  cablaj.zipIdx.foldl (fun st pin => readPin st pin.2 pin.1)
    .start

def minimumLength
    (cablaj : List Char) : Nat × List (Nat × Nat) :=
  ((wire cablaj).minimumLength, (wire cablaj).pins)

example :
    minimumLength "001101".toList =
      (13, [(2, 3), (1, 4), (5, 6)]) := by
  decide

------------------------------------------------------------
-- The Links of a String
------------------------------------------------------------

/- The free pins and the links, the latest ones first. -/
structure Wires where
  free : List (Nat × Char)
  closed : List Link
deriving DecidableEq, Repr

def isPin (c : Char) : Bool :=
  c = '0' || c = '1'

/- A pin is linked with the latest free one of the other kind. -/
def Wires.next (w : Wires) (i : Nat) (c : Char) : Wires :=
  if isPin c then
    match w.free with
    | [] => { w with free := [(i, c)] }
    | (x, d) :: rest =>
        if d = c then
          { w with free := (i, c) :: w.free }
        else
          { free := rest, closed := (x, i) :: w.closed }
  else
    w

def wires (s : List Char) : Wires :=
  s.zipIdx.foldl (fun w pin => w.next pin.2 pin.1) ⟨[], []⟩

/- The links in the order in which they are closed. -/
def links (s : List Char) : List Link :=
  (wires s).closed.reverse

theorem wires_concat (s : List Char) (c : Char) :
    wires (s ++ [c]) = (wires s).next s.length c := by
  simp [wires, List.zipIdx_append]

theorem wire_concat (s : List Char) (c : Char) :
    wire (s ++ [c]) = readPin (wire s) s.length c := by
  simp [wire, List.zipIdx_append]

theorem Wires.next_skip
    {c : Char}
    (w : Wires)
    (i : Nat)
    (hPin : isPin c = false) :
    w.next i c = w := by
  simp [Wires.next, hPin]

theorem Wires.next_push
    {c : Char}
    (w : Wires)
    (i : Nat)
    (hPin : isPin c = true)
    (hKind : ∀ pin ∈ w.free, pin.2 = c) :
    w.next i c = { w with free := (i, c) :: w.free } := by
  cases hFree : w.free with
  | nil => simp [Wires.next, hPin, hFree]
  | cons pin rest =>
      have hSame := hKind pin (by simp [hFree])
      simp [Wires.next, hPin, hFree, hSame]

theorem Wires.next_pop
    {c d : Char} {x : Nat} {rest : List (Nat × Char)}
    (w : Wires)
    (i : Nat)
    (hPin : isPin c = true)
    (hFree : w.free = (x, d) :: rest)
    (hOther : d ≠ c) :
    w.next i c =
      { free := rest, closed := (x, i) :: w.closed } := by
  simp [Wires.next, hPin, hFree, hOther]

/- Pins are numbered from one. -/
def fromOne (l : Link) : Nat × Nat :=
  (l.1 + 1, l.2 + 1)

/- The stacks of the program as the free pins. -/
structure Refines (st : Wiring) (w : Wires) : Prop where
  free :
    w.free =
      st.zeroList.map (fun x => (x, '0')) ++
        st.oneList.map (fun x => (x, '1'))
  oneKind : st.zeroList = [] ∨ st.oneList = []
  pins : st.pins = w.closed.reverse.map fromOne

/-
  What a character does: it is no pin, its pin becomes free, or
  its pin is linked with the latest free one.
-/
inductive PinRead
    (st : Wiring) (w : Wires) (i : Nat) (c : Char) :
    Wiring → Wires → Prop
| skipped :
    PinRead st w i c st w
| pushed {zeros ones : List Nat} :
    (i, c) :: w.free =
        zeros.map (fun x => (x, '0')) ++
          ones.map (fun x => (x, '1')) →
      zeros = [] ∨ ones = [] →
        PinRead st w i c
          { st with h := 0, zeroList := zeros, oneList := ones }
          { w with free := (i, c) :: w.free }
| linked {x : Nat} {d : Char} {zeros ones : List Nat} :
    w.free =
        (x, d) :: (zeros.map (fun x => (x, '0')) ++
          ones.map (fun x => (x, '1'))) →
      zeros = [] ∨ ones = [] →
        PinRead st w i c
          (connect i x
            { st with zeroList := zeros, oneList := ones })
          { free :=
              zeros.map (fun x => (x, '0')) ++
                ones.map (fun x => (x, '1'))
            closed := (x, i) :: w.closed }

theorem Refines.pinRead
    {st : Wiring} {w : Wires}
    (hRefines : Refines st w)
    (i : Nat)
    (c : Char) :
    PinRead st w i c (readPin st i c) (w.next i c) := by
  have hFree := hRefines.free
  unfold readPin
  by_cases hOne : c = '1'
  · subst hOne
    rw [if_pos rfl]
    cases hZeros : st.zeroList with
    | nil =>
        rw [hZeros, List.map_nil, List.nil_append] at hFree
        rw [w.next_push i rfl (by simp [hFree])]
        exact .pushed (by simp [hFree]) (Or.inl rfl)
    | cons x rest =>
        have hNone : st.oneList = [] :=
          hRefines.oneKind.resolve_left (by simp [hZeros])
        rw [hZeros, hNone] at hFree
        rw [w.next_pop i rfl hFree (by decide), hNone]
        exact .linked hFree (Or.inr rfl)
  · rw [if_neg hOne]
    by_cases hZero : c = '0'
    · subst hZero
      rw [if_pos rfl]
      cases hOnes : st.oneList with
      | nil =>
          rw [hOnes, List.map_nil, List.append_nil] at hFree
          rw [w.next_push i rfl (by simp [hFree])]
          exact .pushed (by simp [hFree]) (Or.inr rfl)
      | cons x rest =>
          have hNone : st.zeroList = [] :=
            hRefines.oneKind.resolve_right (by simp [hOnes])
          rw [hOnes, hNone, List.map_nil, List.nil_append,
            List.map_cons] at hFree
          rw [w.next_pop i rfl hFree (by decide), hNone]
          exact .linked hFree (Or.inl rfl)
    · rw [if_neg hZero, w.next_skip i (by simp [isPin, hOne, hZero])]
      exact .skipped

theorem Refines.next
    {st st' : Wiring} {w w' : Wires} {i : Nat} {c : Char}
    (hRefines : Refines st w)
    (hRead : PinRead st w i c st' w') :
    Refines st' w' := by
  cases hRead with
  | skipped => exact hRefines
  | pushed hFree hKind => exact ⟨hFree, hKind, hRefines.pins⟩
  | linked _ hKind =>
      refine ⟨rfl, hKind, ?_⟩
      simp [connect, hRefines.pins, fromOne]

theorem refines_wires (s : List Char) :
    Refines (wire s) (wires s) := by
  induction s using List.reverseRecOn with
  | nil => exact ⟨rfl, Or.inl rfl, rfl⟩
  | append_singleton s c ih =>
      rw [wire_concat, wires_concat]
      exact ih.next (ih.pinRead s.length c)

/- The pins of the program are the links of the string. -/
theorem pins_eq_links (s : List Char) :
    (minimumLength s).2 = (links s).map fromOne :=
  (refines_wires s).pins

------------------------------------------------------------
-- Matchings of the Pins
------------------------------------------------------------

/- The positions of the pins, counted from zero. -/
def pinPositions (s : List Char) : List Nat :=
  (s.zipIdx.filter (fun pin => isPin pin.1)).map Prod.snd

/- The link joins a `0` with a `1`. -/
def Joins (s : List Char) (l : Link) : Prop :=
  (s[l.1]? = some '0' ∧ s[l.2]? = some '1') ∨
    (s[l.1]? = some '1' ∧ s[l.2]? = some '0')

/- Every pin is the end of exactly one link. -/
structure IsMatching
    (s : List Char) (matching : List Link) : Prop where
  joins : ∀ l ∈ matching, Joins s l
  ends : (ends matching).Perm (pinPositions s)

theorem pinPositions_concat (s : List Char) (c : Char) :
    pinPositions (s ++ [c]) =
      pinPositions s ++ if isPin c then [s.length] else [] := by
  rw [pinPositions, List.zipIdx_append, List.filter_append,
    List.map_append]
  cases hPin : isPin c <;> simp [hPin, pinPositions]

theorem mem_pinPositions
    {s : List Char} {p : Nat}
    (hMem : p ∈ pinPositions s) :
    p < s.length := by
  rcases List.mem_map.mp hMem with ⟨pin, hPin, rfl⟩
  have hIndex :=
    List.snd_lt_of_mem_zipIdx (List.mem_filter.mp hPin).1
  omega

theorem Joins.concat
    {s : List Char} {l : Link}
    (hJoins : Joins s l)
    (c : Char) :
    Joins (s ++ [c]) l := by
  have hKept :
      ∀ {p : Nat} {d : Char},
        s[p]? = some d → (s ++ [c])[p]? = some d := by
    intro p d hPin
    rcases List.getElem?_eq_some_iff.mp hPin with ⟨hP, _⟩
    rw [List.getElem?_append_left hP]
    exact hPin
  exact hJoins.imp
    (fun h => ⟨hKept h.1, hKept h.2⟩)
    (fun h => ⟨hKept h.1, hKept h.2⟩)

------------------------------------------------------------
-- Charges of the Pins
------------------------------------------------------------

def charge (c : Char) : Int :=
  if c = '0' then 1 else if c = '1' then -1 else 0

/- The excess of `0` over `1`. -/
def balance (s : List Char) : Int :=
  (s.map charge).sum

def chargeOf (s : List Char) (p : Nat) : Int :=
  (s[p]?.map charge).getD 0

/- The excess of either kind, over all gaps. -/
def totalExcess (s : List Char) : Nat :=
  ∑ g ∈ Finset.range s.length, (balance (s.take (g + 1))).natAbs

theorem charge_of_not_isPin
    {c : Char}
    (hPin : isPin c = false) :
    charge c = 0 := by
  simp only [isPin, Bool.or_eq_false_iff,
    decide_eq_false_iff_not] at hPin
  rw [charge, if_neg hPin.1, if_neg hPin.2]

theorem charge_of_isPin
    {c : Char}
    (hPin : isPin c = true) :
    (charge c).natAbs = 1 := by
  simp only [isPin, Bool.or_eq_true, decide_eq_true_eq] at hPin
  rcases hPin with rfl | rfl
  · rfl
  · rfl

theorem balance_concat (s : List Char) (c : Char) :
    balance (s ++ [c]) = balance s + charge c := by
  simp [balance]

theorem balance_eq_count (s : List Char) :
    balance s = (s.count '0' : Int) - s.count '1' := by
  induction s using List.reverseRecOn with
  | nil => rfl
  | append_singleton s c ih =>
      rw [balance_concat, ih, charge]
      by_cases hZero : c = '0'
      · subst hZero
        simp
        omega
      · by_cases hOne : c = '1'
        · subst hOne
          simp
          omega
        · simp [hZero, hOne]

theorem totalExcess_concat (s : List Char) (c : Char) :
    totalExcess (s ++ [c]) =
      totalExcess s + (balance (s ++ [c])).natAbs := by
  have hBefore :
      ∀ g ∈ Finset.range s.length,
        (balance ((s ++ [c]).take (g + 1))).natAbs =
          (balance (s.take (g + 1))).natAbs := by
    intro g hG
    rw [List.take_append_of_le_length
      (Finset.mem_range.mp hG)]
  rw [totalExcess, List.length_append, List.length_singleton,
    Finset.sum_range_succ, Finset.sum_congr rfl hBefore,
    List.take_of_length_le (by simp), totalExcess]

/- The charge of the pins up to a gap is the excess there. -/
theorem chargeUpTo_pinPositions :
    ∀ {s : List Char} {w : Nat → Int},
      (∀ p c, s[p]? = some c → w p = charge c) →
        ∀ g,
          chargeUpTo w (pinPositions s) g =
            balance (s.take (g + 1)) := by
  intro s
  induction s using List.reverseRecOn with
  | nil =>
      intro w _ g
      rfl
  | append_singleton s c ih =>
      intro w hCharge g
      have hLast : w s.length = charge c :=
        hCharge s.length c (by simp)
      have hBefore :=
        ih (w := w)
          (fun p d hPin =>
            hCharge p d
              (by
                rcases List.getElem?_eq_some_iff.mp hPin with
                  ⟨hP, _⟩
                rw [List.getElem?_append_left hP]
                exact hPin)) g
      rw [chargeUpTo] at hBefore ⊢
      rw [pinPositions_concat, List.map_append, List.sum_append,
        hBefore]
      by_cases hG : s.length ≤ g
      · have hShort : (s ++ [c]).length ≤ g + 1 := by
          rw [List.length_append, List.length_singleton]
          omega
        rw [List.take_of_length_le hShort,
          List.take_of_length_le (by omega), balance_concat]
        cases hPin : isPin c with
        | false => simp [charge_of_not_isPin hPin]
        | true => simp [chargeAt, hG, hLast]
      · rw [List.take_append_of_le_length (by omega)]
        cases hPin : isPin c with
        | false => simp
        | true => simp [chargeAt, hG]

theorem Joins.opposite
    {s : List Char} {l : Link}
    (hJoins : Joins s l) :
    chargeOf s l.1 + chargeOf s l.2 = 0 ∧
      (chargeOf s l.1).natAbs ≤ 1 := by
  rcases hJoins with ⟨hX, hI⟩ | ⟨hX, hI⟩
  · rw [chargeOf, chargeOf, hX, hI]
    decide
  · rw [chargeOf, chargeOf, hX, hI]
    decide

/- No matching is shorter than the excess over the gaps. -/
theorem totalExcess_le
    {s : List Char} {matching : List Link}
    (hMatching : IsMatching s matching) :
    totalExcess s ≤ totalLength matching := by
  have hBound :=
    sum_charge_le_totalLength s.length
      (fun l hMem => (hMatching.joins l hMem).opposite)
  have hGaps :
      ∀ g ∈ Finset.range s.length,
        (chargeUpTo (chargeOf s) (ends matching) g).natAbs =
          (balance (s.take (g + 1))).natAbs := by
    intro g _
    rw [chargeUpTo_perm (chargeOf s) hMatching.ends g,
      chargeUpTo_pinPositions
        (fun p c hPin => by rw [chargeOf, hPin]; rfl)]
  rw [Finset.sum_congr rfl hGaps] at hBound
  exact hBound

------------------------------------------------------------
-- The Links Are a Shortest Matching
------------------------------------------------------------

/- What the free pins span up to the end. -/
def looseEnds (n : Nat) (free : List (Nat × Char)) : Nat :=
  (free.map (fun pin => n - pin.1)).sum

theorem looseEnds_succ
    {n : Nat} :
    ∀ {free : List (Nat × Char)},
      (∀ pin ∈ free, pin.1 ≤ n) →
        looseEnds (n + 1) free = looseEnds n free + free.length
| [], _ => rfl
| pin :: free, hBelow => by
    have hRest :=
      looseEnds_succ
        (fun pin' hMem => hBelow pin' (List.mem_cons_of_mem _ hMem))
    have hFirst := hBelow pin List.mem_cons_self
    simp only [looseEnds, List.map_cons, List.sum_cons,
      List.length_cons] at *
    omega

structure Sound (s : List Char) (w : Wires) : Prop where
  kind : ∃ d, isPin d = true ∧ ∀ pin ∈ w.free, pin.2 = d
  found : ∀ pin ∈ w.free, s[pin.1]? = some pin.2
  ordered : w.free.Pairwise (fun pin pin' => pin'.1 < pin.1)
  joins : ∀ l ∈ w.closed, Joins s l ∧ l.1 < l.2
  ends :
    (ends w.closed ++ w.free.map Prod.fst).Perm (pinPositions s)
  apart :
    ∀ pin ∈ w.free, ∀ l ∈ w.closed, l.2 < pin.1 ∨ pin.1 < l.1
  closing :
    w.closed.Pairwise
      (fun l l' => l'.2 < l.2 ∧ (l'.2 < l.1 ∨ Inside l l'))
  excess : balance s = (w.free.map (fun pin => charge pin.2)).sum
  spanned :
    totalLength w.closed + looseEnds s.length w.free =
      totalExcess s

section Sound

variable {s : List Char} {w : Wires} {c : Char}

theorem Sound.below
    (hSound : Sound s w)
    {pin : Nat × Char}
    (hMem : pin ∈ w.free) :
    pin.1 < s.length :=
  mem_pinPositions
    (hSound.ends.subset
      (List.mem_append_right _ (List.mem_map_of_mem hMem)))

theorem Sound.closed_below
    (hSound : Sound s w)
    {l : Link}
    (hMem : l ∈ w.closed) :
    l.2 < s.length :=
  mem_pinPositions
    (hSound.ends.subset
      (List.mem_append_left _
        (List.mem_flatMap.mpr ⟨l, hMem, by simp⟩)))

/- As many free pins as there is excess. -/
theorem natAbs_excess
    {d : Char} :
    ∀ {free : List (Nat × Char)},
      isPin d = true → (∀ pin ∈ free, pin.2 = d) →
        (free.map (fun pin => charge pin.2)).sum.natAbs =
          free.length := by
  intro free hPin hKind
  have hSum :
      (free.map (fun pin => charge pin.2)).sum =
        free.length * charge d := by
    clear hPin
    induction free with
    | nil => simp
    | cons pin free ih =>
        rw [List.map_cons, List.sum_cons,
          ih (fun pin' hMem =>
            hKind pin' (List.mem_cons_of_mem _ hMem)),
          hKind pin List.mem_cons_self, List.length_cons]
        push_cast
        ring
  rw [hSum, Int.natAbs_mul, charge_of_isPin hPin, Int.natAbs_natCast,
    Nat.mul_one]

theorem Sound.natAbs_balance
    (hSound : Sound s w) :
    (balance s).natAbs = w.free.length := by
  rcases hSound.kind with ⟨d, hPin, hKind⟩
  rw [hSound.excess]
  exact natAbs_excess hPin hKind

theorem found_concat
    {pin : Nat × Char}
    (hFound : s[pin.1]? = some pin.2) :
    (s ++ [c])[pin.1]? = some pin.2 := by
  rcases List.getElem?_eq_some_iff.mp hFound with ⟨hP, _⟩
  rw [List.getElem?_append_left hP]
  exact hFound

/- A character that is no pin. -/
theorem Sound.skip
    (hSound : Sound s w)
    (hPin : isPin c = false) :
    Sound (s ++ [c]) w := by
  have hBalance : balance (s ++ [c]) = balance s := by
    rw [balance_concat, charge_of_not_isPin hPin, add_zero]
  have hLoose :=
    looseEnds_succ (n := s.length)
      (fun pin hMem => Nat.le_of_lt (hSound.below hMem))
  refine
    { kind := hSound.kind
      found := fun pin hMem => found_concat (hSound.found pin hMem)
      ordered := hSound.ordered
      joins := fun l hMem =>
        ⟨(hSound.joins l hMem).1.concat c,
          (hSound.joins l hMem).2⟩
      ends := ?_
      apart := hSound.apart
      closing := hSound.closing
      excess := ?_
      spanned := ?_ }
  · rw [pinPositions_concat, hPin]
    simpa using hSound.ends
  · rw [hBalance]
    exact hSound.excess
  · rw [totalExcess_concat, hBalance, hSound.natAbs_balance,
      ← hSound.spanned, List.length_append,
      List.length_singleton, hLoose]
    omega

/- A pin of the kind of the free ones. -/
theorem Sound.push
    (hSound : Sound s w)
    (hPin : isPin c = true)
    (hKind : ∀ pin ∈ w.free, pin.2 = c) :
    Sound (s ++ [c]) { w with free := (s.length, c) :: w.free } := by
  have hKind' : ∀ pin ∈ (s.length, c) :: w.free, pin.2 = c := by
    intro pin hMem
    rcases List.mem_cons.mp hMem with rfl | hBefore
    · rfl
    · exact hKind pin hBefore
  have hExcess :
      balance (s ++ [c]) =
        (((s.length, c) :: w.free).map
          (fun pin => charge pin.2)).sum := by
    rw [balance_concat, hSound.excess, List.map_cons,
      List.sum_cons, add_comm]
  have hLoose :=
    looseEnds_succ (n := s.length)
      (fun pin hMem => Nat.le_of_lt (hSound.below hMem))
  refine
    { kind := ⟨c, hPin, hKind'⟩
      found := ?_
      ordered :=
        List.pairwise_cons.mpr
          ⟨fun pin hMem => hSound.below hMem, hSound.ordered⟩
      joins := fun l hMem =>
        ⟨(hSound.joins l hMem).1.concat c,
          (hSound.joins l hMem).2⟩
      ends := ?_
      apart := ?_
      closing := hSound.closing
      excess := hExcess
      spanned := ?_ }
  · intro pin hMem
    rcases List.mem_cons.mp hMem with rfl | hBefore
    · simp
    · exact found_concat (hSound.found pin hBefore)
  · rw [pinPositions_concat, hPin, if_pos rfl]
    have hLast :=
      (hSound.ends.append_right [s.length])
    refine List.Perm.trans ?_ hLast
    rw [List.map_cons, List.append_assoc]
    exact (List.perm_append_singleton _ _).symm.append_left _
  · intro pin hMem l hClosed
    rcases List.mem_cons.mp hMem with rfl | hBefore
    · exact Or.inl (hSound.closed_below hClosed)
    · exact hSound.apart pin hBefore l hClosed
  · rw [totalExcess_concat, hExcess,
      natAbs_excess hPin hKind', ← hSound.spanned,
      List.length_append, List.length_singleton, looseEnds,
      List.map_cons, List.sum_cons, List.length_cons]
    have hRest := hLoose
    unfold looseEnds at hRest ⊢
    dsimp only
    omega

theorem kinds_of_pins
    {c d : Char}
    (hFirst : isPin d = true)
    (hSecond : isPin c = true)
    (hOther : d ≠ c) :
    (d = '0' ∧ c = '1') ∨ (d = '1' ∧ c = '0') := by
  simp only [isPin, Bool.or_eq_true, decide_eq_true_eq]
    at hFirst hSecond
  rcases hFirst with rfl | rfl
  · exact Or.inl
      ⟨rfl, hSecond.resolve_left (fun h => hOther h.symm)⟩
  · exact Or.inr
      ⟨rfl, hSecond.resolve_right (fun h => hOther h.symm)⟩

/- A pin of the other kind closes the latest link. -/
theorem Sound.pop
    (hSound : Sound s w)
    (hPin : isPin c = true)
    {x : Nat} {d : Char} {rest : List (Nat × Char)}
    (hFree : w.free = (x, d) :: rest)
    (hOther : d ≠ c) :
    Sound (s ++ [c])
      { free := rest, closed := (x, s.length) :: w.closed } := by
  have hFirst : (x, d) ∈ w.free := by
    rw [hFree]
    exact List.mem_cons_self
  have hRest : ∀ pin ∈ rest, pin ∈ w.free := by
    intro pin hMem
    rw [hFree]
    exact List.mem_cons_of_mem _ hMem
  have hBelow : x < s.length := hSound.below hFirst
  have hOrdered := hSound.ordered
  rw [hFree] at hOrdered
  rcases List.pairwise_cons.mp hOrdered with
    ⟨hUnder, hOrdered'⟩
  rcases hSound.kind with ⟨d', hPin', hKind⟩
  have hD : d = d' := hKind (x, d) hFirst
  subst hD
  have hKind' : ∀ pin ∈ rest, pin.2 = d :=
    fun pin hMem => hKind pin (hRest pin hMem)
  have hKinds := kinds_of_pins hPin' hPin hOther
  have hCharges : charge c = - charge d := by
    rcases hKinds with ⟨rfl, rfl⟩ | ⟨rfl, rfl⟩
    · rfl
    · rfl
  have hExcess :
      balance (s ++ [c]) =
        (rest.map (fun pin => charge pin.2)).sum := by
    rw [balance_concat, hSound.excess, hFree, List.map_cons,
      List.sum_cons, hCharges]
    ring
  have hJoins : Joins (s ++ [c]) (x, s.length) := by
    have hLast : (s ++ [c])[s.length]? = some c := by simp
    have hStart : (s ++ [c])[x]? = some d :=
      found_concat (hSound.found (x, d) hFirst)
    rcases hKinds with ⟨rfl, rfl⟩ | ⟨rfl, rfl⟩
    · exact Or.inl ⟨hStart, hLast⟩
    · exact Or.inr ⟨hStart, hLast⟩
  have hBefore : ∀ pin ∈ rest, pin.1 ≤ s.length :=
    fun pin hMem =>
      Nat.le_of_lt (hSound.below (hRest pin hMem))
  have hLoose := looseEnds_succ hBefore
  refine
    { kind := ⟨d, hPin', hKind'⟩
      found := fun pin hMem =>
        found_concat (hSound.found pin (hRest pin hMem))
      ordered := hOrdered'
      joins := ?_
      ends := ?_
      apart := ?_
      closing := ?_
      excess := hExcess
      spanned := ?_ }
  · intro l hMem
    rcases List.mem_cons.mp hMem with rfl | hBefore
    · exact ⟨hJoins, hBelow⟩
    · exact ⟨(hSound.joins l hBefore).1.concat c,
        (hSound.joins l hBefore).2⟩
  · have hEnds := hSound.ends
    rw [hFree] at hEnds
    rw [pinPositions_concat, hPin, if_pos rfl]
    refine List.Perm.trans ?_ (hEnds.append_right [s.length])
    rw [List.perm_iff_count]
    intro p
    simp only [ends_cons, List.map_cons, List.count_append,
      List.count_cons, List.count_nil, List.cons_append]
    omega
  · intro pin hMem l hClosed
    rcases List.mem_cons.mp hClosed with rfl | hBefore
    · exact Or.inr (hUnder pin hMem)
    · exact hSound.apart pin (hRest pin hMem) l hBefore
  · refine List.pairwise_cons.mpr ⟨?_, hSound.closing⟩
    intro l hClosed
    have hBefore := hSound.closed_below hClosed
    refine ⟨hBefore, ?_⟩
    rcases hSound.apart (x, d) hFirst l hClosed with
      hLeft | hInside
    · exact Or.inl hLeft
    · exact Or.inr ⟨hInside, hBefore⟩
  · have hSpanned := hSound.spanned
    rw [hFree] at hSpanned
    rw [totalExcess_concat, hExcess, natAbs_excess hPin' hKind',
      ← hSpanned, List.length_append, List.length_singleton,
      hLoose, totalLength_cons]
    simp only [looseEnds, List.map_cons, List.sum_cons,
      Matchings.length]
    omega

theorem sound_wires (s : List Char) :
    Sound s (wires s) := by
  induction s using List.reverseRecOn with
  | nil =>
      exact
        { kind := ⟨'0', rfl, by simp [wires]⟩
          found := by simp [wires]
          ordered := .nil
          joins := by simp [wires]
          ends := .refl _
          apart := by simp [wires]
          closing := .nil
          excess := rfl
          spanned := rfl }
  | append_singleton s c ih =>
      rw [wires_concat]
      cases hPin : isPin c with
      | false =>
          rw [Wires.next_skip _ _ hPin]
          exact ih.skip hPin
      | true =>
          rcases ih.kind with ⟨d, _, hKind⟩
          by_cases hSame : ∀ pin ∈ (wires s).free, pin.2 = c
          · rw [Wires.next_push _ _ hPin hSame]
            exact ih.push hPin hSame
          · cases hFree : (wires s).free with
            | nil => exact absurd (by simp [hFree]) hSame
            | cons pin rest =>
                rcases pin with ⟨x, d'⟩
                have hOther : d' ≠ c := by
                  rintro rfl
                  apply hSame
                  intro pin hMem
                  rw [hKind pin hMem,
                    ← hKind (x, d') (by simp [hFree])]
                rw [Wires.next_pop _ _ hPin hFree hOther]
                exact ih.pop hPin hFree hOther

/- With as many pins of each kind none stays free. -/
theorem Sound.free_eq_nil
    (hSound : Sound s w)
    (hBalanced : s.count '0' = s.count '1') :
    w.free = [] := by
  apply List.eq_nil_of_length_eq_zero
  rw [← hSound.natAbs_balance, balance_eq_count, hBalanced,
    Int.sub_self]
  rfl

end Sound

/-
  The pins are a perfect matching without crossing links, and
  no other perfect matching is shorter.
-/
theorem pins_optimal
    {s : List Char}
    (hBalanced : s.count '0' = s.count '1') :
    ∃ matching : List Link,
      (minimumLength s).2 = matching.map fromOne ∧
        IsMatching s matching ∧
        matching.Pairwise NonCrossing ∧
        IsLeast
          {total | ∃ m, IsMatching s m ∧ totalLength m = total}
          (totalLength matching) := by
  have hSound := sound_wires s
  have hFree := hSound.free_eq_nil hBalanced
  have hPerm : (links s).Perm (wires s).closed :=
    List.reverse_perm _
  have hMatching : IsMatching s (links s) := by
    refine ⟨fun l hMem => ?_, ?_⟩
    · exact (hSound.joins l (hPerm.subset hMem)).1
    · have hEnds := hSound.ends
      rw [hFree, List.map_nil, List.append_nil] at hEnds
      exact (ends_perm hPerm).trans hEnds
  refine ⟨links s, pins_eq_links s, hMatching, ?_,
    ⟨links s, hMatching, rfl⟩, ?_⟩
  · refine List.pairwise_reverse.mpr
      (hSound.closing.imp ?_)
    rintro l l' ⟨_, hBefore | hInside⟩
    · exact Or.inl hBefore
    · exact Or.inr (Or.inr (Or.inr hInside))
  · rintro total ⟨m, hOther, rfl⟩
    have hSpanned := hSound.spanned
    rw [hFree] at hSpanned
    rw [totalLength_perm hPerm]
    exact hSpanned.trans_le (totalExcess_le hOther)

/- Six pins, as in `cablaj.in`. -/
theorem pins_optimal_sixPins :
    ∃ matching : List Link,
      (minimumLength "001101".toList).2 =
          matching.map fromOne ∧
        IsMatching "001101".toList matching ∧
        matching.Pairwise NonCrossing ∧
        IsLeast
          {total | ∃ m,
            IsMatching "001101".toList m ∧
              totalLength m = total}
          (totalLength matching) :=
  pins_optimal (by decide)

end Algorithms

end ProgrammingTasks
