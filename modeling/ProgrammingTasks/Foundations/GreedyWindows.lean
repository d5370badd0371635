import Mathlib.Data.List.Chain

/-
  Greedy windows of a sequence.

  A scan keeps one window open.  An element that is beyond the
  first element of the open window closes it and opens the
  next one; any other element joins the open window.

  Main declarations:
    * `Window`, `Scan`, `scan`
    * `Greedy`, `greedy_scan`
    * `Opens`, `NeverAlone`
    * `closed_ne_nil_iff`
-/

------------------------------------------------------------
-- Scanning
------------------------------------------------------------

namespace ProgrammingTasks

namespace GreedyWindows

variable {α : Type}

/- A window has a first element. -/
structure Window (α : Type) where
  first : α
  others : List α

def Window.members (w : Window α) : List α :=
  w.first :: w.others

/- The windows that are closed, and the one that is open. -/
structure Scan (α : Type) where
  closed : List (Window α)
  opened : Option (Window α)

/- All windows of a scan, in their order. -/
def Scan.windows (s : Scan α) : List (Window α) :=
  s.closed ++ s.opened.toList

variable (beyond : α → α → Bool)

/- One element. -/
def Scan.feed (s : Scan α) (x : α) : Scan α :=
  match s.opened with
  | none => { s with opened := some ⟨x, []⟩ }
  | some w =>
      if beyond w.first x then
        { closed := s.closed ++ [w], opened := some ⟨x, []⟩ }
      else
        { s with opened := some ⟨w.first, w.others ++ [x]⟩ }

/- A sequence of elements. -/
def scan (xs : List α) : Scan α :=
  xs.foldl (Scan.feed beyond) ⟨[], none⟩

/- What holds of the windows of a scan of a sequence. -/
structure Greedy (xs : List α) (s : Scan α) : Prop where
  started : s.opened = none → s.closed = []
  members : s.windows.flatMap Window.members = xs
  within :
    ∀ w ∈ s.windows, ∀ x ∈ w.others,
      beyond w.first x = false
  apart :
    (s.windows.map Window.first).IsChain
      (fun x y => beyond x y = true)

/- One more element. -/
theorem Greedy.feed
    {beyond : α → α → Bool}
    {xs : List α} {s : Scan α}
    (hGreedy : Greedy beyond xs s)
    (x : α) :
    Greedy beyond (xs ++ [x]) (s.feed beyond x) := by
  rcases s with ⟨closed, opened⟩
  rcases hGreedy with ⟨hStarted, hMembers, hWithin, hApart⟩
  simp only [Scan.windows] at hStarted hMembers hWithin hApart
  cases opened with
  | none =>
      have hNil : closed = [] := hStarted rfl
      subst hNil
      have hEmpty : xs = [] := hMembers.symm
      subst hEmpty
      refine ⟨fun hNone => (nomatch hNone), rfl, ?_, ?_⟩
      · simp [Scan.feed, Scan.windows]
      · simp [Scan.feed, Scan.windows]
  | some w =>
      simp only [Option.toList_some] at hMembers hWithin hApart
      by_cases hBeyond : beyond w.first x = true
      · simp only [Scan.feed, hBeyond, if_true]
        refine ⟨fun hNone => (nomatch hNone), ?_, ?_, ?_⟩
        · simp only [Scan.windows, Option.toList_some]
          rw [List.flatMap_append, hMembers]
          rfl
        · intro v hv y hy
          rcases List.mem_append.mp hv with hOld | hNew
          · exact hWithin v hOld y hy
          · rw [List.mem_singleton.mp hNew] at hy
            cases hy
        · simp only [Scan.windows, Option.toList_some]
          rw [List.map_append, List.isChain_append]
          refine ⟨hApart, List.isChain_singleton x, ?_⟩
          intro y hy z hz
          simp only [List.map_append, List.map_cons,
            List.map_nil, List.getLast?_concat,
            Option.mem_some] at hy
          simp only [List.map_cons, List.map_nil,
            List.head?_cons, Option.mem_some] at hz
          rw [← hy, ← hz]
          exact hBeyond
      · simp only [Scan.feed, hBeyond]
        refine ⟨fun hNone => (nomatch hNone), ?_, ?_, ?_⟩
        · rw [← hMembers]
          simp [Scan.windows, Window.members]
        · intro v hv y hy
          rcases List.mem_append.mp hv with hOld | hNew
          · exact hWithin v (List.mem_append_left _ hOld) y hy
          · rw [List.mem_singleton.mp hNew] at hy ⊢
            rcases List.mem_append.mp hy with hJoined | hLast
            · exact hWithin w
                (List.mem_append_right _ List.mem_cons_self)
                y hJoined
            · rw [List.mem_singleton.mp hLast]
              exact Bool.eq_false_iff.mpr hBeyond
        · simpa [Scan.windows] using hApart

/- The windows of every sequence are greedy. -/
theorem greedy_scan (xs : List α) :
    Greedy beyond xs (scan beyond xs) := by
  induction xs using List.reverseRecOn with
  | nil =>
      exact ⟨fun _ => rfl, rfl, fun w hw => (nomatch hw),
        List.isChain_nil⟩
  | append_singleton xs x ih =>
      rw [scan, List.foldl_append]
      exact ih.feed x

------------------------------------------------------------
-- Windows of One Element
------------------------------------------------------------

/-
  The first element of a sequence opens a window, and so do
  the elements that open one in the rest from the first
  element on that is beyond it.
-/
inductive Opens : List α → List α → Prop
| here {xs : List α} :
    Opens xs xs
| later {x y : α} {within rest xs : List α} :
    (∀ z ∈ within, beyond x z = false) →
      beyond x y = true → Opens (y :: rest) xs →
        Opens (x :: (within ++ y :: rest)) xs

/- No element that opens a window is followed by one beyond. -/
def NeverAlone (xs : List α) : Prop :=
  ∀ x y rest, Opens beyond xs (x :: y :: rest) →
    beyond x y = false

variable {beyond}

/- A sequence has at most one first element beyond another. -/
theorem split_eq_of_beyond
    {x : α} :
    ∀ {within within' : List α} {y y' : α}
      {rest rest' : List α},
      (∀ z ∈ within, beyond x z = false) →
        beyond x y = true →
          (∀ z ∈ within', beyond x z = false) →
            beyond x y' = true →
              within ++ y :: rest = within' ++ y' :: rest' →
                within = within' ∧ y :: rest = y' :: rest'
| [], [], _, _, _, _, _, _, _, _, hSame => ⟨rfl, hSame⟩
| [], z :: within', y, y', _, _, _, hBeyond, hWithin', _,
    hSame => by
    have hFirst := hWithin' z List.mem_cons_self
    rw [← (List.cons.inj hSame).1, hBeyond] at hFirst
    cases hFirst
| z :: within, [], y, y', _, _, hWithin, _, _, hBeyond',
    hSame => by
    have hFirst := hWithin z List.mem_cons_self
    rw [(List.cons.inj hSame).1, hBeyond'] at hFirst
    cases hFirst
| z :: within, z' :: within', y, y', rest, rest', hWithin,
    hBeyond, hWithin', hBeyond', hSame => by
    rcases List.cons.inj hSame with ⟨rfl, hTail⟩
    rcases split_eq_of_beyond
        (fun w hw => hWithin w (List.mem_cons_of_mem _ hw))
        hBeyond
        (fun w hw => hWithin' w (List.mem_cons_of_mem _ hw))
        hBeyond' hTail with
      ⟨rfl, hRest⟩
    exact ⟨rfl, hRest⟩

/- A window that is closed has a second element. -/
theorem neverAlone_split_iff
    {x y : α} {within rest : List α}
    (hWithin : ∀ z ∈ within, beyond x z = false)
    (hBeyond : beyond x y = true) :
    NeverAlone beyond (x :: (within ++ y :: rest)) ↔
      within ≠ [] ∧ NeverAlone beyond (y :: rest) := by
  constructor
  · intro hNever
    refine ⟨?_, ?_⟩
    · rintro rfl
      have hNot := hNever x y rest .here
      rw [hBeyond] at hNot
      cases hNot
    · intro x' y' rest' hOpens
      exact hNever x' y' rest' (.later hWithin hBeyond hOpens)
  · rintro ⟨hSome, hNever⟩ x' y' rest' hOpens
    rcases List.exists_cons_of_ne_nil hSome with
      ⟨z, within', rfl⟩
    generalize hList : x :: (z :: within' ++ y :: rest) = xs
      at hOpens
    cases hOpens with
    | here =>
        cases hList
        exact hWithin _ List.mem_cons_self
    | @later x'' y'' within'' rest'' _ hWithin'' hBeyond''
        hOpens =>
        rcases List.cons.inj hList with ⟨rfl, hTail⟩
        rcases split_eq_of_beyond hWithin hBeyond hWithin''
            hBeyond'' hTail with
          ⟨rfl, hRest⟩
        rw [← hRest] at hOpens
        exact hNever x' y' rest' hOpens

/- In a window that stays open nothing is closed. -/
theorem neverAlone_within
    {x : α} {within : List α}
    (hWithin : ∀ z ∈ within, beyond x z = false) :
    NeverAlone beyond (x :: within) := by
  intro x' y' rest' hOpens
  generalize hList : x :: within = xs at hOpens
  cases hOpens with
  | here =>
      cases hList
      exact hWithin _ List.mem_cons_self
  | @later x'' y'' within'' rest'' _ _ hBeyond'' _ =>
      rcases List.cons.inj hList with ⟨rfl, rfl⟩
      have hNot :=
        hWithin y''
          (List.mem_append_right _ List.mem_cons_self)
      rw [hBeyond''] at hNot
      cases hNot

/- Elements that are not beyond join the open window. -/
theorem foldl_within
    {closed : List (Window α)} :
    ∀ {within : List α} (w : Window α),
      (∀ z ∈ within, beyond w.first z = false) →
        within.foldl (Scan.feed beyond) ⟨closed, some w⟩ =
          ⟨closed, some ⟨w.first, w.others ++ within⟩⟩
| [], w, _ => by
    simp
| z :: within, w, hWithin => by
    have hFirst := hWithin z List.mem_cons_self
    rw [List.foldl_cons]
    simp only [Scan.feed, hFirst, Bool.false_eq_true, if_false]
    rw [foldl_within ⟨w.first, w.others ++ [z]⟩
      (fun z hz => hWithin z (List.mem_cons_of_mem _ hz))]
    simp

/- What is closed before does not matter. -/
theorem foldl_closed
    {opened : Option (Window α)} :
    ∀ (xs : List α) (closed : List (Window α)),
      (xs.foldl (Scan.feed beyond) ⟨closed, opened⟩).closed =
        closed ++
          (xs.foldl (Scan.feed beyond) ⟨[], opened⟩).closed
| [], closed => by
    simp
| x :: xs, closed => by
    cases opened with
    | none =>
        exact foldl_closed xs closed
    | some w =>
        simp only [List.foldl_cons, Scan.feed]
        split
        · rw [foldl_closed xs (closed ++ [w]),
            foldl_closed xs ([] ++ [w]), List.nil_append,
            List.append_assoc]
        · exact foldl_closed xs closed

/- The first window is closed by the first element beyond. -/
theorem closed_scan_split
    {x y : α} {within rest : List α}
    (hWithin : ∀ z ∈ within, beyond x z = false)
    (hBeyond : beyond x y = true) :
    (scan beyond (x :: (within ++ y :: rest))).closed =
      ⟨x, within⟩ :: (scan beyond (y :: rest)).closed := by
  have hJoined :=
    @foldl_within α beyond [] within ⟨x, []⟩ hWithin
  rw [scan, List.foldl_cons, List.foldl_append]
  change
    ((y :: rest).foldl (Scan.feed beyond)
      (within.foldl (Scan.feed beyond)
        ⟨[], some ⟨x, []⟩⟩)).closed = _
  rw [hJoined, List.foldl_cons]
  simp only [Scan.feed, hBeyond, if_true, List.nil_append]
  rw [foldl_closed]
  rfl

/- Every window that is closed has a second element. -/
theorem closed_ne_nil_iff (beyond : α → α → Bool) :
    ∀ xs : List α,
      (∀ w ∈ (scan beyond xs).closed, w.others ≠ []) ↔
        NeverAlone beyond xs
| [] => by
    refine iff_of_true (fun w hw => nomatch hw) ?_
    intro x y rest hOpens
    cases hOpens
| x :: xs => by
    cases hFind : xs.find? (beyond x) with
    | none =>
        have hWithin : ∀ z ∈ xs, beyond x z = false := by
          intro z hz
          exact Bool.eq_false_iff.mpr
            (List.find?_eq_none.mp hFind z hz)
        have hClosed :
            (scan beyond (x :: xs)).closed = [] :=
          congrArg Scan.closed
            (@foldl_within α beyond [] xs ⟨x, []⟩ hWithin)
        rw [hClosed]
        exact iff_of_true (fun w hw => nomatch hw)
          (neverAlone_within hWithin)
    | some y =>
        rcases List.find?_eq_some_iff_append.mp hFind with
          ⟨hBeyond, within, rest, hSplit, hWithin⟩
        have hWithin : ∀ z ∈ within, beyond x z = false := by
          intro z hz
          simpa using hWithin z hz
        have hShorter : rest.length < xs.length := by
          rw [hSplit, List.length_append, List.length_cons]
          omega
        rw [hSplit, closed_scan_split hWithin hBeyond,
          neverAlone_split_iff hWithin hBeyond,
          ← closed_ne_nil_iff beyond (y :: rest)]
        simp only [List.mem_cons, forall_eq_or_imp]
termination_by xs => xs.length
decreasing_by
  exact Nat.succ_lt_succ hShorter

end GreedyWindows

end ProgrammingTasks
