import Mathlib.Logic.Function.Basic
import Mathlib.Data.List.Basic
import Mathlib.Data.Fintype.Pi

/-
  The priority table of the thread scheduler
  (`priority_table.c`): one FIFO list for every priority
  from 0 to `SO_MAX_PRIO`.

  `TP.Filed` is its invariant: every list holds distinct
  elements, each at the index of its own priority.

  Main declarations:
    * `TP.getHead_isSome_iff`
    * `TP.Filed.getHead_spec`
    * `TP.Filed.insert`
    * `TP.Filed.remove`
-/

------------------------------------------------------------
-- Table Operations
------------------------------------------------------------

namespace ProgrammingTasks

namespace Scheduler

/- The maximum priority that can be assigned to a thread. -/
def soMaxPrio : Nat := 5

/-
  The vector of linked lists.  Its size is the only one the
  scheduler creates, `SO_MAX_PRIO + 1`; a list stands for the
  chain of cells, the first cell at its head.
-/
structure TP (α : Type) where
  v : Fin (soMaxPrio + 1) → List α
deriving DecidableEq

namespace TP

variable {α : Type}

/- `calloc` leaves every list empty. -/
def priorityTableCreate : TP α where
  v := fun _ => []

/-
  Put an element at the end of the list of its priority.  A
  priority above `SO_MAX_PRIO` is ignored.
-/
def priorityTableInsert
    (atp : TP α)
    (info : α)
    (priority : Nat) : TP α :=
  if hPriority : priority > soMaxPrio then
    atp
  else
    let index : Fin (soMaxPrio + 1) :=
      ⟨priority, by omega⟩
    { v := Function.update atp.v index
        (atp.v index ++ [info]) }

/-
  Unlink the first cell of the list at the given priority, if
  there is one.  The source indexes the vector unchecked; its
  callers pass the priority of a stored thread.
-/
def priorityTableRemove
    (atp : TP α)
    (priority : Nat) : TP α :=
  if hIndex : priority < soMaxPrio + 1 then
    let index : Fin (soMaxPrio + 1) := ⟨priority, hIndex⟩
    { v := Function.update atp.v index
        (atp.v index).tail }
  else
    atp

/-
  The loop of `get_head`: look at the lists below `p`, from
  the highest one down, for a first cell.
-/
def getHeadBelow
    (atp : TP α) :
    (p : Nat) → p ≤ soMaxPrio + 1 → Option α
| 0, _ => none
| p + 1, hp =>
    match atp.v ⟨p, hp⟩ with
    | node :: _ => some node
    | [] => atp.getHeadBelow p (Nat.le_of_succ_le hp)

/- The first element at the biggest current priority. -/
def getHead (atp : TP α) : Option α :=
  atp.getHeadBelow (soMaxPrio + 1) le_rfl

/- An element is stored in some list of the table. -/
def Stores (atp : TP α) (x : α) : Prop :=
  ∃ p, x ∈ atp.v p

instance [DecidableEq α] (atp : TP α) (x : α) :
    Decidable (atp.Stores x) := by
  unfold Stores
  infer_instance

------------------------------------------------------------
-- Lists of an Updated Table
------------------------------------------------------------

@[simp] theorem priorityTableCreate_v
    (p : Fin (soMaxPrio + 1)) :
    (priorityTableCreate : TP α).v p = [] := rfl

@[simp] theorem not_stores_priorityTableCreate (x : α) :
    ¬ (priorityTableCreate : TP α).Stores x := by
  simp [Stores]

/- Insertion appends to one list and leaves the others. -/
theorem priorityTableInsert_v
    (atp : TP α) (info : α)
    {priority : Nat}
    (hPriority : priority ≤ soMaxPrio)
    (p : Fin (soMaxPrio + 1)) :
    (atp.priorityTableInsert info priority).v p =
      if p.val = priority then
        atp.v p ++ [info]
      else
        atp.v p := by
  have hNot : ¬ priority > soMaxPrio := by omega
  simp only [priorityTableInsert, hNot, dif_neg,
    not_false_eq_true]
  by_cases hp : p.val = priority
  · subst hp
    simp
  · have hNe : p ≠ ⟨priority, by omega⟩ := by
      intro h
      exact hp (congrArg Fin.val h)
    simp [hNe, hp]

/- Removal drops one first cell and leaves the other lists. -/
theorem priorityTableRemove_v
    (atp : TP α)
    (priority : Nat)
    (p : Fin (soMaxPrio + 1)) :
    (atp.priorityTableRemove priority).v p =
      if p.val = priority then
        (atp.v p).tail
      else
        atp.v p := by
  unfold priorityTableRemove
  by_cases hIndex : priority < soMaxPrio + 1
  · simp only [hIndex, dif_pos]
    by_cases hp : p.val = priority
    · subst hp
      simp
    · have hNe : p ≠ ⟨priority, hIndex⟩ := by
        intro h
        exact hp (congrArg Fin.val h)
      simp [hNe, hp]
  · have hp : p.val ≠ priority := by
      have := p.isLt
      omega
    simp [hIndex, hp]

/- Insertion stores one more element. -/
theorem stores_priorityTableInsert_iff
    (atp : TP α) (info : α)
    {priority : Nat}
    (hPriority : priority ≤ soMaxPrio)
    (x : α) :
    (atp.priorityTableInsert info priority).Stores x ↔
      atp.Stores x ∨ x = info := by
  constructor
  · rintro ⟨p, hx⟩
    rw [atp.priorityTableInsert_v info hPriority] at hx
    by_cases hp : p.val = priority
    · simp only [hp, if_true, List.mem_append,
        List.mem_singleton] at hx
      exact hx.imp_left (fun h => ⟨p, h⟩)
    · simp only [hp, if_false] at hx
      exact Or.inl ⟨p, hx⟩
  · rintro (⟨p, hx⟩ | rfl)
    · refine ⟨p, ?_⟩
      rw [atp.priorityTableInsert_v info hPriority]
      by_cases hp : p.val = priority <;> simp [hp, hx]
    · refine ⟨⟨priority, by omega⟩, ?_⟩
      rw [atp.priorityTableInsert_v x hPriority]
      simp

------------------------------------------------------------
-- The Head of the Table
------------------------------------------------------------

/- The search finds a first cell with only empty lists above. -/
theorem getHeadBelow_spec
    (atp : TP α) {x : α} :
    ∀ (n : Nat) (hn : n ≤ soMaxPrio + 1),
      atp.getHeadBelow n hn = some x →
        ∃ p : Fin (soMaxPrio + 1),
          p.val < n ∧
            (∃ rest, atp.v p = x :: rest) ∧
              ∀ p' : Fin (soMaxPrio + 1),
                p < p' → p'.val < n → atp.v p' = []
| 0, _, hFound => by
    cases hFound
| n + 1, hn, hFound => by
    cases hList : atp.v ⟨n, hn⟩ with
    | cons node rest =>
        simp only [getHeadBelow, hList,
          Option.some.injEq] at hFound
        subst hFound
        refine ⟨⟨n, hn⟩, Nat.lt_succ_self n,
          ⟨rest, hList⟩, ?_⟩
        intro p' hAbove hBelow
        rw [Fin.lt_def] at hAbove
        simp only at hAbove
        omega
    | nil =>
        simp only [getHeadBelow, hList] at hFound
        rcases atp.getHeadBelow_spec n
            (Nat.le_of_succ_le hn) hFound with
          ⟨p, hp, hFirst, hEmpty⟩
        refine ⟨p, Nat.lt_succ_of_lt hp, hFirst, ?_⟩
        intro p' hAbove hBelow
        by_cases hLast : p'.val = n
        · have hEq : p' = ⟨n, hn⟩ := Fin.ext hLast
          rw [hEq, hList]
        · exact hEmpty p' hAbove (by omega)

/- The head is missing only when all searched lists are empty. -/
theorem getHeadBelow_eq_none_iff
    (atp : TP α) :
    ∀ (n : Nat) (hn : n ≤ soMaxPrio + 1),
      atp.getHeadBelow n hn = none ↔
        ∀ p : Fin (soMaxPrio + 1),
          p.val < n → atp.v p = []
| 0, _ => by
    simp [getHeadBelow]
| n + 1, hn => by
    cases hList : atp.v ⟨n, hn⟩ with
    | cons node rest =>
        simp only [getHeadBelow, hList, reduceCtorEq,
          false_iff]
        intro hEmpty
        have hNil := hEmpty ⟨n, hn⟩ (Nat.lt_succ_self n)
        rw [hList] at hNil
        cases hNil
    | nil =>
        simp only [getHeadBelow, hList]
        rw [atp.getHeadBelow_eq_none_iff n]
        constructor
        · intro hEmpty p hp
          by_cases hLast : p.val = n
          · have hEq : p = ⟨n, hn⟩ := Fin.ext hLast
            rw [hEq, hList]
          · exact hEmpty p (by omega)
        · intro hEmpty p hp
          exact hEmpty p (by omega)

/- `get_head` is NULL exactly when nothing is stored. -/
theorem getHead_eq_none_iff (atp : TP α) :
    atp.getHead = none ↔ ∀ x, ¬ atp.Stores x := by
  unfold getHead
  rw [getHeadBelow_eq_none_iff]
  constructor
  · rintro hEmpty x ⟨p, hx⟩
    rw [hEmpty p p.isLt] at hx
    cases hx
  · intro hNone p _
    apply List.eq_nil_iff_forall_not_mem.mpr
    intro x hx
    exact hNone x ⟨p, hx⟩

/- `get_head` finds a cell exactly when one is stored. -/
theorem getHead_isSome_iff (atp : TP α) :
    atp.getHead.isSome ↔ ∃ x, atp.Stores x := by
  rw [Option.isSome_iff_ne_none, ne_eq,
    atp.getHead_eq_none_iff]
  push Not
  rfl

------------------------------------------------------------
-- Elements Filed under Their Own Priority
------------------------------------------------------------

/-
  Every list holds distinct elements whose priority is the
  index of the list.
-/
structure Filed
    (atp : TP α)
    (priority : α → Nat) : Prop where
  nodup : ∀ p, (atp.v p).Nodup
  index : ∀ p, ∀ x ∈ atp.v p, priority x = p.val

namespace Filed

variable {atp : TP α} {priority : α → Nat}

/- The empty table is filed under any priorities. -/
theorem priorityTableCreate :
    (TP.priorityTableCreate : TP α).Filed priority where
  nodup := by simp
  index := by simp

/- The invariant only reads the priority of stored elements. -/
theorem congr
    {priority' : α → Nat}
    (hFiled : atp.Filed priority)
    (hSame :
      ∀ x, atp.Stores x → priority' x = priority x) :
    atp.Filed priority' where
  nodup := hFiled.nodup
  index := by
    intro p x hx
    rw [hSame x ⟨p, hx⟩]
    exact hFiled.index p x hx

/- A new element can be inserted at its own priority. -/
theorem insert
    (hFiled : atp.Filed priority)
    {x : α}
    (hPriority : priority x ≤ soMaxPrio)
    (hNew : ¬ atp.Stores x) :
    (atp.priorityTableInsert x (priority x)).Filed
      priority where
  nodup := by
    intro p
    rw [atp.priorityTableInsert_v x hPriority]
    by_cases hp : p.val = priority x
    · simp only [hp, if_true]
      apply List.Nodup.append (hFiled.nodup p)
        (List.nodup_singleton x)
      intro y hy hyx
      rw [List.mem_singleton] at hyx
      subst hyx
      exact hNew ⟨p, hy⟩
    · simp only [hp, if_false]
      exact hFiled.nodup p
  index := by
    intro p y hy
    rw [atp.priorityTableInsert_v x hPriority] at hy
    by_cases hp : p.val = priority x
    · simp only [hp, if_true, List.mem_append,
        List.mem_singleton] at hy
      rcases hy with hy | rfl
      · exact hFiled.index p y hy
      · exact hp.symm
    · simp only [hp, if_false] at hy
      exact hFiled.index p y hy

/-
  The head is the first element of its own list, and no
  stored element has a bigger priority.
-/
theorem getHead_spec
    (hFiled : atp.Filed priority)
    {x : α}
    (hHead : atp.getHead = some x) :
    (∃ p rest, p.val = priority x ∧ atp.v p = x :: rest) ∧
      ∀ y, atp.Stores y → priority y ≤ priority x := by
  rcases atp.getHeadBelow_spec _ _ hHead with
    ⟨p, _, ⟨rest, hList⟩, hEmpty⟩
  have hIndex : priority x = p.val :=
    hFiled.index p x (by simp [hList])
  refine ⟨⟨p, rest, hIndex.symm, hList⟩, ?_⟩
  rintro y ⟨p', hy⟩
  rw [hIndex, hFiled.index p' y hy]
  by_contra hAbove
  have hLt : p < p' := by
    rw [Fin.lt_def]
    omega
  rw [hEmpty p' hLt p'.isLt] at hy
  cases hy

/- The head is stored. -/
theorem stores_getHead
    (hFiled : atp.Filed priority)
    {x : α}
    (hHead : atp.getHead = some x) :
    atp.Stores x := by
  rcases (hFiled.getHead_spec hHead).1 with
    ⟨p, rest, _, hList⟩
  exact ⟨p, by simp [hList]⟩

/- What is stored has no bigger priority than the head. -/
theorem exists_head_ge
    (hFiled : atp.Filed priority)
    {x : α}
    (hStores : atp.Stores x) :
    ∃ h, atp.getHead = some h ∧ atp.Stores h ∧
      priority x ≤ priority h := by
  cases hHead : atp.getHead with
  | none =>
      exact absurd hStores
        ((atp.getHead_eq_none_iff).mp hHead x)
  | some h =>
      exact ⟨h, rfl, hFiled.stores_getHead hHead,
        (hFiled.getHead_spec hHead).2 x hStores⟩

/- Removing at the priority of the head unlinks the head. -/
theorem stores_remove_getHead_iff
    (hFiled : atp.Filed priority)
    {x : α}
    (hHead : atp.getHead = some x)
    (y : α) :
    (atp.priorityTableRemove (priority x)).Stores y ↔
      atp.Stores y ∧ y ≠ x := by
  rcases (hFiled.getHead_spec hHead).1 with
    ⟨p, rest, hp, hList⟩
  have hNodup := hFiled.nodup p
  rw [hList, List.nodup_cons] at hNodup
  constructor
  · rintro ⟨p', hy⟩
    rw [priorityTableRemove_v] at hy
    by_cases hSame : p'.val = priority x
    · have hEq : p' = p := Fin.ext (hSame.trans hp.symm)
      subst hEq
      simp only [hSame, if_true, hList,
        List.tail_cons] at hy
      refine ⟨⟨p', by simp [hList, hy]⟩, ?_⟩
      rintro rfl
      exact hNodup.1 hy
    · simp only [hSame, if_false] at hy
      refine ⟨⟨p', hy⟩, ?_⟩
      rintro rfl
      exact hSame (hFiled.index p' y hy).symm
  · rintro ⟨⟨p', hy⟩, hNe⟩
    refine ⟨p', ?_⟩
    rw [priorityTableRemove_v]
    by_cases hSame : p'.val = priority x
    · have hEq : p' = p := Fin.ext (hSame.trans hp.symm)
      subst hEq
      simp only [hSame, if_true, hList, List.tail_cons]
      rw [hList, List.mem_cons] at hy
      exact hy.resolve_left hNe
    · simpa only [hSame, if_false] using hy

/- Unlinking a first cell keeps the table filed. -/
theorem remove
    (hFiled : atp.Filed priority)
    (n : Nat) :
    (atp.priorityTableRemove n).Filed priority where
  nodup := by
    intro p
    rw [priorityTableRemove_v]
    split
    · exact (hFiled.nodup p).tail
    · exact hFiled.nodup p
  index := by
    intro p x hx
    rw [priorityTableRemove_v] at hx
    split at hx
    · exact hFiled.index p x (List.mem_of_mem_tail hx)
    · exact hFiled.index p x hx

/- A stored element occurs once, in the list of its priority. -/
theorem count_eq
    [DecidableEq α]
    (hFiled : atp.Filed priority)
    {x : α}
    (hx : atp.Stores x)
    (p : Fin (soMaxPrio + 1)) :
    (atp.v p).count x =
      if p.val = priority x then 1 else 0 := by
  rcases hx with ⟨p', hMem⟩
  have hIndex := hFiled.index p' x hMem
  by_cases hp : p.val = priority x
  · have hEq : p = p' := Fin.ext (hp.trans hIndex)
    subst hEq
    simp only [hp, if_true]
    exact List.count_eq_one_of_mem (hFiled.nodup p) hMem
  · simp only [hp, if_false]
    apply List.count_eq_zero_of_not_mem
    intro hOther
    exact hp (hFiled.index p x hOther).symm

end Filed

end TP

end Scheduler

end ProgrammingTasks
