import ProgrammingTasks.Foundations.LinkedList

/-
  The linked queues of the link emulator (`queue.c`).

  Entries are taken at `last` and added at `first`; the links
  `prev` lead from the oldest entry to the newest one.  A call
  that fails an assertion, or reads through a null pointer,
  has no result.

  Main declarations:
    * `Queue`, `enqueue`, `dequeue`
    * `Represents`
    * `enqueue_represents`
    * `dequeue_represents`, `dequeue_empty`
-/

------------------------------------------------------------
-- The Operations
------------------------------------------------------------

namespace ProgrammingTasks

namespace TcpServer

/-
  `queue` with the fields of its entries, by entry numbers;
  `malloc` returns the number `fresh`.
-/
structure Queue (A : Type) where
  size : Int
  first : Option Nat
  last : Option Nat
  crt : Nat → Option A
  prev : Nat → Option Nat
  fresh : Nat

namespace Queue

variable {A : Type}

/- `create_queue`. -/
def createQueue : Queue A where
  size := 0
  first := none
  last := none
  crt _ := none
  prev _ := none
  fresh := 0

/- `enqueue`. -/
def enqueue (q : Queue A) (m : A) : Option (Queue A) :=
  let t := q.fresh
  match q.first with
  | none =>
      if q.last = none then
        some
          { size := q.size + 1
            first := some t
            last := some t
            crt := Function.update q.crt t (some m)
            prev := Function.update q.prev t none
            fresh := t + 1 }
      else
        none
  | some first =>
      some
        { size := q.size + 1
          first := some t
          last := q.last
          crt := Function.update q.crt t (some m)
          prev :=
            Function.update
              (Function.update q.prev first (some t)) t none
          fresh := t + 1 }

/- `free` of an entry. -/
def freeEntry (q : Queue A) (t : Nat) : Queue A :=
  { q with
    crt := Function.update q.crt t none
    prev := Function.update q.prev t none }

/- `dequeue`: the message, which may be null, and the queue. -/
def dequeue (q : Queue A) : Option (Option A × Queue A) :=
  match q.first with
  | none => if q.size = 0 then some (none, q) else none
  | some first =>
      match q.last with
      | none => none
      | some t =>
          if first = t then
            if q.prev first = none then
              some
                (q.crt t,
                  freeEntry
                    { q with
                      first := none
                      last := none
                      size := q.size - 1 } t)
            else
              none
          else
            some
              (q.crt t,
                freeEntry
                  { q with
                    last := q.prev t
                    size := q.size - 1 } t)

/- `last->crt`, if there is a last entry. -/
def lastEntry (q : Queue A) : Option A :=
  q.last.bind q.crt

------------------------------------------------------------
-- The Sequence of a Queue
------------------------------------------------------------

/- The entries of a queue and what they carry, oldest first. -/
structure Holds
    (q : Queue A) (nodes : List Nat) (l : List A) : Prop where
  linked : Linked q.prev q.last nodes
  first : q.first = nodes.getLast?
  carries : nodes.map q.crt = l.map some
  bound : ∀ a ∈ nodes, a < q.fresh
  size : q.size = l.length

/- The queue stands for a sequence, oldest first. -/
def Represents (q : Queue A) (l : List A) : Prop :=
  ∃ nodes, Holds q nodes l

theorem createQueue_represents :
    Represents (createQueue : Queue A) [] :=
  ⟨[], rfl, rfl, rfl, fun _ hMem => (by cases hMem), rfl⟩

theorem Represents.size_eq
    {q : Queue A} {l : List A}
    (hQueue : Represents q l) :
    q.size = l.length := by
  rcases hQueue with ⟨nodes, hHolds⟩
  exact hHolds.size

/- The entry at `last` is the oldest one. -/
theorem Represents.lastEntry_eq
    {q : Queue A} {l : List A}
    (hQueue : Represents q l) :
    q.lastEntry = l.head? := by
  rcases hQueue with ⟨nodes, hHolds⟩
  have hCarries := hHolds.carries
  cases nodes with
  | nil =>
      rw [lastEntry, show q.last = none from hHolds.linked,
        List.map_eq_nil_iff.mp hCarries.symm]
      rfl
  | cons a nodes =>
      cases l with
      | nil => cases hCarries
      | cons m l =>
          rw [lastEntry, hHolds.linked.1]
          exact (List.cons.inj hCarries).1

theorem map_crt_update
    {crt : Nat → Option A} {nodes : List Nat} {t : Nat}
    (hNew : t ∉ nodes)
    (m : Option A) :
    nodes.map (Function.update crt t m) = nodes.map crt := by
  apply List.map_congr_left
  intro a hMem
  apply Function.update_of_ne
  rintro rfl
  exact hNew hMem

/- A message goes behind all others. -/
theorem enqueue_represents
    {q : Queue A} {l : List A}
    (hQueue : Represents q l)
    (m : A) :
    ∃ q', q.enqueue m = some q' ∧ Represents q' (l ++ [m]) := by
  rcases hQueue with ⟨nodes, hHolds⟩
  have hNew : q.fresh ∉ nodes := by
    intro hMem
    exact Nat.lt_irrefl _ (hHolds.bound _ hMem)
  have hCarries :
      (nodes ++ [q.fresh]).map
          (Function.update q.crt q.fresh (some m)) =
        (l ++ [m]).map some := by
    rw [List.map_append, List.map_append, map_crt_update hNew,
      hHolds.carries]
    simp
  have hBound : ∀ a ∈ nodes ++ [q.fresh], a < q.fresh + 1 := by
    intro a hMem
    rcases List.mem_append.mp hMem with hOld | hLast
    · exact Nat.lt_succ_of_lt (hHolds.bound a hOld)
    · rw [List.mem_singleton.mp hLast]
      exact Nat.lt_succ_self _
  have hSize : q.size + 1 = ((l ++ [m]).length : Int) := by
    rw [hHolds.size, List.length_append]
    rfl
  rcases List.eq_nil_or_concat nodes with rfl | ⟨front, f, rfl⟩
  · have hFirst : q.first = none := hHolds.first
    have hLast : q.last = none := hHolds.linked
    refine
      ⟨{ size := q.size + 1
         first := some q.fresh
         last := some q.fresh
         crt := Function.update q.crt q.fresh (some m)
         prev := Function.update q.prev q.fresh none
         fresh := q.fresh + 1 }, ?_, [q.fresh], ?_⟩
    · simp only [enqueue, hFirst, hLast, if_true]
    · exact ⟨⟨rfl, Function.update_self ..⟩, rfl, hCarries,
        hBound, hSize⟩
  · rw [List.concat_eq_append] at hHolds hNew hCarries hBound
    have hFirst : q.first = some f := by
      rw [hHolds.first, List.getLast?_concat]
    have hNonempty : front ++ [f] ≠ [] := by simp
    have hOther : q.fresh ≠ f := by
      rintro hSame
      apply hNew
      rw [hSame]
      simp
    have hBase :
        Linked (Function.update q.prev q.fresh none) q.last
          (front ++ [f]) := by
      apply hHolds.linked.congr
      intro a hMem
      apply Function.update_of_ne
      rintro rfl
      exact hNew hMem
    have hGrows :=
      hBase.append_node hNonempty hNew (Function.update_self ..)
    rw [List.getLast_concat, Function.update_comm hOther]
      at hGrows
    refine
      ⟨{ size := q.size + 1
         first := some q.fresh
         last := q.last
         crt := Function.update q.crt q.fresh (some m)
         prev :=
          Function.update
            (Function.update q.prev f (some q.fresh)) q.fresh none
         fresh := q.fresh + 1 },
        ?_, front ++ [f] ++ [q.fresh], ?_⟩
    · simp only [enqueue, hFirst]
    · exact ⟨hGrows, List.getLast?_concat.symm, hCarries, hBound,
        hSize⟩

/- Nothing is taken from an empty queue. -/
theorem dequeue_empty
    {q : Queue A}
    (hQueue : Represents q []) :
    q.dequeue = some (none, q) := by
  rcases hQueue with ⟨nodes, hHolds⟩
  have hNil : nodes = [] := List.map_eq_nil_iff.mp hHolds.carries
  have hFirst := hHolds.first
  rw [hNil] at hFirst
  simp only [dequeue, hFirst, List.getLast?_nil]
  exact if_pos hHolds.size

/- The oldest message is taken. -/
theorem dequeue_represents
    {q : Queue A} {m : A} {l : List A}
    (hQueue : Represents q (m :: l)) :
    ∃ q', q.dequeue = some (some m, q') ∧ Represents q' l := by
  rcases hQueue with ⟨nodes, hHolds⟩
  cases nodes with
  | nil => cases hHolds.carries
  | cons t nodes =>
      rcases List.cons.inj hHolds.carries with ⟨hCrt, hCarries⟩
      have hLast : q.last = some t := hHolds.linked.1
      have hNodup := List.nodup_cons.mp hHolds.linked.nodup
      have hSize : q.size - 1 = (l.length : Int) := by
        rw [hHolds.size, List.length_cons]
        omega
      have hCarries' :
          nodes.map (Function.update q.crt t none) =
            l.map some := by
        rw [map_crt_update hNodup.1, hCarries]
      have hLinked :
          Linked (Function.update q.prev t none) (q.prev t)
            nodes := by
        apply hHolds.linked.2.congr
        intro a hMem
        apply Function.update_of_ne
        rintro rfl
        exact hNodup.1 hMem
      have hBound : ∀ a ∈ nodes, a < q.fresh :=
        fun a hMem => hHolds.bound a (List.mem_cons_of_mem t hMem)
      cases nodes with
      | nil =>
          have hFirst : q.first = some t := hHolds.first
          have hEnd : q.prev t = none := hHolds.linked.2
          refine
            ⟨freeEntry
              { q with
                first := none
                last := none
                size := q.size - 1 } t, ?_, [], ?_⟩
          · simp only [dequeue, hFirst, hLast, hEnd, if_true,
              hCrt]
          · exact ⟨rfl, rfl, hCarries', hBound, hSize⟩
      | cons b nodes =>
          have hFirst :
              q.first = some ((b :: nodes).getLast
                (List.cons_ne_nil b nodes)) := by
            rw [hHolds.first,
              List.getLast?_eq_some_getLast
                (List.cons_ne_nil t (b :: nodes)),
              List.getLast_cons (List.cons_ne_nil b nodes)]
          have hOther :
              (b :: nodes).getLast (List.cons_ne_nil b nodes) ≠
                t := by
            intro hSame
            apply hNodup.1
            rw [← hSame]
            exact List.getLast_mem _
          refine
            ⟨freeEntry
              { q with
                last := q.prev t
                size := q.size - 1 } t, ?_, b :: nodes, ?_⟩
          · simp only [dequeue, hFirst, hLast, if_neg hOther,
              hCrt]
          · exact ⟨hLinked,
              hFirst.trans (List.getLast?_eq_some_getLast _).symm,
              hCarries', hBound, hSize⟩

end Queue

end TcpServer

end ProgrammingTasks
