import ProgrammingTasks.Tracer.Accounting
import Mathlib.Algebra.Ring.Int.Defs

/-
  The memory that is counted as freed.

  What a row may still count as freed are the records of its
  process.  Together with what it has counted they stay within
  what it has counted as allocated, if the records are all
  younger than the row.  Each record is subtracted once, since
  it leaves the list with that.

  Main declarations:
    * `outstanding`, `Covered`
    * `NoOverflow`, `AddsClean`
    * `numbered`, `subtracted`, `FreesWithin`
    * `freesWithin_of_clean`
-/

------------------------------------------------------------
-- The Sizes of Records
------------------------------------------------------------

namespace ProgrammingTasks

namespace Tracer

open TransitionSystem

/- The sizes of the records of a process that count. -/
def outstanding (pid : Int) : List MemData → Int
| [] => 0
| mdl :: rest =>
    (if mdl.pid = pid then max 0 mdl.memSize else 0) +
      outstanding pid rest

theorem outstanding_nonneg (pid : Int) :
    ∀ entries : List MemData, 0 ≤ outstanding pid entries
| [] => Int.le_refl 0
| mdl :: rest => by
    have hRest := outstanding_nonneg pid rest
    rw [outstanding]
    split <;> omega

/- The record that is taken is one of its process. -/
theorem outstanding_takeMemData (pid : Int) (address : Nat) :
    ∀ entries : List MemData,
      outstanding pid (takeMemData pid address entries).2 +
          max 0 (takeMemData pid address entries).1 =
        outstanding pid entries
| [] => rfl
| mdl :: rest => by
    have hRest := outstanding_takeMemData pid address rest
    rw [takeMemData]
    split
    · rename_i hFound
      dsimp only
      rw [outstanding, if_pos hFound.2]
      omega
    · dsimp only
      rw [outstanding, outstanding]
      omega

theorem outstanding_takeMemData_other
    {pid pid' : Int}
    (hOther : pid' ≠ pid)
    (address : Nat) :
    ∀ entries : List MemData,
      outstanding pid' (takeMemData pid address entries).2 =
        outstanding pid' entries
| [] => rfl
| mdl :: rest => by
    have hRest :=
      outstanding_takeMemData_other hOther address rest
    rw [takeMemData]
    split
    · rename_i hFound
      rw [outstanding, if_neg (by rw [hFound.2]; exact hOther.symm),
        Int.zero_add]
    · dsimp only
      rw [outstanding, outstanding, hRest]

theorem outstanding_filter (pid pid' : Int) :
    ∀ entries : List MemData,
      outstanding pid'
          (entries.filter (fun mdl => mdl.pid ≠ pid)) =
        if pid' = pid then 0 else outstanding pid' entries
| [] => by simp [outstanding]
| mdl :: rest => by
    have hRest := outstanding_filter pid pid' rest
    rw [List.filter_cons]
    by_cases hSame : mdl.pid = pid
    · rw [if_neg (by simp [hSame]), hRest, outstanding]
      by_cases hPid : pid' = pid
      · rw [if_pos hPid, if_pos hPid]
      · rw [if_neg hPid, if_neg hPid,
          if_neg (by rw [hSame]; exact Ne.symm hPid),
          Int.zero_add]
    · rw [if_pos (by simp [hSame]), outstanding, hRest,
        outstanding]
      by_cases hPid : pid' = pid
      · rw [if_pos hPid, if_pos hPid,
          if_neg (by rw [hPid]; exact hSame)]
        rfl
      · rw [if_neg hPid, if_neg hPid]

theorem outstanding_eq_zero
    {pid : Int} :
    ∀ {entries : List MemData},
      (∀ mdl ∈ entries, mdl.pid = pid → mdl.memSize ≤ 0) →
        outstanding pid entries = 0
| [], _ => rfl
| mdl :: rest, hClean => by
    have hRest :=
      outstanding_eq_zero
        (fun mdl' hMem =>
          hClean mdl' (List.mem_cons_of_mem _ hMem))
    have hFirst := hClean mdl List.mem_cons_self
    rw [outstanding, hRest]
    split
    · rename_i hPid
      have hSize := hFirst hPid
      omega
    · rfl

------------------------------------------------------------
-- Rows
------------------------------------------------------------

/- The row of a process that is counted in. -/
def firstRow (pid : Int) (rows : List ProcData) :
    Option ProcData :=
  rows.find? (fun pdl => pdl.pid = pid)

/- The first row of the process may change, and no other. -/
theorem mem_incrementRow_cases
    {pid increment : Int} {counter : Option Counter}
    {pdl' : ProcData} :
    ∀ {rows : List ProcData},
      pdl' ∈ incrementRow pid increment counter rows →
        pdl' ∈ rows ∨
          ∃ pdl, firstRow pid rows = some pdl ∧
            pdl' = pdl.add increment counter
| pdl :: rest, hMem => by
    rw [incrementRow] at hMem
    unfold firstRow
    rw [List.find?_cons]
    split at hMem
    · rename_i hPid
      rcases List.mem_cons.mp hMem with rfl | hRest
      · exact Or.inr ⟨pdl, by simp [hPid], rfl⟩
      · exact Or.inl (List.mem_cons_of_mem _ hRest)
    · rename_i hPid
      rcases List.mem_cons.mp hMem with rfl | hRest
      · exact Or.inl List.mem_cons_self
      · rcases mem_incrementRow_cases hRest with hOld | hFirst
        · exact Or.inl (List.mem_cons_of_mem _ hOld)
        · refine Or.inr ?_
          simpa [hPid, firstRow] using hFirst

theorem firstRow_incrementRow
    (pid pid' increment : Int) (counter : Option Counter) :
    ∀ rows : List ProcData,
      firstRow pid' (incrementRow pid increment counter rows) =
        if pid' = pid then
          (firstRow pid rows).map
            (fun pdl => pdl.add increment counter)
        else
          firstRow pid' rows
| [] => by simp [incrementRow, firstRow]
| pdl :: rest => by
    have hRest :=
      firstRow_incrementRow pid pid' increment counter rest
    unfold firstRow at hRest ⊢
    rw [incrementRow]
    by_cases hRow : pdl.pid = pid
    · rw [if_pos hRow, List.find?_cons, add_pid]
      by_cases hPid : pid' = pid
      · simp [hRow, hPid]
      · have hOther : ¬ pid = pid' := fun h => hPid h.symm
        simp [hRow, hPid, hOther]
    · rw [if_neg hRow, List.find?_cons, hRest]
      by_cases hPid : pid' = pid
      · simp [hRow, hPid]
      · rw [if_neg hPid, if_neg hPid, List.find?_cons]

theorem firstRow_cons
    (pid : Int) (pdl : ProcData) (rest : List ProcData) :
    firstRow pid (pdl :: rest) =
      if pdl.pid = pid then some pdl else firstRow pid rest := by
  unfold firstRow
  rw [List.find?_cons]
  by_cases hPid : pdl.pid = pid
  · simp [hPid]
  · simp [hPid]

theorem mem_of_firstRow
    {pid : Int} {rows : List ProcData} {pdl : ProcData}
    (hFirst : firstRow pid rows = some pdl) :
    pdl ∈ rows :=
  List.mem_of_find?_eq_some hFirst

/- Without the first row of a process the others are first. -/
theorem firstRow_eraseP_other
    {pid pid' : Int}
    (hOther : pid' ≠ pid) :
    ∀ rows : List ProcData,
      firstRow pid' (rows.eraseP (fun pdl => pdl.pid = pid)) =
        firstRow pid' rows
| [] => rfl
| pdl :: rest => by
    have hRest := firstRow_eraseP_other hOther rest
    rw [List.eraseP_cons, firstRow_cons]
    by_cases hRow : pdl.pid = pid
    · have hNot : ¬ pdl.pid = pid' := by
        rw [hRow]
        exact Ne.symm hOther
      rw [if_neg hNot]
      simp [hRow]
    · have hKept : decide (pdl.pid = pid) = false := by
        simpa using hRow
      rw [hKept]
      simp only [cond_false]
      rw [firstRow_cons, hRest]

------------------------------------------------------------
-- The Invariant
------------------------------------------------------------

/-
  No row has counted more as freed than as allocated; and the
  records that the first row of a process may still subtract
  leave it so.
-/
structure Covered (s : Lists) : Prop where
  rows :
    ∀ pdl ∈ s.procDataHead,
      pdl.counter .kfreeMem ≤ pdl.counter .kmallocMem ∧
        0 ≤ pdl.counter .kmallocMem ∧
          pdl.counter .kmallocMem < 2 ^ 31
  first :
    ∀ pid pdl, firstRow pid s.procDataHead = some pdl →
      pdl.counter .kfreeMem + outstanding pid s.memDataHead ≤
        pdl.counter .kmallocMem

/- The memory counters of the first row stay in their range. -/
def NoOverflow (t : Transition) : Prop :=
  match t.event with
  | .kmallocReturn pid _ size _ =>
      ∀ pdl ∈ firstRow pid t.source.procDataHead,
        pdl.counter .kmallocMem + size < 2 ^ 31
  | .kfree pid address =>
      ∀ pdl ∈ firstRow pid t.source.procDataHead,
        -2 ^ 31 ≤
          pdl.counter .kfreeMem +
            (getMemData pid address t.source).1
  | _ => True

/- A process that is added has no allocation outstanding. -/
def AddsClean (t : Transition) : Prop :=
  match t.event with
  | .ioctl .addProcess arg allocated =>
      allocated = true →
        ∀ mdl ∈ t.source.memDataHead, mdl.pid = toInt arg →
          mdl.memSize ≤ 0
  | _ => True

section Step

variable {s s' : Lists} {pid : Int}

/- The first row of a process changes, and its records. -/
theorem Covered.change
    (hCovered : Covered s)
    {increment : Int} {counter : Option Counter}
    (hRows :
      s'.procDataHead =
        incrementRow pid increment counter s.procDataHead)
    (hOthers :
      ∀ pid', pid' ≠ pid →
        outstanding pid' s'.memDataHead =
          outstanding pid' s.memDataHead)
    (hFirst :
      ∀ pdl, firstRow pid s.procDataHead = some pdl →
        0 ≤ (pdl.add increment counter).counter .kmallocMem ∧
          (pdl.add increment counter).counter .kmallocMem <
            2 ^ 31 ∧
          (pdl.add increment counter).counter .kfreeMem +
              outstanding pid s'.memDataHead ≤
            (pdl.add increment counter).counter .kmallocMem) :
    Covered s' := by
  have hNonneg := outstanding_nonneg pid s'.memDataHead
  refine ⟨?_, ?_⟩
  · intro pdl' hMem
    rw [hRows] at hMem
    rcases mem_incrementRow_cases hMem with
      hOld | ⟨pdl, hRow, rfl⟩
    · exact hCovered.rows pdl' hOld
    · have hNow := hFirst pdl hRow
      omega
  · intro pid' pdl' hRow
    rw [hRows, firstRow_incrementRow] at hRow
    split at hRow
    · rename_i hPid
      rcases Option.map_eq_some_iff.mp hRow with
        ⟨pdl, hBefore, rfl⟩
      rw [hPid]
      exact (hFirst pdl hBefore).2.2
    · rename_i hPid
      rw [hOthers pid' hPid]
      exact hCovered.first pid' pdl' hRow

/- The other counters have no part in it. -/
theorem Covered.increment
    (hCovered : Covered s)
    (pid increment : Int) (opName : List Char)
    (hAllocated : counterOf opName ≠ some .kmallocMem)
    (hFreed : counterOf opName ≠ some .kfreeMem) :
    Covered (incrementFuncCall pid increment opName s) := by
  have hSame :
      ∀ (pdl : ProcData) (c : Counter),
        counterOf opName ≠ some c →
          (pdl.add increment (counterOf opName)).counter c =
            pdl.counter c := by
    intro pdl c hOther
    unfold ProcData.add
    cases hName : counterOf opName with
    | none => rfl
    | some c' =>
        refine Function.update_of_ne ?_ _ _
        rintro rfl
        exact hOther hName
  have hRows :
      (incrementFuncCall pid increment opName s).procDataHead =
        incrementRow pid increment (counterOf opName)
          s.procDataHead :=
    rfl
  refine hCovered.change hRows (fun _ _ => rfl) ?_
  intro pdl hRow
  have hBefore := hCovered.first pid pdl hRow
  have hRange := hCovered.rows pdl (mem_of_firstRow hRow)
  rw [hSame pdl _ hAllocated, hSame pdl _ hFreed]
  exact ⟨hRange.2.1, hRange.2.2, hBefore⟩

theorem add_self
    (pdl : ProcData) (increment : Int) (c : Counter) :
    (pdl.add increment (some c)).counter c =
      toInt (pdl.counter c + increment) :=
  Function.update_self _ _ _

theorem add_other
    (pdl : ProcData) (increment : Int) {c c' : Counter}
    (hOther : c' ≠ c) :
    (pdl.add increment (some c)).counter c' = pdl.counter c' :=
  Function.update_of_ne hOther _ _

theorem counterOf_kmallocMem :
    counterOf "kmalloc_mem_counter".toList =
      some .kmallocMem := by
  decide

theorem counterOf_kfree :
    counterOf "kfree_counter".toList = some .kfree := by
  decide

theorem counterOf_kfreeMem :
    counterOf "kfree_mem_counter".toList = some .kfreeMem := by
  decide

/- An allocation is counted, and may be recorded. -/
theorem Covered.kmalloc
    (hCovered : Covered s)
    {address size : Nat} {allocated : Bool}
    (hFits :
      ∀ pdl, firstRow pid s.procDataHead = some pdl →
        pdl.counter .kmallocMem + size < 2 ^ 31) :
    Covered (kmallocHandler pid address size allocated s) := by
  have hRows :
      (kmallocHandler pid address size allocated
          s).procDataHead =
        incrementRow pid (toInt size) (some .kmallocMem)
          s.procDataHead := by
    unfold kmallocHandler saveMemData incrementFuncCall
    rw [counterOf_kmallocMem]
    split <;> rfl
  have hRecords :
      ∀ pid',
        outstanding pid'
            (kmallocHandler pid address size allocated
              s).memDataHead =
          (if allocated = true ∧ pid = pid' then
            max 0 (toInt size) else 0) +
            outstanding pid' s.memDataHead := by
    intro pid'
    unfold kmallocHandler saveMemData incrementFuncCall
    cases allocated with
    | false => simp
    | true => simp [outstanding]
  refine hCovered.change hRows ?_ ?_
  · intro pid' hOther
    rw [hRecords, if_neg (fun h => hOther h.2.symm),
      Int.zero_add]
  · intro pdl hRow
    have hBefore := hCovered.first pid pdl hRow
    have hRange := hCovered.rows pdl (mem_of_firstRow hRow)
    have hNew := hFits pdl hRow
    have hSize : toInt size = size := toInt_eq (by omega)
    have hSum :
        toInt (pdl.counter .kmallocMem + size) =
          pdl.counter .kmallocMem + size :=
      Int.bmod_eq_of_le (by omega) (by omega)
    rw [hRecords, add_self, add_other pdl _ (by decide), hSize,
      hSum]
    split <;> omega

/- No size is counted if there is no record, or one of size 0. -/
theorem kfreeHandlerPre_of_zero
    {address : Nat}
    (hZero : (getMemData pid address s).1 = 0) :
    kfreeHandlerPre pid address s =
      incrementFuncCall pid 1 "kfree_counter".toList
        (getMemData pid address s).2 :=
  congrArg (incrementFuncCall pid 1 "kfree_counter".toList)
    (if_neg (not_not_intro hZero))

theorem kfreeHandlerPre_of_size
    {address : Nat}
    (hSize : (getMemData pid address s).1 ≠ 0) :
    kfreeHandlerPre pid address s =
      incrementFuncCall pid 1 "kfree_counter".toList
        (incrementFuncCall pid (getMemData pid address s).1
          "kfree_mem_counter".toList
          (getMemData pid address s).2) :=
  congrArg (incrementFuncCall pid 1 "kfree_counter".toList)
    (if_pos hSize)

/- What is freed was outstanding. -/
theorem Covered.kfree
    (hCovered : Covered s)
    {address : Nat}
    (hFits :
      ∀ pdl, firstRow pid s.procDataHead = some pdl →
        -2 ^ 31 ≤
          pdl.counter .kfreeMem +
            (getMemData pid address s).1) :
    Covered (kfreeHandlerPre pid address s) := by
  have hOthers :
      ∀ pid', pid' ≠ pid →
        outstanding pid' (getMemData pid address s).2.memDataHead =
          outstanding pid' s.memDataHead :=
    fun _ hOther =>
      outstanding_takeMemData_other hOther address _
  have hTaken :
      outstanding pid (getMemData pid address s).2.memDataHead +
          max 0 (getMemData pid address s).1 =
        outstanding pid s.memDataHead :=
    outstanding_takeMemData pid address _
  by_cases hZero : (getMemData pid address s).1 = 0
  · rw [kfreeHandlerPre_of_zero hZero]
    refine Covered.increment ?_ pid 1 _ (by decide) (by decide)
    refine ⟨hCovered.rows, ?_⟩
    intro pid' pdl hRow
    have hBefore := hCovered.first pid' pdl hRow
    by_cases hPid : pid' = pid
    · subst hPid
      omega
    · rw [hOthers pid' hPid]
      exact hBefore
  · rw [kfreeHandlerPre_of_size hZero]
    refine Covered.increment ?_ pid 1 _ (by decide) (by decide)
    have hRows :
        (incrementFuncCall pid (getMemData pid address s).1
            "kfree_mem_counter".toList
            (getMemData pid address s).2).procDataHead =
          incrementRow pid (getMemData pid address s).1
            (some .kfreeMem) s.procDataHead := by
      unfold incrementFuncCall
      rw [counterOf_kfreeMem]
      rfl
    refine hCovered.change hRows hOthers ?_
    intro pdl hRow
    have hBefore := hCovered.first pid pdl hRow
    have hRange := hCovered.rows pdl (mem_of_firstRow hRow)
    have hLeast := hFits pdl hRow
    have hNonneg :=
      outstanding_nonneg pid
        (getMemData pid address s).2.memDataHead
    have hSum :
        toInt
            (pdl.counter .kfreeMem +
              (getMemData pid address s).1) =
          pdl.counter .kfreeMem +
            (getMemData pid address s).1 :=
      Int.bmod_eq_of_le (by omega) (by omega)
    rw [add_self, add_other pdl _ (by decide), hSum]
    refine ⟨hRange.2.1, hRange.2.2, ?_⟩
    change _ + outstanding pid
      (getMemData pid address s).2.memDataHead ≤ _
    omega

/- A new row has nothing outstanding. -/
theorem Covered.addProcess
    (hCovered : Covered s)
    {allocated : Bool}
    (hClean :
      allocated = true →
        ∀ mdl ∈ s.memDataHead, mdl.pid = pid →
          mdl.memSize ≤ 0) :
    Covered (addProcess pid allocated s).2 := by
  unfold Tracer.addProcess
  cases allocated with
  | false => exact hCovered
  | true =>
      refine ⟨?_, ?_⟩
      · intro pdl hMem
        rcases List.mem_cons.mp hMem with rfl | hOld
        · exact ⟨Int.le_refl 0, Int.le_refl 0,
            show (0 : Int) < 2 ^ 31 by decide⟩
        · exact hCovered.rows pdl hOld
      · intro pid' pdl hRow
        change firstRow pid' (_ :: s.procDataHead) = _ at hRow
        rw [firstRow_cons] at hRow
        split at hRow
        · rename_i hPid
          cases hRow
          have hZero := outstanding_eq_zero (hClean rfl)
          have hSame : pid = pid' := hPid
          rw [← hSame]
          change 0 + outstanding pid s.memDataHead ≤ 0
          omega
        · exact hCovered.first pid' pdl hRow

/- The records of the process go with its row. -/
theorem Covered.removeProcess
    (hCovered : Covered s)
    (pid : Int) :
    Covered (removeProcess pid s).2 := by
  unfold Tracer.removeProcess
  split
  · refine ⟨?_, ?_⟩
    · intro pdl hMem
      exact hCovered.rows pdl (List.mem_of_mem_eraseP hMem)
    · intro pid' pdl hRow
      change
        pdl.counter .kfreeMem +
            outstanding pid'
              (s.memDataHead.filter
                (fun mdl => mdl.pid ≠ pid)) ≤ _
      rw [outstanding_filter]
      split
      · have hKept :=
          hCovered.rows pdl
            (List.mem_of_mem_eraseP (mem_of_firstRow hRow))
        omega
      · rename_i hPid
        refine hCovered.first pid' pdl ?_
        rw [← firstRow_eraseP_other hPid s.procDataHead]
        exact hRow
  · exact hCovered

theorem Covered.next
    (hCovered : Covered s)
    (e : Event)
    (hFits : NoOverflow ⟨s, e, handle s e⟩)
    (hClean : AddsClean ⟨s, e, handle s e⟩) :
    Covered (handle s e) := by
  cases e with
  | kmallocReturn pid address size allocated =>
      exact hCovered.kmalloc hFits
  | kfree pid address => exact hCovered.kfree hFits
  | ioctl cmd arg allocated =>
      cases cmd with
      | addProcess => exact hCovered.addProcess hClean
      | removeProcess => exact hCovered.removeProcess (toInt arg)
      | other => exact hCovered
  | kmallocEntry pid
  | sched pid
  | up pid
  | down pid
  | lock pid
  | unlock pid =>
      exact hCovered.increment _ _ _ (by decide) (by decide)

end Step

------------------------------------------------------------
-- Numbered Records
------------------------------------------------------------

/- The entry is one of the process for the address. -/
def isFor (pid : Int) (address : Nat) (r : Nat × MemData) :
    Bool :=
  r.2.address = address ∧ r.2.pid = pid

/-
  The records that have not been subtracted, each with the
  number of the step that has made it.
-/
def numbered : Trace → List (Nat × MemData)
| [] => []
| t :: earlier =>
    match t.event with
    | .kmallocReturn pid address size true =>
        (earlier.length, ⟨pid, address, toInt size⟩) ::
          numbered earlier
    | .kfree pid address =>
        (numbered earlier).eraseP (isFor pid address)
    | .ioctl .removeProcess arg _ =>
        if t.source.procDataHead.any
            (fun pdl => pdl.pid = toInt arg) then
          (numbered earlier).filter (fun r => r.2.pid ≠ toInt arg)
        else
          numbered earlier
    | _ => numbered earlier

/- The record that a `kfree` subtracts, if there is one. -/
def subtracts (t : Transition) (earlier : Trace) :
    Option (Nat × MemData) :=
  match t.event with
  | .kfree pid address =>
      (numbered earlier).find? (isFor pid address)
  | _ => none

def subtracted : Trace → List (Nat × MemData)
| [] => []
| t :: earlier =>
    (subtracts t earlier).toList ++ subtracted earlier

/- The record was made by the step of its number. -/
def RecordedAt (trace : Trace) (r : Nat × MemData) : Prop :=
  ∃ (t : Transition) (earlier : Trace) (size : Nat),
    t :: earlier <:+ trace ∧ earlier.length = r.1 ∧
      t.event =
        .kmallocReturn r.2.pid r.2.address size true ∧
      r.2.memSize = toInt size

/-
  What is subtracted is the size of a recorded allocation, and
  no allocation is subtracted twice.
-/
structure SubtractsOnce (trace : Trace) : Prop where
  amounts :
    AtEach
      (fun t earlier =>
        ∀ pid address, t.event = .kfree pid address →
          (getMemData pid address t.source).1 =
            ((subtracts t earlier).map
              (fun r => r.2.memSize)).getD 0)
      trace
  recorded : ∀ r ∈ subtracted trace, RecordedAt trace r
  once : ((subtracted trace).map Prod.fst).Nodup

/- Each record is in one place, here or subtracted. -/
structure Numbers (trace : Trace) (s : Lists) : Prop where
  records : (numbered trace).map Prod.snd = s.memDataHead
  recorded :
    ∀ r ∈ numbered trace ++ subtracted trace, RecordedAt trace r
  distinct :
    ((numbered trace ++ subtracted trace).map Prod.fst).Nodup
  amounts :
    AtEach
      (fun t earlier =>
        ∀ pid address, t.event = .kfree pid address →
          (getMemData pid address t.source).1 =
            ((subtracts t earlier).map
              (fun r => r.2.memSize)).getD 0)
      trace

theorem takeMemData_numbered (pid : Int) (address : Nat) :
    ∀ l : List (Nat × MemData),
      takeMemData pid address (l.map Prod.snd) =
        (((l.find? (isFor pid address)).map
            (fun r => r.2.memSize)).getD 0,
          (l.eraseP (isFor pid address)).map Prod.snd)
| [] => rfl
| r :: rest => by
    have hRest := takeMemData_numbered pid address rest
    rw [List.map_cons, takeMemData, List.find?_cons,
      List.eraseP_cons]
    by_cases hFor : isFor pid address r = true
    · have hBoth : r.2.address = address ∧ r.2.pid = pid :=
        of_decide_eq_true hFor
      rw [if_pos hBoth, hFor]
      rfl
    · have hBoth : ¬ (r.2.address = address ∧ r.2.pid = pid) :=
        fun h => hFor (decide_eq_true h)
      rw [if_neg hBoth, hRest, Bool.eq_false_iff.mpr hFor]
      rfl

theorem perm_of_find?
    {p : Nat × MemData → Bool} {r : Nat × MemData} :
    ∀ {l : List (Nat × MemData)},
      l.find? p = some r → l.Perm (r :: l.eraseP p)
| first :: rest, hFound => by
    rw [List.find?_cons] at hFound
    rw [List.eraseP_cons]
    split at hFound
    · rename_i hFirst
      cases hFound
      rw [hFirst]
      exact List.Perm.refl _
    · rename_i hFirst
      rw [hFirst]
      exact ((perm_of_find? hFound).cons first).trans
        (List.Perm.swap r first _)

theorem RecordedAt.cons
    {trace : Trace} {r : Nat × MemData}
    (hRecorded : RecordedAt trace r)
    (t : Transition) :
    RecordedAt (t :: trace) r := by
  rcases hRecorded with ⟨t', earlier, size, hSuffix, hRest⟩
  exact ⟨t', earlier, size,
    hSuffix.trans (List.suffix_cons t trace), hRest⟩

theorem RecordedAt.lt
    {trace : Trace} {r : Nat × MemData}
    (hRecorded : RecordedAt trace r) :
    r.1 < trace.length := by
  rcases hRecorded with ⟨t, earlier, _, hSuffix, hNumber, _⟩
  have hLength := hSuffix.length_le
  rw [List.length_cons] at hLength
  omega

section Numbers

variable {trace : Trace} {s : Lists}

theorem numbers_start : Numbers [] start where
  records := rfl
  recorded := fun r hMem => by cases hMem
  distinct := List.nodup_nil
  amounts := trivial

/- A step that subtracts nothing, and makes no record. -/
theorem Numbers.kept
    (hNumbers : Numbers trace s)
    {t : Transition}
    (hRecords :
      (numbered (t :: trace)).map Prod.snd =
        t.target.memDataHead)
    (hSublist :
      (numbered (t :: trace)).Sublist (numbered trace))
    (hOther : ∀ pid address, t.event ≠ .kfree pid address) :
    Numbers (t :: trace) t.target := by
  have hNone : subtracts t trace = none := by
    unfold subtracts
    split
    · rename_i pid address hEvent
      exact absurd hEvent (hOther pid address)
    · rfl
  have hSubtracted : subtracted (t :: trace) = subtracted trace := by
    rw [subtracted, hNone]
    rfl
  have hAll :
      (numbered (t :: trace) ++ subtracted (t :: trace)).Sublist
        (numbered trace ++ subtracted trace) := by
    rw [hSubtracted]
    exact hSublist.append (List.Sublist.refl _)
  refine ⟨hRecords, ?_, ?_, ?_⟩
  · intro r hMem
    exact (hNumbers.recorded r (hAll.subset hMem)).cons t
  · exact hNumbers.distinct.sublist (hAll.map _)
  · exact
      ⟨fun pid address hEvent =>
        absurd hEvent (hOther pid address), hNumbers.amounts⟩

/- A new record has a new number. -/
theorem Numbers.allocated
    (hNumbers : Numbers trace s)
    (pid : Int) (address size : Nat) (s' : Lists)
    (hRecords :
      s'.memDataHead =
        ⟨pid, address, toInt size⟩ :: s.memDataHead) :
    Numbers
      (⟨s, .kmallocReturn pid address size true, s'⟩ :: trace)
      s' := by
  refine ⟨?_, ?_, ?_, ?_⟩
  · rw [hRecords, ← hNumbers.records]
    rfl
  · intro r hMem
    rcases List.mem_cons.mp hMem with hNew | hOld
    · have hRecord :
          r.1 = trace.length ∧
            r.2 = ⟨pid, address, toInt size⟩ := by
        rw [hNew]
        exact ⟨rfl, rfl⟩
      refine ⟨_, trace, size, List.suffix_refl _,
        hRecord.1.symm, ?_, ?_⟩
      · rw [hRecord.2]
      · rw [hRecord.2]
    · exact (hNumbers.recorded r hOld).cons _
  · refine List.nodup_cons.mpr ⟨?_, hNumbers.distinct⟩
    intro hMem
    rcases List.mem_map.mp hMem with ⟨r, hOld, hNumber⟩
    have hLess := (hNumbers.recorded r hOld).lt
    change r.1 = trace.length at hNumber
    omega
  · exact
      ⟨fun _ _ hEvent => (by cases hEvent), hNumbers.amounts⟩

/- A record goes from the list to what is subtracted. -/
theorem Numbers.kfree
    (hNumbers : Numbers trace s)
    (pid : Int) (address : Nat) :
    Numbers
      (⟨s, .kfree pid address, kfreeHandlerPre pid address s⟩ ::
        trace)
      (kfreeHandlerPre pid address s) := by
  have hTaken := takeMemData_numbered pid address (numbered trace)
  rw [hNumbers.records] at hTaken
  have hPerm :
      (numbered trace ++ subtracted trace).Perm
        ((numbered trace).eraseP (isFor pid address) ++
          (((numbered trace).find? (isFor pid address)).toList ++
            subtracted trace)) := by
    cases hFound :
        (numbered trace).find? (isFor pid address) with
    | none =>
        rw [List.eraseP_of_forall_not
          (List.find?_eq_none.mp hFound)]
        exact List.Perm.refl _
    | some r =>
        have hOut :=
          (perm_of_find? hFound).append_right (subtracted trace)
        exact hOut.trans List.perm_middle.symm
  refine ⟨?_, ?_, ?_, ?_⟩
  · have hList :
        (kfreeHandlerPre pid address s).memDataHead =
          (takeMemData pid address s.memDataHead).2 := by
      unfold kfreeHandlerPre
      dsimp only
      split <;> rfl
    rw [hList, hTaken]
    rfl
  · intro r hMem
    exact (hNumbers.recorded r (hPerm.mem_iff.mpr hMem)).cons _
  · exact (hPerm.map Prod.fst).nodup_iff.mp hNumbers.distinct
  · refine ⟨?_, hNumbers.amounts⟩
    intro pid' address' hEvent
    cases hEvent
    change (takeMemData pid address s.memDataHead).1 = _
    rw [hTaken]
    rfl

/- The records of the process are dropped. -/
theorem Numbers.removeProcess
    (hNumbers : Numbers trace s)
    (arg : Nat) (allocated : Bool) :
    Numbers
      (⟨s, .ioctl .removeProcess arg allocated,
        (Tracer.removeProcess (toInt arg) s).2⟩ :: trace)
      (Tracer.removeProcess (toInt arg) s).2 := by
  by_cases hFound :
      s.procDataHead.any (fun pdl => pdl.pid = toInt arg) = true
  · have hNumbered :
        numbered
            (⟨s, .ioctl .removeProcess arg allocated,
              (Tracer.removeProcess (toInt arg) s).2⟩ :: trace) =
          (numbered trace).filter
            (fun r => r.2.pid ≠ toInt arg) :=
      if_pos hFound
    refine hNumbers.kept ?_ ?_ (fun _ _ h => by cases h)
    · have hList :
          (Tracer.removeProcess (toInt arg) s).2.memDataHead =
            s.memDataHead.filter
              (fun mdl => mdl.pid ≠ toInt arg) := by
        unfold Tracer.removeProcess
        rw [if_pos hFound]
        rfl
      rw [hNumbered]
      refine Eq.trans ?_ hList.symm
      rw [← hNumbers.records, List.filter_map]
      rfl
    · rw [hNumbered]
      exact List.filter_sublist
  · have hNumbered :
        numbered
            (⟨s, .ioctl .removeProcess arg allocated,
              (Tracer.removeProcess (toInt arg) s).2⟩ :: trace) =
          numbered trace :=
      if_neg hFound
    have hSame :
        (Tracer.removeProcess (toInt arg) s).2 = s := by
      unfold Tracer.removeProcess
      rw [if_neg hFound]
    refine hNumbers.kept ?_ ?_ (fun _ _ h => by cases h)
    · rw [hNumbered]
      change _ =
        (Tracer.removeProcess (toInt arg) s).2.memDataHead
      rw [hSame]
      exact hNumbers.records
    · exact hNumbered.symm ▸ List.Sublist.refl (numbered trace)

theorem Numbers.next
    (hNumbers : Numbers trace s)
    (e : Event) :
    Numbers (⟨s, e, handle s e⟩ :: trace) (handle s e) := by
  cases e with
  | kmallocReturn pid address size allocated =>
      cases allocated with
      | true =>
          exact hNumbers.allocated pid address size _ rfl
      | false =>
          exact hNumbers.kept hNumbers.records
            (List.Sublist.refl _) (fun _ _ h => by cases h)
  | kfree pid address => exact hNumbers.kfree pid address
  | ioctl cmd arg allocated =>
      cases cmd with
      | addProcess =>
          refine hNumbers.kept ?_ (List.Sublist.refl _)
            (fun _ _ h => by cases h)
          refine hNumbers.records.trans ?_
          cases allocated <;> rfl
      | removeProcess =>
          exact hNumbers.removeProcess arg allocated
      | other =>
          exact hNumbers.kept hNumbers.records
            (List.Sublist.refl _) (fun _ _ h => by cases h)
  | kmallocEntry pid
  | sched pid
  | up pid
  | down pid
  | lock pid
  | unlock pid =>
      exact hNumbers.kept hNumbers.records (List.Sublist.refl _)
        (fun _ _ h => by cases h)

end Numbers

------------------------------------------------------------
-- Whole Runs
------------------------------------------------------------

/- A column of a line of `/proc/tracer`. -/
def column (line : Int × List Int) (c : Counter) : Int :=
  line.2.getD (columns.idxOf c) 0

/- In every line `kfree_mem` is at most `kmalloc_mem`. -/
def FreedWithin (s : Lists) : Prop :=
  ∀ line ∈ tracerProcInfo s,
    column line .kfreeMem ≤ column line .kmallocMem

instance (s : Lists) : Decidable (FreedWithin s) :=
  inferInstanceAs
    (Decidable
      (∀ line ∈ tracerProcInfo s,
        column line .kfreeMem ≤ column line .kmallocMem))

theorem column_eq (pdl : ProcData) (c : Counter) :
    column (pdl.pid, columns.map pdl.counter) c =
      pdl.counter c := by
  cases c <;> rfl

theorem freedWithin_iff (s : Lists) :
    FreedWithin s ↔
      ∀ pdl ∈ s.procDataHead,
        pdl.counter .kfreeMem ≤ pdl.counter .kmallocMem := by
  unfold FreedWithin tracerProcInfo
  rw [List.forall_mem_map]
  simp only [column_eq]

/-
  The lines of a state that a run has reached, and what has
  been subtracted on the way.
-/
structure FreesWithin (trace : Trace) (s : Lists) : Prop where
  within : FreedWithin s
  once : SubtractsOnce trace

section Runs

variable {trace : Trace} {s : Lists}

theorem covered_of_run
    (hRun : tracerSystem.Run trace s)
    (hFits : AtEach (fun t _ => NoOverflow t) trace)
    (hClean : AtEach (fun t _ => AddsClean t) trace) :
    Covered s := by
  revert hFits hClean
  refine hRun.history_invariant
    (I := fun trace s =>
      AtEach (fun t _ => NoOverflow t) trace →
        AtEach (fun t _ => AddsClean t) trace → Covered s)
    ?_ ?_
  · rintro s rfl _ _
    exact
      ⟨fun pdl hMem => (by cases hMem),
        fun pid pdl hFirst => (by cases hFirst)⟩
  · rintro trace s e s' _ hInv hStep ⟨hFits, hFitsBefore⟩
      ⟨hClean, hCleanBefore⟩
    cases hStep
    exact (hInv hFitsBefore hCleanBefore).next e hFits hClean

/- However an address is reused. -/
theorem subtractsOnce_of_run
    (hRun : tracerSystem.Run trace s) :
    SubtractsOnce trace := by
  have hNumbers : Numbers trace s := by
    refine hRun.history_invariant ?_ ?_
    · rintro s rfl
      exact numbers_start
    · intro trace s e s' _ hInv hStep
      cases hStep
      exact hInv.next e
  refine ⟨hNumbers.amounts, ?_, ?_⟩
  · intro r hMem
    exact hNumbers.recorded r (List.mem_append_right _ hMem)
  · have hDistinct := hNumbers.distinct
    rw [List.map_append] at hDistinct
    exact (List.nodup_append.mp hDistinct).2.1

/-
  If no process is added while it has allocations outstanding,
  no row ever counts more as freed than as allocated.
-/
theorem freesWithin_of_clean
    (hRun : tracerSystem.Run trace s)
    (hFits : AtEach (fun t _ => NoOverflow t) trace)
    (hClean : AtEach (fun t _ => AddsClean t) trace) :
    FreesWithin trace s where
  within := by
    rw [freedWithin_iff]
    intro pdl hMem
    exact ((covered_of_run hRun hFits hClean).rows pdl hMem).1
  once := subtractsOnce_of_run hRun

/- The record is taken, or one before it. -/
theorem takeMemData_of_mem
    {pid : Int} {address : Nat} {mdl : MemData} :
    ∀ {entries : List MemData},
      mdl ∈ entries → mdl.address = address → mdl.pid = pid →
        (takeMemData pid address entries).2.length <
            entries.length ∧
          ∃ taken ∈ entries,
            (takeMemData pid address entries).1 =
                taken.memSize ∧
              (taken = mdl ∨
                mdl ∈ (takeMemData pid address entries).2)
| first :: rest, hMem, hAddress, hPid => by
    rw [takeMemData]
    split
    · rename_i hFirst
      refine ⟨Nat.lt_succ_self _, first, List.mem_cons_self, rfl,
        ?_⟩
      exact (List.mem_cons.mp hMem).imp Eq.symm id
    · rename_i hFirst
      rcases List.mem_cons.mp hMem with rfl | hRest
      · exact absurd ⟨hAddress, hPid⟩ hFirst
      · rcases takeMemData_of_mem hRest hAddress hPid with
          ⟨hLength, taken, hTaken, hSize, hKept⟩
        exact ⟨Nat.succ_lt_succ hLength, taken,
          List.mem_cons_of_mem _ hTaken, hSize,
          hKept.imp id (List.mem_cons_of_mem _)⟩

theorem firstRow_incrementFuncCall
    {s : Lists} {pid : Int} {pdl : ProcData}
    (hRow : firstRow pid s.procDataHead = some pdl)
    (increment : Int) (opName : List Char) :
    firstRow pid
        (incrementFuncCall pid increment opName
          s).procDataHead =
      some (pdl.add increment (counterOf opName)) := by
  unfold incrementFuncCall
  rw [firstRow_incrementRow, if_pos rfl, hRow]
  rfl

end Runs

section Exceeds

variable {s : Lists} {pid : Int} {address : Nat}
variable {pdl : ProcData}

/- A record without a size is taken, and nothing is counted. -/
theorem kfree_of_zero
    (hRow : firstRow pid s.procDataHead = some pdl)
    (hZero : (takeMemData pid address s.memDataHead).1 = 0) :
    firstRow pid (handle s (.kfree pid address)).procDataHead =
        some (pdl.add 1 (some .kfree)) ∧
      (handle s (.kfree pid address)).memDataHead =
        (takeMemData pid address s.memDataHead).2 := by
  have hState :
      handle s (.kfree pid address) =
        incrementFuncCall pid 1 "kfree_counter".toList
          (getMemData pid address s).2 :=
    kfreeHandlerPre_of_zero hZero
  have hNext :=
    firstRow_incrementFuncCall
      (s := (getMemData pid address s).2) hRow 1
      "kfree_counter".toList
  rw [counterOf_kfree] at hNext
  rw [hState]
  exact ⟨hNext, rfl⟩

/- A record with a size is counted in a row that has none. -/
theorem exceeds_of_positive
    (hRow : firstRow pid s.procDataHead = some pdl)
    (hAllocated : pdl.counter .kmallocMem = 0)
    (hFreed : pdl.counter .kfreeMem = 0)
    {size : Int}
    (hTaken :
      (takeMemData pid address s.memDataHead).1 = size)
    (hPositive : 0 < size)
    (hFits : size < 2 ^ 31) :
    ¬ FreedWithin (handle s (.kfree pid address)) := by
  have hAmount : (getMemData pid address s).1 = size := hTaken
  have hState :
      handle s (.kfree pid address) =
        incrementFuncCall pid 1 "kfree_counter".toList
          (incrementFuncCall pid size
            "kfree_mem_counter".toList
            (getMemData pid address s).2) := by
    rw [← hAmount]
    apply kfreeHandlerPre_of_size
    omega
  have hCounted :=
    firstRow_incrementFuncCall
      (s := (getMemData pid address s).2) hRow size
      "kfree_mem_counter".toList
  have hNext :=
    firstRow_incrementFuncCall hCounted 1
      "kfree_counter".toList
  rw [← hState, counterOf_kfree, counterOf_kfreeMem] at hNext
  rw [freedWithin_iff]
  intro hWithin
  have hLine := hWithin _ (mem_of_firstRow hNext)
  have hSum : toInt (0 + size) = size := by
    rw [Int.zero_add]
    exact Int.bmod_eq_of_le (by omega) (by omega)
  rw [add_other _ _ (by decide), add_self,
    add_other _ _ (by decide), add_other _ _ (by decide),
    hFreed, hAllocated, hSum] at hLine
  omega

/-
  A new row whose process has a record is exceeded as soon as
  the memory is freed.
-/
theorem exceeds_of_outstanding
    {mdl : MemData}
    (hPid : mdl.pid = pid)
    (hSize : 0 < mdl.memSize) :
    ∀ (records : Nat) (s : Lists) (pdl : ProcData),
      s.memDataHead.length = records →
        mdl ∈ s.memDataHead →
          (∀ mdl ∈ s.memDataHead,
            0 ≤ mdl.memSize ∧ mdl.memSize < 2 ^ 31) →
            firstRow pid s.procDataHead = some pdl →
              pdl.counter .kmallocMem = 0 →
                pdl.counter .kfreeMem = 0 →
                  ∃ later : List Event,
                    ¬ FreedWithin (later.foldl handle s) := by
  intro records
  induction records using Nat.strong_induction_on with
  | _ records ih =>
      intro s pdl hLength hMem hSizes hRow hAllocated hFreed
      rcases takeMemData_of_mem hMem rfl hPid with
        ⟨hLess, taken, hTaken, hFound, hKept⟩
      have hRange := hSizes taken hTaken
      by_cases hZero : taken.memSize = 0
      · -- Another record of the address comes first.
        rcases kfree_of_zero hRow (hFound.trans hZero) with
          ⟨hNext, hList⟩
        have hStill :
            mdl ∈
              (takeMemData pid mdl.address s.memDataHead).2 := by
          refine hKept.resolve_left ?_
          rintro rfl
          omega
        rcases ih _ (by rw [← hLength]; exact hLess)
            (handle s (.kfree pid mdl.address)) _
            (by rw [hList]) (by rw [hList]; exact hStill)
            (fun mdl' hMem' =>
              hSizes mdl'
                ((takeMemData_sublist _ _ _).subset
                  (by rw [← hList]; exact hMem')))
            hNext
            (by rw [add_other pdl _ (by decide)]; exact hAllocated)
            (by rw [add_other pdl _ (by decide)]; exact hFreed)
          with ⟨later, hExceeds⟩
        exact ⟨.kfree pid mdl.address :: later, hExceeds⟩
      · exact
          ⟨[.kfree pid mdl.address],
            exceeds_of_positive hRow hAllocated hFreed hFound
              (by omega) hRange.2⟩

/- An `add` that is not clean can always lead to that. -/
theorem exceeds_of_not_addsClean
    {e : Event}
    (hSizes :
      ∀ mdl ∈ s.memDataHead,
        0 ≤ mdl.memSize ∧ mdl.memSize < 2 ^ 31)
    (hUnclean : ¬ AddsClean ⟨s, e, handle s e⟩) :
    ∃ later : List Event,
      ¬ FreedWithin (later.foldl handle (handle s e)) := by
  cases e with
  | ioctl cmd arg allocated =>
      cases cmd with
      | addProcess =>
          by_contra hNever
          apply hUnclean
          rintro rfl mdl hMem hPid
          by_contra hSize
          apply hNever
          refine exceeds_of_outstanding hPid
            (Int.not_le.mp hSize) _
            (handle s (.ioctl .addProcess arg true))
            ⟨toInt arg, fun _ => 0⟩ rfl hMem hSizes ?_ rfl rfl
          change firstRow _ (_ :: s.procDataHead) = _
          rw [firstRow_cons, if_pos rfl]
      | removeProcess => exact absurd trivial hUnclean
      | other => exact absurd trivial hUnclean
  | kmallocReturn pid address size allocated =>
      exact absurd trivial hUnclean
  | kfree pid address => exact absurd trivial hUnclean
  | kmallocEntry pid
  | sched pid
  | up pid
  | down pid
  | lock pid
  | unlock pid => exact absurd trivial hUnclean

end Exceeds

instance decidableNoOverflow :
    ∀ t : Transition, Decidable (NoOverflow t)
| ⟨s, .kmallocReturn pid _ size _, _⟩ =>
    inferInstanceAs
      (Decidable
        (∀ pdl ∈ firstRow pid s.procDataHead,
          pdl.counter .kmallocMem + size < 2 ^ 31))
| ⟨s, .kfree pid address, _⟩ =>
    inferInstanceAs
      (Decidable
        (∀ pdl ∈ firstRow pid s.procDataHead,
          -2 ^ 31 ≤
            pdl.counter .kfreeMem + (getMemData pid address s).1))
| ⟨_, .kmallocEntry _, _⟩ => instDecidableTrue
| ⟨_, .sched _, _⟩ => instDecidableTrue
| ⟨_, .up _, _⟩ => instDecidableTrue
| ⟨_, .down _, _⟩ => instDecidableTrue
| ⟨_, .lock _, _⟩ => instDecidableTrue
| ⟨_, .unlock _, _⟩ => instDecidableTrue
| ⟨_, .ioctl _ _ _, _⟩ => instDecidableTrue

instance decidableAddsClean :
    ∀ t : Transition, Decidable (AddsClean t)
| ⟨s, .ioctl .addProcess arg allocated, _⟩ =>
    inferInstanceAs
      (Decidable
        (allocated = true →
          ∀ mdl ∈ s.memDataHead, mdl.pid = toInt arg →
            mdl.memSize ≤ 0))
| ⟨_, .ioctl .removeProcess _ _, _⟩ => instDecidableTrue
| ⟨_, .ioctl .other _ _, _⟩ => instDecidableTrue
| ⟨_, .kmallocReturn _ _ _ _, _⟩ => instDecidableTrue
| ⟨_, .kmallocEntry _, _⟩ => instDecidableTrue
| ⟨_, .kfree _ _, _⟩ => instDecidableTrue
| ⟨_, .sched _, _⟩ => instDecidableTrue
| ⟨_, .up _, _⟩ => instDecidableTrue
| ⟨_, .down _, _⟩ => instDecidableTrue
| ⟨_, .lock _, _⟩ => instDecidableTrue
| ⟨_, .unlock _, _⟩ => instDecidableTrue

/- An address that is allocated twice and freed three times. -/
def reusedAddress : List Event :=
  [.ioctl .addProcess 7 true,
    .kmallocReturn 7 4096 64 true,
    .kfree 7 4096,
    .kmallocReturn 7 4096 32 true,
    .kfree 7 4096,
    .kfree 7 4096]

theorem freesWithin_reusedAddress :
    ∃ trace s,
      tracerSystem.Run trace s ∧
        tracerProcInfo s =
          [(7, [0, 3, 96, 96, 0, 0, 0, 0, 0])] ∧
        FreesWithin trace s := by
  rcases exists_run_of_execute (fun s => s = start) step
      (rfl : start = start) reusedAddress
      (fun trace s =>
        tracerProcInfo s =
            [(7, [0, 3, 96, 96, 0, 0, 0, 0, 0])] ∧
          AtEach (fun t _ => NoOverflow t) trace ∧
          AtEach (fun t _ => AddsClean t) trace)
      (by decide) with ⟨trace, s, hRun, hHolds⟩
  rw [decide_eq_true_eq] at hHolds
  exact ⟨trace, s, hRun, hHolds.1,
    freesWithin_of_clean hRun hHolds.2.1 hHolds.2.2⟩

/- A process that allocates before it is added, and frees. -/
theorem not_freesWithin_always :
    ¬ ∀ (trace : Trace) (s : Lists),
        tracerSystem.Run trace s →
          AtEach (fun t _ => NoOverflow t) trace →
            FreesWithin trace s := by
  intro hAlways
  rcases exists_run_of_execute (fun s => s = start) step
      (rfl : start = start)
      [.kmallocReturn 7 4096 64 true, .ioctl .addProcess 7 true,
        .kfree 7 4096]
      (fun trace s =>
        AtEach (fun t _ => NoOverflow t) trace ∧ ¬ FreedWithin s)
      (by decide) with ⟨trace, s, hRun, hFails⟩
  rw [decide_eq_true_eq] at hFails
  exact hFails.2 (hAlways trace s hRun hFails.1).within

end Tracer

end ProgrammingTasks
