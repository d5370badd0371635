import ProgrammingTasks.Tracer.Probes

/-
  The counters that the tracer shows for each process.

  A row is found by its process and no row is looked for when
  one is added.  As long as no traced process is added again,
  each row counts the events of its process since then.

  Main declarations:
    * `tracerProcInfo`
    * `tally`, `isAdded`
    * `Accounts`, `NotTwice`
    * `Exact`, `exact_next`
    * `accounts_iff`
-/

------------------------------------------------------------
-- The Law
------------------------------------------------------------

namespace ProgrammingTasks

namespace Tracer

open TransitionSystem

/- The columns of `/proc/tracer` behind the pid. -/
def columns : List Counter :=
  [.kmalloc, .kfree, .kmallocMem, .kfreeMem, .sched, .up, .down,
    .lock, .unlock]

/- The lines of `/proc/tracer`. -/
def tracerProcInfo (s : Lists) : List (Int × List Int) :=
  s.procDataHead.map
    (fun pdl => (pdl.pid, columns.map pdl.counter))

/- The process, the counter and the amount of a probe event. -/
def counted : Event → Option (Int × Counter × Nat)
| .kmallocEntry pid => some (pid, .kmalloc, 1)
| .kmallocReturn pid _ size _ => some (pid, .kmallocMem, size)
| .kfree pid _ => some (pid, .kfree, 1)
| .sched pid => some (pid, .sched, 1)
| .up pid => some (pid, .up, 1)
| .down pid => some (pid, .down, 1)
| .lock pid => some (pid, .lock, 1)
| .unlock pid => some (pid, .unlock, 1)
| .ioctl _ _ _ => none

def contribution (pid : Int) (c : Counter) (e : Event) : Nat :=
  match counted e with
  | none => 0
  | some (pid', c', amount) =>
      if pid' = pid ∧ c' = c then amount else 0

/- A successful ioctl that adds the process. -/
def adds (pid : Int) (t : Transition) : Bool :=
  match t.event with
  | .ioctl .addProcess arg _ =>
      toInt arg = pid && result t.source t.event = some 0
  | _ => false

/- A successful ioctl that removes the process. -/
def removes (pid : Int) (t : Transition) : Bool :=
  match t.event with
  | .ioctl .removeProcess arg _ =>
      toInt arg = pid && result t.source t.event = some 0
  | _ => false

/- The amount of a counter since the process was added. -/
def tally (pid : Int) (c : Counter) : Trace → Nat
| [] => 0
| t :: earlier =>
    if adds pid t then
      0
    else
      tally pid c earlier + contribution pid c t.event

/- It has been added, and not been removed since. -/
def isAdded (pid : Int) : Trace → Bool
| [] => false
| t :: earlier =>
    if adds pid t then
      true
    else if removes pid t then
      false
    else
      isAdded pid earlier

structure Accounts (trace : Trace) (s : Lists) : Prop where
  oneRow : ((tracerProcInfo s).map Prod.fst).Nodup
  added :
    ∀ line ∈ tracerProcInfo s, isAdded line.1 trace = true
  counters :
    ∀ line ∈ tracerProcInfo s, ∀ (k : Nat) (c : Counter),
      columns[k]? = some c → c ≠ .kfreeMem →
        tally line.1 c trace < 2 ^ 31 →
          line.2[k]? = some (tally line.1 c trace : Int)

/- No process that has a row is added. -/
def NotTwice (t : Transition) : Prop :=
  match t.event with
  | .ioctl .addProcess arg allocated =>
      allocated = true → ¬ IsTraced t.source (toInt arg)
  | _ => True

------------------------------------------------------------
-- Increments
------------------------------------------------------------

theorem toInt_add (a b : Int) :
    toInt (toInt a + b) = toInt (a + b) :=
  Int.bmod_add_bmod

theorem toInt_add_toInt (a b : Int) :
    toInt (a + toInt b) = toInt (a + b) :=
  Int.add_bmod_bmod

theorem toInt_eq
    {n : Nat}
    (hFits : n < 2 ^ 31) :
    toInt n = n :=
  Int.bmod_eq_of_le (by omega) (by omega)

/- Only the row of the process changes, if there is one. -/
theorem mem_incrementRow
    {pid increment : Int} {counter : Option Counter} :
    ∀ {rows : List ProcData},
      (rows.map ProcData.pid).Nodup →
        ∀ {pdl' : ProcData},
          pdl' ∈ incrementRow pid increment counter rows →
            ∃ pdl ∈ rows,
              pdl' =
                if pdl.pid = pid then pdl.add increment counter
                else pdl
| pdl :: rest, hNodup, pdl', hMem => by
    rw [List.map_cons, List.nodup_cons] at hNodup
    rw [incrementRow] at hMem
    split at hMem
    · rename_i hPid
      rcases List.mem_cons.mp hMem with rfl | hRest
      · exact ⟨pdl, List.mem_cons_self, by rw [if_pos hPid]⟩
      · refine ⟨pdl', List.mem_cons_of_mem _ hRest, ?_⟩
        have hOther : ¬ pdl'.pid = pid := by
          intro hSame
          apply hNodup.1
          rw [hPid, ← hSame]
          exact List.mem_map_of_mem hRest
        rw [if_neg hOther]
    · rename_i hPid
      rcases List.mem_cons.mp hMem with rfl | hRest
      · exact ⟨pdl', List.mem_cons_self, by rw [if_neg hPid]⟩
      · rcases mem_incrementRow hNodup.2 hRest with
          ⟨pdl₀, hRow, hValue⟩
        exact ⟨pdl₀, List.mem_cons_of_mem _ hRow, hValue⟩

theorem map_fst_tracerProcInfo (s : Lists) :
    (tracerProcInfo s).map Prod.fst =
      s.procDataHead.map ProcData.pid := by
  rw [tracerProcInfo, List.map_map]
  rfl

/-
  The rows keep their processes, and the counters that the law
  is about change by the amounts of an event.
-/
structure Follows
    (amount : Int → Counter → Int) (s s' : Lists) : Prop where
  pids :
    s'.procDataHead.map ProcData.pid =
      s.procDataHead.map ProcData.pid
  counter :
    ∀ pdl' ∈ s'.procDataHead, ∃ pdl ∈ s.procDataHead,
      pdl'.pid = pdl.pid ∧
        ∀ c n, c ≠ .kfreeMem → pdl.counter c = toInt n →
          pdl'.counter c = toInt (n + amount pdl.pid c)

/- The amounts of one increment. -/
def single
    (pid increment : Int) (counter : Option Counter)
    (pid' : Int) (c : Counter) : Int :=
  if pid' = pid ∧ counter = some c then increment else 0

section Follows

variable {s s' s'' : Lists}

theorem follows_increment
    (hNodup : (s.procDataHead.map ProcData.pid).Nodup)
    (pid increment : Int)
    (opName : List Char) :
    Follows (single pid increment (counterOf opName)) s
      (incrementFuncCall pid increment opName s) := by
  refine ⟨map_pid_incrementFuncCall _ _ _ _, ?_⟩
  intro pdl' hMem
  rcases mem_incrementRow hNodup hMem with ⟨pdl, hRow, rfl⟩
  refine ⟨pdl, hRow, ?_, ?_⟩
  · split
    · exact add_pid _ _ _
    · rfl
  · intro c n _ hValue
    unfold single
    by_cases hPid : pdl.pid = pid
    · rw [if_pos hPid]
      cases hCounter : counterOf opName with
      | none => simpa [ProcData.add] using hValue
      | some c' =>
          by_cases hSame : c' = c
          · subst hSame
            rw [if_pos ⟨hPid, rfl⟩, ProcData.add]
            dsimp only
            rw [Function.update_self, hValue, toInt_add]
          · have hOther : ¬ (pdl.pid = pid ∧ some c' = some c) :=
              fun h => hSame (Option.some.inj h.2)
            rw [if_neg hOther, ProcData.add, Int.add_zero]
            dsimp only
            rw [Function.update_of_ne (Ne.symm hSame)]
            exact hValue
    · have hOther :
          ¬ (pdl.pid = pid ∧ counterOf opName = some c) :=
        fun h => hPid h.1
      rw [if_neg hPid, if_neg hOther, Int.add_zero]
      exact hValue

theorem follows_same
    (hRows : s'.procDataHead = s.procDataHead) :
    Follows (fun _ _ => 0) s s' := by
  refine ⟨by rw [hRows], ?_⟩
  intro pdl hMem
  rw [hRows] at hMem
  refine ⟨pdl, hMem, rfl, ?_⟩
  intro c n _ hValue
  rw [Int.add_zero]
  exact hValue

theorem Follows.trans
    {amount amount' : Int → Counter → Int}
    (hFirst : Follows amount s s')
    (hSecond : Follows amount' s' s'') :
    Follows (fun pid c => amount pid c + amount' pid c) s
      s'' := by
  refine ⟨hSecond.pids.trans hFirst.pids, ?_⟩
  intro pdl'' hMem
  rcases hSecond.counter pdl'' hMem with
    ⟨pdl', hRow', hPid', hValue'⟩
  rcases hFirst.counter pdl' hRow' with
    ⟨pdl, hRow, hPid, hValue⟩
  refine ⟨pdl, hRow, hPid'.trans hPid, ?_⟩
  intro c n hKind hBefore
  rw [← Int.add_assoc, ← hPid]
  refine hValue' c _ hKind ?_
  rw [hPid]
  exact hValue c n hKind hBefore

/- Only what the amounts are as an `int` counts. -/
theorem Follows.of_eq
    {amount amount' : Int → Counter → Int}
    (hFollows : Follows amount s s')
    (hSame :
      ∀ pid c, c ≠ .kfreeMem →
        toInt (amount pid c) = toInt (amount' pid c)) :
    Follows amount' s s' := by
  refine ⟨hFollows.pids, ?_⟩
  intro pdl' hMem
  rcases hFollows.counter pdl' hMem with
    ⟨pdl, hRow, hPid, hValue⟩
  refine ⟨pdl, hRow, hPid, ?_⟩
  intro c n hKind hBefore
  rw [hValue c n hKind hBefore, ← toInt_add_toInt,
    hSame _ _ hKind, toInt_add_toInt]

------------------------------------------------------------
-- Probes
------------------------------------------------------------

/- One increment is what the event is counted as. -/
theorem follows_counted
    (hNodup : (s.procDataHead.map ProcData.pid).Nodup)
    {e : Event} {pid increment : Int} {c : Counter}
    {amount : Nat} {opName : List Char}
    (hCounted : counted e = some (pid, c, amount))
    (hName : counterOf opName = some c)
    (hAmount : toInt increment = toInt amount) :
    Follows (fun pid c => contribution pid c e) s
      (incrementFuncCall pid increment opName s) := by
  refine (follows_increment hNodup pid increment opName).of_eq
    ?_
  intro pid' c' _
  unfold single contribution
  rw [hCounted, hName]
  dsimp only
  by_cases hSame : pid' = pid ∧ c = c'
  · rw [if_pos ⟨hSame.1, by rw [hSame.2]⟩,
      if_pos ⟨hSame.1.symm, hSame.2⟩]
    exact hAmount
  · have hOther : ¬ (pid' = pid ∧ some c = some c') :=
      fun h => hSame ⟨h.1, Option.some.inj h.2⟩
    have hElse : ¬ (pid = pid' ∧ c = c') :=
      fun h => hSame ⟨h.1.symm, h.2⟩
    rw [if_neg hOther, if_neg hElse]
    rfl

theorem follows_kmalloc
    (hNodup : (s.procDataHead.map ProcData.pid).Nodup)
    (pid : Int)
    (address size : Nat)
    (allocated : Bool) :
    Follows
      (fun pid' c =>
        contribution pid' c
          (.kmallocReturn pid address size allocated)) s
      (kmallocHandler pid address size allocated s) := by
  have hCounted :
      Follows
        (fun pid' c =>
          contribution pid' c
            (.kmallocReturn pid address size allocated)) s
        (incrementFuncCall pid (toInt size)
          "kmalloc_mem_counter".toList s) := by
    refine follows_counted hNodup (c := .kmallocMem) rfl
      (by decide) ?_
    simpa using toInt_add size 0
  have hSaved :
      Follows (fun _ _ => 0)
        (incrementFuncCall pid (toInt size)
          "kmalloc_mem_counter".toList s)
        (kmallocHandler pid address size allocated s) := by
    refine follows_same ?_
    unfold kmallocHandler saveMemData
    split
    · rfl
    · rfl
  refine (hCounted.trans hSaved).of_eq ?_
  intro pid' c _
  rw [Int.add_zero]

/- The size that is freed is no counter of the law. -/
theorem follows_kfree
    (hNodup : (s.procDataHead.map ProcData.pid).Nodup)
    (pid : Int)
    (address : Nat) :
    Follows
      (fun pid' c => contribution pid' c (.kfree pid address)) s
      (kfreeHandlerPre pid address s) := by
  let found := getMemData pid address s
  let between :=
    if found.1 ≠ 0 then
      incrementFuncCall pid found.1 "kfree_mem_counter".toList
        found.2
    else
      found.2
  have hBetween : Follows (fun _ _ => 0) s between := by
    have hFound : found.2.procDataHead = s.procDataHead := rfl
    by_cases hSize : found.1 ≠ 0
    · have hFreed :=
        follows_increment (s := found.2)
          (by rw [hFound]; exact hNodup) pid found.1
          "kfree_mem_counter".toList
      have hHere :
          between =
            incrementFuncCall pid found.1
              "kfree_mem_counter".toList found.2 :=
        if_pos hSize
      rw [hHere]
      refine ((follows_same hFound).trans hFreed).of_eq ?_
      intro pid' c hKind
      have hName :
          counterOf "kfree_mem_counter".toList =
            some .kfreeMem := by
        decide
      unfold single
      rw [hName, if_neg, Int.add_zero]
      exact fun h => hKind (Option.some.inj h.2).symm
    · have hHere : between = found.2 := if_neg hSize
      rw [hHere]
      exact follows_same hFound
  have hLast :
      Follows
        (fun pid' c => contribution pid' c (.kfree pid address))
        between (kfreeHandlerPre pid address s) :=
    follows_counted (by rw [hBetween.pids]; exact hNodup)
      (c := .kfree) rfl (by decide) rfl
  refine (hBetween.trans hLast).of_eq ?_
  intro pid' c _
  rw [Int.zero_add]

theorem follows_handle
    (hNodup : (s.procDataHead.map ProcData.pid).Nodup)
    {e : Event}
    (hProbe : counted e ≠ none) :
    Follows (fun pid c => contribution pid c e) s
      (handle s e) := by
  cases e with
  | kmallocEntry pid =>
      exact follows_counted hNodup (c := .kmalloc) rfl
        (by decide) rfl
  | kmallocReturn pid address size allocated =>
      exact follows_kmalloc hNodup pid address size allocated
  | kfree pid address =>
      exact follows_kfree hNodup pid address
  | sched pid =>
      exact follows_counted hNodup (c := .sched) rfl
        (by decide) rfl
  | up pid =>
      exact follows_counted hNodup (c := .up) rfl (by decide)
        rfl
  | down pid =>
      exact follows_counted hNodup (c := .down) rfl (by decide)
        rfl
  | lock pid =>
      exact follows_counted hNodup (c := .lock) rfl (by decide)
        rfl
  | unlock pid =>
      exact follows_counted hNodup (c := .unlock) rfl
        (by decide) rfl
  | ioctl cmd arg allocated =>
      exact absurd rfl hProbe

end Follows

------------------------------------------------------------
-- The Invariant
------------------------------------------------------------

/- One row for each process, which has counted its events. -/
structure Exact (trace : Trace) (s : Lists) : Prop where
  nodup : (s.procDataHead.map ProcData.pid).Nodup
  added :
    ∀ pdl ∈ s.procDataHead, isAdded pdl.pid trace = true
  counter :
    ∀ pdl ∈ s.procDataHead, ∀ c, c ≠ .kfreeMem →
      pdl.counter c = toInt (tally pdl.pid c trace)

section Exact

variable {trace : Trace} {s : Lists}

/- A step that neither adds nor removes a process. -/
theorem Exact.follows
    {t : Transition}
    (hExact : Exact trace s)
    (hAdds : ∀ pid, adds pid t = false)
    (hRemoves : ∀ pid, removes pid t = false)
    (hFollows :
      Follows (fun pid c => contribution pid c t.event) s
        t.target) :
    Exact (t :: trace) t.target := by
  refine ⟨?_, ?_, ?_⟩
  · rw [hFollows.pids]
    exact hExact.nodup
  · intro pdl' hMem
    rcases hFollows.counter pdl' hMem with
      ⟨pdl, hRow, hPid, _⟩
    rw [isAdded, hAdds, hRemoves, if_neg (by decide),
      if_neg (by decide), hPid]
    exact hExact.added pdl hRow
  · intro pdl' hMem c hKind
    rcases hFollows.counter pdl' hMem with
      ⟨pdl, hRow, hPid, hValue⟩
    rw [tally, hAdds, if_neg (by decide), hPid, Int.natCast_add]
    exact hValue c _ hKind (hExact.counter pdl hRow c hKind)

theorem procDataHead_add
    (s : Lists)
    (arg : Nat) :
    (handle s
        (.ioctl .addProcess arg true)).procDataHead =
      ⟨toInt arg, fun _ => 0⟩ :: s.procDataHead :=
  rfl

/- A new row has counted nothing, and is the only one. -/
theorem Exact.addProcess
    (hExact : Exact trace s)
    {arg : Nat} {allocated : Bool}
    (hAllocated : allocated = true)
    (hNew : ¬ IsTraced s (toInt arg)) :
    Exact
      (⟨s, .ioctl .addProcess arg allocated,
        handle s (.ioctl .addProcess arg allocated)⟩ :: trace)
      (handle s (.ioctl .addProcess arg allocated)) := by
  subst hAllocated
  have hAdds :
      ∀ pid,
        adds pid
            ⟨s, .ioctl .addProcess arg true,
              handle s (.ioctl .addProcess arg true)⟩ =
          decide (toInt arg = pid) := by
    intro pid
    simp [adds, result, so2MdevIoctl, Tracer.addProcess]
  have hOther :
      ∀ pdl ∈ s.procDataHead, ¬ toInt arg = pdl.pid :=
    fun pdl hRow hPid => hNew ⟨pdl, hRow, hPid.symm⟩
  refine ⟨?_, ?_, ?_⟩
  · rw [procDataHead_add, List.map_cons, List.nodup_cons,
      ← isTraced_iff]
    dsimp only
    exact ⟨hNew, hExact.nodup⟩
  · intro pdl hMem
    rw [procDataHead_add] at hMem
    rw [isAdded, hAdds]
    rcases List.mem_cons.mp hMem with rfl | hRow
    · exact if_pos (by simp)
    · rw [if_neg (by simpa using hOther pdl hRow)]
      exact hExact.added pdl hRow
  · intro pdl hMem c hKind
    rw [procDataHead_add] at hMem
    rw [tally, hAdds]
    rcases List.mem_cons.mp hMem with rfl | hRow
    · rw [if_pos (by simp)]
      exact (toInt_eq (n := 0) (by omega)).symm
    · rw [if_neg (by simpa using hOther pdl hRow)]
      exact hExact.counter pdl hRow c hKind

theorem mem_eraseP_pid
    {pid : Int} :
    ∀ {rows : List ProcData},
      (rows.map ProcData.pid).Nodup →
        ∀ pdl ∈ rows.eraseP (fun pdl => pdl.pid = pid),
          pdl ∈ rows ∧ ¬ pid = pdl.pid
| row :: rest, hNodup, pdl, hMem => by
    rw [List.map_cons, List.nodup_cons] at hNodup
    by_cases hPid : row.pid = pid
    · rw [List.eraseP_cons_of_pos (by simpa using hPid)] at hMem
      refine ⟨List.mem_cons_of_mem _ hMem, ?_⟩
      intro hSame
      apply hNodup.1
      rw [hPid, hSame]
      exact List.mem_map_of_mem hMem
    · rw [List.eraseP_cons_of_neg (by simpa using hPid)] at hMem
      rcases List.mem_cons.mp hMem with rfl | hRest
      · exact ⟨List.mem_cons_self, fun h => hPid h.symm⟩
      · rcases mem_eraseP_pid hNodup.2 pdl hRest with
          ⟨hRow, hOther⟩
        exact ⟨List.mem_cons_of_mem _ hRow, hOther⟩

/- All other rows stay, and none of the process is left. -/
theorem Exact.removeProcess
    (hExact : Exact trace s)
    {arg : Nat} {allocated : Bool}
    (hFound : IsTraced s (toInt arg)) :
    Exact
      (⟨s, .ioctl .removeProcess arg allocated,
        handle s (.ioctl .removeProcess arg allocated)⟩ ::
          trace)
      (handle s (.ioctl .removeProcess arg allocated)) := by
  have hAny :
      s.procDataHead.any (fun pdl => pdl.pid = toInt arg) =
        true := by
    simpa [IsTraced] using hFound
  have hReturns :
      so2MdevIoctl .removeProcess arg allocated s =
        (0, removeByPidFromMemList (toInt arg)
          { s with
            procDataHead :=
              s.procDataHead.eraseP
                (fun pdl => pdl.pid = toInt arg) }) :=
    if_pos hAny
  have hRows :
      (handle s
          (.ioctl .removeProcess arg allocated)).procDataHead =
        s.procDataHead.eraseP
          (fun pdl => pdl.pid = toInt arg) := by
    rw [handle, hReturns]
    rfl
  have hRemoves :
      ∀ pid,
        removes pid
            ⟨s, .ioctl .removeProcess arg allocated,
              handle s (.ioctl .removeProcess arg allocated)⟩ =
          decide (toInt arg = pid) := by
    intro pid
    simp [removes, result, hReturns]
  have hStays :
      ∀ pdl ∈ s.procDataHead.eraseP
          (fun pdl => pdl.pid = toInt arg),
        pdl ∈ s.procDataHead ∧ ¬ toInt arg = pdl.pid :=
    mem_eraseP_pid hExact.nodup
  refine ⟨?_, ?_, ?_⟩
  · rw [hRows]
    exact hExact.nodup.sublist
      (List.eraseP_sublist.map ProcData.pid)
  · intro pdl hMem
    rw [hRows] at hMem
    rcases hStays pdl hMem with ⟨hRow, hOther⟩
    rw [isAdded, hRemoves]
    rw [if_neg (by simp [adds]),
      if_neg (by simpa using hOther)]
    exact hExact.added pdl hRow
  · intro pdl hMem c hKind
    rw [hRows] at hMem
    rcases hStays pdl hMem with ⟨hRow, _⟩
    rw [tally, if_neg (by simp [adds]), contribution]
    exact hExact.counter pdl hRow c hKind

/- An ioctl that fails changes nothing. -/
theorem Exact.failed
    (hExact : Exact trace s)
    {e : Event}
    (hIoctl : counted e = none)
    (hFailed : result s e ≠ some 0)
    (hSame : handle s e = s) :
    Exact (⟨s, e, handle s e⟩ :: trace) (handle s e) := by
  refine hExact.follows ?_ ?_ ?_
  · intro pid
    unfold adds
    split
    · simpa using fun _ => hFailed
    · rfl
  · intro pid
    unfold removes
    split
    · simpa using fun _ => hFailed
    · rfl
  · have hNothing :
        (fun pid c => (contribution pid c e : Int)) =
          fun _ _ => 0 := by
      funext pid c
      rw [contribution, hIoctl]
      rfl
    rw [hNothing, hSame]
    exact follows_same rfl

theorem exact_next
    (hExact : Exact trace s)
    (e : Event)
    (hOnce : NotTwice ⟨s, e, handle s e⟩) :
    Exact (⟨s, e, handle s e⟩ :: trace) (handle s e) := by
  cases hCounted : counted e with
  | some amounts =>
      refine hExact.follows ?_ ?_
        (follows_handle hExact.nodup (by simp [hCounted]))
      · intro pid
        cases e with
        | ioctl cmd arg allocated => cases hCounted
        | _ => rfl
      · intro pid
        cases e with
        | ioctl cmd arg allocated => cases hCounted
        | _ => rfl
  | none =>
      cases e with
      | ioctl cmd arg allocated =>
          cases cmd with
          | addProcess =>
              cases allocated with
              | true => exact hExact.addProcess rfl (hOnce rfl)
              | false =>
                  refine hExact.failed rfl ?_ rfl
                  exact fun h => by cases h
          | removeProcess =>
              by_cases hFound : IsTraced s (toInt arg)
              · exact hExact.removeProcess hFound
              · have hFails :
                    so2MdevIoctl .removeProcess arg allocated s =
                      (-einval, s) := by
                  refine if_neg ?_
                  simpa [IsTraced] using hFound
                refine hExact.failed rfl ?_ ?_
                · rw [result, hFails]
                  exact fun h => by cases h
                · rw [handle, hFails]
          | other =>
              refine hExact.failed rfl ?_ rfl
              exact fun h => by cases h
      | _ => cases hCounted

theorem Exact.accounts
    (hExact : Exact trace s) :
    Accounts trace s := by
  have hLine :
      ∀ line ∈ tracerProcInfo s, ∃ pdl ∈ s.procDataHead,
        line = (pdl.pid, columns.map pdl.counter) := by
    intro line hMem
    rcases List.mem_map.mp hMem with ⟨pdl, hRow, rfl⟩
    exact ⟨pdl, hRow, rfl⟩
  refine ⟨?_, ?_, ?_⟩
  · rw [map_fst_tracerProcInfo]
    exact hExact.nodup
  · intro line hMem
    rcases hLine line hMem with ⟨pdl, hRow, rfl⟩
    exact hExact.added pdl hRow
  · intro line hMem k c hColumn hKind hFits
    rcases hLine line hMem with ⟨pdl, hRow, rfl⟩
    rw [List.getElem?_map, hColumn, Option.map_some,
      hExact.counter pdl hRow c hKind, toInt_eq hFits]

end Exact

/- A second row appears with the second addition. -/
theorem not_accounts_of_twice
    {trace : Trace} {s : Lists} {e : Event}
    (hTwice : ¬ NotTwice ⟨s, e, handle s e⟩) :
    ¬ Accounts trace (handle s e) := by
  intro hAccounts
  have hRows := hAccounts.oneRow
  rw [map_fst_tracerProcInfo] at hRows
  cases e with
  | ioctl cmd arg allocated =>
      cases cmd with
      | addProcess =>
          apply hTwice
          rintro rfl hFound
          rw [procDataHead_add, List.map_cons, List.nodup_cons,
            ← isTraced_iff] at hRows
          dsimp only at hRows hFound
          exact hRows.1 hFound
      | removeProcess => exact hTwice trivial
      | other => exact hTwice trivial
  | _ => exact hTwice trivial

------------------------------------------------------------
-- Whole Runs
------------------------------------------------------------

theorem exact_of_run
    {trace : Trace} {s : Lists}
    (hRun : tracerSystem.Run trace s)
    (hOnce : AtEach (fun t _ => NotTwice t) trace) :
    Exact trace s := by
  revert hOnce
  refine hRun.history_invariant
    (I := fun trace s =>
      AtEach (fun t _ => NotTwice t) trace → Exact trace s)
    ?_ ?_
  · rintro s rfl _
    refine ⟨List.nodup_nil, ?_, ?_⟩
    · intro pdl hMem
      cases hMem
    · intro pdl hMem
      cases hMem
  · rintro trace s e s' _ hInv hStep ⟨hNow, hBefore⟩
    cases hStep
    exact exact_next (hInv hBefore) e hNow

/-
  The counters shown after every step of a run are right
  exactly if no process is added while it has a row.
-/
theorem accounts_iff
    {trace : Trace} {s : Lists}
    (hRun : tracerSystem.Run trace s) :
    AtEach (fun t earlier => Accounts (t :: earlier) t.target)
        trace ↔
      AtEach (fun t _ => NotTwice t) trace := by
  induction hRun with
  | start _ => exact Iff.rfl
  | next hPrefix hStep ih =>
      cases hStep
      constructor
      · rintro ⟨hNow, hBefore⟩
        refine ⟨?_, ih.mp hBefore⟩
        by_contra hTwice
        exact not_accounts_of_twice hTwice hNow
      · rintro ⟨hNow, hOnce⟩
        have hExact := exact_of_run hPrefix hOnce
        exact ⟨(exact_next hExact _ hNow).accounts,
          ih.mpr hOnce⟩

instance decidableNotTwice :
    ∀ t : Transition, Decidable (NotTwice t)
| ⟨s, .ioctl .addProcess arg allocated, _⟩ =>
    inferInstanceAs
      (Decidable (allocated = true → ¬ IsTraced s (toInt arg)))
| ⟨_, .ioctl .removeProcess _ _, _⟩ => instDecidableTrue
| ⟨_, .ioctl .other _ _, _⟩ => instDecidableTrue
| ⟨_, .kmallocEntry _, _⟩ => instDecidableTrue
| ⟨_, .kmallocReturn _ _ _ _, _⟩ => instDecidableTrue
| ⟨_, .kfree _ _, _⟩ => instDecidableTrue
| ⟨_, .sched _, _⟩ => instDecidableTrue
| ⟨_, .up _, _⟩ => instDecidableTrue
| ⟨_, .down _, _⟩ => instDecidableTrue
| ⟨_, .lock _, _⟩ => instDecidableTrue
| ⟨_, .unlock _, _⟩ => instDecidableTrue

/- Two processes, one of which is removed and added again. -/
def twoProcesses : List Event :=
  [.ioctl .addProcess 7 true,
    .ioctl .addProcess 9 true,
    .kmallocEntry 7,
    .kmallocReturn 7 4096 64 true,
    .unlock 9,
    .ioctl .removeProcess 9 true,
    .lock 9,
    .ioctl .addProcess 9 true,
    .kfree 7 4096]

theorem accounts_twoProcesses :
    ∃ trace s,
      tracerSystem.Run trace s ∧
        tracerProcInfo s =
          [(9, [0, 0, 0, 0, 0, 0, 0, 0, 0]),
            (7, [1, 1, 64, 64, 0, 0, 0, 0, 0])] ∧
        AtEach
          (fun t earlier => Accounts (t :: earlier) t.target)
          trace := by
  rcases exists_run_of_execute (fun s => s = start) step
      (rfl : start = start) twoProcesses
      (fun trace s =>
        tracerProcInfo s =
            [(9, [0, 0, 0, 0, 0, 0, 0, 0, 0]),
              (7, [1, 1, 64, 64, 0, 0, 0, 0, 0])] ∧
          AtEach (fun t _ => NotTwice t) trace)
      (by decide) with ⟨trace, s, hRun, hHolds⟩
  rw [decide_eq_true_eq] at hHolds
  exact ⟨trace, s, hRun, hHolds.1,
    (accounts_iff hRun).mpr hHolds.2⟩

/- The same process is added twice and has two rows. -/
theorem not_accounts_always :
    ¬ ∀ (trace : Trace) (s : Lists),
        tracerSystem.Run trace s →
          AtEach
            (fun t earlier => Accounts (t :: earlier) t.target)
            trace := by
  intro hAlways
  rcases exists_run_of_execute (fun s => s = start) step
      (rfl : start = start)
      [.ioctl .addProcess 7 true, .ioctl .addProcess 7 true]
      (fun trace _ =>
        ¬ AtEach
          (fun t _ => ((tracerProcInfo t.target).map Prod.fst).Nodup)
          trace)
      (by decide) with ⟨trace, s, hRun, hFails⟩
  rw [decide_eq_true_eq] at hFails
  apply hFails
  exact hRun.atEach_imp
    (fun _ _ _ _ _ hAccounts => hAccounts.oneRow)
    (hAlways trace s hRun)

end Tracer

end ProgrammingTasks
