import Mathlib.Logic.Function.Basic

/-
  Labelled transition systems and their finite runs.

  A run is kept as its list of transitions, the latest one
  first, together with the state it has reached.  History
  variables are therefore functions of the transition list,
  and need no copy of the system.

  Main declarations:
    * `TransitionSystem.Run`
    * `TransitionSystem.Run.invariant`
    * `TransitionSystem.Run.history_invariant`
    * `TransitionSystem.Run.cut`
    * `TransitionSystem.AtEach`
    * `TransitionSystem.latest`
    * `TransitionSystem.run_of_execute`
-/

------------------------------------------------------------
-- Systems and Runs
------------------------------------------------------------

/- A set of initial states and a labelled step relation. -/
structure TransitionSystem (σ ε : Type) where
  initial : σ → Prop
  step : σ → ε → σ → Prop

namespace TransitionSystem

variable {σ ε : Type}

/- One step of a run with the states around it. -/
structure Transition (σ ε : Type) where
  source : σ
  event : ε
  target : σ

/-
  `M.Run trace s` says that `trace` is a run of `M` which has
  reached `s`; the latest transition is the head of `trace`.
-/
inductive Run (M : TransitionSystem σ ε) :
    List (Transition σ ε) → σ → Prop
| start {s : σ} :
    M.initial s → Run M [] s
| next
    {trace : List (Transition σ ε)}
    {s s' : σ} {e : ε} :
    Run M trace s → M.step s e s' →
      Run M (⟨s, e, s'⟩ :: trace) s'

namespace Run

variable {M : TransitionSystem σ ε}
variable {trace : List (Transition σ ε)} {s : σ}

/-
  An invariant that may also speak about the history holds
  along every run.
-/
theorem history_invariant
    {I : List (Transition σ ε) → σ → Prop}
    (hInitial : ∀ s, M.initial s → I [] s)
    (hStep :
      ∀ trace s e s',
        M.Run trace s → I trace s → M.step s e s' →
          I (⟨s, e, s'⟩ :: trace) s')
    (hRun : M.Run trace s) :
    I trace s := by
  induction hRun with
  | start hStart =>
      exact hInitial _ hStart
  | next hPrefix hLast ih =>
      exact hStep _ _ _ _ hPrefix ih hLast

/- A preserved state predicate holds in every reached state. -/
theorem invariant
    {I : σ → Prop}
    (hInitial : ∀ s, M.initial s → I s)
    (hStep : ∀ s e s', I s → M.step s e s' → I s')
    (hRun : M.Run trace s) :
    I s :=
  hRun.history_invariant (I := fun _ s => I s) hInitial
    (fun _ s e s' _ hInv hLast => hStep s e s' hInv hLast)

/-
  Every transition of a run starts in a state that the run
  itself has reached, and is a step of the system.
-/
theorem transition_spec
    (hRun : M.Run trace s)
    {t : Transition σ ε}
    (ht : t ∈ trace) :
    ∃ earlier later,
      trace = later ++ t :: earlier ∧
        M.Run earlier t.source ∧
          M.step t.source t.event t.target := by
  induction hRun with
  | start _ =>
      cases ht
  | @next trace s s' e hPrefix hLast ih =>
      rcases List.mem_cons.mp ht with rfl | hEarlier
      · exact ⟨trace, [], rfl, hPrefix, hLast⟩
      · rcases ih hEarlier with
          ⟨earlier, later, hSplit, hReached, hTransition⟩
        exact ⟨earlier, ⟨s, e, s'⟩ :: later,
          by simp [hSplit], hReached, hTransition⟩

/- A run may be cut before each of its transitions. -/
theorem cut :
    ∀ {later : List (Transition σ ε)}
      {t : Transition σ ε}
      {earlier : List (Transition σ ε)}
      {s : σ},
      M.Run (later ++ t :: earlier) s →
        M.Run earlier t.source ∧
          M.step t.source t.event t.target
| [], t, earlier, s, hRun => by
    cases hRun with
    | next hPrefix hLast =>
        exact ⟨hPrefix, hLast⟩
| _ :: later, t, earlier, s, hRun => by
    cases hRun with
    | next hPrefix _ =>
        exact cut hPrefix

end Run

------------------------------------------------------------
-- Properties of Every Transition
------------------------------------------------------------

/-
  A property of each transition of a run, which may also speak
  about the history the transition has met.
-/
def AtEach
    (P : Transition σ ε → List (Transition σ ε) → Prop) :
    List (Transition σ ε) → Prop
| [] => True
| t :: earlier => P t earlier ∧ AtEach P earlier

def decidableAtEach
    (P : Transition σ ε → List (Transition σ ε) → Prop)
    (decideP : ∀ t earlier, Decidable (P t earlier)) :
    ∀ trace, Decidable (AtEach P trace)
| [] => instDecidableTrue
| t :: earlier =>
    have := decideP t earlier
    have := decidableAtEach P decideP earlier
    inferInstanceAs (Decidable (P t earlier ∧ AtEach P earlier))

instance AtEach.instDecidable
    (P : Transition σ ε → List (Transition σ ε) → Prop)
    [decideP : ∀ t earlier, Decidable (P t earlier)]
    (trace : List (Transition σ ε)) :
    Decidable (AtEach P trace) :=
  decidableAtEach P decideP trace

namespace Run

variable {M : TransitionSystem σ ε}
variable {trace : List (Transition σ ε)} {s : σ}
variable {P Q : Transition σ ε → List (Transition σ ε) → Prop}

/-
  A property that each step has after a history with another
  one is had by every transition of such a run.
-/
theorem atEach_imp
    (hStep :
      ∀ t earlier,
        M.Run earlier t.source →
          M.step t.source t.event t.target →
            AtEach Q earlier → Q t earlier → P t earlier)
    (hRun : M.Run trace s)
    (hEach : AtEach Q trace) :
    AtEach P trace := by
  induction hRun with
  | start _ =>
      trivial
  | next hPrefix hLast ih =>
      rcases hEach with ⟨hNow, hBefore⟩
      exact ⟨hStep _ _ hPrefix hLast hBefore hNow, ih hBefore⟩

/- Properties that agree on each step agree along the run. -/
theorem atEach_congr
    {F : Transition σ ε → List (Transition σ ε) → Prop}
    (hStep :
      ∀ t earlier,
        M.Run earlier t.source →
          M.step t.source t.event t.target →
            F t earlier → (P t earlier ↔ Q t earlier))
    (hRun : M.Run trace s)
    (hEach : AtEach F trace) :
    AtEach P trace ↔ AtEach Q trace := by
  induction hRun with
  | start _ =>
      exact Iff.rfl
  | next hPrefix hLast ih =>
      rcases hEach with ⟨hNow, hBefore⟩
      exact and_congr (hStep _ _ hPrefix hLast hNow) (ih hBefore)

end Run

------------------------------------------------------------
-- The Latest Event of a Kind
------------------------------------------------------------

/- The latest event of a run that satisfies `p`. -/
def latest (p : ε → Bool) :
    List (Transition σ ε) → Option ε
| [] => none
| t :: earlier =>
    if p t.event then some t.event else latest p earlier

section Latest

variable {p : ε → Bool}
variable {t : Transition σ ε} {earlier : List (Transition σ ε)}

theorem latest_cons_of_pos
    (hKind : p t.event = true) :
    latest p (t :: earlier) = some t.event :=
  if_pos hKind

theorem latest_cons_of_neg
    (hKind : p t.event = false) :
    latest p (t :: earlier) = latest p earlier :=
  if_neg (by simp [hKind])

theorem latest_satisfies :
    ∀ {trace : List (Transition σ ε)} {e : ε},
      latest p trace = some e → p e = true
| t :: earlier, e, hLatest => by
    cases hKind : p t.event with
    | true =>
        rw [latest_cons_of_pos hKind] at hLatest
        cases hLatest
        exact hKind
    | false =>
        rw [latest_cons_of_neg hKind] at hLatest
        exact latest_satisfies hLatest

end Latest

------------------------------------------------------------
-- Systems Given by a Partial Step Function
------------------------------------------------------------

/- The system whose steps are those of a partial function. -/
def ofFunction
    (initial : σ → Prop)
    (step : σ → ε → Option σ) :
    TransitionSystem σ ε where
  initial := initial
  step s e s' := step s e = some s'

/-
  Execute a list of events from a state whose history is
  known, if every event is enabled when its turn comes.
-/
def execute
    (step : σ → ε → Option σ)
    (trace : List (Transition σ ε))
    (s : σ) :
    List ε → Option (List (Transition σ ε) × σ)
| [] => some (trace, s)
| e :: es =>
    match step s e with
    | none => none
    | some s' =>
        execute step (⟨s, e, s'⟩ :: trace) s' es

/- An executed list of events is a run. -/
theorem run_of_execute
    {initial : σ → Prop}
    {step : σ → ε → Option σ} :
    ∀ {es : List ε}
      {trace trace' : List (Transition σ ε)}
      {s s' : σ},
      (ofFunction initial step).Run trace s →
        execute step trace s es = some (trace', s') →
          (ofFunction initial step).Run trace' s'
| [], trace, trace', s, s', hRun, hExecute => by
    simp only [execute, Option.some.injEq,
      Prod.mk.injEq] at hExecute
    rcases hExecute with ⟨rfl, rfl⟩
    exact hRun
| e :: es, trace, trace', s, s', hRun, hExecute => by
    cases hNext : step s e with
    | none =>
        simp [execute, hNext] at hExecute
    | some next =>
        simp only [execute, hNext] at hExecute
        exact run_of_execute
          (Run.next hRun hNext) hExecute

/-
  Executing events from an initial state exhibits a run with
  a property that can be computed.
-/
theorem exists_run_of_execute
    (initial : σ → Prop)
    (step : σ → ε → Option σ)
    {s₀ : σ}
    (hInitial : initial s₀)
    (es : List ε)
    (P : List (Transition σ ε) → σ → Bool)
    (hExecute :
      (execute step [] s₀ es).any (fun r => P r.1 r.2) =
        true) :
    ∃ trace s,
      (ofFunction initial step).Run trace s ∧
        P trace s = true := by
  cases hResult : execute step [] s₀ es with
  | none =>
      simp [hResult] at hExecute
  | some r =>
      rcases r with ⟨trace, s⟩
      refine ⟨trace, s,
        run_of_execute (Run.start hInitial) hResult, ?_⟩
      simpa [hResult] using hExecute

end TransitionSystem
