/-!
# Labelled transition systems

A system has initial states and labelled steps.  Statements about all runs
come in two strengths.  `T.Reach ok` holds of the states a run reaches when
every step of the run satisfies the step condition `ok`, a predicate on the
state before the step and on the label of the step.  `T.Reachable` is the case
without a condition.  `T.Run ok s t` is a run from `s` to `t`, for statements
about what a state may lead to.  `T.Trace ok h s` is a run to `s` that keeps its
history `h`, for statements about what has happened.

`Reach.invariant` is the one induction over runs, and `Trace.invariant` over runs
with their histories.  `Reach.simulate` carries
reachability along a map of states that sends each step to a run.
-/

namespace Transition

universe u v w x

/-- Initial states and labelled steps. -/
structure System (σ : Type u) (ε : Type v) where
  /-- The states a run may start in. -/
  Init : σ → Prop
  /-- The steps, each with its label. -/
  Step : σ → ε → σ → Prop

namespace System

variable {σ : Type u} {ε : Type v} {τ : Type w} {δ : Type x}

/-- A finite run all of whose steps satisfy `ok`. -/
inductive Run (T : System σ ε) (ok : σ → ε → Prop) : σ → σ → Prop where
  | refl (s : σ) : Run T ok s s
  | tail {s t t' : σ} {e : ε} : Run T ok s t → ok t e → T.Step t e t' → Run T ok s t'

/-- The states that runs with steps in `ok` reach from an initial state. -/
inductive Reach (T : System σ ε) (ok : σ → ε → Prop) : σ → Prop where
  | init {s : σ} : T.Init s → Reach T ok s
  | step {s t : σ} {e : ε} : Reach T ok s → ok s e → T.Step s e t → Reach T ok t

/-- A run from an initial state, with the state before each of its steps and the
label of the step, the last step first. -/
inductive Trace (T : System σ ε) (ok : σ → ε → Prop) : List (σ × ε) → σ → Prop where
  | init {s : σ} : T.Init s → Trace T ok [] s
  | step {h : List (σ × ε)} {s t : σ} {e : ε} :
      Trace T ok h s → ok s e → T.Step s e t → Trace T ok ((s, e) :: h) t

/-- No condition on the steps of a run. -/
def Any : σ → ε → Prop := fun _ _ => True

/-- The states any run reaches. -/
abbrev Reachable (T : System σ ε) (s : σ) : Prop := T.Reach Any s

variable {T : System σ ε} {ok ok' : σ → ε → Prop}

/-! ## Runs -/

theorem Run.single {s t : σ} {e : ε} (hok : ok s e) (h : T.Step s e t) : T.Run ok s t :=
  .tail (.refl s) hok h

theorem Run.trans {s t t' : σ} (h : T.Run ok s t) (h' : T.Run ok t t') : T.Run ok s t' := by
  induction h' with
  | refl => exact h
  | tail _ hok hs ih => exact .tail ih hok hs

/-- What every step keeps, a run keeps. -/
theorem Run.invariant {I : σ → Prop} (step : ∀ s e t, I s → ok s e → T.Step s e t → I t)
    {s t : σ} (h : T.Run ok s t) (hs : I s) : I t := by
  induction h with
  | refl => exact hs
  | tail _ hok hstep ih => exact step _ _ _ ih hok hstep

/-! ## Reachable states -/

theorem Reach.mono (himp : ∀ s e, ok s e → ok' s e) {s : σ} (h : T.Reach ok s) :
    T.Reach ok' s := by
  induction h with
  | init hi => exact .init hi
  | step _ hok hs ih => exact .step ih (himp _ _ hok) hs

/-- A condition that every step of such a run meets. -/
theorem Reach.strengthen
    (himp : ∀ s e t, T.Reach ok s → ok s e → T.Step s e t → ok' s e) {s : σ} (h : T.Reach ok s) :
    T.Reach ok' s := by
  induction h with
  | init hi => exact .init hi
  | step hr hok hs ih => exact .step ih (himp _ _ _ hr hok hs) hs

theorem Reach.reachable {s : σ} (h : T.Reach ok s) : T.Reachable s :=
  h.mono fun _ _ _ => trivial

theorem Reach.run {s t : σ} (h : T.Reach ok s) (hr : T.Run ok s t) : T.Reach ok t := by
  induction hr with
  | refl => exact h
  | tail _ hok hs ih => exact .step ih hok hs

/-- What holds initially and is kept by every step from a reached state holds
of every reached state. -/
theorem Reach.invariant {I : σ → Prop} (init : ∀ s, T.Init s → I s)
    (step : ∀ s e t, T.Reach ok s → I s → ok s e → T.Step s e t → I t)
    {s : σ} (h : T.Reach ok s) : I s := by
  induction h with
  | init hi => exact init _ hi
  | step hr hok hs ih => exact step _ _ _ hr ih hok hs

/-- A map of states that sends initial states to reached states and each step
to a run sends reached states to reached states. -/
theorem Reach.simulate {U : System τ δ} {okU : τ → δ → Prop} (f : σ → τ)
    (init : ∀ s, T.Init s → U.Reach okU (f s))
    (step : ∀ s e t, T.Reach ok s → U.Reach okU (f s) → ok s e → T.Step s e t →
      U.Run okU (f s) (f t))
    {s : σ} (h : T.Reach ok s) : U.Reach okU (f s) :=
  h.invariant (I := fun s => U.Reach okU (f s)) init
    fun s e t hr ih hok hs => ih.run (step s e t hr ih hok hs)

/-! ## Histories -/

theorem Trace.reach {h : List (σ × ε)} {s : σ} (ht : T.Trace ok h s) : T.Reach ok s := by
  induction ht with
  | init hi => exact .init hi
  | step _ hok hs ih => exact .step ih hok hs

theorem Trace.mono (himp : ∀ s e, ok s e → ok' s e) {h : List (σ × ε)} {s : σ}
    (ht : T.Trace ok h s) : T.Trace ok' h s := by
  induction ht with
  | init hi => exact .init hi
  | step _ hok hs ih => exact .step ih (himp _ _ hok) hs

theorem Reach.exists_trace {s : σ} (h : T.Reach ok s) : ∃ l, T.Trace ok l s := by
  induction h with
  | init hi => exact ⟨[], .init hi⟩
  | step _ hok hs ih =>
      obtain ⟨l, hl⟩ := ih
      exact ⟨_, hl.step hok hs⟩

/-- What holds initially, with no history, and is kept when a step is added to
the history, holds of every trace. -/
theorem Trace.invariant {I : List (σ × ε) → σ → Prop} (init : ∀ s, T.Init s → I [] s)
    (step : ∀ h s e t, T.Trace ok h s → I h s → ok s e → T.Step s e t → I ((s, e) :: h) t)
    {h : List (σ × ε)} {s : σ} (ht : T.Trace ok h s) : I h s := by
  induction ht with
  | init hi => exact init _ hi
  | step hr hok hs ih => exact step _ _ _ _ hr ih hok hs

end System

end Transition
