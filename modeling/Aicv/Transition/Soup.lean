import Mathlib.Algebra.Order.BigOperators.Group.Multiset
import Mathlib.Data.Multiset.Bind
import Mathlib.Data.Multiset.OrderedMonoid
import Aicv.Transition.System

/-!
# Soups of processes over a shared state

A soup is a shared state and the multiset of the processes in flight.  A
program says which processes may be started, and what one atomic step of a
process does: it reads and changes the shared state and is replaced by the
processes it turns into, none when it ends.  Every step of a soup is one of
these, so a run of the soup is an interleaving of any number of processes.

`Program.invariant` is the induction over runs, with one case for a start and
one for a step.  `Program.forall_procs` is the case of a property that each
process has by itself.  `tally` counts the processes with a property.

*Tokens.*  `Tokens` says which tokens the shared state and each process hold.
If a step only hands tokens on, drops them, or mints one that is not held yet,
then no token is ever held twice (`Tokens.nodup_act`, `Tokens.nodup_mint`),
and what a process holds no other process holds (`Tokens.not_mem_of_mem`).

*Replay.*  An `Interpreter` computes starts and steps.  It is sound for a
program when everything it computes is a step of the program.  `replay` runs a
list of labels, so that a concrete run is found by evaluation
(`Interpreter.replay_run`).
-/

namespace Transition

universe u v w x

/-- A shared state and the processes in flight. -/
structure Soup (σ : Type u) (π : Type v) where
  /-- What all processes share. -/
  shared : σ
  /-- The processes in flight. -/
  procs : Multiset π

/-- What a step of a soup does: start a process, or let one take a step. -/
inductive Label (π : Type v) (ε : Type w) where
  | call (p : π)
  | act (p : π) (e : ε)
deriving DecidableEq

/-- The processes of a soup and their atomic steps. -/
structure Program (σ : Type u) (π : Type v) (ε : Type w) where
  /-- The soups a run may start in. -/
  Init : Soup σ π → Prop
  /-- A process may be started, and starting it changes the shared state. -/
  Call : σ → π → σ → Prop
  /-- A step of one process, and the processes that replace it. -/
  Act : σ → π → ε → σ → Multiset π → Prop

namespace Program

variable {σ : Type u} {π : Type v} {ε : Type w}

/-- The steps of a soup. -/
inductive Step (P : Program σ π ε) : Soup σ π → Label π ε → Soup σ π → Prop where
  | call {g g' : σ} {p : π} {ps : Multiset π} :
      P.Call g p g' → Step P ⟨g, ps⟩ (.call p) ⟨g', p ::ₘ ps⟩
  | act {g g' : σ} {p : π} {e : ε} {ps qs : Multiset π} :
      P.Act g p e g' qs → Step P ⟨g, p ::ₘ ps⟩ (.act p e) ⟨g', qs + ps⟩

/-- The transition system of a program. -/
def system (P : Program σ π ε) : System (Soup σ π) (Label π ε) := ⟨P.Init, P.Step⟩

variable {P : Program σ π ε} {ok : Soup σ π → Label π ε → Prop}

/-- The induction over runs of a program. -/
theorem invariant {I : Soup σ π → Prop} (init : ∀ s, P.Init s → I s)
    (call : ∀ g p g' ps, P.system.Reach ok ⟨g, ps⟩ → I ⟨g, ps⟩ → ok ⟨g, ps⟩ (.call p) →
      P.Call g p g' → I ⟨g', p ::ₘ ps⟩)
    (act : ∀ g p e g' qs ps, P.system.Reach ok ⟨g, p ::ₘ ps⟩ → I ⟨g, p ::ₘ ps⟩ →
      ok ⟨g, p ::ₘ ps⟩ (.act p e) → P.Act g p e g' qs → I ⟨g', qs + ps⟩)
    {s : Soup σ π} (h : P.system.Reach ok s) : I s := by
  refine h.invariant init fun s l t hr hi hok hs => ?_
  cases hs with
  | call hc => exact call _ _ _ _ hr hi hok hc
  | act ha => exact act _ _ _ _ _ _ hr hi hok ha

/-- What every process has at its start and hands on to the processes that
replace it, every process of every run has. -/
theorem forall_procs {I : π → Prop} (init : ∀ s, P.Init s → ∀ p ∈ s.procs, I p)
    (call : ∀ g p g', P.Call g p g' → I p)
    (act : ∀ g p e g' qs, P.Act g p e g' qs → I p → ∀ q ∈ qs, I q)
    {s : Soup σ π} (h : P.system.Reach ok s) : ∀ p ∈ s.procs, I p := by
  refine invariant (I := fun s => ∀ p ∈ s.procs, I p) init
    (fun g p g' ps _ hi _ hc => ?_) (fun g p e g' qs ps _ hi _ ha => ?_) h
  · exact Multiset.forall_mem_cons.mpr ⟨call g p g' hc, hi⟩
  · obtain ⟨hp, hps⟩ := Multiset.forall_mem_cons.mp hi
    intro q hq
    rcases Multiset.mem_add.mp hq with hq | hq
    · exact act g p e g' qs ha hp q hq
    · exact hps q hq

/-- The history of a run of a program. -/
abbrev History (σ : Type u) (π : Type v) (ε : Type w) := List (Soup σ π × Label π ε)

/-- The induction over runs of a program with their histories. -/
theorem trace_invariant {I : History σ π ε → Soup σ π → Prop} (init : ∀ s, P.Init s → I [] s)
    (call : ∀ h g p g' ps, P.system.Trace ok h ⟨g, ps⟩ → I h ⟨g, ps⟩ → ok ⟨g, ps⟩ (.call p) →
      P.Call g p g' → I ((⟨g, ps⟩, .call p) :: h) ⟨g', p ::ₘ ps⟩)
    (act : ∀ h g p e g' qs ps, P.system.Trace ok h ⟨g, p ::ₘ ps⟩ → I h ⟨g, p ::ₘ ps⟩ →
      ok ⟨g, p ::ₘ ps⟩ (.act p e) → P.Act g p e g' qs →
      I ((⟨g, p ::ₘ ps⟩, .act p e) :: h) ⟨g', qs + ps⟩)
    {h : History σ π ε} {s : Soup σ π} (ht : P.system.Trace ok h s) : I h s := by
  refine ht.invariant init fun h s l t hr hi hok hs => ?_
  cases hs with
  | call hc => exact call _ _ _ _ _ hr hi hok hc
  | act ha => exact act _ _ _ _ _ _ _ hr hi hok ha

/-- A process of the soup takes its step. -/
theorem act_of_mem {s : Soup σ π} {p : π} {e : ε} (hp : p ∈ s.procs)
    (h : ∃ g' qs, P.Act s.shared p e g' qs) : ∃ t, P.system.Step s (.act p e) t := by
  obtain ⟨g', qs, h⟩ := h
  obtain ⟨ps, hps⟩ := Multiset.exists_cons_of_mem hp
  have hs : s = ⟨s.shared, p ::ₘ ps⟩ := by rw [← hps]
  rw [hs]
  exact ⟨_, .act h⟩

end Program

/-! ## Counting processes -/

section
variable {π : Type v} (f : π → Bool)

/-- The number of processes with a property. -/
def tally (ps : Multiset π) : ℕ := ps.countP fun p => f p = true

@[simp] theorem tally_zero : tally f 0 = 0 := rfl

@[simp] theorem tally_add (ps qs : Multiset π) : tally f (ps + qs) = tally f ps + tally f qs :=
  Multiset.countP_add ..

theorem tally_singleton (p : π) : tally f {p} = if f p = true then 1 else 0 := by
  unfold tally
  rw [← Multiset.cons_zero, Multiset.countP_cons, Multiset.countP_zero, Nat.zero_add]

theorem tally_cons (p : π) (ps : Multiset π) : tally f (p ::ₘ ps) = tally f {p} + tally f ps := by
  rw [← Multiset.singleton_add, tally_add]

end

/-! ## Tokens -/

/-- The tokens held by the shared state and by each process. -/
structure Tokens (σ : Type u) (π : Type v) (τ : Type w) where
  /-- The tokens the shared state holds. -/
  shared : σ → Multiset τ
  /-- The tokens a process holds. -/
  proc : π → Multiset τ

namespace Tokens

variable {σ : Type u} {π : Type v} {τ : Type w} (K : Tokens σ π τ)

/-- Every token a soup holds, as often as it is held. -/
def all (s : Soup σ π) : Multiset τ := K.shared s.shared + s.procs.bind K.proc

theorem all_cons (g : σ) (p : π) (ps : Multiset π) :
    K.all ⟨g, p ::ₘ ps⟩ = K.shared g + K.proc p + ps.bind K.proc := by
  simp only [all, Multiset.cons_bind, add_assoc]

theorem all_add (g : σ) (qs ps : Multiset π) :
    K.all ⟨g, qs + ps⟩ = K.shared g + qs.bind K.proc + ps.bind K.proc := by
  simp only [all, Multiset.add_bind, add_assoc]

theorem mem_all {s : Soup σ π} {t : τ} :
    t ∈ K.all s ↔ t ∈ K.shared s.shared ∨ ∃ p ∈ s.procs, t ∈ K.proc p := by
  simp only [all, Multiset.mem_add, Multiset.mem_bind]

variable {K}

/-- A step that hands tokens on or drops them holds no more than before. -/
theorem all_act_le {g g' : σ} {p : π} {qs ps : Multiset π}
    (hle : K.shared g' + qs.bind K.proc ≤ K.shared g + K.proc p) :
    K.all ⟨g', qs + ps⟩ ≤ K.all ⟨g, p ::ₘ ps⟩ := by
  rw [all_add, all_cons]
  exact Multiset.add_le_add_right hle

theorem nodup_act {g g' : σ} {p : π} {qs ps : Multiset π}
    (hle : K.shared g' + qs.bind K.proc ≤ K.shared g + K.proc p)
    (h : (K.all ⟨g, p ::ₘ ps⟩).Nodup) : (K.all ⟨g', qs + ps⟩).Nodup :=
  Multiset.nodup_of_le (all_act_le hle) h

/-- A step that mints a token nobody holds keeps every token held once. -/
theorem nodup_mint {g g' : σ} {p : π} {qs ps : Multiset π} {t : τ}
    (hmint : K.shared g' + qs.bind K.proc = t ::ₘ (K.shared g + K.proc p))
    (hnew : t ∉ K.all ⟨g, p ::ₘ ps⟩) (h : (K.all ⟨g, p ::ₘ ps⟩).Nodup) :
    (K.all ⟨g', qs + ps⟩).Nodup := by
  rw [all_add, hmint, Multiset.cons_add, Multiset.nodup_cons, ← all_cons]
  exact ⟨hnew, h⟩

/-- What one process holds, neither the shared state nor another process
holds. -/
theorem not_mem_of_mem {g : σ} {p : π} {ps : Multiset π} {t : τ}
    (h : (K.all ⟨g, p ::ₘ ps⟩).Nodup) (ht : t ∈ K.proc p) :
    t ∉ K.shared g ∧ ∀ q ∈ ps, t ∉ K.proc q := by
  rw [all_cons, Multiset.nodup_add, Multiset.nodup_add] at h
  obtain ⟨⟨-, -, hsp⟩, -, hr⟩ := h
  refine ⟨fun hg => Multiset.disjoint_left.mp hsp hg ht, fun q hq htq => ?_⟩
  exact Multiset.disjoint_left.mp hr (Multiset.mem_add.mpr (.inr ht))
    (Multiset.mem_bind.mpr ⟨q, hq, htq⟩)

end Tokens

/-! ## Replay -/

/-- Computed starts and steps. -/
structure Interpreter (σ : Type u) (π : Type v) (ε : Type w) where
  /-- The shared state after a process is started, if it may be. -/
  call : σ → π → Option σ
  /-- The shared state after a step and the processes that replace the process
  that took it. -/
  act : σ → π → ε → Option (σ × Multiset π)

namespace Interpreter

variable {σ : Type u} {π : Type v} {ε : Type w} [DecidableEq π]

/-- One computed step of a soup. -/
def step (I : Interpreter σ π ε) (s : Soup σ π) : Label π ε → Option (Soup σ π)
  | .call p => (I.call s.shared p).map fun g => ⟨g, p ::ₘ s.procs⟩
  | .act p e =>
      if p ∈ s.procs then
        (I.act s.shared p e).map fun r => ⟨r.1, r.2 + s.procs.erase p⟩
      else none

/-- The steps of a list of labels, one after the other.  Each is checked
against the step condition first. -/
def replay (I : Interpreter σ π ε) (ok : Soup σ π → Label π ε → Bool) (s : Soup σ π) :
    List (Label π ε) → Option (Soup σ π)
  | [] => some s
  | l :: ls => if ok s l then (I.step s l).bind fun t => replay I ok t ls else none
termination_by structural ls => ls

/-- Everything the interpreter computes is a step of the program. -/
structure Sound (I : Interpreter σ π ε) (P : Program σ π ε) : Prop where
  call : ∀ {g p g'}, I.call g p = some g' → P.Call g p g'
  act : ∀ {g p e g' qs}, I.act g p e = some (g', qs) → P.Act g p e g' qs

variable {I : Interpreter σ π ε} {P : Program σ π ε}

theorem step_sound (hI : I.Sound P) {s t : Soup σ π} {l : Label π ε} (h : I.step s l = some t) :
    P.Step s l t := by
  cases l with
  | call p =>
      obtain ⟨g, hg, rfl⟩ := Option.map_eq_some_iff.mp h
      exact .call (hI.call hg)
  | act p e =>
      simp only [step] at h
      split at h
      next hp =>
        obtain ⟨⟨g, qs⟩, hg, rfl⟩ := Option.map_eq_some_iff.mp h
        have hs : s = ⟨s.shared, p ::ₘ s.procs.erase p⟩ := by rw [Multiset.cons_erase hp]
        have hstep : P.Step ⟨s.shared, p ::ₘ s.procs.erase p⟩ (.act p e)
            ⟨g, qs + s.procs.erase p⟩ := .act (hI.act hg)
        rwa [← hs] at hstep
      next => cases h

/-- A replay is a run. -/
theorem replay_run (hI : I.Sound P) {ok : Soup σ π → Label π ε → Bool} {s t : Soup σ π}
    {ls : List (Label π ε)} (h : I.replay ok s ls = some t) :
    P.system.Run (fun s l => ok s l = true) s t := by
  induction ls generalizing s with
  | nil =>
      obtain rfl := Option.some.inj h
      exact .refl _
  | cons l ls ih =>
      simp only [replay] at h
      split at h
      next hl =>
        obtain ⟨u, hu, ht⟩ := Option.bind_eq_some_iff.mp h
        have hone : P.system.Run (fun s l => ok s l = true) s u := .single hl (step_sound hI hu)
        exact hone.trans (ih ht)
      next => cases h

/-- What a test finds at the end of a replay is reached by a run. -/
theorem exists_reach (hI : I.Sound P) {ok : Soup σ π → Label π ε → Bool} {s : Soup σ π}
    (hs : P.Init s) {ls : List (Label π ε)} {q : Soup σ π → Prop} [DecidablePred q]
    (h : (I.replay ok s ls).any (fun t => decide (q t)) = true) :
    ∃ t, P.system.Reach (fun s l => ok s l = true) t ∧ q t := by
  obtain ⟨t, ht, hq⟩ := (Option.any_eq_true _ _).mp h
  exact ⟨t, (System.Reach.init hs).run (replay_run hI ht), of_decide_eq_true hq⟩

/-- A replay is a trace with these labels. -/
theorem replay_trace (hI : I.Sound P) {ok : Soup σ π → Label π ε → Bool} {s t : Soup σ π}
    {ls : List (Label π ε)} (h : I.replay ok s ls = some t) {hist : Program.History σ π ε}
    (hs : P.system.Trace (fun s l => ok s l = true) hist s) :
    ∃ hist', P.system.Trace (fun s l => ok s l = true) hist' t ∧
      hist'.map Prod.snd = ls.reverse ++ hist.map Prod.snd := by
  induction ls generalizing s hist with
  | nil =>
      obtain rfl := Option.some.inj h
      exact ⟨hist, hs, rfl⟩
  | cons l ls ih =>
      simp only [replay] at h
      split at h
      next hl =>
        obtain ⟨u, hu, ht⟩ := Option.bind_eq_some_iff.mp h
        obtain ⟨hist', hr, hlabels⟩ := ih ht (hs.step hl (step_sound hI hu))
        exact ⟨hist', hr, by simp [hlabels]⟩
      next => cases h

theorem exists_trace (hI : I.Sound P) {ok : Soup σ π → Label π ε → Bool} {s : Soup σ π}
    (hs : P.Init s) {ls : List (Label π ε)} {q : Soup σ π → Prop} [DecidablePred q]
    (h : (I.replay ok s ls).any (fun t => decide (q t)) = true) :
    ∃ hist t, P.system.Trace (fun s l => ok s l = true) hist t ∧
      hist.map Prod.snd = ls.reverse ∧ q t := by
  obtain ⟨t, ht, hq⟩ := (Option.any_eq_true _ _).mp h
  obtain ⟨hist, hr, hlabels⟩ := replay_trace hI ht (.init hs)
  exact ⟨hist, t, hr, hlabels.trans (List.append_nil _), of_decide_eq_true hq⟩

end Interpreter

end Transition
