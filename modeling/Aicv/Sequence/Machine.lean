import Mathlib.Data.List.Basic

/-!
# Machines that go over a list

`run step s as` is the state of a machine that has gone over `as` from the state `s`, and what
it put out on the way.  A run over a concatenation is made of the runs over the parts
(`run_append`, `run_flatMap`).
-/

namespace Sequence

universe u v w x

variable {σ : Type u} {α : Type v} {β : Type w} {ι : Type x}

/-- The run of a machine. -/
def run (step : σ → α → σ × List β) : σ → List α → σ × List β
  | s, [] => (s, [])
  | s, a :: as => ((run step (step s a).1 as).1, (step s a).2 ++ (run step (step s a).1 as).2)

variable {step : σ → α → σ × List β} {s t u : σ} {a : α} {as bs cs : List α} {out out' : List β}

theorem run_cons (h : step s a = (t, out)) (h' : run step t as = (u, out')) :
    run step s (a :: as) = (u, out ++ out') := by
  rw [run, h, h']

theorem run_append (h : run step s as = (t, out)) (h' : run step t bs = (u, out')) :
    run step s (as ++ bs) = (u, out ++ out') := by
  induction as generalizing s out with
  | nil =>
      cases h
      exact h'
  | cons a as ih =>
      obtain ⟨rfl, rfl⟩ := Prod.mk.inj h
      rw [List.cons_append, List.append_assoc]
      exact run_cons rfl (ih rfl)

/-- Parts after each of which the machine is back in its state. -/
theorem run_flatMap {is : List ι} {f : ι → List α} {g : ι → List β}
    (h : ∀ i ∈ is, run step s (f i) = (s, g i)) :
    run step s (is.flatMap f) = (s, is.flatMap g) := by
  induction is with
  | nil => rfl
  | cons i is ih =>
      obtain ⟨hi, his⟩ := List.forall_mem_cons.mp h
      exact run_append hi (ih his)

/-- Members for each of which the machine puts out one. -/
theorem run_map {is : List ι} {f : ι → α} {g : ι → β}
    (h : ∀ i ∈ is, step s (f i) = (s, [g i])) : run step s (is.map f) = (s, is.map g) := by
  induction is with
  | nil => rfl
  | cons i is ih =>
      obtain ⟨hi, his⟩ := List.forall_mem_cons.mp h
      exact run_cons hi (ih his)

/-- Members on which the machine does nothing. -/
theorem run_idle (h : ∀ a ∈ as, step s a = (s, [])) : run step s as = (s, []) := by
  induction as with
  | nil => rfl
  | cons a as ih =>
      obtain ⟨ha, has⟩ := List.forall_mem_cons.mp h
      exact run_cons ha (ih has)

/-- What a machine puts out, it puts out in one of its steps. -/
theorem exists_of_mem_run {b : β} (h : b ∈ (run step s as).2) :
    ∃ t, ∃ a ∈ as, b ∈ (step t a).2 := by
  induction as generalizing s with
  | nil => cases h
  | cons a as ih =>
      rcases List.mem_append.mp h with h | h
      · exact ⟨s, a, List.mem_cons_self, h⟩
      · obtain ⟨t, a', ha', hmem⟩ := ih h
        exact ⟨t, a', List.mem_cons_of_mem a ha', hmem⟩

theorem run_append_congr (h : ∀ s, run step s as = run step s bs) :
    run step s (cs ++ as) = run step s (cs ++ bs) :=
  (run_append rfl rfl).trans (h _ ▸ (run_append rfl rfl).symm)

end Sequence
