import Mathlib.Data.List.Basic

/-!
# Loops that may fail

A loop in `Except` or `Option` fails with the first failure.  `foldlM_invariant` and
`foldlM_prefix` are the inductions over a loop that ends, the second one with the items
that are done.  `mapM_eq_some` is a loop that collects.
-/

namespace Sequence

universe u v w x

variable {ε : Type u} {α : Type w} {σ : Type v} {β : Type v} {γ : Type x}

theorem bind_eq_ok {x : Except ε σ} {f : σ → Except ε β} {b : β} :
    x >>= f = .ok b ↔ ∃ a, x = .ok a ∧ f a = .ok b := by
  cases x with
  | error e => exact ⟨nofun, nofun⟩
  | ok a => simp [bind, Except.bind]

/-- What each round keeps, the loop keeps. -/
theorem foldlM_invariant {f : σ → α → Except ε σ} {I : σ → Prop}
    (step : ∀ s a t, I s → f s a = .ok t → I t) :
    ∀ {as : List α} {s t : σ}, as.foldlM f s = .ok t → I s → I t
  | [], _, _, h, hs => Except.ok.inj h ▸ hs
  | a :: as, s, _, h, hs => by
      rw [List.foldlM_cons] at h
      obtain ⟨t, ht, hrest⟩ := bind_eq_ok.mp h
      exact foldlM_invariant step hrest (step s a t hs ht)

section
variable {f : σ → α → Option σ} {g : α → Option β} {as : List α} {bs : List β}

/-- What each round keeps of the items that are done, the loop keeps. -/
theorem foldlM_prefix {I : List α → σ → Prop}
    (step : ∀ done s a t, I done s → f s a = some t → I (done ++ [a]) t) :
    ∀ {as done : List α} {s t : σ}, as.foldlM f s = some t → I done s → I (done ++ as) t
  | [], done, _, _, h, hs => by
      rw [List.append_nil]
      exact Option.some.inj h ▸ hs
  | a :: as, done, s, _, h, hs => by
      rw [List.foldlM_cons] at h
      obtain ⟨t, ht, hrest⟩ := Option.bind_eq_some_iff.mp h
      rw [List.append_cons]
      exact foldlM_prefix step hrest (step done s a t hs ht)

/-- A loop ends if no round fails, whatever the state. -/
theorem isSome_foldlM {p : α → Prop} (hf : ∀ s a, (f s a).isSome ↔ p a) (s : σ) :
    (as.foldlM f s).isSome ↔ ∀ a ∈ as, p a := by
  induction as generalizing s with
  | nil => simp
  | cons a as ih =>
      rw [List.foldlM_cons, List.forall_mem_cons, ← hf s a]
      cases hfa : f s a with
      | none => simp
      | some t => simpa using ih t

theorem mapM_eq_some : as.mapM g = some bs ↔ as.map g = bs.map some := by
  induction as generalizing bs with
  | nil => cases bs <;> simp
  | cons a as ih =>
      rw [List.mapM_cons, List.map_cons]
      cases bs with
      | nil => cases g a <;> cases as.mapM g <;> simp
      | cons b bs =>
          rw [List.map_cons, List.cons.injEq, ← ih]
          cases g a <;> cases as.mapM g <;> simp

/-- A loop that fails on no item drops none. -/
theorem filterMap_of_mapM (h : as.mapM g = some bs) : as.filterMap g = bs := by
  have hid : (as.map g).filterMap id = as.filterMap g := List.filterMap_map
  rw [← hid, mapM_eq_some.mp h, List.filterMap_map]
  exact List.filterMap_some

/-- What each result is made of, the list of results is made of. -/
theorem map_of_mapM {h : α → γ} {k : β → γ} (hm : as.mapM g = some bs)
    (hk : ∀ a b, g a = some b → k b = h a) : bs.map k = as.map h := by
  induction as generalizing bs with
  | nil =>
      cases hm
      rfl
  | cons a as ih =>
      rw [List.mapM_cons] at hm
      obtain ⟨b, hb, hm⟩ := Option.bind_eq_some_iff.mp hm
      obtain ⟨rest, hrest, hm⟩ := Option.bind_eq_some_iff.mp hm
      cases hm
      rw [List.map_cons, List.map_cons, hk a b hb, ih hrest]

/-- Two loops that collect, one after the other. -/
theorem mapM_bind {h : β → Option γ} :
    (as.mapM g).bind (·.mapM h) = as.mapM fun a => (g a).bind h := by
  induction as with
  | nil => rfl
  | cons a as ih =>
      rw [List.mapM_cons, List.mapM_cons, ← ih]
      cases g a with
      | none => rfl
      | some b => cases as.mapM g <;> cases h b <;> simp

theorem isSome_mapM : (as.mapM g).isSome ↔ ∀ a ∈ as, (g a).isSome := by
  induction as with
  | nil => simp
  | cons a as ih =>
      rw [List.mapM_cons, List.forall_mem_cons, ← ih]
      cases g a <;> cases as.mapM g <;> simp

end

end Sequence
