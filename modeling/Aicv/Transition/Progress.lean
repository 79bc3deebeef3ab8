import Aicv.Transition.Soup

/-!
# Runs that come to an end

`T.Work ok counts n s t` is a run from `s` to `t` of which `n` steps count.  `T.Completes` says
of every run from a state that the number of such steps is bounded and that a final condition
holds where none of them is left.  Steps that do not count, such as the passing of time, may go
on for ever.  `T.Halts` is stronger: the final condition holds where no step is left that has to
come.  Steps that may never come, such as a request from outside, can still be possible there.

A rank shows that runs halt (`Halts.of_rank`): it falls with each step that counts and no other
step raises it.  From a state whose runs complete some run does end
(`Completes.exists_final`).
-/

namespace Transition

universe u v w

namespace System

variable {σ : Type u} {ε : Type v}

/-- A run with the number of its steps that count. -/
inductive Work (T : System σ ε) (ok : σ → ε → Prop) (counts : ε → Bool) : ℕ → σ → σ → Prop where
  | refl (s : σ) : Work T ok counts 0 s s
  | tail {n : ℕ} {s t t' : σ} {e : ε} :
      Work T ok counts n s t → ok t e → T.Step t e t' →
      Work T ok counts (n + (counts e).toNat) s t'

/-- No step that counts is left. -/
def Rests (T : System σ ε) (ok : σ → ε → Prop) (counts : ε → Bool) (s : σ) : Prop :=
  ∀ e t, ok s e → counts e = true → ¬ T.Step s e t

/-- Every run from the state has a bounded number of steps that count, and where none is left
the final condition holds. -/
structure Completes (T : System σ ε) (ok : σ → ε → Prop) (counts : ε → Bool) (P : σ → Prop)
    (s : σ) : Prop where
  bound : ∃ N, ∀ n t, T.Work ok counts n s t → n ≤ N
  final : ∀ n t, T.Work ok counts n s t → T.Rests ok counts t → P t

/-- Every run from the state has a bounded number of steps that count, and where none is left
that is forced the final condition holds. -/
structure Halts (T : System σ ε) (ok : σ → ε → Prop) (counts forced : ε → Bool) (P : σ → Prop)
    (s : σ) : Prop where
  bound : ∃ N, ∀ n t, T.Work ok counts n s t → n ≤ N
  final : ∀ n t, T.Work ok counts n s t → T.Rests ok forced t → P t

variable {T : System σ ε} {ok ok' : σ → ε → Prop} {counts forced : ε → Bool} {P Q I : σ → Prop}
  {s t : σ} {n : ℕ}

theorem Work.run (h : T.Work ok counts n s t) : T.Run ok s t := by
  induction h with
  | refl s => exact .refl s
  | tail _ hok hs ih => exact .tail ih hok hs

theorem Work.mono (h : T.Work ok counts n s t) (hok : ∀ s e, ok s e → ok' s e) :
    T.Work ok' counts n s t := by
  induction h with
  | refl s => exact .refl s
  | tail _ hstep hs ih => exact .tail ih (hok _ _ hstep) hs

/-- A rank pays for the steps that count. -/
theorem Work.rank_le {rank : σ → ℕ} (hI : ∀ s e t, I s → ok s e → T.Step s e t → I t)
    (hrank : ∀ s e t, I s → ok s e → T.Step s e t → rank t + (counts e).toNat ≤ rank s)
    (h : T.Work ok counts n s t) (hs : I s) : I t ∧ rank t + n ≤ rank s := by
  induction h with
  | refl => exact ⟨hs, Nat.le_refl _⟩
  | tail _ hok hstep ih =>
      obtain ⟨hi, hle⟩ := ih hs
      have hpaid := hrank _ _ _ hi hok hstep
      exact ⟨hI _ _ _ hi hok hstep, by omega⟩

/-- Runs halt if a rank falls with each step that counts. -/
theorem Halts.of_rank (rank : σ → ℕ) (hI : ∀ s e t, I s → ok s e → T.Step s e t → I t)
    (hrank : ∀ s e t, I s → ok s e → T.Step s e t → rank t + (counts e).toNat ≤ rank s)
    (hfinal : ∀ t, I t → T.Rests ok forced t → P t) (hs : I s) : T.Halts ok counts forced P s where
  bound := ⟨rank s, fun _ _ h => (Nat.le_add_left _ _).trans (h.rank_le hI hrank hs).2⟩
  final _ _ h hrests := hfinal _ (h.rank_le hI hrank hs).1 hrests

/-- What halts completes if it is left to itself. -/
theorem Halts.completes (h : T.Halts ok counts forced P s) (hok : ∀ s e, ok' s e → ok s e)
    (hrests : ∀ t, T.Rests ok' counts t → T.Rests ok forced t) : T.Completes ok' counts P s where
  bound := h.bound.imp fun _ hN n t hw => hN n t (hw.mono hok)
  final n t hw hr := h.final n t (hw.mono hok) (hrests t hr)

theorem Halts.imp (h : T.Halts ok counts forced P s) (himp : ∀ t, T.Run ok s t → P t → Q t) :
    T.Halts ok counts forced Q s where
  bound := h.bound
  final n t hw hrests := himp t hw.run (h.final n t hw hrests)

/-- Some run comes to its end. -/
theorem Completes.exists_final (h : T.Completes ok counts P s) : ∃ t, T.Run ok s t ∧ P t := by
  obtain ⟨N, hN⟩ := h.bound
  -- the induction is on the steps that are still allowed
  have hgo (k : ℕ) : ∀ n t, T.Work ok counts n s t → N ≤ n + k → ∃ t, T.Run ok s t ∧ P t := by
    induction k with
    | zero =>
        intro n t hw hle
        refine ⟨t, hw.run, h.final n t hw fun e t' hok hcount hstep => ?_⟩
        have hmore := hN _ _ (hw.tail hok hstep)
        rw [hcount, Bool.toNat_true] at hmore
        omega
    | succ k ih =>
        intro n t hw hle
        by_cases hrests : T.Rests ok counts t
        · exact ⟨t, hw.run, h.final n t hw hrests⟩
        · rw [Rests] at hrests
          push Not at hrests
          obtain ⟨e, t', hok, hcount, hstep⟩ := hrests
          refine ih _ _ (hw.tail hok hstep) ?_
          rw [hcount, Bool.toNat_true]
          omega
  exact hgo N 0 s (.refl s) (by omega)

end System

/-! ## Soups -/

namespace Program

variable {σ : Type u} {π : Type v} {ε : Type w} {P : Program σ π ε}

/-- The rank of a soup, from the ranks of its processes and of what they share. -/
def rank (f : σ → ℕ) (r : π → ℕ) (s : Soup σ π) : ℕ := f s.shared + (s.procs.map r).sum

theorem rank_act {f : σ → ℕ} {r : π → ℕ} {g g' : σ} {p : π} {ps qs : Multiset π} {n : ℕ}
    (h : f g' + (qs.map r).sum + n ≤ f g + r p) :
    rank f r ⟨g', qs + ps⟩ + n ≤ rank f r ⟨g, p ::ₘ ps⟩ := by
  simp only [rank, Multiset.map_add, Multiset.sum_add, Multiset.map_cons, Multiset.sum_cons]
  omega

/-- Where no step is left, no process has one. -/
theorem not_act_of_rests {ok : Soup σ π → Label π ε → Prop} {counts : Label π ε → Bool}
    {s : Soup σ π} (h : P.system.Rests ok counts s) {p : π} (hp : p ∈ s.procs) {e : ε}
    (hok : ok s (.act p e)) (hcount : counts (.act p e) = true) (g' : σ) (qs : Multiset π) :
    ¬ P.Act s.shared p e g' qs := by
  intro hact
  obtain ⟨t, ht⟩ := act_of_mem hp ⟨g', qs, hact⟩
  exact h _ t hok hcount ht

end Program

end Transition
