import Aicv.Sequence.Collect

/-!
# Ranks

`IsRank as i a` says of a member `a` what it is to be at position `i` of the sorted list: more
than `i` members are not above it, and at most `i` are below it.  That says which member it is
(`IsRank.unique`), and the order of the list does not matter (`IsRank.of_perm`).
-/

namespace Sequence

open scoped List

universe u

variable {α : Type u} [LinearOrder α] {as as' : List α} {i : ℕ} {a b : α}

/-- A member at a position of the sorted list. -/
structure IsRank (as : List α) (i : ℕ) (a : α) : Prop where
  mem : a ∈ as
  le : i < as.countP (· ≤ a)
  lt : as.countP (· < a) ≤ i

/-- In a sorted list the rank of a member is the number of those before it. -/
theorem isRank_append {bs cs : List α} (h : (bs ++ a :: cs).Pairwise (· ≤ ·)) :
    IsRank (bs ++ a :: cs) bs.length a := by
  obtain ⟨-, hrest, hbelow⟩ := List.pairwise_append.mp h
  have habove : ∀ b ∈ a :: cs, a ≤ b :=
    List.forall_mem_cons.mpr ⟨le_rfl, (List.pairwise_cons.mp hrest).1⟩
  refine ⟨List.mem_append_right _ List.mem_cons_self, ?_, ?_⟩
  · have hall : bs.countP (· ≤ a) = bs.length :=
      List.countP_eq_length.mpr fun b hb => decide_eq_true (hbelow b hb a List.mem_cons_self)
    have hself : 0 < (a :: cs).countP (· ≤ a) :=
      List.countP_pos_iff.mpr ⟨a, List.mem_cons_self, decide_eq_true le_rfl⟩
    rw [List.countP_append, hall]
    omega
  · have hnone : (a :: cs).countP (· < a) = 0 :=
      List.countP_eq_zero.mpr fun b hb hlt => not_lt_of_ge (habove b hb) (of_decide_eq_true hlt)
    rw [List.countP_append, hnone]
    exact List.countP_le_length

theorem isRank_getElem (h : as.Pairwise (· ≤ ·)) (hi : i < as.length) : IsRank as i as[i] := by
  have hsplit : as.take i ++ as[i] :: as.drop (i + 1) = as := by
    rw [← List.drop_eq_getElem_cons hi, List.take_append_drop]
  have hrank := isRank_append (hsplit.symm ▸ h)
  rwa [hsplit, List.length_take_of_le hi.le] at hrank

/-- The rank says which member it is. -/
theorem IsRank.unique (ha : IsRank as i a) (hb : IsRank as i b) : a = b := by
  have hle {a b : α} (ha : IsRank as i a) (hb : IsRank as i b) : b ≤ a := by
    by_contra hlt
    have hmono : as.countP (· ≤ a) ≤ as.countP (· < b) :=
      List.countP_mono_left fun c _ hc =>
        decide_eq_true ((of_decide_eq_true hc).trans_lt (not_le.mp hlt))
    exact absurd (ha.le.trans_le (hmono.trans hb.lt)) (lt_irrefl i)
  exact le_antisymm (hle hb ha) (hle ha hb)

theorem IsRank.of_perm (h : IsRank as i a) (hperm : as ~ as') : IsRank as' i a :=
  ⟨hperm.subset h.mem, hperm.countP_eq _ ▸ h.le, hperm.countP_eq _ ▸ h.lt⟩

/-- Sorting brings the members to their ranks. -/
theorem isRank_sortBy (hi : i < (sortBy id as).length) : IsRank as i (sortBy id as)[i] :=
  (isRank_getElem pairwise_sortBy hi).of_perm sortBy_perm

/-- Nothing is above the last rank. -/
theorem IsRank.le_last (h : IsRank as (as.length - 1) a) : ∀ b ∈ as, b ≤ a := by
  have hlen := List.length_pos_of_mem h.mem
  have hall : as.countP (· ≤ a) = as.length :=
    le_antisymm List.countP_le_length (by have := h.le; omega)
  intro b hb
  exact of_decide_eq_true (List.countP_eq_length.mp hall b hb)

end Sequence
