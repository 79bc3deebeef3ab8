import Mathlib.Algebra.GroupWithZero.Nat
import Mathlib.Data.List.Flatten
import Mathlib.Data.List.Perm.Basic
import Mathlib.Data.List.Sort

/-!
# Loops that collect, and sorting by a key

`collect f xs` is the loop that applies `f` to the items one after the other.  Each
time `f` fails, skips the item, or yields a result, and the loop fails with the first
failure.  A comprehension with a filter is such a loop.

The order of the items decides the order of the results and nothing else
(`collect_perm`).  If each yielded result leads back to its item, the results are the
items that are not skipped (`map_collect`).

`sortBy` is the stable sort by a key.  Where the key tells the members apart, it
forgets the order of the list (`sortBy_congr`).  A loop over a sorted list may stop
early (`takeWhile_eq_filter`).

Two concatenations of parts, of which the ones are what is left of the others, are equal
if and only if the parts are (`flatMap_eq_iff`).
-/

namespace Sequence

open scoped List

universe u v w x

variable {α : Type u} {β : Type v} {σ : Type w} {κ : Type x}

/-! ## Loops -/

/-- The results of a loop. -/
def collect (f : α → Option (Option β)) : List α → Option (List β)
  | [] => some []
  | a :: as => do
      let b? ← f a
      let bs ← collect f as
      return b?.toList ++ bs

section
variable {f : α → Option (Option β)} {as as' : List α} {bs : List β}

@[simp] theorem collect_nil : collect f [] = some [] := rfl

theorem collect_cons {a : α} :
    collect f (a :: as) = some bs ↔
      ∃ b? rest, f a = some b? ∧ collect f as = some rest ∧ bs = b?.toList ++ rest := by
  simp [collect, Option.bind_eq_some_iff, eq_comm (a := bs)]

/-- A loop over the same items in another order has the same results in another
order. -/
theorem collect_perm (h : as ~ as') (hc : collect f as = some bs) :
    ∃ bs', collect f as' = some bs' ∧ bs ~ bs' := by
  induction h generalizing bs with
  | nil => exact ⟨bs, hc, .refl _⟩
  | cons a _ ih =>
      obtain ⟨b?, rest, hb, hrest, rfl⟩ := collect_cons.mp hc
      obtain ⟨rest', hrest', hperm⟩ := ih hrest
      exact ⟨_, collect_cons.mpr ⟨b?, rest', hb, hrest', rfl⟩, hperm.append_left _⟩
  | swap a a' l =>
      obtain ⟨b?, rest, hb, hrest, rfl⟩ := collect_cons.mp hc
      obtain ⟨b?', rest', hb', hrest', rfl⟩ := collect_cons.mp hrest
      have hinner := collect_cons.mpr ⟨b?, rest', hb, hrest', rfl⟩
      refine ⟨_, collect_cons.mpr ⟨b?', _, hb', hinner, rfl⟩, ?_⟩
      rw [← List.append_assoc, ← List.append_assoc]
      exact List.perm_append_comm.append_right _
  | trans _ _ ih ih' =>
      obtain ⟨bs', hc', hperm⟩ := ih hc
      obtain ⟨bs'', hc'', hperm'⟩ := ih' hc'
      exact ⟨bs'', hc'', hperm.trans hperm'⟩

/-- Every result was yielded for an item. -/
theorem of_mem_collect (hc : collect f as = some bs) :
    ∀ b ∈ bs, ∃ a ∈ as, f a = some (some b) := by
  induction as generalizing bs with
  | nil =>
      obtain rfl := Option.some.inj hc
      exact List.forall_mem_nil _
  | cons a as ih =>
      obtain ⟨b?, rest, hb, hrest, rfl⟩ := collect_cons.mp hc
      intro b hmem
      rcases List.mem_append.mp hmem with hmem | hmem
      · obtain rfl := Option.mem_toList.mp hmem
        exact ⟨a, List.mem_cons_self, hb⟩
      · obtain ⟨a', ha', hb'⟩ := ih hrest b hmem
        exact ⟨a', List.mem_cons_of_mem _ ha', hb'⟩

/-- A loop with results fails on no item. -/
theorem exists_of_collect (hc : collect f as = some bs) : ∀ a ∈ as, ∃ b?, f a = some b? := by
  induction as generalizing bs with
  | nil => exact List.forall_mem_nil _
  | cons a as ih =>
      obtain ⟨b?, rest, hb, hrest, rfl⟩ := collect_cons.mp hc
      exact List.forall_mem_cons.mpr ⟨⟨b?, hb⟩, ih hrest⟩

/-- A loop that fails on no item has results. -/
theorem exists_collect (h : ∀ a ∈ as, ∃ b?, f a = some b?) : ∃ bs, collect f as = some bs := by
  induction as with
  | nil => exact ⟨[], rfl⟩
  | cons a as ih =>
      obtain ⟨ha, has⟩ := List.forall_mem_cons.mp h
      obtain ⟨b?, hb⟩ := ha
      obtain ⟨rest, hrest⟩ := ih has
      exact ⟨_, collect_cons.mpr ⟨b?, rest, hb, hrest, rfl⟩⟩

/-- The items a loop does not skip are those its results lead back to. -/
theorem map_collect {keep : α → Bool} {back : β → α}
    (hf : ∀ a b?, f a = some b? → b?.map back = if keep a then some a else none)
    (hc : collect f as = some bs) : bs.map back = as.filter keep := by
  induction as generalizing bs with
  | nil =>
      obtain rfl := Option.some.inj hc
      rfl
  | cons a as ih =>
      obtain ⟨b?, rest, hb, hrest, rfl⟩ := collect_cons.mp hc
      have hback := hf a b? hb
      rw [List.map_append, ih hrest, List.filter_cons]
      split at hback
      next hkeep =>
        obtain ⟨b, rfl, hba⟩ := Option.map_eq_some_iff.mp hback
        simp [hkeep, hba]
      next hkeep =>
        obtain rfl := Option.map_eq_none_iff.mp hback
        simp [hkeep]

/-- A loop that folds its results into a state. -/
theorem foldlM_collect (emit : σ → β → σ) (s : σ) :
    as.foldlM (fun s a => (f a).map fun b? => b?.elim s (emit s)) s =
      (collect f as).map (List.foldl emit s) := by
  induction as generalizing s with
  | nil => rfl
  | cons a as ih =>
      rw [List.foldlM_cons, collect]
      cases hb : f a with
      | none => rfl
      | some b? =>
          rw [Option.map_some, Option.bind_eq_bind, Option.bind_some, ih]
          cases collect f as with
          | none => cases b? <;> rfl
          | some rest => cases b? <;> rfl

end

/-! ## Sorting -/

section
variable [LinearOrder κ] {key : α → κ} {as as' : List α}

/-- The stable sort by a key. -/
def sortBy (key : α → κ) (as : List α) : List α :=
  as.insertionSort (Order.Preimage key (· ≤ ·))

theorem sortBy_perm : sortBy key as ~ as := List.perm_insertionSort _ _

theorem pairwise_sortBy : (sortBy key as).Pairwise fun a b => key a ≤ key b :=
  List.pairwise_insertionSort (Order.Preimage key (· ≤ ·)) as

/-- The first member of a sorted list has the least key. -/
theorem of_head?_sortBy {a : α} (h : (sortBy key as).head? = some a) :
    a ∈ as ∧ ∀ b ∈ as, key a ≤ key b := by
  obtain ⟨bs, hbs⟩ := List.head?_eq_some_iff.mp h
  have hsorted : (a :: bs).Pairwise fun a b => key a ≤ key b := hbs ▸ pairwise_sortBy
  have hmem : ∀ b, b ∈ as ↔ b ∈ a :: bs := fun b => hbs ▸ sortBy_perm.mem_iff.symm
  refine ⟨(hmem a).mpr List.mem_cons_self, fun b hb => ?_⟩
  rcases List.mem_cons.mp ((hmem b).mp hb) with rfl | hb
  · exact le_rfl
  · exact (List.pairwise_cons.mp hsorted).1 b hb

/-- Members with different keys are sorted strictly. -/
theorem pairwise_lt_sortBy (h : (as.map key).Nodup) :
    (sortBy key as).Pairwise fun a b => key a < key b := by
  have hnodup : ((sortBy key as).map key).Nodup := (sortBy_perm.map key).nodup_iff.mpr h
  exact pairwise_sortBy.imp₂ (fun _ _ hle hne => lt_of_le_of_ne hle hne)
    (List.pairwise_map.mp hnodup)

/-- Sorting forgets the order of a list in which the key tells the members apart. -/
theorem sortBy_congr (h : as ~ as') (hkey : ∀ a ∈ as, ∀ b ∈ as, key a = key b → a = b) :
    sortBy key as = sortBy key as' := by
  have hperm : sortBy key as ~ sortBy key as' := (sortBy_perm.trans h).trans sortBy_perm.symm
  refine hperm.eq_of_pairwise (fun a b ha hb hab hba => ?_) pairwise_sortBy pairwise_sortBy
  have ha' : a ∈ as := sortBy_perm.subset ha
  have hb' : b ∈ as := h.symm.subset (sortBy_perm.subset hb)
  exact hkey a ha' b hb' (le_antisymm hab hba)

end

/-! ## Prefixes -/

section
variable {p q : α → Bool}

/-- A loop that stops at the first member without `p` finds every member with `p`, if none
of these is behind one without. -/
theorem takeWhile_eq_filter :
    ∀ {as : List α}, (as.Pairwise fun a b => p b = true → p a = true) →
      as.takeWhile p = as.filter p
  | [], _ => rfl
  | a :: as, h => by
      obtain ⟨ha, has⟩ := List.pairwise_cons.mp h
      by_cases hpa : p a = true
      · rw [List.takeWhile_cons_of_pos hpa, List.filter_cons_of_pos hpa, takeWhile_eq_filter has]
      · have hnone : ∀ b ∈ as, ¬ p b = true := fun b hb hpb => hpa (ha b hb hpb)
        rw [List.takeWhile_cons_of_neg hpa, List.filter_cons_of_neg hpa,
          List.filter_eq_nil_iff.mpr hnone]

/-- A weaker condition takes more. -/
theorem takeWhile_isPrefix (hpq : ∀ a, p a = true → q a = true) :
    ∀ as : List α, as.takeWhile p <+: as.takeWhile q
  | [] => List.prefix_rfl
  | a :: as => by
      by_cases hpa : p a = true
      · rw [List.takeWhile_cons_of_pos hpa, List.takeWhile_cons_of_pos (hpq a hpa),
          List.prefix_cons_inj]
        exact takeWhile_isPrefix hpq as
      · rw [List.takeWhile_cons_of_neg hpa]
        exact List.nil_prefix

end

/-! ## The largest members -/

section
variable {f : α → ℕ} {as bs : List α} {a : α}

/-- A prefix is no smaller with the largest member in front. -/
theorem sum_take_le_cons (ha : ∀ b ∈ as, f b ≤ f a) (n : ℕ) :
    ((as.take n).map f).sum ≤ (((a :: as).take n).map f).sum := by
  cases n with
  | zero => exact le_rfl
  | succ n =>
      rw [List.take_succ_cons, List.map_cons, List.sum_cons, List.take_add_one, List.map_append,
        List.sum_append]
      cases hn : as[n]? with
      | none => simp
      | some b =>
          have hb := ha b (List.mem_of_getElem? hn)
          simp
          omega

/-- Of a list that falls, no members have a larger sum than as many from its front. -/
theorem sum_le_sum_take (h : bs <+ as) (hfalls : as.Pairwise fun a b => f b ≤ f a) :
    (bs.map f).sum ≤ ((as.take bs.length).map f).sum := by
  induction h with
  | slnil => exact le_rfl
  | cons a _ ih =>
      obtain ⟨ha, has⟩ := List.pairwise_cons.mp hfalls
      exact le_trans (ih has) (sum_take_le_cons ha _)
  | cons_cons a _ ih =>
      obtain ⟨-, has⟩ := List.pairwise_cons.mp hfalls
      rw [List.map_cons, List.sum_cons, List.length_cons, List.take_succ_cons, List.map_cons,
        List.sum_cons]
      exact Nat.add_le_add_left (ih has) _

end

/-! ## Concatenations -/

section
variable {f g : α → List β} {as : List α}

/-- Concatenations of parts that may have lost members differ as soon as a part has. -/
theorem eq_of_flatMap_eq (h : ∀ a ∈ as, f a <+ g a) (heq : as.flatMap f = as.flatMap g) :
    ∀ a ∈ as, f a = g a := by
  induction as with
  | nil => exact List.forall_mem_nil _
  | cons a as ih =>
      obtain ⟨ha, has⟩ := List.forall_mem_cons.mp h
      rw [List.flatMap_cons, List.flatMap_cons] at heq
      have hlen := congrArg List.length heq
      rw [List.length_append, List.length_append] at hlen
      have hle := ha.length_le
      have hle' := (List.Sublist.flatMap_right as has).length_le
      have hhead : f a = g a := ha.eq_of_length (by omega)
      rw [hhead, List.append_cancel_left_eq] at heq
      exact List.forall_mem_cons.mpr ⟨hhead, ih has heq⟩

/-- The same where a part has lost members if it has nothing but members with `p`, which all
members of the other parts have. -/
theorem flatMap_eq_iff {p : β → Prop} (hf : ∀ a ∈ as, (∀ b ∈ f a, p b) → f a <+ g a)
    (hg : ∀ a ∈ as, ∀ b ∈ g a, p b) :
    as.flatMap f = as.flatMap g ↔ ∀ a ∈ as, f a = g a := by
  constructor
  · intro heq
    refine eq_of_flatMap_eq (fun a ha => hf a ha fun b hb => ?_) heq
    have hmem : b ∈ as.flatMap g := heq ▸ List.mem_flatMap_of_mem ha hb
    obtain ⟨a', ha', hb'⟩ := List.mem_flatMap.mp hmem
    exact hg a' ha' b hb'
  · exact List.flatMap_congr

end

end Sequence
