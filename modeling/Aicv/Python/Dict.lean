import Mathlib.Data.List.Induction
import Mathlib.Data.List.Nodup
import Aicv.Sequence.Collect

/-!
# Python dictionaries

A dictionary is the list of its items, in the order in which the keys were first set.
`alter` sets a key to a value made of the old one, if there is one.  The operations of
the collections the scripts use are calls of it: `d[k] += 1` of a `Counter`, and
`setdefault` and `append` on a dictionary of lists.

`lookup_alter_self`, `lookup_alter_of_ne` and `nodup_alter` say what an operation does
and keeps.
-/

namespace Aicv.Python

universe u v w

/-- A dictionary. -/
abbrev Dict (κ : Type u) (ν : Type v) := List (κ × ν)

namespace Dict

variable {κ : Type u} {ν : Type v} [BEq κ]

/-- `d[k]` is set to `f` of its old value. -/
def alter (k : κ) (f : Option ν → ν) : Dict κ ν → Dict κ ν
  | [] => [(k, f none)]
  | (k', x) :: d => if k == k' then (k', f (some x)) :: d else (k', x) :: alter k f d

/-- `d[k] += 1`, of a `Counter`. -/
def bump (k : κ) : Dict κ ℕ → Dict κ ℕ := alter k fun n => n.getD 0 + 1

/-- `Counter(xs)`. -/
def counter (xs : List κ) : Dict κ ℕ := xs.foldl (fun d k => d.bump k) []

/-- `d.setdefault(k, []).append(x)`. -/
def push (k : κ) (x : ν) : Dict κ (List ν) → Dict κ (List ν) := alter k fun xs => xs.getD [] ++ [x]

omit [BEq κ] in
/-- The items of a `Counter` by falling numbers, as `most_common` has them. -/
def mostCommon (d : Dict κ ℕ) : Dict κ ℕ := Sequence.sortBy (fun e => -(e.2 : ℤ)) d

section
variable [LawfulBEq κ] {k k' : κ} {f : Option ν → ν} {d : Dict κ ν}

theorem lookup_cons_of_ne {x : ν} (hne : k ≠ k') : ((k', x) :: d).lookup k = d.lookup k := by
  rw [List.lookup_cons, beq_eq_false_iff_ne.mpr hne]

@[simp] theorem lookup_alter_self : (alter k f d).lookup k = some (f (d.lookup k)) := by
  induction d with
  | nil => simp [alter]
  | cons e d ih =>
      obtain ⟨l, x⟩ := e
      by_cases hk : k = l
      · subst hk
        simp [alter]
      · simp [alter, hk, lookup_cons_of_ne hk, ih]

theorem lookup_alter_of_ne (hne : k' ≠ k) : (alter k f d).lookup k' = d.lookup k' := by
  induction d with
  | nil => exact lookup_cons_of_ne hne
  | cons e d ih =>
      obtain ⟨l, x⟩ := e
      by_cases hk : k = l
      · subst hk
        simp [alter, lookup_cons_of_ne hne]
      · simp only [alter, beq_iff_eq, hk, if_false, List.lookup_cons, ih]

theorem keys_alter : (alter k f d).map Prod.fst =
    if k ∈ d.map Prod.fst then d.map Prod.fst else d.map Prod.fst ++ [k] := by
  induction d with
  | nil => rfl
  | cons e d ih =>
      obtain ⟨l, x⟩ := e
      by_cases hk : k = l
      · simp [alter, hk]
      · simp only [alter, beq_iff_eq, hk, if_false, List.map_cons, ih, List.mem_cons, false_or]
        split <;> rfl

theorem mem_keys_alter :
    k' ∈ (alter k f d).map Prod.fst ↔ k' ∈ d.map Prod.fst ∨ k' = k := by
  rw [keys_alter]
  split
  next hk => exact (or_iff_left_of_imp fun h => h ▸ hk).symm
  next => rw [List.mem_append, List.mem_singleton]

/-- A loop sets the keys of its items. -/
theorem mem_keys_foldl_alter {ι : Type w} {key : ι → κ} {g : ι → Option ν → ν} {as : List ι} :
    k ∈ (as.foldl (fun d a => d.alter (key a) (g a)) d).map Prod.fst ↔
      k ∈ d.map Prod.fst ∨ k ∈ as.map key := by
  induction as generalizing d with
  | nil => simp
  | cons a as ih => rw [List.foldl_cons, ih, mem_keys_alter, List.map_cons, List.mem_cons, or_assoc]

/-- No operation sets a key twice. -/
theorem nodup_alter (h : (d.map Prod.fst).Nodup) : ((alter k f d).map Prod.fst).Nodup := by
  rw [keys_alter]
  split
  next => exact h
  next hk =>
    rw [← List.concat_eq_append, List.nodup_concat]
    exact ⟨hk, h⟩

/-- A loop keeps what is under a key that it does not set. -/
theorem lookup_foldl_of_not_mem {ι : Type w} {key : ι → κ} {val : ι → ν} :
    ∀ {as : List ι} {d : Dict κ ν}, k ∉ as.map key →
      (as.foldl (fun d a => d.alter (key a) fun _ => val a) d).lookup k = d.lookup k
  | [], _, _ => rfl
  | a :: as, d, h => by
      obtain ⟨hne, has⟩ := not_or.mp (mt List.mem_cons.mpr h)
      rw [List.foldl_cons, lookup_foldl_of_not_mem has, lookup_alter_of_ne hne]

/-- A loop that sets every key once. -/
theorem lookup_foldl_alter {ι : Type w} {key : ι → κ} {val : ι → ν} :
    ∀ {as : List ι} {d : Dict κ ν} {a : ι}, (as.map key).Nodup → a ∈ as →
      (as.foldl (fun d a => d.alter (key a) fun _ => val a) d).lookup (key a) = some (val a)
  | a :: as, d, b, h, hb => by
      obtain ⟨ha, has⟩ := List.nodup_cons.mp h
      rw [List.foldl_cons]
      rcases List.mem_cons.mp hb with rfl | hb
      · rw [lookup_foldl_of_not_mem ha, lookup_alter_self]
      · exact lookup_foldl_alter has hb

/-- A loop that sets all its keys to one value. -/
theorem lookup_foldl_const {x : ν} : ∀ {ks : List κ} {d : Dict κ ν},
    (ks.foldl (fun d k => d.alter k fun _ => x) d).lookup k =
      if k ∈ ks then some x else d.lookup k
  | [], _ => rfl
  | k' :: ks, d => by
      rw [List.foldl_cons, lookup_foldl_const]
      by_cases hk : k = k'
      · subst hk
        rw [lookup_alter_self, if_pos List.mem_cons_self, ite_self]
      · simp only [lookup_alter_of_ne hk, List.mem_cons, hk, false_or]

theorem nodup_foldl_alter {ι : Type w} {key : ι → κ} {g : ι → Option ν → ν} :
    ∀ {as : List ι} {d : Dict κ ν}, (d.map Prod.fst).Nodup →
      ((as.foldl (fun d a => d.alter (key a) (g a)) d).map Prod.fst).Nodup
  | [], _, h => h
  | a :: as, d, h => by
      rw [List.foldl_cons]
      exact nodup_foldl_alter (nodup_alter h)

omit [LawfulBEq κ] in
theorem mem_alter {e : κ × ν} (h : e ∈ alter k f d) : e ∈ d ∨ ∃ x, e.2 = f x := by
  induction d with
  | nil =>
      rw [alter, List.mem_singleton] at h
      exact .inr ⟨none, congrArg Prod.snd h⟩
  | cons e' d ih =>
      rw [alter] at h
      split at h
      next =>
        rcases List.mem_cons.mp h with rfl | h
        · exact .inr ⟨_, rfl⟩
        · exact .inl (List.mem_cons_of_mem _ h)
      next =>
        rcases List.mem_cons.mp h with rfl | h
        · exact .inl List.mem_cons_self
        · exact (ih h).imp_left (List.mem_cons_of_mem _)

omit [LawfulBEq κ] in
/-- The values of a dictionary that a loop has set. -/
theorem forall_foldl_alter {P : ν → Prop} {es : List (κ × ν)} (hd : ∀ e ∈ d, P e.2)
    (hes : ∀ e ∈ es, P e.2) :
    ∀ e ∈ es.foldl (fun d e => d.alter e.1 fun _ => e.2) d, P e.2 := by
  induction es generalizing d with
  | nil => exact hd
  | cons e es ih =>
      obtain ⟨he, hes⟩ := List.forall_mem_cons.mp hes
      refine ih (fun e' he' => ?_) hes
      rcases mem_alter he' with hmem | ⟨x, heq⟩
      · exact hd e' hmem
      · exact heq ▸ he

theorem alter_of_not_mem (h : k ∉ d.map Prod.fst) : alter k f d = d ++ [(k, f none)] := by
  induction d with
  | nil => rfl
  | cons e d ih =>
      obtain ⟨hne, hd⟩ := not_or.mp (mt List.mem_cons.mpr h)
      rw [alter, if_neg (mt beq_iff_eq.mp hne), ih hd, List.cons_append]

/-- A loop that sets new keys. -/
theorem foldl_alter_eq {es d : Dict κ ν} (h : ((d ++ es).map Prod.fst).Nodup) :
    es.foldl (fun d e => d.alter e.1 fun _ => e.2) d = d ++ es := by
  induction es generalizing d with
  | nil => rw [List.foldl_nil, List.append_nil]
  | cons e es ih =>
      have hnew : e.1 ∉ d.map Prod.fst := by
        rw [List.map_append, List.map_cons] at h
        exact fun hmem => (List.nodup_append.mp h).2.2 _ hmem _ List.mem_cons_self rfl
      rw [List.foldl_cons, alter_of_not_mem hnew]
      have happend : d ++ [(e.1, e.2)] ++ es = d ++ e :: es := List.append_assoc _ _ _
      rw [ih (happend ▸ h), happend]

/-- A loop over the items of another dictionary. -/
theorem lookup_foldl_items {μ : Type w} {g : κ × μ → Option ν → ν} {items : Dict κ μ}
    (h : (items.map Prod.fst).Nodup) (k : κ) :
    (items.foldl (fun d e => d.alter e.1 (g e)) d).lookup k =
      (items.lookup k).elim (d.lookup k) fun x => some (g (k, x) (d.lookup k)) := by
  induction items generalizing d with
  | nil => rfl
  | cons e items ih =>
      obtain ⟨l, x⟩ := e
      obtain ⟨hl, hitems⟩ := List.nodup_cons.mp h
      rw [List.foldl_cons, ih hitems]
      by_cases hk : k = l
      · subst hk
        have hnone : items.lookup k = none := by
          rw [List.lookup_eq_none_iff]
          intro e he
          exact bne_iff_ne.mpr fun heq => hl (List.mem_map.mpr ⟨e, he, heq.symm⟩)
        rw [hnone, Option.elim_none, lookup_alter_self, List.lookup_cons_self, Option.elim_some]
      · rw [lookup_alter_of_ne hk, lookup_cons_of_ne hk]

/-- What an operation adds to a sum over the values. -/
theorem sum_alter {f : Option ν → ν} (size : ν → ℕ) (hnone : size (f none) = 1)
    (hsome : ∀ x, size (f (some x)) = size x + 1) (d : Dict κ ν) :
    ((d.alter k f).map fun e => size e.2).sum = (d.map fun e => size e.2).sum + 1 := by
  induction d with
  | nil => simp [alter, hnone]
  | cons e d ih =>
      obtain ⟨l, x⟩ := e
      by_cases hk : k = l
      · simp [alter, hk, hsome]
        omega
      · simp [alter, hk, ih]
        omega

/-- A loop that may fail keeps what is under a key that it does not set. -/
theorem lookup_foldlM_of_not_mem {ι : Type w} {key : ι → κ} {val : ι → Option ν} {as : List ι}
    {d d' : Dict κ ν} (hk : k ∉ as.map key)
    (h : as.foldlM (fun d a => (val a).map fun x => d.alter (key a) fun _ => x) d = some d') :
    d'.lookup k = d.lookup k := by
  induction as generalizing d with
  | nil => exact congrArg (List.lookup k) (Option.some.inj h).symm
  | cons a as ih =>
      obtain ⟨hne, has⟩ := not_or.mp (mt List.mem_cons.mpr hk)
      rw [List.foldlM_cons] at h
      obtain ⟨d₁, hd₁, h⟩ := Option.bind_eq_some_iff.mp h
      obtain ⟨x, -, rfl⟩ := Option.map_eq_some_iff.mp hd₁
      rw [ih has h, lookup_alter_of_ne hne]

/-- A loop that may fail and sets every key once. -/
theorem lookup_foldlM_alter {ι : Type w} {key : ι → κ} {val : ι → Option ν} {as : List ι}
    {d d' : Dict κ ν} {a : ι} (hkeys : (as.map key).Nodup) (ha : a ∈ as)
    (h : as.foldlM (fun d a => (val a).map fun x => d.alter (key a) fun _ => x) d = some d') :
    ∃ x, val a = some x ∧ d'.lookup (key a) = some x := by
  induction as generalizing d with
  | nil => cases ha
  | cons b as ih =>
      obtain ⟨hb, has⟩ := List.nodup_cons.mp hkeys
      rw [List.foldlM_cons] at h
      obtain ⟨d₁, hd₁, h⟩ := Option.bind_eq_some_iff.mp h
      rcases List.mem_cons.mp ha with rfl | ha
      · obtain ⟨x, hx, rfl⟩ := Option.map_eq_some_iff.mp hd₁
        exact ⟨x, hx, (lookup_foldlM_of_not_mem hb h).trans lookup_alter_self⟩
      · exact ih has ha h

theorem mem_keys_iff : k ∈ d.map Prod.fst ↔ (d.lookup k).isSome := by
  simp [List.lookup_isSome_iff]

/-- The items are what a lookup finds. -/
theorem mem_iff_lookup (h : (d.map Prod.fst).Nodup) {x : ν} :
    (k, x) ∈ d ↔ d.lookup k = some x := by
  induction d with
  | nil => simp
  | cons e d ih =>
      obtain ⟨l, y⟩ := e
      obtain ⟨hl, hd⟩ := List.nodup_cons.mp h
      rw [List.mem_cons]
      by_cases hk : k = l
      · subst hk
        have hnot : (k, x) ∉ d := fun hmem => hl (List.mem_map.mpr ⟨_, hmem, rfl⟩)
        simp [hnot, eq_comm]
      · simp [hk, lookup_cons_of_ne hk, ih hd]

end

/-! ## Counters -/

/-- `d[k]`, of a `Counter`. -/
def number (d : Dict κ ℕ) (k : κ) : ℕ := (d.lookup k).getD 0

omit [BEq κ] in
/-- The keys of a `Counter` differ, and each was counted. -/
structure IsCount (d : Dict κ ℕ) : Prop where
  nodup : (d.map Prod.fst).Nodup
  pos : ∀ e ∈ d, 0 < e.2

section
variable [LawfulBEq κ] {k k' : κ} {d : Dict κ ℕ}

theorem number_bump_self : (d.bump k).number k = d.number k + 1 := by
  rw [number, bump, lookup_alter_self]
  rfl

theorem number_bump_of_ne (hne : k' ≠ k) : (d.bump k).number k' = d.number k' := by
  rw [number, bump, lookup_alter_of_ne hne]
  rfl

theorem IsCount.mem_iff (h : d.IsCount) {n : ℕ} : (k, n) ∈ d ↔ d.number k = n ∧ 0 < n := by
  constructor
  · intro hmem
    rw [number, (mem_iff_lookup h.nodup).mp hmem]
    exact ⟨rfl, h.pos _ hmem⟩
  · rintro ⟨hnumber, hpos⟩
    rw [mem_iff_lookup h.nodup]
    cases hlookup : d.lookup k with
    | none =>
        rw [number, hlookup] at hnumber
        exact absurd hnumber hpos.ne
    | some m =>
        rw [number, hlookup] at hnumber
        exact congrArg some hnumber

theorem IsCount.bump (h : d.IsCount) : (d.bump k).IsCount := by
  have hnodup : ((d.bump k).map Prod.fst).Nodup := nodup_alter h.nodup
  refine ⟨hnodup, fun e he => ?_⟩
  have hlookup := (mem_iff_lookup hnodup).mp he
  by_cases hk : e.1 = k
  · rw [Dict.bump, hk, lookup_alter_self] at hlookup
    exact Option.some.inj hlookup ▸ Nat.succ_pos _
  · rw [Dict.bump, lookup_alter_of_ne hk] at hlookup
    exact h.pos e ((mem_iff_lookup h.nodup).mpr hlookup)

end

theorem counter_concat (xs : List κ) (k : κ) : counter (xs ++ [k]) = (counter xs).bump k := by
  rw [counter, List.foldl_append]
  rfl

section
variable [LawfulBEq κ]

theorem isCount_counter (xs : List κ) : (counter xs).IsCount := by
  induction xs using List.reverseRecOn with
  | nil => exact ⟨List.nodup_nil, List.forall_mem_nil _⟩
  | append_singleton xs k ih =>
      rw [counter_concat]
      exact ih.bump

/-- A `Counter` counts. -/
theorem number_counter (xs : List κ) (k : κ) : (counter xs).number k = xs.count k := by
  induction xs using List.reverseRecOn with
  | nil => rfl
  | append_singleton xs k' ih =>
      rw [counter_concat, List.count_append, ← ih]
      by_cases hk : k = k'
      · subst hk
        rw [number_bump_self, List.count_singleton_self]
      · rw [number_bump_of_ne hk, List.count_singleton, beq_eq_false_iff_ne.mpr (Ne.symm hk)]
        rfl

/-- The most common value of a list. -/
theorem head?_mostCommon {xs : List κ} {e : κ × ℕ} (h : (counter xs).mostCommon.head? = some e) :
    e.1 ∈ xs ∧ ∀ k, xs.count k ≤ xs.count e.1 := by
  obtain ⟨hmem, hmin⟩ := Sequence.of_head?_sortBy h
  obtain ⟨hnumber, hpos⟩ := (isCount_counter xs).mem_iff.mp hmem
  rw [number_counter] at hnumber
  refine ⟨List.count_pos_iff.mp (hnumber ▸ hpos), fun k => ?_⟩
  rcases Nat.eq_zero_or_pos (xs.count k) with hzero | hk
  · exact hzero ▸ Nat.zero_le _
  · have hle := hmin (k, xs.count k) ((isCount_counter xs).mem_iff.mpr ⟨number_counter xs k, hk⟩)
    rw [hnumber]
    omega

theorem mostCommon_ne_nil {xs : List κ} (h : xs ≠ []) : (counter xs).mostCommon ≠ [] := by
  obtain ⟨k, hk⟩ := List.exists_mem_of_ne_nil xs h
  have hmem := (isCount_counter xs).mem_iff.mpr ⟨number_counter xs k, List.count_pos_iff.mpr hk⟩
  exact List.ne_nil_of_mem (Sequence.sortBy_perm.mem_iff.mpr hmem)

end

/-! ## Dictionaries of lists -/

section
variable [LawfulBEq κ] {k k' : κ} {d : Dict κ (List ν)} {x : ν}

theorem lookup_push_self : ((d.push k x).lookup k).getD [] = (d.lookup k).getD [] ++ [x] := by
  rw [push, lookup_alter_self]
  rfl

theorem lookup_push_of_ne (hne : k' ≠ k) : (d.push k x).lookup k' = d.lookup k' :=
  lookup_alter_of_ne hne

/-- A loop that puts its items under their keys. -/
theorem lookup_foldl_push : ∀ {es : List (κ × ν)} {d : Dict κ (List ν)},
    ((es.foldl (fun d e => d.push e.1 e.2) d).lookup k).getD [] =
      (d.lookup k).getD [] ++ (es.filter fun e => e.1 == k).map Prod.snd
  | [], _ => (List.append_nil _).symm
  | e :: es, d => by
      rw [List.foldl_cons, lookup_foldl_push, List.filter_cons]
      by_cases hk : e.1 = k
      · rw [if_pos (beq_iff_eq.mpr hk), ← hk, lookup_push_self, List.append_assoc]
        rfl
      · rw [if_neg (mt beq_iff_eq.mp hk), lookup_push_of_ne (Ne.symm hk)]

end

end Dict

end Aicv.Python
