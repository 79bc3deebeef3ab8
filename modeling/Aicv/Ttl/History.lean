import Aicv.Ttl.Manager
import Mathlib.Data.List.Induction

/-!
# What a sweep kills

After a history of calls, an id is in the table if its last `Track` was followed
by no `Untrack` and by no sweep that killed it (`Pending`).  The entry holds the
deadline of that `Track` (`mem_after`).  A sweep kills the ids whose pending
deadline has passed, each of them once, and leaves the others alone
(`sweep_exact`).
-/

namespace Aicv.Ttl

universe u

variable {α : Type u}

namespace Manager

/-! ## Histories, call by call -/

/-- The manager after a history that starts with `New`. -/
def after (ops : List (Op α)) : Manager α := (empty.run ops).1

theorem run_append (m : Manager α) (ops ops' : List (Op α)) :
    m.run (ops ++ ops') =
      (((m.run ops).1.run ops').1, (m.run ops).2 ++ ((m.run ops).1.run ops').2) := by
  induction ops generalizing m with
  | nil => rfl
  | cons op ops ih => simp only [List.cons_append, run, ih, List.append_assoc]

theorem after_snoc (ops : List (Op α)) (op : Op α) :
    after (ops ++ [op]) = ((after ops).step op).1 := by
  simp only [after, run_append, run]

/-! ## One sweep -/

/-- The ids a sweep kills. -/
def kills (m : Manager α) (now : ℤ) : List String := (m.step (.sweep now)).2

theorem nodup_kills (m : Manager α) (now : ℤ) : (m.kills now).Nodup :=
  nodup_filter m.nodup _

theorem mem_kills {m : Manager α} {now : ℤ} {id : String} :
    id ∈ m.kills now ↔ ∃ t ∈ m.deadlines, t.id = id ∧ t.deadline ≤ now := by
  simp only [kills, step, List.mem_map, mem_expired]
  exact exists_congr fun t => by tauto

/-- A sweep forgets the ids it kills and no other. -/
theorem mem_sweep {m : Manager α} {now : ℤ} {t : Tracked α} :
    t ∈ (m.step (.sweep now)).1.deadlines ↔ t ∈ m.deadlines ∧ t.id ∉ m.kills now := by
  rw [show (m.step (.sweep now)).1 = m.forget now from rfl, mem_forget]
  refine and_congr_right fun ht => ?_
  rw [mem_kills]
  constructor
  · rintro hlt ⟨t', ht', hid, hle⟩
    rw [eq_of_id ht' ht hid] at hle
    exact absurd hlt (not_lt.mpr hle)
  · intro h
    by_contra hle
    exact h ⟨t, ht, rfl, not_lt.mp hle⟩

end Manager

open Manager

/-! ## Pending deadlines -/

/-- The call leaves the entry of `id` alone: it is no `Track` and no `Untrack`
of the id, and no sweep that kills it. -/
def Manager.Spares (m : Manager α) (id : String) : Manager.Op α → Prop
  | .track id' _ _ _ => id' ≠ id
  | .untrack id' => id' ≠ id
  | .sweep now => id ∉ m.kills now

/-- The last `Track` of the id was followed by no `Untrack` of it and by no
sweep that killed it. -/
def Pending (ops : List (Manager.Op α)) (id : String) (ttl : Duration) (start : ℤ) (tag : α) :
    Prop :=
  ∃ pre post, ops = pre ++ .track id ttl start tag :: post ∧
    ∀ mid op rest, post = mid ++ op :: rest →
      (after (pre ++ .track id ttl start tag :: mid)).Spares id op

section
variable {ops : List (Manager.Op α)} {id : String} {ttl : Duration} {start : ℤ} {tag : α}

theorem not_pending_nil : ¬ Pending [] id ttl start tag := by
  rintro ⟨pre, post, h, -⟩
  simp at h

/-- One more call makes a deadline pending, or spares one that was. -/
theorem pending_snoc {op : Manager.Op α} :
    Pending (ops ++ [op]) id ttl start tag ↔
      op = .track id ttl start tag ∨ Pending ops id ttl start tag ∧ (after ops).Spares id op := by
  constructor
  · rintro ⟨pre, post, hops, hpost⟩
    rcases List.eq_nil_or_concat post with rfl | ⟨post', op', rfl⟩
    · have := List.append_inj' hops rfl
      exact .inl (by simpa using this.2)
    · rw [List.concat_eq_append] at hpost hops
      rw [← List.cons_append, ← List.append_assoc] at hops
      obtain ⟨rfl, hop⟩ := List.append_inj' hops rfl
      obtain rfl : op = op' := by simpa using hop
      refine .inr ⟨⟨pre, post', rfl, fun mid o rest h => ?_⟩, hpost post' op [] rfl⟩
      exact hpost mid o (rest ++ [op]) (by rw [h, List.append_assoc, List.cons_append])
  · rintro (rfl | ⟨⟨pre, post, rfl, hpost⟩, hop⟩)
    · exact ⟨ops, [], rfl, fun mid o rest h => by simp at h⟩
    · refine ⟨pre, post ++ [op], by simp, fun mid o rest h => ?_⟩
      rcases List.eq_nil_or_concat rest with rfl | ⟨rest', o', rfl⟩
      · obtain ⟨rfl, ho⟩ := List.append_inj' h rfl
        obtain rfl : op = o := by simpa using ho
        exact hop
      · rw [List.concat_eq_append, ← List.cons_append, ← List.append_assoc] at h
        exact hpost mid o rest' (List.append_inj' h rfl).1

/-- After a call the table holds the deadline it sets and the entries it spares. -/
theorem mem_step {m : Manager α} {op : Manager.Op α} {t : Tracked α} :
    t ∈ (m.step op).1.deadlines ↔
      (∃ ttl start, op = .track t.id ttl start t.tag ∧ t.deadline = start + ttl.toInt) ∨
        t ∈ m.deadlines ∧ m.Spares t.id op := by
  cases op with
  | track id' ttl' now tag' =>
      show t ∈ (m.track id' ttl' now tag').deadlines ↔ _
      rw [mem_track]
      constructor
      · rintro (rfl | ⟨hold, hne⟩)
        · exact .inl ⟨ttl', now, rfl, rfl⟩
        · exact .inr ⟨hold, Ne.symm hne⟩
      · rintro (⟨ttl, start, heq, hd⟩ | ⟨hold, hspared⟩)
        · cases heq
          left
          rw [← hd]
        · exact .inr ⟨hold, Ne.symm hspared⟩
  | untrack id' =>
      show t ∈ (m.untrack id').deadlines ↔ _
      rw [mem_untrack]
      constructor
      · exact fun ⟨hold, hne⟩ => .inr ⟨hold, Ne.symm hne⟩
      · rintro (⟨ttl, start, heq, -⟩ | ⟨hold, hspared⟩)
        · cases heq
        · exact ⟨hold, Ne.symm hspared⟩
  | sweep now =>
      rw [mem_sweep]
      constructor
      · exact .inr
      · rintro (⟨ttl, start, heq, -⟩ | h)
        · cases heq
        · exact h

/-- The table holds the pending deadlines. -/
theorem mem_after {t : Tracked α} :
    t ∈ (after ops).deadlines ↔
      ∃ ttl start, Pending ops t.id ttl start t.tag ∧ t.deadline = start + ttl.toInt := by
  induction ops using List.reverseRecOn with
  | nil =>
      constructor
      · intro h
        cases h
      · rintro ⟨ttl, start, h, -⟩
        exact absurd h not_pending_nil
  | append_singleton ops op ih =>
      rw [after_snoc, mem_step, ih]
      simp only [pending_snoc]
      constructor
      · rintro (⟨ttl, start, hop, hd⟩ | ⟨⟨ttl, start, hp, hd⟩, hspared⟩)
        · exact ⟨ttl, start, .inl hop, hd⟩
        · exact ⟨ttl, start, .inr ⟨hp, hspared⟩, hd⟩
      · rintro ⟨ttl, start, hop | ⟨hp, hspared⟩, hd⟩
        · exact .inl ⟨ttl, start, hop, hd⟩
        · exact .inr ⟨⟨ttl, start, hp, hd⟩, hspared⟩

/-! ## Kills of one `Track` -/

/-- The ids in the table. -/
def Manager.ids (m : Manager α) : List String := m.deadlines.map Tracked.id

theorem count_sweep_le (m : Manager α) (now : ℤ) (id : String) :
    (m.kills now).count id + (m.forget now).ids.count id ≤ m.ids.count id := by
  by_cases hid : id ∈ m.kills now
  · have hgone : id ∉ (m.forget now).ids := by
      intro h
      obtain ⟨t, ht, rfl⟩ := List.mem_map.mp h
      exact (mem_sweep.mp ht).2 hid
    have hthere : id ∈ m.ids := by
      obtain ⟨t, ht, rfl, -⟩ := mem_kills.mp hid
      exact List.mem_map_of_mem ht
    rw [List.count_eq_zero_of_not_mem hgone]
    exact (List.nodup_iff_count_le_one.mp (nodup_kills m now) id).trans
      (List.count_pos_iff.mpr hthere)
  · rw [List.count_eq_zero_of_not_mem hid, Nat.zero_add]
    exact (List.filter_sublist.map _).count_le id

/-- A call that does not track the id kills it at most as often as it removes
it. -/
theorem count_step_le (m : Manager α) {op : Manager.Op α} {id : String}
    (hno : ∀ ttl start tag, op ≠ .track id ttl start tag) :
    (m.step op).2.count id + (m.step op).1.ids.count id ≤ m.ids.count id := by
  have huntrack (id' : String) : (m.untrack id').ids.count id ≤ m.ids.count id :=
    (List.filter_sublist.map _).count_le id
  cases op with
  | track id' ttl now tag =>
      have hne : id' ≠ id := fun h => hno ttl now tag (by rw [h])
      have hcons : (m.track id' ttl now tag).ids = id' :: (m.untrack id').ids := rfl
      rw [show (m.step (.track id' ttl now tag)).1 = m.track id' ttl now tag from rfl, hcons,
        List.count_cons_of_ne hne]
      simpa [step] using huntrack id'
  | untrack id' => simpa [step] using huntrack id'
  | sweep now => exact count_sweep_le m now id

/-- Until its next `Track`, an id is killed at most as often as it is in the
table. -/
theorem count_run_le (m : Manager α) (ops : List (Manager.Op α)) {id : String}
    (hno : ∀ op ∈ ops, ∀ ttl start tag, op ≠ .track id ttl start tag) :
    (m.run ops).2.count id ≤ m.ids.count id := by
  induction ops generalizing m with
  | nil => simp [run]
  | cons op ops ih =>
      have hstep := count_step_le m (hno op List.mem_cons_self)
      have hrest := ih (m.step op).1 fun op' hop' => hno op' (List.mem_cons_of_mem _ hop')
      simp only [run, List.count_append]
      omega

/-! ## Sweeps over histories -/

/-- After any history a sweep kills, once each, the ids whose pending deadline
has passed, and the other entries stay as they are.  Each `Track` is followed by
at most one kill of its id before the next, and replaces the deadline the id
had. -/
theorem sweep_exact (ops : List (Manager.Op α)) :
    (∀ now, ((after ops).kills now).Nodup ∧
      (∀ id, id ∈ (after ops).kills now ↔
        ∃ ttl start tag, Pending ops id ttl start tag ∧ start + ttl.toInt ≤ now) ∧
      ∀ t, t ∈ (after (ops ++ [.sweep now])).deadlines ↔
        t ∈ (after ops).deadlines ∧ t.id ∉ (after ops).kills now) ∧
    ∀ id ttl start tag,
      (∀ t, t ∈ (after (ops ++ [.track id ttl start tag])).deadlines ↔
        t = ⟨id, start + ttl.toInt, tag⟩ ∨ t ∈ (after ops).deadlines ∧ t.id ≠ id) ∧
      ∀ post : List (Manager.Op α), (∀ op ∈ post, ∀ ttl start tag, op ≠ .track id ttl start tag) →
        ((after (ops ++ [.track id ttl start tag])).run post).2.count id ≤ 1 := by
  refine ⟨fun now => ⟨nodup_kills _ now, fun id => ?_, fun t => ?_⟩, fun id ttl start tag =>
    ⟨fun t => ?_, fun post hpost => ?_⟩⟩
  · rw [mem_kills]
    constructor
    · rintro ⟨t, ht, rfl, hle⟩
      obtain ⟨ttl, start, hp, hd⟩ := mem_after.mp ht
      exact ⟨ttl, start, t.tag, hp, hd ▸ hle⟩
    · rintro ⟨ttl, start, tag, hp, hle⟩
      exact ⟨⟨id, _, tag⟩, mem_after.mpr ⟨ttl, start, hp, rfl⟩, rfl, hle⟩
  · rw [after_snoc, mem_sweep]
  · rw [after_snoc]
    exact mem_track
  · have hnodup : (after (ops ++ [.track id ttl start tag])).ids.Nodup := Manager.nodup _
    exact (count_run_le _ post hpost).trans (List.nodup_iff_count_le_one.mp hnodup id)

end

end Aicv.Ttl
