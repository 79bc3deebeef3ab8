import Aicv.Time.Duration
import Mathlib.Data.List.Nodup

/-!
# The TTL manager

`ttl.Manager` maps the ids it watches to their deadlines.  `sweepOnce` reads the
clock, then takes every expired id out of the map in one critical section, then
kills them one after the other without the lock.  `expired` and `forget` are the
two halves of that critical section.

An entry carries a tag that the source does not have.  It names the `Track`
that made the entry, so that a statement can say whose deadline expired.

The map is a list with distinct ids.  The order of the list stands for the order
of the map, which is any order.

`Op` and `run` are histories of whole calls, executed one at a time.
-/

namespace Aicv.Ttl

universe u

/-- One entry of the map `deadlines`. -/
structure Tracked (α : Type u) where
  id : String
  deadline : ℤ
  /-- The `Track` that made the entry. -/
  tag : α
deriving DecidableEq

/-- `ttl.Manager`. -/
structure Manager (α : Type u) where
  deadlines : List (Tracked α)
  nodup : (deadlines.map Tracked.id).Nodup

namespace Manager

variable {α : Type u}

/-- `New`. -/
def empty : Manager α := ⟨[], List.nodup_nil⟩

theorem nodup_filter {l : List (Tracked α)} (h : (l.map Tracked.id).Nodup) (f : Tracked α → Bool) :
    ((l.filter f).map Tracked.id).Nodup :=
  h.sublist (List.filter_sublist.map _)

/-- `Untrack`. -/
def untrack (m : Manager α) (id : String) : Manager α where
  deadlines := m.deadlines.filter fun t => t.id ≠ id
  nodup := nodup_filter m.nodup _

/-- `Track`, with the clock at `now`. -/
def track (m : Manager α) (id : String) (ttl : Duration) (now : ℤ) (tag : α) :
    Manager α where
  deadlines := ⟨id, now + ttl.toInt, tag⟩ :: (m.untrack id).deadlines
  nodup := by
    rw [List.map_cons, List.nodup_cons]
    exact ⟨by simp [untrack], (m.untrack id).nodup⟩

/-- The entries whose deadline has passed at `now`. -/
def expired (m : Manager α) (now : ℤ) : List (Tracked α) :=
  m.deadlines.filter fun t => t.deadline ≤ now

/-- The map without the ids that have expired at `now`. -/
def forget (m : Manager α) (now : ℤ) : Manager α where
  deadlines := m.deadlines.filter fun t => t.id ∉ (m.expired now).map Tracked.id
  nodup := nodup_filter m.nodup _

section
variable {m : Manager α} {t : Tracked α} {id : String} {ttl : Duration} {now : ℤ} {tag : α}

@[simp] theorem mem_untrack : t ∈ (m.untrack id).deadlines ↔ t ∈ m.deadlines ∧ t.id ≠ id := by
  simp [untrack]

@[simp] theorem mem_track : t ∈ (m.track id ttl now tag).deadlines ↔
    t = ⟨id, now + ttl.toInt, tag⟩ ∨ t ∈ m.deadlines ∧ t.id ≠ id := by
  simp [track, untrack]

@[simp] theorem mem_expired : t ∈ m.expired now ↔ t ∈ m.deadlines ∧ t.deadline ≤ now := by
  simp [expired]

theorem eq_of_id {t' : Tracked α} (h : t ∈ m.deadlines) (h' : t' ∈ m.deadlines)
    (hid : t.id = t'.id) : t = t' :=
  List.inj_on_of_nodup_map m.nodup h h' hid

/-- The sweep keeps exactly the entries whose deadline has not passed. -/
@[simp] theorem mem_forget : t ∈ (m.forget now).deadlines ↔ t ∈ m.deadlines ∧ now < t.deadline := by
  simp only [forget, List.mem_filter, decide_eq_true_eq, List.mem_map, mem_expired, not_exists,
    not_and, and_imp]
  refine and_congr_right fun ht => ⟨fun h => ?_, fun h t' ht' hle hid => ?_⟩
  · by_contra hle
    exact h t ht (not_lt.mp hle) rfl
  · rw [eq_of_id ht' ht hid] at hle
    exact absurd h (not_lt.mpr hle)

end

/-! ## Histories -/

/-- A call of the manager, with the clock it reads. -/
inductive Op (α : Type u) where
  | track (id : String) (ttl : Duration) (now : ℤ) (tag : α)
  | untrack (id : String)
  | sweep (now : ℤ)

/-- One whole call, and the ids it kills. -/
def step (m : Manager α) : Op α → Manager α × List String
  | .track id ttl now tag => (m.track id ttl now tag, [])
  | .untrack id => (m.untrack id, [])
  | .sweep now => (m.forget now, (m.expired now).map Tracked.id)

/-- The calls of a history, one after the other, and all ids they kill. -/
def run (m : Manager α) : List (Op α) → Manager α × List String
  | [] => (m, [])
  | op :: ops => (((m.step op).1.run ops).1, (m.step op).2 ++ ((m.step op).1.run ops).2)

end Manager

end Aicv.Ttl
