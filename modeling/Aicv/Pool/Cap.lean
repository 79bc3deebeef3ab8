import Aicv.Pool.Ledger

/-!
# The cap on live containers

`MaxSize` is meant as a hard cap on live containers.  The ledger does not give
that, since `discard` gives the slot back in its critical section and removes
the container afterwards.  Until its `Remove` completes, a discarded container
exists and has no slot (`awaiting`).

A run stays below the cap as long as every slot is taken while the slots and
the discarded containers together leave room for one more (`leavesRoom`,
`live_le`).  Without that, a replacement can exist next to the container it
replaces (`live_exceeds`).
-/

namespace Aicv.Pool

open Transition

/-- A `grow` whose create has failed and which has not given its slot back. -/
def Call.givesBack : Call → Bool
  | .growGiveBack _ _ => true
  | _ => false

/-- The slots in use: a slot that is about to be given back has no container
any more. -/
def slots (s : Soup World Call) : Int := s.shared.pool.count - tally Call.givesBack s.procs

/-- The containers that exist without a slot: neither registered nor being
created, so discarded and not removed yet. -/
def awaiting (s : Soup World Call) : Finset String :=
  s.shared.backend.live.filter fun id =>
    id ∉ s.shared.pool.all ∧ id ∉ s.procs.bind Call.creating

/-- Every `Remove` succeeds. -/
def removes : Label Call Event → Bool
  | .act _ (.remove _ err) => err.isNone
  | _ => true

/-- A `grow` that takes a slot leaves room for the discarded containers. -/
def leavesRoom (cfg : Config) (s : Soup World Call) : Label Call Event → Bool
  | .act (.grow _) .lock =>
      s.shared.pool.closed || decide (cfg.maxSize ≤ s.shared.pool.count) ||
        decide (slots s + (awaiting s).card < cfg.maxSize)
  | _ => true

/-- The condition on the steps of a run that stays below the cap. -/
def capped (cfg : Config) (s : Soup World Call) (l : Label Call Event) : Bool :=
  removes l && leavesRoom cfg s l

/-! ## Slots and discarded containers -/

section
variable {cfg : Config} {ok : Soup World Call → Label Call Event → Prop}
  {g g' : World} {c : Call} {e : Event} {cs ps : Multiset Call}

theorem givesBack_grown (w : Grower) (id : String) : tally Call.givesBack {w.grown id} = 0 := by
  cases w <;> rfl

theorem givesBack_refused (w : Grower) (e : Error) : tally Call.givesBack {w.refused e} = 0 := by
  cases w <;> cases e <;> rfl

theorem mem_awaiting {s : Soup World Call} {id : String} :
    id ∈ awaiting s ↔ id ∈ s.shared.backend.live ∧ id ∉ s.shared.pool.all ∧
      id ∉ s.procs.bind Call.creating :=
  Finset.mem_filter

theorem mem_awaiting_cons {id : String} :
    id ∈ awaiting ⟨g, c ::ₘ ps⟩ ↔ id ∈ g.backend.live ∧ id ∉ g.pool.all ∧
      id ∉ c.creating ∧ id ∉ ps.bind Call.creating := by
  rw [mem_awaiting, Multiset.cons_bind, Multiset.mem_add, not_or]

theorem mem_awaiting_add {id : String} :
    id ∈ awaiting ⟨g, cs + ps⟩ ↔ id ∈ g.backend.live ∧ id ∉ g.pool.all ∧
      id ∉ cs.bind Call.creating ∧ id ∉ ps.bind Call.creating := by
  rw [mem_awaiting, Multiset.add_bind, Multiset.mem_add, not_or]

/-- While removes succeed, only `discard` takes the slot from under a
container. -/
theorem Call.Step.awaiting (h : Call.Step cfg g c e g' cs) (hopen : g'.pool.closed = false)
    (hrm : removes (.act c e) = true) (ps : Multiset Call) (id : String)
    (hid : id ∈ awaiting ⟨g', cs + ps⟩) :
    id ∈ Pool.awaiting ⟨g, c ::ₘ ps⟩ ∨ id ∈ g.pool.all ∧ ∃ w, c = .discard w id := by
  rw [mem_awaiting_add] at hid
  obtain ⟨hlive, hall, hcs, hps⟩ := hid
  rw [mem_awaiting_cons]
  cases h with
  | createOk =>
      simp only [Multiset.singleton_bind, Call.creating, Multiset.mem_singleton] at hcs
      exact .inl ⟨Finset.mem_of_mem_insert_of_ne hlive hcs, hall, by simp [Call.creating], hps⟩
  | @unstart w id' e err =>
      obtain rfl := Option.isNone_iff_eq_none.mp hrm
      obtain ⟨hne, hlive⟩ := Finset.mem_erase.mp hlive
      exact .inl ⟨hlive, hall, by simpa [Call.creating] using hne, hps⟩
  | register =>
      simp only [World.withPool_pool, setState_all, register_all, Finset.mem_insert, not_or] at hall
      exact .inl ⟨hlive, hall.2, by simpa [Call.creating] using hall.1, hps⟩
  | @discard w id' =>
      by_cases hid : id ∈ g.pool.all
      · have heq : id = id' := by simpa [hid] using hall
        exact .inr ⟨hid, w, by rw [heq]⟩
      · exact .inl ⟨hlive, hid, by simp [Call.creating], hps⟩
  | discardRemove | closeRemove =>
      exact .inl ⟨Backend.live_of_removed hlive, hall, by simp [Call.creating], hps⟩
  | growReserve hr =>
      obtain ⟨-, -, rfl⟩ := reserve_ok.mp hr
      exact .inl ⟨hlive, hall, by simp [Call.creating], hps⟩
  | close => cases hopen
  | cancel hc =>
      rw [Multiset.singleton_bind] at hcs
      cases hc <;> exact .inl ⟨hlive, hall, hcs, hps⟩
  | startOk | startErr => exact .inl ⟨hlive, hall, by simpa [Call.creating] using hcs, hps⟩
  | _ => exact .inl ⟨hlive, hall, by simp [Call.creating], hps⟩

/-- A step other than a reservation takes no slot, and a discard gives one
back. -/
theorem Call.Step.slots (h : Call.Step cfg g c e g' cs) (hopen : g'.pool.closed = false)
    (ps : Multiset Call) :
    Pool.slots ⟨g', cs + ps⟩ ≤ Pool.slots ⟨g, c ::ₘ ps⟩ ∧
        (∀ w id, c = .discard w id → id ∈ g.pool.all →
          Pool.slots ⟨g', cs + ps⟩ < Pool.slots ⟨g, c ::ₘ ps⟩) ∨
      ∃ w, c = .grow w ∧ e = .lock ∧ g.pool.closed = false ∧ g.pool.count < cfg.maxSize ∧
        Pool.slots ⟨g', cs + ps⟩ = Pool.slots ⟨g, c ::ₘ ps⟩ + 1 := by
  simp only [Pool.slots, tally_cons _ c ps, tally_add]
  cases h with
  | growReserve hr =>
      obtain ⟨hop, hlt, rfl⟩ := reserve_ok.mp hr
      refine .inr ⟨_, rfl, rfl, hop, hlt, ?_⟩
      simp [tally_singleton, Call.givesBack]
      omega
  | growRefused =>
      rw [givesBack_refused]
      exact .inl ⟨by simp [tally_singleton, Call.givesBack], by simp⟩
  | giveBack =>
      rw [givesBack_refused]
      refine .inl ⟨?_, by simp⟩
      simp [tally_singleton, Call.givesBack]
      omega
  | register =>
      rw [givesBack_grown]
      exact .inl ⟨by simp [tally_singleton, Call.givesBack], by simp⟩
  | discard =>
      refine .inl ⟨?_, fun w id hc hid => ?_⟩
      · simp only [World.withPool_pool, discard_count, tally_singleton, Call.givesBack]
        split <;> simp
      · cases hc
        simp [discard_count, hid, tally_singleton, Call.givesBack]
  | close => cases hopen
  | cancel hc => cases hc <;> exact .inl ⟨by simp [tally_singleton, Call.givesBack], by simp⟩
  | _ => exact .inl ⟨by simp [tally_singleton, Call.givesBack], by simp⟩

/-! ## Below the cap -/

/-- Slots and discarded containers together stay below the cap. -/
def Capped (cfg : Config) (s : Soup World Call) : Prop :=
  s.shared.pool.closed = false → slots s + (awaiting s).card ≤ cfg.maxSize

theorem Capped.act (hi : Capped cfg ⟨g, c ::ₘ ps⟩)
    (hrm : removes (.act c e) = true) (hroom : leavesRoom cfg ⟨g, c ::ₘ ps⟩ (.act c e) = true)
    (hs : Call.Step cfg g c e g' cs) :
    Capped cfg ⟨g', cs + ps⟩ := by
  intro hopen
  have hsum := hi (hs.was_open hopen)
  have hawait := hs.awaiting hopen hrm ps
  rcases hs.slots hopen ps with ⟨hle, hlt⟩ | ⟨w, rfl, rfl, hop, hlt, heq⟩
  · by_cases hdis : ∃ w id, c = .discard w id ∧ id ∈ g.pool.all
    · obtain ⟨w, id, rfl, hid⟩ := hdis
      have hsub : awaiting ⟨g', cs + ps⟩ ⊆ insert id (awaiting ⟨g, .discard w id ::ₘ ps⟩) := by
        intro x hx
        rcases hawait x hx with h | ⟨-, w', h⟩
        · exact Finset.mem_insert_of_mem h
        · cases h
          exact Finset.mem_insert_self _ _
      have := (Finset.card_le_card hsub).trans (Finset.card_insert_le _ _)
      have := hlt w id rfl hid
      omega
    · have hsub : awaiting ⟨g', cs + ps⟩ ⊆ awaiting ⟨g, c ::ₘ ps⟩ := by
        intro x hx
        rcases hawait x hx with h | ⟨hx, w, h⟩
        · exact h
        · exact absurd ⟨w, x, h, hx⟩ hdis
      have := Finset.card_le_card hsub
      omega
  · have hsub : awaiting ⟨g', cs + ps⟩ ⊆ awaiting ⟨g, .grow w ::ₘ ps⟩ := by
      intro x hx
      rcases hawait x hx with h | ⟨-, w', h⟩
      · exact h
      · cases h
    have := Finset.card_le_card hsub
    have hspace : Pool.slots ⟨g, .grow w ::ₘ ps⟩ + (awaiting ⟨g, .grow w ::ₘ ps⟩).card <
        cfg.maxSize := by
      simpa [leavesRoom, hop, Int.not_le.mpr hlt] using hroom
    omega

theorem capped_reach {s : Soup World Call}
    (h : (calls cfg).system.Reach (fun s l => capped cfg s l = true) s) : Capped cfg s := by
  refine Program.invariant (fun s hs _ => ?_) (fun g p g' ps _ hi _ hc => ?_)
    (fun g p e g' qs ps _ hi hok hs => ?_) h
  · obtain ⟨hmax, -, rfl⟩ := init_iff.mp hs
    simp [slots, awaiting, start, empty, Backend.empty, tally_singleton, Call.givesBack]
    omega
  · obtain ⟨rfl, -, -⟩ := hc.owned
    have hgb : tally Call.givesBack {p} = 0 := by cases hc <;> rfl
    have hcr : p.creating = 0 := by cases hc <;> rfl
    have haw : awaiting ⟨g', p ::ₘ ps⟩ = awaiting ⟨g', ps⟩ := by simp [awaiting, hcr]
    have hsl : slots ⟨g', p ::ₘ ps⟩ = slots ⟨g', ps⟩ := by
      simp only [slots, tally_cons _ p ps, hgb, Nat.zero_add]
    intro hopen
    rw [haw, hsl]
    exact hi hopen
  · obtain ⟨hrm, hroom⟩ := Bool.and_eq_true_iff.mp hok
    exact hi.act hrm hroom hs

/-- Each reservation that is not about to be given back pays for the container
being created under it. -/
theorem card_creating_le (cs : Multiset Call) :
    (cs.bind Call.creating).card + tally Call.givesBack cs ≤ tally Call.reserves cs := by
  induction cs using Multiset.induction with
  | empty => rfl
  | cons c cs ih =>
      rw [Multiset.cons_bind, Multiset.card_add, tally_cons _ c cs, tally_cons _ c cs]
      have : c.creating.card + tally Call.givesBack {c} ≤ tally Call.reserves {c} := by
        cases c <;> simp [Call.creating, tally_singleton, Call.givesBack, Call.reserves]
      omega

/-- Each container that exists is registered, being created, or discarded and
not removed yet. -/
theorem live_card_le (s : Soup World Call) :
    s.shared.backend.live.card ≤
      s.shared.pool.all.card + (s.procs.bind Call.creating).card + (awaiting s).card := by
  have hsub : s.shared.backend.live ⊆
      s.shared.pool.all ∪ (s.procs.bind Call.creating).toFinset ∪ awaiting s := by
    intro id hid
    simp only [Finset.mem_union, Multiset.mem_toFinset, mem_awaiting]
    tauto
  refine (Finset.card_le_card hsub).trans ((Finset.card_union_le _ _).trans ?_)
  have := Finset.card_union_le s.shared.pool.all (s.procs.bind Call.creating).toFinset
  have := Multiset.toFinset_card_le (s.procs.bind Call.creating)
  omega

/-- A run whose reservations leave room for the discarded containers never has
more than `MaxSize` containers before `Close`. -/
theorem live_le {s : Soup World Call}
    (h : (calls cfg).system.Reach (fun s l => capped cfg s l = true) s)
    (hopen : s.shared.pool.closed = false) :
    (s.shared.backend.live.card : Int) ≤ cfg.maxSize := by
  have hcap := capped_reach h hopen
  have hbal := balanced h hopen
  have hcr := card_creating_le s.procs
  have hlive := live_card_le s
  simp only [slots] at hcap
  omega

/-- With room for two, a container is replaced while the other slot is free. -/
theorem live_le_replaced : ∃ s : Soup World Call,
    s.shared.pool.closed = false ∧ s.shared.backend.live = {"b", "c"} ∧
      (s.shared.backend.live.card : Int) ≤ 2 := by
  let cfg := Config.sized 0 2 1
  obtain ⟨s, hs, hopen, hlive⟩ := exists_reach cfg (by decide) (capped cfg)
    (Script.new ++ Script.acquireGrow cfg "a" ++ Script.release "a" ++
      [.act (.discard .release "a") .lock] ++ Script.acquireGrow cfg "b" ++
      [.act (.discardRemove .release "a") (.remove "a" none)] ++ Script.acquireCreate cfg "c")
    (fun s => s.shared.pool.closed = false ∧ s.shared.backend.live = {"b", "c"})
    (by decide +kernel)
  exact ⟨s, hopen, hlive, live_le hs hopen⟩

/-- The replacement of a recycled container is created before the recycled one
is removed. -/
theorem live_exceeds : ¬ ∀ (cfg : Config) (s : Soup World Call),
    (calls cfg).system.Reach (fun _ l => removes l = true) s → s.shared.pool.closed = false →
      (s.shared.backend.live.card : Int) ≤ cfg.maxSize := by
  intro h
  let cfg := Config.sized 0 1 1
  obtain ⟨s, hs, hopen, hlive⟩ := exists_reach cfg (by decide) (fun _ l => removes l)
    (Script.new ++ Script.acquireGrow cfg "a" ++ Script.release "a" ++
      [.act (.discard .release "a") .lock] ++ Script.acquireCreate cfg "b")
    (fun s => s.shared.pool.closed = false ∧ s.shared.backend.live = {"a", "b"})
    (by decide +kernel)
  have hle := h cfg s hs hopen
  rw [hlive] at hle
  exact absurd hle (by decide)

end

end Aicv.Pool
