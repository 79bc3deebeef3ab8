import Aicv.Pool.Ownership

/-!
# The capacity ledger

While the pool is open, `count` is the number of registered ids plus the number
of `grow` calls that hold a reservation (`capacity_ledger`).  The reservation is taken
before the slow `Create`, so the sum never passes `MaxSize`.
-/

namespace Aicv.Pool

open Transition

/-- A `grow` that has reserved a slot and has neither registered a container
nor given the slot back. -/
def Call.reserves : Call → Bool
  | .growCreate _ | .growStart _ _ | .growUnstart _ _ _ | .growRegister _ _
  | .growGiveBack _ _ => true
  | _ => false

theorem reserves_grown (w : Grower) (id : String) : tally Call.reserves {w.grown id} = 0 := by
  cases w <;> rfl

theorem reserves_refused (w : Grower) (e : Error) : tally Call.reserves {w.refused e} = 0 := by
  cases w <;> cases e <;> rfl

/-! ## What a step does to the ledger -/

section
variable {cfg : Config} {ok : Soup World Call → Label Call Event → Prop}
  {g g' : World} {c : Call} {e : Event} {cs : Multiset Call}

/-- A closed pool stays closed. -/
theorem Call.Step.closed (h : Call.Step cfg g c e g' cs) (hc : g.pool.closed = true) :
    g'.pool.closed = true := by
  cases h with
  | growReserve hr =>
      obtain ⟨-, -, rfl⟩ := reserve_ok.mp hr
      exact hc
  | close => rfl
  | discard => simpa using hc
  | _ => exact hc

theorem Call.Step.was_open (h : Call.Step cfg g c e g' cs) (hopen : g'.pool.closed = false) :
    g.pool.closed = false := by
  by_contra hcl
  rw [h.closed (by simpa using hcl)] at hopen
  cases hopen

/-- A pool that `New` has returned stays so. -/
theorem Call.Step.stays_published (h : Call.Step cfg g c e g' cs) (hp : g.published = true) :
    g'.published = true := by
  cases h with
  | prewarmEnd => rfl
  | _ => exact hp

/-- On an open pool a step moves `count`, the registry and the reservations
together. -/
theorem Call.Step.ledger (h : Call.Step cfg g c e g' cs) (hopen : g'.pool.closed = false)
    (hnew : ∀ w id, c = .growRegister w id → id ∉ g.pool.all) :
    g'.pool.count + g.pool.all.card + tally Call.reserves {c} =
      g.pool.count + g'.pool.all.card + tally Call.reserves cs := by
  cases h with
  | growReserve hr =>
      obtain ⟨-, -, rfl⟩ := reserve_ok.mp hr
      simp [tally_singleton, Call.reserves]
      omega
  | growRefused =>
      rw [reserves_refused]
      simp [tally_singleton, Call.reserves]
  | giveBack =>
      rw [reserves_refused]
      simp [tally_singleton, Call.reserves]
      omega
  | @register w id =>
      rw [reserves_grown]
      simp [tally_singleton, Call.reserves, hnew w id rfl]
      omega
  | @discard w id =>
      simp only [World.withPool_pool, discard_count, discard_all, Finset.card_erase_eq_ite,
        tally_singleton, Call.reserves]
      split
      next hid =>
        have := Finset.card_pos.mpr ⟨id, hid⟩
        simp
        omega
      next => rfl
  | close => cases hopen
  | cancel hc => cases hc <;> simp [tally_singleton, Call.reserves]
  | _ => simp [tally_singleton, Call.reserves]

/-- No step takes `count` past the cap. -/
theorem Call.Step.count_le (h : Call.Step cfg g c e g' cs) (hle : g.pool.count ≤ cfg.maxSize)
    (hcap : 0 ≤ cfg.maxSize) : g'.pool.count ≤ cfg.maxSize := by
  cases h with
  | growReserve hr =>
      obtain ⟨-, hlt, rfl⟩ := reserve_ok.mp hr
      exact hlt
  | giveBack => simp; omega
  | @discard w id =>
      simp only [World.withPool_pool, discard_count]
      split <;> omega
  | close => simpa using hcap
  | _ => simpa using hle

/-! ## The ledger of every run -/

/-- An id that `create` is about to register is not registered. -/
theorem not_mem_of_register {w : Grower} {id : String} {ps : Multiset Call}
    (h : (calls cfg).system.Reach ok ⟨g, .growRegister w id ::ₘ ps⟩) : id ∉ g.pool.all := by
  intro hid
  obtain ⟨h1, h2⟩ := Tokens.not_mem_of_mem (owned h).nodup (t := id)
    (by simp [Call.owned, Call.held, Call.creating])
  have hpl := mem_places h id hid
  simp only [places, Multiset.cons_bind, Multiset.mem_add, Multiset.mem_bind] at hpl
  rcases hpl with hpl | hpl | ⟨q, hq, hpl⟩
  · exact h1 hpl
  · simp [Call.held] at hpl
  · exact h2 q hq (Multiset.mem_add.mpr (.inl hpl))

/-- `count` is the registered containers and the reservations. -/
def Balanced (s : Soup World Call) : Prop :=
  s.shared.pool.closed = false →
    s.shared.pool.count = s.shared.pool.all.card + tally Call.reserves s.procs

theorem balanced {s : Soup World Call} (h : (calls cfg).system.Reach ok s) : Balanced s := by
  refine Program.invariant (fun s hs _ => ?_) (fun g p g' ps _ hi _ hc hopen => ?_)
    (fun g p e g' qs ps hr hi _ hs hopen => ?_) h
  · obtain ⟨-, -, rfl⟩ := init_iff.mp hs
    rfl
  · obtain ⟨rfl, -, -⟩ := hc.owned
    have hres : tally Call.reserves {p} = 0 := by cases hc <;> rfl
    rw [tally_cons, hres, Nat.zero_add]
    exact hi hopen
  · have hstep := hs.ledger hopen (by rintro w id rfl; exact not_mem_of_register hr)
    have hcount := hi (hs.was_open hopen)
    simp only [tally_cons _ p ps, tally_add] at hcount ⊢
    push_cast at hcount ⊢
    omega

/-- A configuration that passes the size check has room for one container. -/
theorem one_le_maxSize {s : Soup World Call} (h : (calls cfg).system.Reach ok s) :
    1 ≤ cfg.maxSize :=
  Program.invariant (I := fun _ => 1 ≤ cfg.maxSize) (fun _ hs => (init_iff.mp hs).1)
    (fun _ _ _ _ _ hi _ _ => hi) (fun _ _ _ _ _ _ _ hi _ _ => hi) h

theorem count_le {s : Soup World Call} (h : (calls cfg).system.Reach ok s) :
    s.shared.pool.count ≤ cfg.maxSize := by
  refine Program.invariant (I := fun s => s.shared.pool.count ≤ cfg.maxSize)
    (fun s hs => ?_) (fun g p g' ps _ hi _ hc => ?_) (fun g p e g' qs ps hr hi _ hs => ?_) h
  · obtain ⟨hmax, -, rfl⟩ := init_iff.mp hs
    exact (by omega : (0 : Int) ≤ cfg.maxSize)
  · rw [hc.owned.1]
    exact hi
  · exact hs.count_le hi (by have := one_le_maxSize hr; omega)

/-- The capacity ledger of every state before `Close`. -/
theorem capacity_ledger {s : Soup World Call} (h : (calls cfg).system.Reachable s)
    (hopen : s.shared.pool.closed = false) :
    s.shared.pool.count = s.shared.pool.all.card + tally Call.reserves s.procs ∧
      0 ≤ s.shared.pool.count ∧ s.shared.pool.count ≤ cfg.maxSize := by
  have hc := balanced h hopen
  exact ⟨hc, by omega, count_le h⟩

/-- One container registered and one in creation. -/
theorem capacity_ledger_two : ∃ s : Soup World Call,
    s.shared.pool.all = {"a"} ∧ .growStart (.acquire none) "b" ∈ s.procs ∧
      s.shared.pool.count = s.shared.pool.all.card + tally Call.reserves s.procs ∧
      0 ≤ s.shared.pool.count ∧ s.shared.pool.count ≤ 2 := by
  let cfg := Config.sized 0 2 0
  obtain ⟨s, hs, hopen, hall, hgrow⟩ := exists_reachable cfg (by decide)
    (Script.new ++ Script.acquireGrow cfg "a" ++ Script.acquireCreate cfg "b")
    (fun s => s.shared.pool.closed = false ∧ s.shared.pool.all = {"a"} ∧
      .growStart (.acquire none) "b" ∈ s.procs)
    (by decide +kernel)
  exact ⟨s, hall, hgrow, capacity_ledger hs hopen⟩

end

end Aicv.Pool
