import Aicv.Pool.Teardown

/-!
# What `Acquire` hands out

`Acquire` reads `closed` in one critical section and takes a container in a
later step, and `Release` reads the registry in one critical section and parks
the container in a later step.  What happens in between decides whether the two
comments of the source hold.

*A closed pool hands out nothing.*  This needs a `Close` that finds no `Acquire`
past its check with a container in reach (`Drained`, `closed_hands_out_nothing`).

*A dead container is never parked or handed out.*  This needs a `RemoveByID`
whose deletion does not hit a container that is parked, about to be parked or
about to be returned (`deletesHeld`, `handed_out_alive`).

*A freed slot wakes a waiter.*  The capacity wait listens on the idle channel
only, and a slot that is freed without parking a container is not announced
there.  No wake-up is lost as long as no slot is freed while a caller waits
(`freesUnawaited`, `no_lost_wakeup`).
-/

namespace Aicv.Pool

open Transition

section
variable {cfg : Config} {ok : Soup World Call → Label Call Event → Prop}
  {g g' : World} {c : Call} {e : Event} {cs ps : Multiset Call}

/-! ## The errors of `create` -/

/-- The error of a create that has failed. -/
def Call.failure : Call → Option Error
  | .growUnstart _ _ e | .growGiveBack _ e => some e
  | _ => none

theorem failure_grown (w : Grower) (id : String) : (w.grown id).failure = none := by
  cases w <;> rfl

theorem failure_refused (w : Grower) (e : Error) : (w.refused e).failure = none := by
  cases w <;> cases e <;> rfl

theorem Call.Step.failure (h : Call.Step cfg g c e g' cs) (hc : c.failure ≠ some .atCapacity) :
    ∀ c' ∈ cs, c'.failure ≠ some .atCapacity := by
  cases h with
  | growRefused | giveBack =>
      intro c' hc'
      rw [Multiset.mem_singleton.mp hc', failure_refused]
      simp
  | register =>
      intro c' hc'
      rw [Multiset.mem_singleton.mp hc', failure_grown]
      simp
  | cancel hcc =>
      intro c' hc'
      rw [Multiset.mem_singleton.mp hc']
      cases hcc <;> exact hc
  | _ => simp_all [Call.failure]

/-- A failed create never reports the pool at capacity. -/
theorem failure_ne {s : Soup World Call} (h : (calls cfg).system.Reach ok s) :
    ∀ c ∈ s.procs, c.failure ≠ some .atCapacity := by
  refine Program.forall_procs (fun s hs => ?_) (fun g c g' hc => ?_)
    (fun _ _ _ _ _ => Call.Step.failure) h
  · obtain ⟨-, -, rfl⟩ := init_iff.mp hs
    simp [start, Call.failure]
  · cases hc <;> simp [Call.failure]

/-! ## A closed pool -/

/-- The call has a container for its caller, or a reservation that may become
one. -/
def Call.handing : Call → Bool
  | .acquireReturn (.ok _) | .growCreate _ | .growStart _ _ | .growRegister _ _ => true
  | _ => false

/-- `Acquire` is at one of its two receives from the idle channel. -/
def Call.receiving : Call → Bool
  | .acquireFast _ | .acquireWait _ => true
  | _ => false

/-- No `Acquire` has a container or a reservation, and none that is past its
check of `closed` can still receive one. -/
def Drained (s : Soup World Call) : Prop :=
  (∀ c ∈ s.procs, c.handing = false) ∧
    ((∀ c ∈ s.procs, c.receiving = false) ∨
      s.shared.pool.idle = [] ∧ ∀ c ∈ s.procs, c.parks = 0)

instance (s : Soup World Call) : Decidable (Drained s) :=
  inferInstanceAs (Decidable (_ ∧ (_ ∨ _)))

/-- `Close` closes a drained pool. -/
def closesDrained (s : Soup World Call) : Label Call Event → Bool
  | .act (.close _) .lock => s.shared.pool.closed || decide (Drained s)
  | _ => true

/-- On a closed pool only a receive gives `Acquire` a container. -/
theorem Call.Step.handing (h : Call.Step cfg g c e g' cs) (hcl : g.pool.closed = true)
    (hc : c.handing = false) (hidle : c.receiving = true → g.pool.idle = []) :
    ∀ c' ∈ cs, c'.handing = false := by
  cases h with
  | growReserve hr => simp [(reserve_ok.mp hr).1] at hcl
  | @growRefused w e | @giveBack w e => cases w <;> cases e <;> simp [Grower.refused, Call.handing]
  | register => cases hc
  | fastRecv hhd | waitRecv hhd => simp [hidle rfl] at hhd
  | cancel hcc =>
      intro c' hc'
      rw [Multiset.mem_singleton.mp hc']
      cases hcc <;> exact hc
  | _ => simp_all [Call.handing]

/-- On a closed pool no `Acquire` comes to a receive that was not at one. -/
theorem Call.Step.receiving (h : Call.Step cfg g c e g' cs) (hcl : g.pool.closed = true)
    (hfail : c.failure ≠ some .atCapacity) (hc : c.receiving = false) :
    ∀ c' ∈ cs, c'.receiving = false := by
  cases h with
  | @growRefused w e hr =>
      rcases reserve_error.mp hr with ⟨-, rfl⟩ | ⟨hop, -, -⟩
      · cases w <;> simp [Grower.refused, Call.receiving]
      · simp [hcl] at hop
  | @giveBack w e =>
      cases w <;> cases e <;> simp [Grower.refused, Call.receiving, Call.failure] at hfail ⊢
  | @register w => cases w <;> simp [Grower.grown, Call.receiving]
  | acquireOpen hop => simp [hcl] at hop
  | cancel hcc =>
      intro c' hc'
      rw [Multiset.mem_singleton.mp hc']
      cases hcc <;> exact hc
  | _ => simp_all [Call.receiving]

/-- A closed pool that was drained stays drained. -/
theorem Drained.act (hi : Drained ⟨g, c ::ₘ ps⟩) (hs : Call.Step cfg g c e g' cs)
    (hcl : g.pool.closed = true) (hfail : c.failure ≠ some .atCapacity)
    (hnew : c.ofNew = true → c.afterClose = true) : Drained ⟨g', cs + ps⟩ := by
  obtain ⟨hhand, hrecv⟩ := hi
  have hself := Multiset.mem_cons_self c ps
  refine ⟨fun c' hc' => ?_, ?_⟩
  · rcases Multiset.mem_add.mp hc' with hc' | hc'
    · refine hs.handing hcl (hhand c hself) (fun hr => ?_) c' hc'
      rcases hrecv with hno | ⟨hidle, -⟩
      · simp [hno c hself] at hr
      · exact hidle
    · exact hhand c' (Multiset.mem_cons_of_mem hc')
  · rcases hrecv with hno | ⟨hidle, hparks⟩
    · refine .inl fun c' hc' => ?_
      rcases Multiset.mem_add.mp hc' with hc' | hc'
      · exact hs.receiving hcl hfail (hno c hself) c' hc'
      · exact hno c' (Multiset.mem_cons_of_mem hc')
    · have hnone : ∀ id, ¬ (id ∈ g'.pool.idle ∨ id ∈ cs.bind Call.parks) := fun id hid => by
        have hid := hs.parks hcl hnew id hid
        rw [hparks c hself, show g.pool.idle = [] from hidle] at hid
        simp at hid
      refine .inr ⟨List.eq_nil_iff_forall_not_mem.mpr fun id hid => hnone id (.inl hid),
        fun c' hc' => ?_⟩
      rcases Multiset.mem_add.mp hc' with hc' | hc'
      · exact Multiset.eq_zero_of_forall_notMem fun id hid =>
          hnone id (.inr (Multiset.mem_bind.mpr ⟨c', hc', hid⟩))
      · exact hparks c' (Multiset.mem_cons_of_mem hc')

theorem drained {s : Soup World Call}
    (h : (calls cfg).system.Reach (fun s l => closesDrained s l = true) s)
    (hcl : s.shared.pool.closed = true) : Drained s := by
  refine Program.invariant (I := fun s => s.shared.pool.closed = true → Drained s)
    (fun s hs hcl => ?_) (fun g p g' ps _ hi _ hc hcl => ?_)
    (fun g p e g' qs ps hr hi hok hs hcl => ?_) h hcl
  · obtain ⟨-, -, rfl⟩ := init_iff.mp hs
    cases hcl
  · obtain ⟨rfl, -, -⟩ := hc.owned
    have hp : p.handing = false ∧ p.receiving = false ∧ p.parks = 0 := by
      cases hc <;> exact ⟨rfl, rfl, rfl⟩
    simpa [Drained, hp] using hi hcl
  · cases hopen : g.pool.closed with
    | true =>
        exact (hi hopen).act hs hopen (failure_ne hr p (Multiset.mem_cons_self _ _))
          ((phase hr).afterClose hopen (Multiset.mem_cons_self _ _))
    | false =>
        obtain ⟨w, rfl, rfl, rfl, rfl⟩ := hs.closes hopen hcl
        have hdr : Drained ⟨g, .close w ::ₘ ps⟩ := by simpa [closesDrained, hopen] using hok
        simpa [Drained, Call.handing, Call.receiving, Call.parks] using hdr

/-- If `Close` finds the pool drained, then from its critical section on every
`Acquire` that returns returns an error. -/
theorem closed_hands_out_nothing {s t : Soup World Call}
    (h : (calls cfg).system.Reach (fun s l => closesDrained s l = true) s)
    (hcl : s.shared.pool.closed = true) {r : Except Error String}
    (hs : (calls cfg).system.Step s (.act (.acquireReturn r) .ret) t) : ∃ e, r = .error e := by
  have hdr := (drained h hcl).1
  cases hs with
  | act hs =>
      have hr := hdr _ (Multiset.mem_cons_self _ _)
      cases r with
      | error e => exact ⟨e, rfl⟩
      | ok id => cases hr

/-- `Close` comes while an `Acquire` waits at capacity. -/
theorem closed_hands_out_nothing_waiting : ∃ s t : Soup World Call,
    s.shared.pool.closed = true ∧
      (calls (Config.sized 0 1 0)).system.Step s (.act (.acquireReturn (.error .closed)) .ret) t ∧
      ∃ e, (.error .closed : Except Error String) = .error e := by
  let cfg := Config.sized 0 1 0
  obtain ⟨s, hs, hcl, hret⟩ := exists_reach cfg (by decide) closesDrained
    (Script.new ++ Script.acquireGrow cfg "a" ++ Script.acquireWait ++
      [.call (.close .user), .act (.close .user) .lock, .act (.closeDone .user {"a"}) .closeDone,
        .act (.acquireWait none) .recvDone])
    (fun s => s.shared.pool.closed = true ∧
      .acquireReturn (.error .closed) ∈ s.procs)
    (by decide +kernel)
  obtain ⟨t, ht⟩ := exists_return cfg hret
  exact ⟨s, t, hcl, ht, closed_hands_out_nothing hs hcl ht⟩

/-- `Close` comes between the `Create` of an `Acquire` and its return. -/
theorem closed_hands_out : ¬ ∀ (cfg : Config) (s t : Soup World Call) (r : Except Error String),
    (calls cfg).system.Reachable s → s.shared.pool.closed = true →
      (calls cfg).system.Step s (.act (.acquireReturn r) .ret) t → ∃ e, r = .error e := by
  intro h
  let cfg := Config.sized 0 1 0
  obtain ⟨s, hs, hcl, hret⟩ := exists_reachable cfg (by decide)
    (Script.new ++ Script.acquireCreate cfg "a" ++
      [.call (.close .user), .act (.close .user) .lock, .act (.closeDone .user ∅) .closeDone,
        .act (.closeRemove .user ∅ none) .ret] ++
      Script.grown "a")
    (fun s => s.shared.pool.closed = true ∧ .acquireReturn (.ok "a") ∈ s.procs)
    (by decide +kernel)
  obtain ⟨t, ht⟩ := exists_return cfg hret
  obtain ⟨e, he⟩ := h cfg s t _ hs hcl ht
  cases he

/-! ## Dead containers -/

/-- The container a call is about to park or to return from `Acquire`. -/
def Call.offers : Call → Multiset String
  | .prewarmSend _ id | .releaseSend id | .acquireReturn (.ok id) => {id}
  | _ => 0

/-- `RemoveByID` is called on containers that are checked out. -/
def removesHeld (s : Soup World Call) : Label Call Event → Bool
  | .call (.removeByID id) => decide (.holding id ∈ s.procs)
  | _ => true

/-- `RemoveByID` deletes no container that is parked, about to be parked or
about to be returned. -/
def deletesHeld (s : Soup World Call) : Label Call Event → Bool
  | .act (.discard .removeByID id) .lock =>
      decide (id ∉ s.shared.pool.all ∨
        id ∉ s.shared.pool.idle ∧ id ∉ s.procs.bind Call.offers)
  | _ => true

theorem offers_le_owned (c : Call) : c.offers ≤ c.owned := by
  fun_cases Call.offers c with
  | case4 => exact Multiset.zero_le _
  | _ => simp [Call.owned, Call.held]

theorem offers_refused (w : Grower) (e : Error) : (w.refused e).offers = 0 := by
  cases w <;> cases e <;> rfl

theorem offers_grown (w : Grower) (id : String) : (w.grown id).offers = {id} := by
  cases w <;> rfl

/-- A container that is parked or offered after a step was so before it, or is
registered. -/
theorem Call.Step.offers (h : Call.Step cfg g c e g' cs) (id : String)
    (hid : id ∈ g'.pool.idle ∨ id ∈ cs.bind Call.offers) :
    id ∈ g.pool.idle ∨ id ∈ c.offers ∨ id ∈ g'.pool.all := by
  cases h with
  | growRefused | giveBack => exact .inl (by simpa [offers_refused] using hid)
  | register =>
      rcases hid with hid | hid
      · exact .inl hid
      · rw [Multiset.singleton_bind, offers_grown] at hid
        exact .inr (.inr (by simp [Multiset.mem_singleton.mp hid]))
  | growReserve hr =>
      obtain ⟨-, -, rfl⟩ := reserve_ok.mp hr
      exact .inl (by simpa [Call.offers] using hid)
  | fastRecv hhd | waitRecv hhd =>
      rw [← List.cons_head?_tail (Option.mem_def.mpr hhd)]
      exact .inl (by simpa [Call.offers, or_comm] using hid)
  | prewarmSend | releaseSend =>
      rw [← or_assoc]
      exact .inl (by simpa [Call.offers] using hid)
  | releaseKeep hall =>
      rcases hid with hid | hid
      · exact .inl hid
      · exact .inr (.inr (by rwa [show id = _ by simpa [Call.offers] using hid]))
  | cancel hc => cases hc <;> exact .inl (by simpa [Call.offers] using hid)
  | _ => exact .inl (by simpa [Call.offers] using hid)

/-- A step keeps a registered id unless it is a deletion or the closing of the
pool. -/
theorem Call.Step.registered (h : Call.Step cfg g c e g' cs) (hopen : g'.pool.closed = false)
    {id : String} (hid : id ∈ g.pool.all) :
    id ∈ g'.pool.all ∨ ∃ w, c = .discard w id ∧ e = .lock ∧ cs.bind Call.offers = 0 := by
  cases h with
  | growReserve hr =>
      obtain ⟨-, -, rfl⟩ := reserve_ok.mp hr
      exact .inl hid
  | register => exact .inl (Finset.mem_insert_of_mem hid)
  | @discard w id' =>
      by_cases heq : id = id'
      · exact .inr ⟨w, by rw [heq], rfl, rfl⟩
      · exact .inl (by simp [hid, heq])
  | close => cases hopen
  | _ => exact .inl hid

/-- The containers of an open pool that are parked, or about to be parked or
returned, are registered. -/
def Alive (s : Soup World Call) : Prop :=
  s.shared.pool.closed = false → ∀ id,
    id ∈ s.shared.pool.idle ∨ id ∈ s.procs.bind Call.offers → id ∈ s.shared.pool.all

theorem alive {s : Soup World Call}
    (h : (calls cfg).system.Reach (fun s l => deletesHeld s l = true) s) : Alive s := by
  refine Program.invariant (fun s hs _ id hid => ?_) (fun g p g' ps _ hi _ hc hopen id hid => ?_)
    (fun g p e g' qs ps hr hi hok hs hopen id hid => ?_) h
  · obtain ⟨-, -, rfl⟩ := init_iff.mp hs
    simp [start, empty, Call.offers] at hid
  · obtain ⟨rfl, -, -⟩ := hc.owned
    have hp : p.offers = 0 := by cases hc <;> rfl
    exact hi hopen id (by simpa [hp] using hid)
  · have hold := hs.was_open hopen
    by_contra hgone
    -- the id was parked or offered before the step
    have hbefore : id ∈ g.pool.idle ∨ id ∈ (p ::ₘ ps).bind Call.offers := by
      rw [Multiset.add_bind, Multiset.mem_add, ← or_assoc] at hid
      rw [Multiset.cons_bind, Multiset.mem_add]
      rcases hid with hid | hid
      · rcases hs.offers id hid with h | h | h
        exacts [.inl h, .inr (.inl h), absurd h hgone]
      · exact .inr (.inr hid)
    -- so the step deletes it, and the container is in the hands of a `Release`
    rcases hs.registered hopen (hi hold id hbefore) with h | ⟨w, rfl, rfl, hcs⟩
    · exact hgone h
    · cases w with
      | release =>
          obtain ⟨hidle, hothers⟩ := Tokens.not_mem_of_mem (owned hr).nodup (t := id)
            (by simp [Call.owned, Call.held, Discarder.held])
          rcases hbefore with h | h
          · exact hidle h
          · rw [Multiset.cons_bind, Multiset.mem_add] at h
            rcases h with h | h
            · cases Multiset.notMem_zero id h
            · obtain ⟨q, hq, hoff⟩ := Multiset.mem_bind.mp h
              exact hothers q hq (Multiset.mem_of_le (offers_le_owned q) hoff)
      | removeByID =>
          have hok := of_decide_eq_true hok
          rcases hok with h | ⟨h1, h2⟩
          · exact h (hi hold id hbefore)
          · rcases hbefore with h | h
            exacts [h1 h, h2 h]

/-- If `RemoveByID` deletes no container that is parked, about to be parked or
about to be returned, then on an open pool every container that `Acquire`
returns, and every parked one, is registered. -/
theorem handed_out_alive {s : Soup World Call}
    (h : (calls cfg).system.Reach (fun s l => deletesHeld s l = true) s)
    (hopen : s.shared.pool.closed = false) :
    (∀ id t, (calls cfg).system.Step s (.act (.acquireReturn (.ok id)) .ret) t →
      id ∈ s.shared.pool.all) ∧
    ∀ id ∈ s.shared.pool.idle, id ∈ s.shared.pool.all := by
  have halive := alive h hopen
  refine ⟨fun id t hs => ?_, fun id hid => halive id (.inl hid)⟩
  cases hs with
  | act => exact halive id (.inr (by simp [Call.offers]))

/-- A reaped container is dropped by its `Release`, and another is handed out. -/
theorem handed_out_alive_reaped : ∃ s : Soup World Call,
    .acquireReturn (.ok "b") ∈ s.procs ∧ s.shared.pool.all = {"b"} ∧
      (∀ id t, (calls (Config.sized 0 1 0)).system.Step s (.act (.acquireReturn (.ok id)) .ret) t →
        id ∈ s.shared.pool.all) ∧
      ∀ id ∈ s.shared.pool.idle, id ∈ s.shared.pool.all := by
  let cfg := Config.sized 0 1 0
  obtain ⟨s, hs, hopen, hret, hall⟩ := exists_reach cfg (by decide) deletesHeld
    (Script.new ++ Script.acquireGrow cfg "a" ++
      [.call (.removeByID "a"), .act (.removeByID "a") .lock] ++ Script.discard .removeByID "a" ++
      Script.release "a" ++ Script.acquireCreate cfg "b" ++ Script.grown "b")
    (fun s => s.shared.pool.closed = false ∧ .acquireReturn (.ok "b") ∈ s.procs ∧
      s.shared.pool.all = {"b"})
    (by decide +kernel)
  exact ⟨s, hret, hall, handed_out_alive hs hopen⟩

/-- `RemoveByID` looks the container up while it is checked out.  It deletes
the container after its `Release` has parked it, and the next `Acquire` takes
it. -/
theorem dead_handed_out : ¬ ∀ (cfg : Config) (s t : Soup World Call) (id : String),
    (calls cfg).system.Reach (fun s l => removesHeld s l = true) s →
      s.shared.pool.closed = false →
      (calls cfg).system.Step s (.act (.acquireReturn (.ok id)) .ret) t →
      id ∈ s.shared.pool.all := by
  intro h
  let cfg := Config.sized 0 1 0
  obtain ⟨s, hs, hopen, hret, hgone⟩ := exists_reach cfg (by decide) removesHeld
    (Script.new ++ Script.acquireGrow cfg "a" ++
      [.call (.removeByID "a"), .act (.removeByID "a") .lock] ++ Script.releaseSend "a" ++
      [.act (.discard .removeByID "a") .lock] ++ Script.acquireParked)
    (fun s => s.shared.pool.closed = false ∧ .acquireReturn (.ok "a") ∈ s.procs ∧
      "a" ∉ s.shared.pool.all)
    (by decide +kernel)
  obtain ⟨t, ht⟩ := exists_return cfg hret
  exact hgone (h cfg s t "a" hs hopen ht)

/-! ## Lost wake-ups -/

/-- Nothing is in progress but callers that hold a container and live waiters
for capacity. -/
def Call.resting : Call → Bool
  | .holding _ | .acquireWait none => true
  | _ => false

/-- A live caller waits for capacity, no container is parked, a slot is free,
and nothing is in progress. -/
structure LostWakeup (cfg : Config) (s : Soup World Call) : Prop where
  isOpen : s.shared.pool.closed = false
  waits : .acquireWait none ∈ s.procs
  idle : s.shared.pool.idle = []
  free : s.shared.pool.count < cfg.maxSize
  quiet : ∀ c ∈ s.procs, c.resting = true

/-- A step frees no slot while a live caller waits for capacity. -/
def freesUnawaited (s : Soup World Call) : Label Call Event → Bool
  | .act (.growGiveBack _ _) .lock => decide (.acquireWait none ∉ s.procs)
  | .act (.discard _ id) .lock => decide (id ∈ s.shared.pool.all → .acquireWait none ∉ s.procs)
  | _ => true

/-- On an open pool a step lowers `count` only by freeing a slot. -/
theorem Call.Step.le_count (h : Call.Step cfg g c e g' cs) (hopen : g'.pool.closed = false) :
    g.pool.count ≤ g'.pool.count ∨ e = .lock ∧
      ((∃ w e, c = .growGiveBack w e) ∨ ∃ w id, c = .discard w id ∧ id ∈ g.pool.all) := by
  cases h with
  | growReserve hr =>
      obtain ⟨-, -, rfl⟩ := reserve_ok.mp hr
      exact .inl (by simp)
  | giveBack => exact .inr ⟨rfl, .inl ⟨_, _, rfl⟩⟩
  | @discard w id =>
      by_cases hid : id ∈ g.pool.all
      · exact .inr ⟨rfl, .inr ⟨w, id, rfl, hid⟩⟩
      · exact .inl (by simp [discard_count, hid])
  | close => cases hopen
  | _ => exact .inl le_rfl

/-- A caller starts to wait for capacity when `grow` finds the pool full. -/
theorem Call.Step.waits (h : Call.Step cfg g c e g' cs) (hfail : c.failure ≠ some .atCapacity)
    {ctx : Ctx} (hw : .acquireWait ctx ∈ cs) :
    (∃ ctx', c = .acquireWait ctx' ∧ (ctx = none → ctx' = none)) ∨
      cfg.maxSize ≤ g'.pool.count := by
  cases h with
  | @growRefused w e hr =>
      rcases reserve_error.mp hr with ⟨-, rfl⟩ | ⟨-, hfull, -⟩
      · cases w <;> simp [Grower.refused] at hw
      · exact .inr hfull
  | @giveBack w e => cases w <;> cases e <;> simp [Grower.refused, Call.failure] at hw hfail
  | @register w => cases w <;> simp [Grower.grown] at hw
  | cancel hc => cases hc <;> simp at hw ⊢
  | _ => simp at hw

/-- While a live caller waits for capacity, the pool is full. -/
def Full (cfg : Config) (s : Soup World Call) : Prop :=
  s.shared.pool.closed = false → .acquireWait none ∈ s.procs →
    cfg.maxSize ≤ s.shared.pool.count

theorem full {s : Soup World Call}
    (h : (calls cfg).system.Reach (fun s l => freesUnawaited s l = true) s) : Full cfg s := by
  refine Program.invariant (fun s hs _ hw => ?_) (fun g p g' ps _ hi _ hc hopen hw => ?_)
    (fun g p e g' qs ps hr hi hok hs hopen hw => ?_) h
  · obtain ⟨-, -, rfl⟩ := init_iff.mp hs
    simp [start] at hw
  · obtain ⟨rfl, -, -⟩ := hc.owned
    refine hi hopen ?_
    rcases Multiset.mem_cons.mp hw with rfl | hw
    · cases hc
    · exact hw
  · have hold := hs.was_open hopen
    -- a waiter from before the step finds the pool full, and no slot is freed
    have hstays : .acquireWait none ∈ p ::ₘ ps → cfg.maxSize ≤ g'.pool.count := by
      intro hbefore
      rcases hs.le_count hopen with hle | ⟨rfl, ⟨w, e, rfl⟩ | ⟨w, id, rfl, hid⟩⟩
      · exact (hi hold hbefore).trans hle
      · exact absurd hbefore (of_decide_eq_true hok)
      · exact absurd hbefore (of_decide_eq_true hok hid)
    rcases Multiset.mem_add.mp hw with hw | hw
    · rcases hs.waits (failure_ne hr p (Multiset.mem_cons_self _ _)) hw with
        ⟨ctx, rfl, hctx⟩ | hfull
      · exact hstays (by simp [hctx rfl])
      · exact hfull
    · exact hstays (Multiset.mem_cons_of_mem hw)

/-- If no slot is freed while a live caller waits for capacity, then no
wake-up is lost. -/
theorem no_lost_wakeup {s : Soup World Call}
    (h : (calls cfg).system.Reach (fun s l => freesUnawaited s l = true) s) :
    ¬ LostWakeup cfg s := fun hlost =>
  Int.not_le.mpr hlost.free (full h hlost.isOpen hlost.waits)

/-- A caller waits while the only container is parked for it. -/
theorem no_lost_wakeup_parked : ∃ s : Soup World Call,
    .acquireWait none ∈ s.procs ∧ s.shared.pool.idle = ["a"] ∧
      ¬ LostWakeup (Config.sized 0 1 0) s := by
  let cfg := Config.sized 0 1 0
  obtain ⟨s, hs, hwait, hidle⟩ := exists_reach cfg (by decide) freesUnawaited
    (Script.new ++ Script.acquireGrow cfg "a" ++ Script.acquireWait ++ Script.releaseSend "a")
    (fun s => .acquireWait none ∈ s.procs ∧ s.shared.pool.idle = ["a"])
    (by decide +kernel)
  exact ⟨s, hwait, hidle, no_lost_wakeup hs⟩

/-- The only container is recycled while a caller waits.  The pool is empty
and the caller waits on. -/
theorem lost_wakeup : ¬ ∀ (cfg : Config) (s : Soup World Call),
    (calls cfg).system.Reachable s → ¬ LostWakeup cfg s := by
  intro h
  let cfg := Config.sized 0 1 1
  obtain ⟨s, hs, hopen, hprocs, hidle, hcount⟩ := exists_reachable cfg (by decide)
    (Script.new ++ Script.acquireGrow cfg "a" ++ Script.acquireWait ++ Script.release "a" ++
      Script.discard .release "a")
    (fun s => s.shared.pool.closed = false ∧ s.procs = {.acquireWait none} ∧
      s.shared.pool.idle = [] ∧ s.shared.pool.count = 0)
    (by decide +kernel)
  refine h cfg s hs ⟨hopen, ?_, hidle, ?_, ?_⟩
  · simp [hprocs]
  · rw [hcount]
    decide
  · simp [hprocs, Call.resting]

end

end Aicv.Pool
