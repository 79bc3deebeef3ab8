import Aicv.Pool.Replay

/-!
# Who owns a container

The mutable fields of a `Container` have no lock.  What makes that safe is that
each container is, at any time, in at most one of these places: a slot of the
idle channel, or a call or caller that has it in hand (`Call.held`).

The proof counts ids as tokens.  A call also owns an id from the moment
`Create` returns it (`Call.owned`).  Every step hands ids on or drops them,
except `Create`, which mints one that nobody owns since the runtime never
issues an id twice (`Call.Step.tokens`).

The other direction says that nothing is lost: a registered id is always in one
of the places.  A call drops a container only when its id has left the registry
(`Call.Step.kept`).
-/

namespace Aicv.Pool

open Transition

/-- A `Release` that discards has its container in hand.  `RemoveByID` does
not: it only knows the id. -/
def Discarder.held : Discarder → String → Multiset String
  | .release, id => {id}
  | .removeByID, _ => 0

/-- The container a call or caller has in hand. -/
def Call.held : Call → Multiset String
  | .prewarmSend _ id | .acquireReturn (.ok id) | .holding id | .release id
  | .releaseSend id => {id}
  | .discard w id | .discardRemove w id => w.held id
  | _ => 0

/-- The id `create` is working on, which is in no registry yet. -/
def Call.creating : Call → Multiset String
  | .growStart _ id | .growUnstart _ id _ | .growRegister _ id => {id}
  | _ => 0

/-- The ids a call owns. -/
def Call.owned (c : Call) : Multiset String := c.held + c.creating

/-- The ids owned by the idle channel and by the calls. -/
def ids : Tokens World Call String := ⟨fun g => g.pool.idle, Call.owned⟩

@[simp] theorem ids_shared (g : World) : ids.shared g = g.pool.idle := rfl

@[simp] theorem ids_proc (c : Call) : ids.proc c = c.owned := rfl

/-- The slots of the idle channel and the current holders, taken together. -/
def places (s : Soup World Call) : Multiset String :=
  s.shared.pool.idle + s.procs.bind Call.held

theorem ids_eq (s : Soup World Call) : ids.all s = places s + s.procs.bind Call.creating := by
  simp only [Tokens.all, ids, places, add_assoc, ← Multiset.bind_add]
  rfl

/-! ## What a step does to the ids -/

theorem held_grown (w : Grower) (id : String) : (w.grown id).held = {id} := by
  cases w <;> rfl

theorem owned_grown (w : Grower) (id : String) : (w.grown id).owned = {id} := by
  cases w <;> rfl

theorem owned_refused (w : Grower) (e : Error) : (w.refused e).owned = 0 := by
  cases w <;> cases e <;> rfl

theorem coe_idle_recv {p : Pool} {id : String} (h : p.idle.head? = some id) :
    (p.idle : Multiset String) = id ::ₘ p.recv.idle := by
  rw [recv_idle, Multiset.cons_coe, List.cons_head?_tail (Option.mem_def.mpr h)]

theorem coe_idle_send (p : Pool) (id : String) :
    ((p.send id).idle : Multiset String) = p.idle + {id} := by
  rw [send_idle, ← Multiset.coe_add, Multiset.coe_singleton]

/-- A step hands ids on or drops them, or mints the one `Create` returns. -/
theorem Call.Step.tokens {cfg : Config} {g g' : World} {c : Call} {e : Event}
    {cs : Multiset Call} (h : Call.Step cfg g c e g' cs) :
    (ids.shared g' + cs.bind ids.proc ≤ ids.shared g + ids.proc c ∧
      g'.backend.issued = g.backend.issued) ∨
    ∃ id ∉ g.backend.issued, ids.shared g' + cs.bind ids.proc = id ::ₘ (ids.shared g + ids.proc c) ∧
      g'.backend.issued = insert id g.backend.issued := by
  cases h with
  | createOk hnew =>
      refine .inr ⟨_, hnew, ?_, rfl⟩
      simp [Call.owned, Call.held, Call.creating, ← Multiset.singleton_add, add_comm]
  | cancel hc => cases hc <;> exact .inl ⟨by simp [Call.owned, Call.held, Call.creating], rfl⟩
  | growRefused | giveBack =>
      exact .inl ⟨by simp [owned_refused], rfl⟩
  | register =>
      refine .inl ⟨?_, rfl⟩
      rw [Multiset.singleton_bind, ids_proc, owned_grown]
      simp [Call.owned, Call.held, Call.creating]
  | growReserve hr =>
      obtain ⟨-, -, rfl⟩ := reserve_ok.mp hr
      exact .inl ⟨by simp [Call.owned, Call.held, Call.creating], rfl⟩
  | fastRecv hid | waitRecv hid =>
      refine .inl ⟨?_, rfl⟩
      simp [Call.owned, Call.held, Call.creating, coe_idle_recv hid, ← Multiset.singleton_add,
        add_comm]
  | prewarmSend | releaseSend =>
      refine .inl ⟨?_, rfl⟩
      rw [ids_shared, World.withPool_pool, coe_idle_send]
      simp [Call.owned, Call.held, Call.creating]
  | _ =>
      refine .inl ⟨?_, rfl⟩
      simp [Call.owned, Call.held, Discarder.held, Call.creating]

theorem Call.Step.issued_subset {cfg : Config} {g g' : World} {c : Call} {e : Event}
    {cs : Multiset Call} (h : Call.Step cfg g c e g' cs) :
    g.backend.issued ⊆ g'.backend.issued := by
  rcases h.tokens with ⟨-, heq⟩ | ⟨id, -, -, heq⟩
  · exact heq.ge
  · exact heq ▸ Finset.subset_insert _ _

/-! ## No id is owned twice -/

/-- What a start of a client's call adds. -/
theorem Call.Start.owned {g g' : World} {c : Call} (h : Call.Start g c g') :
    g' = g ∧ c.owned = 0 ∧ c.held = 0 := by
  cases h <;> exact ⟨rfl, rfl, rfl⟩

/-- The ids owned are owned once, and the runtime has issued them. -/
structure Owned (s : Soup World Call) : Prop where
  nodup : (ids.all s).Nodup
  issued : ∀ id ∈ ids.all s, id ∈ s.shared.backend.issued

section
variable {cfg : Pool.Config} {ok : Soup World Call → Label Call Event → Prop}

theorem Owned.act {g g' : World} {c : Call} {e : Event} {cs ps : Multiset Call}
    (hi : Owned ⟨g, c ::ₘ ps⟩) (hs : Call.Step cfg g c e g' cs) : Owned ⟨g', cs + ps⟩ := by
  rcases hs.tokens with ⟨hle, hiss⟩ | ⟨id, hnew, hmint, hiss⟩
  · refine ⟨Tokens.nodup_act hle hi.nodup, fun id hid => ?_⟩
    rw [hiss]
    exact hi.issued id (Multiset.mem_of_le (Tokens.all_act_le hle) hid)
  · refine ⟨Tokens.nodup_mint hmint (fun hid => hnew (hi.issued id hid)) hi.nodup,
      fun id' hid' => ?_⟩
    rw [hiss]
    rw [Tokens.all_add, hmint, Multiset.cons_add, ← Tokens.all_cons] at hid'
    rcases Multiset.mem_cons.mp hid' with rfl | hold
    · exact Finset.mem_insert_self _ _
    · exact Finset.mem_insert_of_mem (hi.issued id' hold)

theorem owned {s : Soup World Call} (h : (calls cfg).system.Reach ok s) : Owned s := by
  refine Program.invariant (fun s hs => ?_) (fun g p g' ps _ hi _ hc => ?_)
    (fun g p e g' qs ps _ hi _ hs => hi.act hs) h
  · obtain ⟨-, -, rfl⟩ := init_iff.mp hs
    constructor <;> simp [Tokens.all, start, empty, Call.owned, Call.held, Call.creating]
  · obtain ⟨rfl, ho, -⟩ := hc.owned
    have hall : ids.all ⟨g', p ::ₘ ps⟩ = ids.all ⟨g', ps⟩ := by
      simp [Tokens.all, ho]
    exact ⟨hall ▸ hi.nodup, hall ▸ hi.issued⟩

/-! ## No registered container is lost -/

/-- Only the end of `create` adds to the registry. -/
theorem Call.Step.mem_registry {g g' : World} {c : Call} {e : Event} {cs : Multiset Call}
    (h : Call.Step cfg g c e g' cs) {id : String} (hid : id ∈ g'.pool.all) :
    id ∈ g.pool.all ∨ ∃ w, c = .growRegister w id ∧ cs = {w.grown id} := by
  cases h with
  | growReserve hr =>
      obtain ⟨-, -, rfl⟩ := reserve_ok.mp hr
      exact .inl hid
  | @register w id' =>
      rcases Finset.mem_insert.mp hid with rfl | hid
      · exact .inr ⟨w, rfl, rfl⟩
      · exact .inl hid
  | _ => left; first | exact hid | simp_all

/-- A step keeps a container in one of the places unless its id has left the
registry.  The last step of a `Release` that discards is where that has to be
known beforehand. -/
theorem Call.Step.kept {g g' : World} {c : Call} {e : Event} {cs : Multiset Call}
    (h : Call.Step cfg g c e g' cs)
    (hgone : ∀ id, c = .discardRemove .release id → id ∉ g.pool.all) (id : String)
    (hid : id ∈ g.pool.idle ∨ id ∈ c.held) :
    id ∈ g'.pool.idle ∨ id ∈ cs.bind Call.held ∨ id ∉ g'.pool.all := by
  cases h with
  | cancel hc => cases hc <;> exact .inl (by simpa [Call.held] using hid)
  | growReserve hr =>
      obtain ⟨-, -, rfl⟩ := reserve_ok.mp hr
      exact .inl (by simpa [Call.held] using hid)
  | growRefused | giveBack | register => exact .inl (by simpa [Call.held] using hid)
  | fastRecv hhd | waitRecv hhd =>
      have hid' : id ∈ g.pool.idle := by simpa [Call.held] using hid
      rw [← List.cons_head?_tail (Option.mem_def.mpr hhd)] at hid'
      rcases List.mem_cons.mp hid' with rfl | htail
      · exact .inr (.inl (by simp [Call.held]))
      · exact .inl htail
  | releaseDead hdead =>
      rcases hid with hid | hid
      · exact .inl hid
      · exact .inr (.inr (by rwa [Multiset.mem_singleton.mp hid]))
  | @discardRemove w id' =>
      cases w with
      | release =>
          rcases hid with hid | hid
          · exact .inl hid
          · exact .inr (.inr (by rw [Multiset.mem_singleton.mp hid]; exact hgone id' rfl))
      | removeByID => exact .inl (by simpa [Call.held, Discarder.held] using hid)
  | prewarmSend | releaseSend => exact .inl (by simpa [Call.held] using hid)
  | _ =>
      rw [← or_assoc]
      exact .inl (by simpa [Call.held, Discarder.held] using hid)

/-- A discard leaves its critical section with the id out of the registry. -/
theorem Call.Step.not_mem_discarded {g g' : World} {c : Call} {e : Event} {cs : Multiset Call}
    (h : Call.Step cfg g c e g' cs) {w : Discarder} {id : String}
    (hid : .discardRemove w id ∈ cs) : id ∉ g'.pool.all := by
  cases h with
  | discard =>
      cases Multiset.mem_singleton.mp hid
      simp
  | cancel hc => cases hc <;> simp at hid
  | @growRefused w' e | @giveBack w' e => cases w' <;> cases e <;> simp [Grower.refused] at hid
  | @register w' => cases w' <;> simp [Grower.grown] at hid
  | _ => simp at hid

/-- A `Release` that has discarded its container has deleted it. -/
def Gone (s : Soup World Call) : Prop :=
  ∀ id, .discardRemove .release id ∈ s.procs → id ∉ s.shared.pool.all

theorem gone {s : Soup World Call} (h : (calls cfg).system.Reach ok s) : Gone s := by
  refine Program.invariant (fun s hs => ?_) (fun g p g' ps _ hi _ hc => ?_)
    (fun g p e g' qs ps hr hi _ hs => ?_) h
  · obtain ⟨-, -, rfl⟩ := init_iff.mp hs
    intro id hid
    cases Multiset.mem_singleton.mp hid
  · intro id hid
    rcases Multiset.mem_cons.mp hid with rfl | hid
    · cases hc
    · rw [hc.owned.1]
      exact hi id hid
  · intro id hid hall
    rcases Multiset.mem_add.mp hid with hid | hid
    · exact hs.not_mem_discarded hid hall
    · -- the id is not registered again, since only its owner could
      rcases hs.mem_registry hall with hold | ⟨w, rfl, -⟩
      · exact hi id (Multiset.mem_cons_of_mem hid) hold
      · exact (Tokens.not_mem_of_mem (owned hr).nodup (t := id)
          (by simp [Call.owned, Call.held, Call.creating])).2 _ hid
          (by simp [Call.owned, Call.held, Discarder.held])

/-- The places and the registry: each container is in at most one place, and
each registered one is in some place. -/
theorem mem_places {s : Soup World Call} (h : (calls cfg).system.Reach ok s) :
    ∀ id ∈ s.shared.pool.all, id ∈ places s := by
  refine Program.invariant (I := fun s => ∀ id ∈ s.shared.pool.all, id ∈ places s)
    (fun s hs => ?_) (fun g p g' ps _ hi _ hc => ?_) (fun g p e g' qs ps hr hi _ hs => ?_) h
  · obtain ⟨-, -, rfl⟩ := init_iff.mp hs
    intro id hid
    cases Finset.notMem_empty id hid
  · rw [hc.owned.1]
    intro id hid
    simpa [places, hc.owned.2.2] using hi id hid
  · intro id hid
    have hkeep := hs.kept (fun id' hc => gone hr id' (hc ▸ Multiset.mem_cons_self _ _)) id
    rcases hs.mem_registry hid with hold | ⟨w, rfl, rfl⟩
    · have hpl := hi id hold
      simp only [places, Multiset.cons_bind, Multiset.add_bind, Multiset.mem_add,
        Multiset.mem_coe] at hpl ⊢
      rcases hpl with hidle | hheld | hrest
      · rcases hkeep (.inl hidle) with h1 | h1 | h1
        exacts [.inl h1, .inr (.inl h1), absurd hid h1]
      · rcases hkeep (.inr hheld) with h1 | h1 | h1
        exacts [.inl h1, .inr (.inl h1), absurd hid h1]
      · exact .inr (.inr hrest)
    · simp [places, held_grown]

/-- Each container occurs at most once among the slots of the idle channel and
the current holders, and each registered container occurs there.  This holds of
every state that any interleaving of the pool's calls reaches. -/
theorem single_owner {s : Soup World Call} (h : (calls cfg).system.Reachable s) :
    (places s).Nodup ∧ ∀ id ∈ s.shared.pool.all, id ∈ places s := by
  refine ⟨?_, mem_places h⟩
  have hn := (owned h).nodup
  rw [ids_eq] at hn
  exact (Multiset.nodup_add.mp hn).1

/-- One container parked and one held. -/
theorem single_owner_two : ∃ s : Soup World Call,
    s.shared.pool.idle = ["a"] ∧ .holding "b" ∈ s.procs ∧
      (places s).Nodup ∧ ∀ id ∈ s.shared.pool.all, id ∈ places s := by
  let cfg := Config.sized 0 2 0
  obtain ⟨s, hs, hidle, hheld⟩ := exists_reachable cfg (by decide)
    (Script.new ++ Script.acquireGrow cfg "a" ++ Script.acquireGrow cfg "b" ++
      Script.releaseSend "a")
    (fun s => s.shared.pool.idle = ["a"] ∧ .holding "b" ∈ s.procs)
    (by decide +kernel)
  exact ⟨s, hidle, hheld, single_owner hs⟩

end

end Aicv.Pool
