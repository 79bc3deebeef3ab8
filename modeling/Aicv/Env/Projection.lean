import Aicv.Env.Steps
import Aicv.Pool.Ledger

/-!
# The pool inside an `Env`

Forgetting everything but the pool turns a state of an `Env` into a state of the
pool: each process contributes the call of the pool it is in, and a run that has
a container between `Acquire` and `Release` is a holder (`Proc.calls`,
`toPool`).  Each step becomes at most one step of the pool, so what holds of
every run of the pool holds of the pool inside every run of an `Env`
(`pool_reachable`).
-/

namespace Aicv.Env

open Transition Pool Ttl Pipeline

/-- The call of the pool a process is in, or the container it holds. -/
def Proc.calls : Proc → Multiset Call
  | .opening c | .run _ (.inPool c) | .reaper (.killing c _ _) | .closing (.inPool c) => {c}
  | .run _ (.track id) | .run _ (.prepare id _) | .run _ (.copyIn id _) | .run _ (.exec id _)
  | .run _ (.wait id _) | .run _ (.cleanup id) | .run _ (.untrack id) => {.holding id}
  | _ => 0

/-- The pool of an `Env`. -/
def toPool (s : Soup World Proc) : Soup Pool.World Call :=
  ⟨s.shared.pool, s.procs.bind Proc.calls⟩

/-- The process exists before `NewEnv` has returned. -/
def Proc.early : Proc → Bool
  | .opening _ | .runtime => true
  | _ => false

section
variable {cfg : Config} {ok : Soup World Proc → Label Proc Event → Prop}
  {g g' : World} {p : Proc} {e : Event} {ps qs : Multiset Proc}

theorem calls_after (r : Run) (c : Call) : (Proc.run r (Phase.after c)).calls = {c} := by
  cases c <;> rfl

theorem calls_next (r : Run) (id : String) (exitCode : ℤ) (dur : Duration) (st : Stage) :
    (Proc.run r (Phase.next r id exitCode dur st)).calls = {.holding id} := by
  cases st with
  | compile =>
      simp only [Phase.next]
      split <;> rfl
  | execute => rfl

theorem bind_calls_map {f : Call → Proc} (hf : ∀ c, (f c).calls = {c}) (cs : Multiset Call) :
    (cs.map f).bind Proc.calls = cs := by
  simp only [Multiset.bind_map, hf]
  exact (Multiset.bind_singleton cs fun c => c).trans (Multiset.map_id' cs)

/-- A step of an `Env` does nothing to the pool, or is a step of the pool, or
makes a call of the pool. -/
theorem Proc.Step.pool (h : Proc.Step cfg g p e g' qs) :
    g'.pool = g.pool ∧ qs.bind Proc.calls = p.calls ∨
    (∃ c e', e = .pool e' ∧ p.calls = {c} ∧
      Call.Step cfg.pool g.pool c e' g'.pool (qs.bind Proc.calls)) ∨
    ∃ c, p.early = false ∧ p.calls = 0 ∧ g'.pool = g.pool ∧ qs.bind Proc.calls = {c} ∧
      c.owned = 0 ∧ (g.pool.published = true → Call.Start g.pool c g.pool) := by
  cases h with
  | @opening c e pool cs hs _ | @closing c e pool cs hs | @killing c victim todo e pool cs hs _ =>
      refine .inr (.inl ⟨c, e, rfl, rfl, ?_⟩)
      rwa [bind_calls_map fun _ => rfl]
  | opened hs | killed hs => exact .inr (.inl ⟨_, _, rfl, rfl, by simpa [Proc.calls] using hs⟩)
  | @inPool r c e pool cs hs =>
      refine .inr (.inl ⟨c, e, rfl, rfl, ?_⟩)
      rwa [bind_calls_map (calls_after r)]
  | @kill victim => exact .inr (.inr ⟨.removeByID victim.id, rfl, rfl, rfl, by simp [Proc.calls],
      rfl, .removeByID⟩)
  | waited => exact .inr (.inr ⟨.close .user, rfl, rfl, rfl, by simp [Proc.calls], rfl, .close⟩)
  | waitRet => exact .inl ⟨rfl, by rw [Multiset.singleton_bind, calls_next]; rfl⟩
  | _ => exact .inl ⟨rfl, by simp [Proc.calls]⟩

/-! ## `NewEnv` comes first -/

/-- Before `NewEnv` has returned there are only its own steps and the
runtime's. -/
theorem Proc.Step.early (h : Proc.Step cfg g p e g' qs)
    (hp : p.early = true ∨ g.pool.published = true) :
    (g.pool.published = true → g'.pool.published = true) ∧
      ∀ q ∈ qs, q.early = true ∨ g'.pool.published = true := by
  have hmono : g.pool.published = true → g'.pool.published = true := by
    intro hpub
    rcases h.pool with ⟨heq, -⟩ | ⟨c, e', -, -, hs⟩ | ⟨c, -, -, heq, -⟩
    · rw [heq]
      exact hpub
    · exact hs.stays_published hpub
    · rw [heq]
      exact hpub
  refine ⟨hmono, fun q hq => ?_⟩
  cases h with
  | @opening c e pool cs hs _ =>
      obtain ⟨c', -, rfl⟩ := Multiset.mem_map.mp hq
      exact .inl rfl
  | opened _ hpub => exact .inr hpub
  | pass | exit => exact .inl (by rw [Multiset.mem_singleton.mp hq]; rfl)
  | _ => exact .inr (hmono (by simpa [Proc.early] using hp))

/-- Every process but `NewEnv` and the runtime finds the pool published. -/
theorem opened {s : Soup World Proc} (h : (processes cfg).system.Reach ok s) :
    ∀ p ∈ s.procs, p.early = true ∨ s.shared.pool.published = true := by
  refine Program.invariant
    (I := fun s => ∀ p ∈ s.procs, p.early = true ∨ s.shared.pool.published = true)
    (fun s hs => ?_) (fun g p g' ps _ hi _ hc => ?_) (fun g p e g' qs ps _ hi _ hs => ?_) h
  · obtain ⟨-, -, rfl⟩ := hs
    simp [start, Proc.early]
  · have hpub : g'.pool.published = true := by cases hc <;> assumption
    exact fun q _ => .inr hpub
  · obtain ⟨hmono, hqs⟩ := hs.early (hi p (Multiset.mem_cons_self _ _))
    intro q hq
    rcases Multiset.mem_add.mp hq with hq | hq
    · exact hqs q hq
    · exact (hi q (Multiset.mem_cons_of_mem hq)).imp_right hmono

/-! ## The simulation -/

theorem toPool_cons (g : World) (p : Proc) (ps : Multiset Proc) :
    toPool ⟨g, p ::ₘ ps⟩ = ⟨g.pool, p.calls + ps.bind Proc.calls⟩ := by
  simp only [toPool, Multiset.cons_bind]

theorem toPool_add (g : World) (qs ps : Multiset Proc) :
    toPool ⟨g, qs + ps⟩ = ⟨g.pool, qs.bind Proc.calls + ps.bind Proc.calls⟩ := by
  simp only [toPool, Multiset.add_bind]

/-- The pool inside an `Env` is in a state that the pool reaches. -/
theorem pool_reachable {s : Soup World Proc} (h : (processes cfg).system.Reach ok s) :
    (calls cfg.pool).system.Reachable (toPool s) := by
  refine h.simulate toPool (fun s hs => ?_) (fun s l t hr _ _ hs => ?_)
  · obtain ⟨hmax, hmin, rfl⟩ := hs
    exact .init (init_iff.mpr ⟨hmax, hmin, rfl⟩)
  · cases hs with
    | @call g g' p ps hc =>
        rw [toPool_cons]
        cases hc with
        | run hpub => exact .single trivial (.call (.acquire hpub))
        | close =>
            rw [show Proc.calls (.closing .cancel) = 0 from rfl, zero_add]
            exact .refl _
    | @act g g' p e ps qs hs =>
        rw [toPool_cons, toPool_add]
        rcases hs.pool with ⟨heq, hcalls⟩ | ⟨c, e', -, hcalls, hstep⟩ |
          ⟨c, hlate, hcalls, heq, hqs, -, hstart⟩
        · rw [heq, hcalls]
          exact .refl _
        · rw [hcalls, Multiset.singleton_add]
          exact .single trivial (.act hstep)
        · have hpub : g.pool.published = true := by
            simpa [hlate] using opened hr p (Multiset.mem_cons_self _ _)
          rw [hcalls, heq, hqs, zero_add, Multiset.singleton_add]
          exact .single trivial (.call (hstart hpub))

/-! ## Ownership in an `Env` -/

/-- The containers owned by the idle channel and by the processes. -/
def containers : Tokens World Proc String :=
  ⟨fun g => g.pool.pool.idle, fun p => p.calls.bind Call.owned⟩

theorem containers_all (s : Soup World Proc) : containers.all s = ids.all (toPool s) := by
  simp only [Tokens.all, containers, toPool, ids_shared, Multiset.bind_assoc]
  rfl

/-- No container is owned twice. -/
theorem containers_nodup {s : Soup World Proc} (h : (processes cfg).system.Reach ok s) :
    (containers.all s).Nodup := by
  rw [containers_all]
  exact (owned (pool_reachable h)).nodup

/-- The runtime has issued every container a process owns. -/
theorem issued_of_owned (h : (processes cfg).system.Reach ok ⟨g, p ::ₘ ps⟩) {id : String}
    (hid : id ∈ p.calls.bind Call.owned) : id ∈ g.pool.backend.issued := by
  refine (owned (pool_reachable h)).issued id ?_
  rw [← containers_all]
  exact containers.mem_all.mpr (.inr ⟨p, Multiset.mem_cons_self _ _, hid⟩)

end

end Aicv.Env
