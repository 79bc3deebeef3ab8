import Aicv.Env.Replay
import Aicv.Env.Reaping

/-!
# Teardown order

`Env.Close` cancels the context of the reaper, waits for its goroutine, and only
then closes the pool.  The select of the reaper may take a tick when the context
has ended as well, and a sweep kills without the lock, so the reaper may go on
for a while after the cancellation.

There is one reaper: `NewEnv` is the only process that becomes it, and the last
step of the reaper is the one that sets `stopped` (`one_reaper`).  `Wait` returns
after that, so when the `Close` of the pool begins there is no reaper any more
(`closes_after_reaper`).
-/

namespace Aicv.Env

open Transition Pool Ttl Pipeline

/-- The process is the reaper, or `NewEnv`, which becomes it. -/
def Proc.sweeps : Proc → Bool
  | .opening _ | .reaper _ => true
  | _ => false

section
variable {cfg : Config} {ok : Soup World Proc → Label Proc Event → Prop}
  {g g' : World} {p : Proc} {e : Event} {ps qs : Multiset Proc}

/-! ## One reaper -/

theorem tally_sweeps_map {f : Call → Proc} {b : Bool} (hf : ∀ c, (f c).sweeps = b)
    {cs : Multiset Call} (hcs : cs.card ≤ 1) : tally Proc.sweeps (cs.map f) ≤ b.toNat := by
  simp only [tally, Multiset.countP_map, hf]
  cases b with
  | true => simpa using hcs
  | false => simp

/-- No other process becomes the reaper, and the reaper that sets `stopped` ends
with that step. -/
theorem Proc.Step.sweeps (h : Proc.Step cfg g p e g' qs) :
    tally Proc.sweeps qs + g'.stopped.toNat ≤ tally Proc.sweeps {p} + g.stopped.toNat := by
  cases h with
  | opening hs | killing hs =>
      exact Nat.add_le_add_right (tally_sweeps_map (b := true) (fun _ => rfl) hs.card_le) _
  | inPool hs | closing hs =>
      exact Nat.add_le_add_right (tally_sweeps_map (b := false) (fun _ => rfl) hs.card_le) _
  | ctxDone => simp [tally_singleton, Proc.sweeps]
  | _ => simp [tally_singleton, Proc.sweeps, World.withPool, World.withReaper, World.withRunning]

/-- The reaper never comes back. -/
theorem Proc.Step.stays_stopped (h : Proc.Step cfg g p e g' qs) (hstop : g.stopped = true) :
    g'.stopped = true := by
  cases h with
  | ctxDone => rfl
  | _ => exact hstop

/-- There is one reaper at most, and none once it has stopped. -/
theorem one_reaper {s : Soup World Proc} (h : (processes cfg).system.Reach ok s) :
    tally Proc.sweeps s.procs + s.shared.stopped.toNat ≤ 1 := by
  refine Program.invariant
    (I := fun s => tally Proc.sweeps s.procs + s.shared.stopped.toNat ≤ 1)
    (fun s hs => ?_) (fun g p g' ps _ hi _ hc => ?_) (fun g p e g' qs ps _ hi _ hs => ?_) h
  · obtain ⟨-, -, rfl⟩ := hs
    decide
  · cases hc <;> simpa [tally_cons, tally_singleton, Proc.sweeps] using hi
  · have hstep := hs.sweeps
    simp only [tally_cons _ p, tally_add] at hi ⊢
    omega

theorem not_reaper_of_stopped {s : Soup World Proc} (h : (processes cfg).system.Reach ok s)
    (hstop : s.shared.stopped = true) (sw : Sweep) : .reaper sw ∉ s.procs := by
  intro hmem
  have hpos : 0 < tally Proc.sweeps s.procs := Multiset.countP_pos.mpr ⟨_, hmem, rfl⟩
  have hle := one_reaper h
  rw [hstop] at hle
  simp only [Bool.toNat_true] at hle
  omega

/-! ## Kills and the `Close` of the pool -/

/-- The process is the reaper, or is in no call of `RemoveByID`. -/
def Proc.killsAsReaper (p : Proc) : Prop :=
  (∃ sw, p = .reaper sw) ∨ ∀ c ∈ p.calls, c.removing = none

theorem Proc.Step.killsAsReaper (h : Proc.Step cfg g p e g' qs) (hp : p.killsAsReaper) :
    ∀ q ∈ qs, q.killsAsReaper := by
  intro q hq
  have hnone {c : Call} (hnr : ∀ sw, p ≠ .reaper sw) (hc : p.calls = {c}) :
      c.removing = none :=
    (hp.resolve_left fun ⟨sw, h⟩ => hnr sw h) c (hc ▸ Multiset.mem_singleton_self c)
  cases h with
  | opening hs =>
      obtain ⟨c', hc', rfl⟩ := Multiset.mem_map.mp hq
      right
      simpa [Proc.calls, (hs.removing hc').1] using hnone (by simp) rfl
  | inPool hs =>
      obtain ⟨c', hc', rfl⟩ := Multiset.mem_map.mp hq
      right
      simpa [calls_after, (hs.removing hc').1] using hnone (by simp) rfl
  | closing hs =>
      obtain ⟨c', hc', rfl⟩ := Multiset.mem_map.mp hq
      right
      simpa [Proc.calls, (hs.removing hc').1] using hnone (by simp) rfl
  | killing =>
      obtain ⟨c', -, rfl⟩ := Multiset.mem_map.mp hq
      exact .inl ⟨_, rfl⟩
  | opened | tick | readClock | lock | kill | killed | swept =>
      cases Multiset.mem_singleton.mp hq
      exact .inl ⟨_, rfl⟩
  | ctxDone => cases Multiset.notMem_zero _ hq
  | waitRet =>
      cases Multiset.mem_singleton.mp hq
      right
      simp [calls_next, Call.removing]
  | _ =>
      cases Multiset.mem_singleton.mp hq
      right
      simp [Proc.calls, Call.removing]

/-- Only the reaper calls `RemoveByID`. -/
theorem only_reaper_kills {s : Soup World Proc} (h : (processes cfg).system.Reach ok s) :
    ∀ p ∈ s.procs, p.killsAsReaper := by
  refine Program.forall_procs (fun s hs => ?_) (fun g p g' hc => ?_)
    (fun _ _ _ _ _ => Proc.Step.killsAsReaper) h
  · obtain ⟨-, -, rfl⟩ := hs
    simp [start, Proc.killsAsReaper, Proc.calls, Call.removing]
  · cases hc <;> exact .inr (by simp [Proc.calls, Call.removing])

/-- From the moment `Wait` returns to a call of `Close`, and the call begins to
close the pool, there is no reaper and no call of `RemoveByID`.  No kill runs,
and none starts. -/
theorem closes_after_reaper {s t u : Soup World Proc} (h : (processes cfg).system.Reachable s)
    (hs : (processes cfg).system.Step s (.act (.closing .wait) .waited) t)
    (hr : (processes cfg).system.Run System.Any t u) :
    (∀ sw, .reaper sw ∉ u.procs) ∧ (∀ p ∈ u.procs, ∀ c ∈ p.calls, c.removing = none) ∧
      ∀ sw e u', ¬ (processes cfg).system.Step u (.act (.reaper sw) e) u' := by
  have hu : (processes cfg).system.Reachable u := (h.step trivial hs).run hr
  have hstop : u.shared.stopped = true := by
    refine hr.invariant (I := fun s => s.shared.stopped = true) (fun s l t hi _ hst => ?_) ?_
    · cases hst with
      | call hc => cases hc <;> exact hi
      | act ha => exact ha.stays_stopped hi
    · cases hs with
      | act ha =>
          cases ha with
          | waited hstop => exact hstop
  have hnone : ∀ sw, .reaper sw ∉ u.procs := not_reaper_of_stopped hu hstop
  refine ⟨hnone, fun p hp => ?_, fun sw e u' hst => ?_⟩
  · exact (only_reaper_kills hu p hp).resolve_left fun ⟨sw, h⟩ => hnone sw (h ▸ hp)
  · cases hst with
    | act => exact hnone sw (Multiset.mem_cons_self _ _)

end

/-- A job hangs, and the reaper is removing its container when `Close` cancels
it.  The kill goes on, and the pool is closed after it. -/
theorem closes_after_kill : ∃ s t : Soup World Proc,
    (processes (Config.sized 1 0)).system.Step s (.act (.closing .wait) .waited) t ∧
      "a" ∈ s.shared.pool.backend.passed ∧ ∀ sw, .reaper sw ∉ t.procs := by
  let cfg := Config.sized 1 0
  let r : Run := ⟨0, ⟨.rust, [("Cargo.toml", "")], 0⟩, some cfg.grace⟩
  let v : Tracked JobId := ⟨"a", 30000000000, 0⟩
  obtain ⟨s, hs, hpassed, hstop, hwait⟩ := exists_reach cfg (by decide) (fun _ _ => true)
    (Script.newEnv ++ (Pool.Script.acquireGrow cfg.pool "a").map (Script.inRun r) ++
      Script.compile r "a" ++ [.act .runtime (.pass 30000000000)] ++
      Script.sweep 30000000000 v ++
      [.call (.closing .cancel), .act (.closing .cancel) .cancel,
        Script.inKill v (.removeByID "a") .lock,
        Script.inKill v (.discard .removeByID "a") .lock,
        Script.inKill v (.discardRemove .removeByID "a") (.remove "a" none),
        .act (.reaper (.kills 0)) .swept, .act (.reaper .select) .ctxDone])
    (fun s => "a" ∈ s.shared.pool.backend.passed ∧ s.shared.stopped = true ∧
      .closing .wait ∈ s.procs)
    (by decide +kernel)
  obtain ⟨t, ht⟩ := Program.act_of_mem (P := processes cfg) (e := .waited) hwait
    ⟨_, _, .waited hstop⟩
  exact ⟨s, t, ht, hpassed, (closes_after_reaper hs.reachable ht (.refl t)).1⟩

end Aicv.Env
