import Aicv.Pipeline.Job
import Aicv.Sandbox.Capture
import Aicv.Ttl.Manager

/-!
# The deadline of a job and the limits of its stages

`Run` tracks the container with a deadline of `TTL + grace` for the whole job.
Inside the container each of the two stages has a limit of its own, the TTL
rounded up to seconds, or none when the TTL is not positive.

So two stages within their limits may take twice the limit, and the reaper is a
last resort exactly if the deadline is later than that (`lastResort_iff`).
-/

namespace Aicv.Pipeline

open Ttl Sandbox

/-- What the manager does while the container `id` is tracked, with the
`Untrack` at `stop`.  Other ids come and go, and a sweep may read the clock at
any time up to `stop`. -/
def Meanwhile (id : String) (stop : ℤ) : Manager.Op JobId → Prop
  | .track id' _ _ _ => id' ≠ id
  | .untrack id' => id' ≠ id
  | .sweep now => now ≤ stop

/-- No sweep kills a job both of whose stages keep to the limit that
`wrapWithTimeout` puts on them.  Staging and cleanup take no time. -/
def LastResort (lang : Lang) (ttl grace : Duration) : Prop :=
  ∀ (m : Manager JobId) (id : String) (start : ℤ) (job : JobId) (compile execute : ℤ)
    (ops : List (Manager.Op JobId)),
    Permits (wrapWithTimeout (compileCommand lang) ttl).2 compile →
    Permits (wrapWithTimeout (executeCommand lang) ttl).2 execute →
    (∀ op ∈ ops, Meanwhile id (start + compile + execute) op) →
    id ∉ ((m.track id (ttl + grace) start job).run ops).2

/-- An entry whose deadline is later than `stop` survives one call. -/
theorem not_killed_step {m : Manager JobId} {t : Tracked JobId} {stop : ℤ}
    {op : Manager.Op JobId} (ht : t ∈ m.deadlines) (hstop : stop < t.deadline)
    (hop : Meanwhile t.id stop op) : t ∈ (m.step op).1.deadlines ∧ t.id ∉ (m.step op).2 := by
  cases op with
  | track id' ttl now tag => simp [Manager.step, ht, Ne.symm hop]
  | untrack id' => simp [Manager.step, ht, Ne.symm hop]
  | sweep now =>
      have hlt : now < t.deadline := lt_of_le_of_lt hop hstop
      refine ⟨Manager.mem_forget.mpr ⟨ht, hlt⟩, fun hmem => ?_⟩
      obtain ⟨t', ht', hid⟩ := List.mem_map.mp hmem
      obtain ⟨hmem', hle⟩ := Manager.mem_expired.mp ht'
      rw [Manager.eq_of_id hmem' ht hid] at hle
      exact absurd hlt (not_lt.mpr hle)

/-- An entry whose deadline is later than `stop` is not killed up to then. -/
theorem not_killed_run {m : Manager JobId} {t : Tracked JobId} {stop : ℤ}
    {ops : List (Manager.Op JobId)} (ht : t ∈ m.deadlines) (hstop : stop < t.deadline)
    (hops : ∀ op ∈ ops, Meanwhile t.id stop op) : t.id ∉ (m.run ops).2 := by
  induction ops generalizing m with
  | nil => simp [Manager.run]
  | cons op ops ih =>
      obtain ⟨hkept, hnot⟩ := not_killed_step ht hstop (hops op List.mem_cons_self)
      simp only [Manager.run, List.mem_append, not_or]
      exact ⟨hnot, ih hkept fun op' hop' => hops op' (List.mem_cons_of_mem _ hop')⟩

/-- A sweep that reads the clock past the deadline kills. -/
theorem killed_sweep (m : Manager JobId) (id : String) {ttl : Duration} {start now : ℤ}
    (job : JobId) (h : start + ttl.toInt ≤ now) :
    id ∈ ((m.track id ttl start job).run [.sweep now]).2 := by
  simp only [Manager.run, Manager.step, List.append_nil, List.mem_map]
  exact ⟨⟨id, start + ttl.toInt, job⟩, by simp [h], rfl⟩

/-- The reaper is a last resort exactly if the TTL is positive and the deadline
is later than twice the limit of a stage. -/
theorem lastResort_iff (lang : Lang) (ttl grace : Duration) :
    LastResort lang ttl grace ↔
      0 < ttl ∧ 2 * (wrapWithTimeout (compileCommand lang) ttl).2 * 1000000000 <
        (ttl + grace).toInt := by
  have hsame := limit_eq (executeCommand lang) (compileCommand lang) ttl
  constructor
  · intro h
    -- the sweep comes at the end of two stages that use their limits up
    have hend : ∀ compile execute : ℤ,
        Permits (wrapWithTimeout (compileCommand lang) ttl).2 compile →
        Permits (wrapWithTimeout (compileCommand lang) ttl).2 execute →
        compile + execute < (ttl + grace).toInt := by
      intro compile execute hc he
      by_contra hle
      refine h Manager.empty "" 0 0 compile execute [.sweep (0 + compile + execute)] hc
        (hsame ▸ he) (fun op hop => ?_) (killed_sweep _ _ _ (by omega))
      cases List.mem_singleton.mp hop
      exact le_rfl
    have hpos : 0 < ttl := by
      by_contra hle
      have hno := limit_of_nonpos (compileCommand lang) (Int64.not_lt.mp hle)
      have := hend (max 0 (ttl + grace).toInt) 0 ⟨by omega, by omega⟩ ⟨le_rfl, by omega⟩
      omega
    have hone := one_le_limit (compileCommand lang) hpos
    have := hend ((wrapWithTimeout (compileCommand lang) ttl).2 * 1000000000)
      ((wrapWithTimeout (compileCommand lang) ttl).2 * 1000000000)
      ⟨by omega, fun _ => le_rfl⟩ ⟨by omega, fun _ => le_rfl⟩
    exact ⟨hpos, by omega⟩
  · rintro ⟨hpos, hlt⟩ m id start job compile execute ops ⟨-, hc⟩ ⟨-, he⟩ hops
    have hone := one_le_limit (compileCommand lang) hpos
    rw [hsame] at he
    have := hc (by omega)
    have := he (by omega)
    exact not_killed_run (t := ⟨id, start + (ttl + grace).toInt, job⟩) (by simp)
      (show start + compile + execute < start + (ttl + grace).toInt by omega) hops

/-- With a TTL of a minute and half a minute of grace, two stages of fifty
seconds each outlive the deadline. -/
theorem not_lastResort : ¬ ∀ (lang : Lang) (ttl grace : Duration), 0 < grace →
    LastResort lang ttl grace := by
  intro h
  have hlimit (cmd : List String) : (wrapWithTimeout cmd 60000000000).2 = 60 :=
    limit_of_dvd (by decide) (by decide)
  refine h .rust 60000000000 30000000000 (by decide) Manager.empty "a" 0 0 50000000000 50000000000
    [.sweep 100000000000] ?_ ?_ (fun op hop => ?_) (killed_sweep _ _ _ (by decide))
  · rw [hlimit]
    exact ⟨by decide, fun _ => by decide⟩
  · rw [hlimit]
    exact ⟨by decide, fun _ => by decide⟩
  · cases List.mem_singleton.mp hop
    exact le_rfl

end Aicv.Pipeline
