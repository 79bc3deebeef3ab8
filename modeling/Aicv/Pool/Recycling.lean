import Aicv.Pool.Ownership
import Aicv.Pool.Teardown

/-!
# The job limit of a container

`Release` discards a container whose counter `jobs` has reached the limit, and
parks the others.  The hand-outs happen in `Acquire`, at three places, and none
of them looks at the counter.

Wherever a container is, its counter says how often it has been handed out: at
each place of its way from `create` to `Acquire` to `Release` and back there is
one relation between the two (`Call.Counted`).  A container on its way to a job
has been handed out less often than the limit (`Spare`), so the limit is never
passed (`recycled`).
-/

namespace Aicv.Pool

open Transition

/-- How often `Acquire` has returned the container in a history. -/
def handouts (h : Program.History World Call Event) (id : String) : ℕ :=
  h.countP fun step => decide (step.2 = .act (.acquireReturn (.ok id)) .ret)

/-- The container has been handed out as often as its counter says, and may be
handed out again. -/
def Spare (n : ℤ) (jobs : String → ℤ) (outs : String → ℕ) (id : String) : Prop :=
  (outs id : ℤ) = jobs id ∧ jobs id < n

/-- What the counter of the container a call owns says about its hand-outs. -/
def Call.Counted (n : ℤ) (jobs : String → ℤ) (outs : String → ℕ) : Call → Prop
  | .growStart _ id | .growUnstart _ id _ | .growRegister _ id => outs id = 0
  | .prewarmSend _ id | .acquireReturn (.ok id) | .releaseSend id => Spare n jobs outs id
  | .holding id => (outs id : ℤ) = jobs id + 1
  | .release id => (outs id : ℤ) = jobs id
  | _ => True

/-- The counter of a container. -/
def World.jobs (g : World) (id : String) : ℤ := (g.pool.cells id).jobs

section
variable {cfg : Config} {ok : Soup World Call → Label Call Event → Prop}
  {g g' : World} {c : Call} {e : Event} {cs ps : Multiset Call} {n : ℤ} {jobs jobs' : String → ℤ}
  {outs outs' : String → ℕ} {h : Program.History World Call Event} {s : Soup World Call}

theorem counted_congr (heq : ∀ id ∈ c.owned, jobs' id = jobs id ∧ outs' id = outs id)
    (hc : c.Counted n jobs outs) : c.Counted n jobs' outs' := by
  revert hc heq
  fun_cases Call.Counted n jobs outs c
  all_goals intro heq hc
  all_goals simp_all [Call.Counted, Spare, Call.owned, Call.held, Call.creating]

/-! ## What a step does to the counters -/

theorem handouts_cons (l : Label Call Event) (id : String) :
    handouts ((s, l) :: h) id =
      handouts h id + if l = .act (.acquireReturn (.ok id)) .ret then 1 else 0 := by
  simp [handouts, List.countP_cons]

/-- A hand-out is a return of `Acquire`, which owns the container. -/
theorem handouts_of_not_owned {id : String} (hid : id ∉ c.owned) :
    handouts ((s, .act c e) :: h) id = handouts h id := by
  rw [handouts_cons, if_neg, Nat.add_zero]
  rintro ⟨⟩
  simp [Call.owned, Call.held, Call.creating] at hid

theorem handouts_of_ne (he : e ≠ .ret) : handouts ((s, .act c e) :: h) = handouts h := by
  funext id
  rw [handouts_cons, if_neg, Nat.add_zero]
  rintro ⟨⟩
  exact he rfl

/-- A call changes the counter of no container but the one it owns. -/
theorem Call.Step.jobs_eq (hs : Call.Step cfg g c e g' cs) {id : String} (hid : id ∉ c.owned) :
    g'.jobs id = g.jobs id := by
  cases hs with
  | @register w id' =>
      have hne : id ≠ id' := by simpa [Call.owned, Call.held, Call.creating] using hid
      simp [World.jobs, register_jobs, hne]
  | @release id' =>
      have hne : id ≠ id' := by simpa [Call.owned, Call.held, Call.creating] using hid
      simp [World.jobs, finishJob_jobs, hne]
  | growReserve hr =>
      obtain ⟨-, -, rfl⟩ := reserve_ok.mp hr
      rfl
  | fastRecv | waitRecv => simp [World.jobs, recv]
  | discard => simp [World.jobs]
  | _ => rfl

theorem spare_of_parks {id : String} (hc : c.Counted n jobs outs) (hid : id ∈ c.parks) :
    Spare n jobs outs id := by
  cases c with
  | prewarmSend | releaseSend =>
      obtain rfl := Multiset.mem_singleton.mp hid
      exact hc
  | _ => cases Multiset.notMem_zero _ hid

theorem counted_refused (w : Grower) (e : Error) : (w.refused e).Counted n jobs outs := by
  cases w <;> cases e <;> trivial

theorem counted_grown (w : Grower) {id : String} (hid : Spare n jobs outs id) :
    (w.grown id).Counted n jobs outs := by
  cases w <;> exact hid

/-- `Release` keeps a container that has not reached the limit. -/
theorem lt_of_not_spent {jobs : ℤ} (hn : 0 < cfg.maxJobsPerContainer)
    (h : cfg.jobsSpent jobs = false) : jobs < cfg.maxJobsPerContainer := by
  simp only [Config.jobsSpent, gt_iff_lt, hn, decide_true, Bool.true_and,
    decide_eq_false_iff_not, ge_iff_le, not_le] at h
  exact h

/-- A step that is no return of a call keeps the counters right. -/
theorem Call.Step.counted (hs : Call.Step cfg g c e g' cs) (hn : 0 < cfg.maxJobsPerContainer)
    (hnew : ∀ id ∉ g.backend.issued, outs id = 0)
    (hidle : ∀ id ∈ g.pool.idle, Spare cfg.maxJobsPerContainer g.jobs outs id)
    (hc : c.Counted cfg.maxJobsPerContainer g.jobs outs) (hne : e ≠ .ret) :
    ∀ c' ∈ cs, c'.Counted cfg.maxJobsPerContainer g'.jobs outs := by
  intro c' hc'
  cases hs with
  | prewarmEnd | returnOk | returnErr | closeRet => exact absurd rfl hne
  | releaseDead | releaseSend | removeByIDGone | discardRemove | closeAgain =>
      cases Multiset.notMem_zero _ hc'
  | createOk hid =>
      obtain rfl := Multiset.mem_singleton.mp hc'
      exact hnew _ hid
  | startOk | startErr =>
      obtain rfl := Multiset.mem_singleton.mp hc'
      exact hc
  | growRefused | giveBack =>
      obtain rfl := Multiset.mem_singleton.mp hc'
      exact counted_refused _ _
  | register =>
      obtain rfl := Multiset.mem_singleton.mp hc'
      have hzero : outs _ = 0 := hc
      exact counted_grown _ ⟨by simp [World.jobs, register_jobs, hzero],
        by simpa [World.jobs, register_jobs] using hn⟩
  | fastRecv hhd | waitRecv hhd =>
      obtain rfl := Multiset.mem_singleton.mp hc'
      simpa [Call.Counted, Spare, World.jobs, recv] using hidle _ (List.mem_of_mem_head? hhd)
  | cancel hcancel =>
      obtain rfl := Multiset.mem_singleton.mp hc'
      cases hcancel <;> exact hc
  | release =>
      obtain rfl := Multiset.mem_singleton.mp hc'
      simpa [Call.Counted, World.jobs, finishJob_jobs] using hc
  | releaseKeep _ hkeep =>
      obtain rfl := Multiset.mem_singleton.mp hc'
      exact ⟨hc, lt_of_not_spent hn (Bool.or_eq_false_iff.mp hkeep).2⟩
  | _ =>
      obtain rfl := Multiset.mem_singleton.mp hc'
      trivial

/-- A hand-out is counted before the holder has the container. -/
theorem Call.Step.counted_ret (hs : Call.Step cfg g c .ret g' cs)
    (hc : c.Counted n g.jobs (handouts h)) :
    ∀ c' ∈ cs, c'.Counted n g'.jobs (handouts ((s, .act c .ret) :: h)) := by
  intro c' hc'
  cases hs with
  | returnOk =>
      obtain rfl := Multiset.mem_singleton.mp hc'
      simp only [Call.Counted, handouts_cons, if_pos]
      push_cast
      rw [hc.1]
  | prewarmEnd | returnErr | closeRet => cases Multiset.notMem_zero _ hc'

/-- A container in the idle channel was there or has just been sent. -/
theorem Call.Step.parked (hs : Call.Step cfg g c e g' cs) {id : String}
    (hid : id ∈ g'.pool.idle) :
    id ∈ g.pool.idle ∨ id ∈ c.parks ∧ e = .send ∧ g'.jobs = g.jobs := by
  cases hs with
  | prewarmSend | releaseSend =>
      rcases List.mem_append.mp hid with hid | hid
      · exact .inl hid
      · rw [List.mem_singleton.mp hid]
        exact .inr ⟨Multiset.mem_singleton_self _, rfl, rfl⟩
  | growReserve hr =>
      obtain ⟨-, -, rfl⟩ := reserve_ok.mp hr
      exact .inl hid
  | fastRecv | waitRecv => exact .inl (List.mem_of_mem_tail hid)
  | discard => exact .inl (by simpa using hid)
  | _ => exact .inl hid

/-! ## The counters of every run -/

/-- The history agrees with the counters, and no container has been handed out
more often than `n` times. -/
structure Recycled (n : ℤ) (h : Program.History World Call Event) (s : Soup World Call) :
    Prop where
  le : ∀ id, (handouts h id : ℤ) ≤ n
  new : ∀ id ∉ s.shared.backend.issued, handouts h id = 0
  idle : ∀ id ∈ s.shared.pool.idle, Spare n s.shared.jobs (handouts h) id
  calls : ∀ c ∈ s.procs, c.Counted n s.shared.jobs (handouts h)

/-- A step with which the history grows. -/
theorem Recycled.act (hn : 0 < cfg.maxJobsPerContainer) (hown : Owned ⟨g, c ::ₘ ps⟩)
    (hi : Recycled cfg.maxJobsPerContainer h ⟨g, c ::ₘ ps⟩) (hs : Call.Step cfg g c e g' cs) :
    Recycled cfg.maxJobsPerContainer ((⟨g, c ::ₘ ps⟩, .act c e) :: h) ⟨g', cs + ps⟩ := by
  have hc := hi.calls c (Multiset.mem_cons_self _ _)
  -- what the call does not own, it does not count
  have hframe {id : String} (hid : id ∉ c.owned) :
      g'.jobs id = g.jobs id ∧ handouts ((⟨g, c ::ₘ ps⟩, .act c e) :: h) id = handouts h id :=
    ⟨hs.jobs_eq hid, handouts_of_not_owned hid⟩
  refine ⟨fun id => ?_, fun id hid => ?_, fun id hid => ?_, fun q hq => ?_⟩
  · rw [handouts_cons]
    split
    next hl =>
      obtain ⟨rfl, rfl⟩ : c = .acquireReturn (.ok id) ∧ e = .ret := by simpa using hl
      have hspare : Spare cfg.maxJobsPerContainer g.jobs (handouts h) id := hc
      push_cast
      rw [hspare.1]
      exact hspare.2
    next => exact hi.le id
  · have hold : id ∉ g.backend.issued := fun h => hid (hs.issued_subset h)
    have hnot : id ∉ c.owned := fun h =>
      hold (hown.issued id (ids.mem_all.mpr (.inr ⟨c, Multiset.mem_cons_self _ _, h⟩)))
    rw [(hframe hnot).2]
    exact hi.new id hold
  · rcases hs.parked hid with hid | ⟨hid, rfl, hjobs⟩
    · have hnot : id ∉ c.owned := fun h => (Tokens.not_mem_of_mem hown.nodup h).1 hid
      rw [Spare, (hframe hnot).1, (hframe hnot).2]
      exact hi.idle id hid
    · show Spare cfg.maxJobsPerContainer g'.jobs _ id
      have hne : Event.send ≠ .ret := nofun
      rw [hjobs, handouts_of_ne hne]
      exact spare_of_parks hc hid
  · rcases Multiset.mem_add.mp hq with hq | hq
    · by_cases he : e = .ret
      · subst he
        exact hs.counted_ret hc q hq
      · rw [handouts_of_ne he]
        exact hs.counted hn hi.new hi.idle hc he q hq
    · refine counted_congr (fun id hid => hframe fun h => ?_)
        (hi.calls q (Multiset.mem_cons_of_mem hq))
      exact (Tokens.not_mem_of_mem hown.nodup h).2 q hq hid

theorem recycled_counters (hn : 0 < cfg.maxJobsPerContainer)
    (ht : (calls cfg).system.Trace ok h s) : Recycled cfg.maxJobsPerContainer h s := by
  refine Program.trace_invariant (fun s hs => ?_) (fun h g p g' ps ht hi _ hc => ?_)
    (fun h g p e g' qs ps ht hi _ hs => hi.act hn (owned ht.reach) hs) ht
  · obtain ⟨-, -, rfl⟩ := init_iff.mp hs
    refine ⟨fun _ => hn.le, fun _ _ => rfl, fun id hid => ?_, fun c hc => ?_⟩
    · cases hid
    · obtain rfl := Multiset.mem_singleton.mp hc
      trivial
  · obtain ⟨rfl, -, -⟩ := hc.owned
    have hsame : handouts ((⟨g', ps⟩, .call p) :: h) = handouts h := by
      funext id
      rw [handouts_cons, if_neg nofun, Nat.add_zero]
    have hp : p.Counted cfg.maxJobsPerContainer g'.jobs (handouts h) := by cases hc <;> trivial
    exact ⟨hsame ▸ hi.le, hsame ▸ hi.new, hsame ▸ hi.idle,
      hsame ▸ Multiset.forall_mem_cons.mpr ⟨hp, hi.calls⟩⟩

/-- With a limit of `n` jobs for each container, no container is handed out more
than `n` times, and each container in the idle channel has been handed out less
often, which is how many jobs it has served. -/
theorem recycled (hn : 0 < cfg.maxJobsPerContainer)
    (ht : (calls cfg).system.Trace System.Any h s) :
    (∀ id, (handouts h id : ℤ) ≤ cfg.maxJobsPerContainer) ∧
      ∀ id ∈ s.shared.pool.idle, (handouts h id : ℤ) < cfg.maxJobsPerContainer ∧
        (handouts h id : ℤ) = (s.shared.pool.cells id).jobs := by
  have hr := recycled_counters hn ht
  exact ⟨hr.le, fun id hid => ⟨(hr.idle id hid).1 ▸ (hr.idle id hid).2, (hr.idle id hid).1⟩⟩

end

/-- With a limit of two, a container that has served one job is parked. -/
theorem recycled_once : ∃ h s,
    (calls (Config.sized 0 1 2)).system.Trace System.Any h s ∧
      s.shared.pool.idle = ["a"] ∧ handouts h "a" = 1 := by
  let cfg := Config.sized 0 1 2
  obtain ⟨s, hs, hidle, hjobs⟩ := exists_reachable cfg (by decide)
    (Script.new ++ Script.acquireGrow cfg "a" ++ Script.releaseSend "a")
    (fun s => s.shared.pool.idle = ["a"] ∧ (s.shared.pool.cells "a").jobs = 1)
    (by decide +kernel)
  obtain ⟨h, ht⟩ := hs.exists_trace
  refine ⟨h, s, ht, hidle, ?_⟩
  have hcount := ((recycled (by decide) ht).2 "a" (by simp [hidle])).2
  rw [hjobs] at hcount
  exact_mod_cast hcount

end Aicv.Pool
