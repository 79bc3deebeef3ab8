import Aicv.Env.Replay
import Aicv.Env.Reaping

/-!
# The table of deadlines

The table is keyed by containers, and containers go from job to job.  What keeps
the entries of different jobs apart is that a container has one owner, and that
every return path of `Run` after `Track` goes through `Untrack` before
`Release`.

A history says when a run has called `Track` and `Untrack` (`watches`).  Each
entry of the table is on a container that one run has, which has called `Track`
and not yet `Untrack`, and the deadline is the one of that `Track`
(`accounted`).  So the `Track` and the `Untrack` of a run never touch an entry
of another (`deadlines_exact`).
-/

namespace Aicv.Pool

/-- A call of `Acquire`, up to its return. -/
def Call.acquires : Call → Bool
  | .acquire _ | .acquireFast _ | .acquireWait _ | .acquireReturn _
  | .grow (.acquire _) | .growCreate (.acquire _) | .growStart (.acquire _) _
  | .growUnstart (.acquire _) _ _ | .growRegister (.acquire _) _
  | .growGiveBack (.acquire _) _ => true
  | _ => false

/-- Only a call of `Acquire` goes on with `Acquire`, or returns a container. -/
theorem Call.Step.acquires {cfg : Config} {g g' : World} {c c' : Call} {e : Event}
    {cs : Multiset Call} (h : Call.Step cfg g c e g' cs) (hc : c' ∈ cs)
    (hacq : c'.acquires = true ∨ ∃ id, c' = .holding id) : c.acquires = true := by
  cases h with
  | returnErr | releaseDead | releaseSend | removeByIDGone | discardRemove | closeAgain | closeRet
  | prewarmEnd => cases Multiset.notMem_zero _ hc
  | @growRefused w | @giveBack w | @register w | @growReserve w | @createOk w | @createErr w
  | @startOk w | @startErr w | @unstart w =>
      cases Multiset.mem_singleton.mp hc
      cases w with
      | new => simp [Call.acquires, Grower.refused, Grower.grown] at hacq
      | acquire => rfl
  | cancel hcancel => cases hcancel <;> rfl
  | _ =>
      cases Multiset.mem_singleton.mp hc
      first
      | rfl
      | simp [Call.acquires] at hacq

end Aicv.Pool

namespace Aicv.Env

open Transition Pool Ttl Pipeline

/-! ## The calls of `Track` and `Untrack` -/

/-- The calls of `Track` and `Untrack` that a run has made in a history, the last
first: for a `Track`, what the clock read. -/
def watches (job : JobId) (h : Program.History World Proc Event) : List (Option ℤ) :=
  h.filterMap fun
    | (s, .act (.run r _) .track) =>
        if r.id = job ∧ r.grace.isSome = true then some (some s.shared.clock) else none
    | (_, .act (.run r _) .untrack) =>
        if r.id = job ∧ r.grace.isSome = true then some none else none
    | _ => none

/-- A run before its `Track`. -/
def Proc.fresh : Proc → Bool
  | .run _ (.track _) => true
  | .run _ (.inPool c) => c.acquires
  | _ => false

section
variable {cfg : Config} {ok : Soup World Proc → Label Proc Event → Prop}
  {g g' : World} {p : Proc} {e : Event} {ps qs : Multiset Proc}
  {h : Program.History World Proc Event} {s : Soup World Proc} {job : JobId}

/-- The other steps of a run are no calls of the manager. -/
theorem watches_of_ne (ht : e ≠ .track) (hu : e ≠ .untrack) :
    watches job ((s, .act p e) :: h) = watches job h := by
  refine List.filterMap_cons_none ?_
  split
  · cases ‹(_, _) = _›
    exact absurd rfl ht
  · cases ‹(_, _) = _›
    exact absurd rfl hu
  · rfl

/-- The steps of other runs do not count. -/
theorem watches_of_job_ne (hne : p.job ≠ some job) :
    watches job ((s, .act p e) :: h) = watches job h := by
  refine List.filterMap_cons_none ?_
  split
  · cases ‹(_, _) = _›
    exact if_neg fun ⟨hr, _⟩ => hne (congrArg some hr)
  · cases ‹(_, _) = _›
    exact if_neg fun ⟨hr, _⟩ => hne (congrArg some hr)
  · rfl

theorem watches_track {r : Run} {ph : Phase} (hsome : r.grace.isSome = true) :
    watches r.id ((s, .act (.run r ph) .track) :: h) = some s.shared.clock :: watches r.id h :=
  List.filterMap_cons_some (if_pos ⟨rfl, hsome⟩)

/-! ## The ids of runs -/

/-- Each run holds its id. -/
def jobs : Tokens World Proc JobId := ⟨fun _ => 0, fun p => p.job.toList⟩

theorem mem_jobs : job ∈ jobs.proc p ↔ p.job = some job := by
  simp [jobs, Option.mem_toList]

theorem bind_jobs_le {f : Call → Proc} (hf : ∀ c, jobs.proc (f c) = jobs.proc p)
    {cs : Multiset Call} (hcs : cs.card ≤ 1) : (cs.map f).bind jobs.proc ≤ jobs.proc p := by
  rcases Nat.le_one_iff_eq_zero_or_eq_one.mp hcs with hcs | hcs
  · simp [Multiset.card_eq_zero.mp hcs]
  · obtain ⟨c, rfl⟩ := Multiset.card_eq_one.mp hcs
    simp [hf]

/-- A run stays itself, and no process becomes a run. -/
theorem Proc.Step.jobs (h : Proc.Step cfg g p e g' qs) :
    qs.bind jobs.proc ≤ jobs.proc p ∧ g'.runs = g.runs := by
  cases h with
  | opening hs | inPool hs | killing hs | closing hs =>
      refine ⟨bind_jobs_le ?_ hs.card_le, rfl⟩
      exact fun _ => rfl
  | ctxDone => exact ⟨Multiset.zero_le _, rfl⟩
  | _ =>
      rw [Multiset.singleton_bind]
      exact ⟨le_rfl, rfl⟩

/-- Each run has an id of its own, from the counter. -/
theorem jobs_nodup (h : (processes cfg).system.Reach ok s) :
    (jobs.all s).Nodup ∧ ∀ job ∈ jobs.all s, job < s.shared.runs := by
  refine Program.invariant
    (I := fun s => (jobs.all s).Nodup ∧ ∀ job ∈ jobs.all s, job < s.shared.runs)
    (fun s hs => ?_) (fun g p g' ps _ hi _ hc => ?_) (fun g p e g' qs ps _ hi _ hs => ?_) h
  · obtain ⟨-, -, rfl⟩ := hs
    decide
  · cases hc with
    | @run r ctx _ hid =>
        have hall :
            jobs.all ⟨{ g with runs := g.runs + 1 }, .run r (.inPool (.acquire ctx)) ::ₘ ps⟩ =
              g.runs ::ₘ jobs.all ⟨g, ps⟩ := by
          simp [Tokens.all, jobs, Proc.job, hid]
        rw [hall, Multiset.nodup_cons, Multiset.forall_mem_cons]
        exact ⟨⟨fun hmem => lt_irrefl _ (hi.2 _ hmem), hi.1⟩, Nat.lt_succ_self _,
          fun job hjob => (hi.2 job hjob).trans (Nat.lt_succ_self _)⟩
    | close =>
        rw [Tokens.all_cons]
        exact hi
  · obtain ⟨hle, hruns⟩ := hs.jobs
    have hle' : jobs.shared g' + qs.bind jobs.proc ≤ jobs.shared g + jobs.proc p := by
      rwa [show jobs.shared g' = 0 from rfl, show jobs.shared g = 0 from rfl, zero_add, zero_add]
    refine ⟨Tokens.nodup_act hle' hi.1, fun job hjob => ?_⟩
    rw [show (Soup.mk g' (qs + ps)).shared.runs = g.runs from hruns]
    exact hi.2 job (Multiset.mem_of_le (Tokens.all_act_le hle') hjob)

/-- No other process is the same run. -/
theorem job_ne (h : (processes cfg).system.Reach ok ⟨g, p ::ₘ ps⟩) (hjob : p.job = some job)
    {q : Proc} (hq : q ∈ ps) : q.job ≠ some job := by
  intro hq'
  exact (Tokens.not_mem_of_mem (jobs_nodup h).1 (mem_jobs.mpr hjob)).2 q hq (mem_jobs.mpr hq')

/-! ## Whose deadline it is -/

theorem fresh_next (r : Run) (id : String) (exitCode : ℤ) (dur : Duration) (st : Stage) :
    (Proc.run r (Phase.next r id exitCode dur st)).fresh = false := by
  cases st with
  | compile =>
      simp only [Phase.next]
      split <;> rfl
  | execute => rfl

/-- A run that is before its `Track` was so before the step, and has made no call of
the manager with it. -/
theorem Proc.Step.fresh (h : Proc.Step cfg g p e g' qs) {q : Proc} (hq : q ∈ qs)
    (hfresh : q.fresh = true) :
    p.fresh = true ∧ q.job = p.job ∧ e ≠ .track ∧ e ≠ .untrack := by
  cases h with
  | @inPool r c e pool cs hs =>
      obtain ⟨c', hc', rfl⟩ := Multiset.mem_map.mp hq
      refine ⟨hs.acquires hc' ?_, rfl, nofun, nofun⟩
      cases c' with
      | holding id => exact .inr ⟨id, rfl⟩
      | _ => exact .inl hfresh
  | opening | killing | closing =>
      obtain ⟨c', -, rfl⟩ := Multiset.mem_map.mp hq
      cases hfresh
  | ctxDone => cases Multiset.notMem_zero _ hq
  | @waitRet r id st exitCode dur =>
      cases Multiset.mem_singleton.mp hq
      rw [fresh_next] at hfresh
      cases hfresh
  | _ =>
      cases Multiset.mem_singleton.mp hq
      cases hfresh

/-- The run has the container of the entry, and the entry holds the deadline of
the one `Track` the run has called.  It has not called `Untrack`. -/
def Keeps (h : Program.History World Proc Event) (t : Tracked JobId) (p : Proc) : Prop :=
  ∃ r ph grace start, p = .run r ph ∧ p.tracks = some (t.tag, t.id) ∧ r.grace = some grace ∧
    watches t.tag h = [some start] ∧ t.deadline = start + (r.job.ttl + grace).toInt

theorem Keeps.job_eq {t : Tracked JobId} (hk : Keeps h t p) : p.job = some t.tag := by
  obtain ⟨r, ph, grace, start, -, htr, -⟩ := hk
  exact (holding_of_tracks htr).1

/-- What the history says about the runs and the entries of the table. -/
structure Chronicle (h : Program.History World Proc Event) (s : Soup World Proc) : Prop where
  unborn : ∀ job, s.shared.runs ≤ job → watches job h = []
  fresh : ∀ p ∈ s.procs, p.fresh = true → ∀ job, p.job = some job → watches job h = []
  entry : ∀ t ∈ s.shared.reaper.deadlines, ∃ p ∈ s.procs, Keeps h t p

theorem Proc.Step.stays_run {r : Run} {ph : Phase} (h : Proc.Step cfg g (.run r ph) e g' qs)
    {q : Proc} (hq : q ∈ qs) : ∃ ph', q = .run r ph' := by
  cases h with
  | inPool =>
      obtain ⟨c', -, rfl⟩ := Multiset.mem_map.mp hq
      exact ⟨_, rfl⟩
  | _ => exact ⟨_, Multiset.mem_singleton.mp hq⟩

/-- The run of an entry keeps it up, or takes it out of the table. -/
theorem Proc.Step.keeps (hs : Proc.Step cfg g p e g' qs) {t : Tracked JobId} (hk : Keeps h t p)
    (ht : t ∈ g'.reaper.deadlines) :
    ∃ q ∈ qs, Keeps ((⟨g, p ::ₘ ps⟩, .act p e) :: h) t q := by
  obtain ⟨r, ph, grace, start, rfl, htr, hsome, hwatch, hd⟩ := hk
  rcases hs.tracks htr with ⟨hne, hne', q, hq, htr'⟩ | hgone
  · obtain ⟨ph', rfl⟩ := hs.stays_run hq
    refine ⟨_, hq, r, ph', grace, start, rfl, htr', hsome, ?_, hd⟩
    rw [watches_of_ne hne hne', hwatch]
  · simp [hgone] at ht

theorem chronicle (ht : (processes cfg).system.Trace ok h s) : Chronicle h s := by
  refine Program.trace_invariant (fun s hs => ?_) (fun h g p g' ps ht hi _ hc => ?_)
    (fun h g p e g' qs ps ht hi _ hs => ?_) ht
  · obtain ⟨-, -, rfl⟩ := hs
    refine ⟨fun _ _ => rfl, fun _ _ _ _ _ => rfl, fun t ht => ?_⟩
    cases ht
  · have hold : ∀ t ∈ g.reaper.deadlines, ∃ q ∈ p ::ₘ ps, Keeps ((⟨g, ps⟩, .call p) :: h) t q :=
      fun t ht => (hi.entry t ht).imp fun q hq => ⟨Multiset.mem_cons_of_mem hq.1, hq.2⟩
    have hfresh : ∀ q ∈ ps, q.fresh = true → ∀ job, q.job = some job → watches job h = [] :=
      hi.fresh
    cases hc with
    | @run r ctx _ hid =>
        refine ⟨fun job hjob => hi.unborn job ((Nat.le_succ _).trans hjob), ?_, hold⟩
        refine Multiset.forall_mem_cons.mpr ⟨fun _ job hjob => ?_, hfresh⟩
        obtain rfl : r.id = job := Option.some.inj hjob
        exact hi.unborn r.id hid.ge
    | close => exact ⟨hi.unborn, Multiset.forall_mem_cons.mpr ⟨nofun, hfresh⟩, hold⟩
  · have hmem : p ∈ (⟨g, p ::ₘ ps⟩ : Soup World Proc).procs := Multiset.mem_cons_self _ _
    refine ⟨fun job hjob => ?_, fun q hq hfresh job hjob => ?_, fun t ht' => ?_⟩
    · rw [show (Soup.mk g' (qs + ps)).shared.runs = g.runs from hs.jobs.2] at hjob
      rw [watches_of_job_ne fun hp => ?_]
      · exact hi.unborn job hjob
      · refine absurd ((jobs_nodup ht.reach).2 job ?_) (not_lt.mpr hjob)
        exact jobs.mem_all.mpr (.inr ⟨p, hmem, mem_jobs.mpr hp⟩)
    · rcases Multiset.mem_add.mp hq with hq | hq
      · obtain ⟨hp, hsame, hne, hne'⟩ := hs.fresh hq hfresh
        rw [watches_of_ne hne hne']
        exact hi.fresh p hmem hp job (hsame ▸ hjob)
      · rw [watches_of_job_ne fun hp => job_ne ht.reach hp hq hjob]
        exact hi.fresh q (Multiset.mem_cons_of_mem hq) hfresh job hjob
    · rcases hs.deadlines ht' with hold | ⟨r, grace, rfl, rfl, hsome, htag, hd, rfl⟩
      · obtain ⟨q, hq, hk⟩ := hi.entry t hold
        rcases Multiset.mem_cons.mp hq with rfl | hq
        · obtain ⟨q', hq', hk'⟩ := hs.keeps hk ht'
          exact ⟨q', Multiset.mem_add.mpr (.inl hq'), hk'⟩
        · refine ⟨q, Multiset.mem_add.mpr (.inr hq), ?_⟩
          have hne : p.job ≠ some t.tag := fun hp => job_ne ht.reach hp hq hk.job_eq
          obtain ⟨r, ph, grace, start, hrun, htr, hsome, hwatch, hd⟩ := hk
          exact ⟨r, ph, grace, start, hrun, htr, hsome, by rw [watches_of_job_ne hne, hwatch], hd⟩
      · refine ⟨_, Multiset.mem_add.mpr (.inl (Multiset.mem_singleton_self _)), r, _, grace,
          g.clock, rfl, ?_, hsome, ?_, hd⟩
        · simp [Proc.tracks, hsome, htag]
        · rw [htag, watches_track (by simp [hsome]), hi.fresh _ hmem rfl r.id rfl]

/-- One run has the container of the entry, and nobody else.  It has called
`Track` once and not yet `Untrack`, and the entry holds the deadline of that
`Track`.  The sum is the one of `time.Duration`. -/
def Accounted (h : Program.History World Proc Event) (s : Soup World Proc) (t : Tracked JobId) :
    Prop :=
  ∃ r ph ps grace start, s.procs = .run r ph ::ₘ ps ∧ r.id = t.tag ∧
    .holding t.id ∈ (Proc.run r ph).calls ∧ r.grace = some grace ∧
    watches r.id h = [some start] ∧ t.deadline = start + (r.job.ttl + grace).toInt ∧
    t.id ∉ s.shared.pool.pool.idle ∧
    ∀ q ∈ ps, q.job ≠ some r.id ∧ t.id ∉ q.calls.bind Call.owned

theorem accounted (ht : (processes cfg).system.Trace ok h s) {t : Tracked JobId}
    (hmem : t ∈ s.shared.reaper.deadlines) : Accounted h s t := by
  obtain ⟨p, hp, hk⟩ := (chronicle ht).entry t hmem
  have hjob := hk.job_eq
  obtain ⟨r, ph, grace, start, rfl, htr, hsome, hwatch, hd⟩ := hk
  obtain ⟨g, procs⟩ := s
  obtain ⟨ps, rfl⟩ := Multiset.exists_cons_of_mem hp
  have hid : r.id = t.tag := Option.some.inj hjob
  have hhas : .holding t.id ∈ (Proc.run r ph).calls := (holding_of_tracks htr).2
  have howns : t.id ∈ containers.proc (.run r ph) :=
    Multiset.mem_bind.mpr ⟨_, hhas, by simp [Call.owned, Call.held, Call.creating]⟩
  obtain ⟨hidle, hothers⟩ := Tokens.not_mem_of_mem (containers_nodup ht.reach) howns
  exact ⟨r, ph, ps, grace, start, rfl, hid, hhas, hsome, hid ▸ hwatch, hd, hidle,
    fun q hq => ⟨job_ne ht.reach (by rw [hjob, hid]) hq, hothers q hq⟩⟩

/-- Whoever has the container of the entry is the run of the entry. -/
theorem Accounted.job_eq {t : Tracked JobId} (hk : Accounted h s t) (hp : p ∈ s.procs)
    (hid : .holding t.id ∈ p.calls) : p.job = some t.tag := by
  obtain ⟨r, ph, ps, grace, start, hprocs, htag, -, -, -, -, -, hothers⟩ := hk
  rw [hprocs] at hp
  rcases Multiset.mem_cons.mp hp with rfl | hp
  · exact congrArg some htag
  · refine absurd ?_ (hothers p hp).2
    exact Multiset.mem_bind.mpr ⟨_, hid, by simp [Call.owned, Call.held, Call.creating]⟩

/-- No step of a run cancels or overwrites the deadline of another. -/
theorem keeps_others (ht : (processes cfg).system.Trace ok h s) {r : Run} {ph : Phase}
    {u : Soup World Proc} (hs : (processes cfg).system.Step s (.act (.run r ph) e) u)
    {t : Tracked JobId} (hmem : t ∈ s.shared.reaper.deadlines) (hne : t.tag ≠ r.id) :
    t ∈ u.shared.reaper.deadlines := by
  have hk := accounted ht hmem
  cases hs with
  | @act g g' p e ps qs hs =>
      have hother {id : String} (hid : .holding id ∈ (Proc.run r ph).calls) : t.id ≠ id := by
        rintro rfl
        exact hne (Option.some.inj (hk.job_eq (Multiset.mem_cons_self _ _) hid)).symm
      cases hs with
      | track | untrack => simp [World.withReaper, hmem, hother (Multiset.mem_singleton_self _)]
      | _ => exact hmem

/-- After any history each entry of the table is on a container that one run has,
which has called `Track` and not yet `Untrack`, and holds the deadline of that
`Track`.  No `Track` and no `Untrack`, and no other step of a run, touches the
entry of another run. -/
theorem deadlines_exact (ht : (processes cfg).system.Trace System.Any h s) :
    (∀ t ∈ s.shared.reaper.deadlines, Accounted h s t) ∧
      ∀ r ph e u, (processes cfg).system.Step s (.act (.run r ph) e) u →
        ∀ t ∈ s.shared.reaper.deadlines, t.tag ≠ r.id → t ∈ u.shared.reaper.deadlines :=
  ⟨fun _ => accounted ht, fun _ _ _ _ hs _ => keeps_others ht hs⟩

end

/-- A job ends and its container goes to the next one, which tracks it a second
later, while a third job has another container. -/
theorem deadlines_exact_two : ∃ h s, (processes (Config.sized 2 0)).system.Trace System.Any h s ∧
    (s.shared.reaper.deadlines.map fun t => (t.id, t.deadline)) =
      [("b", 91000000000), ("a", 91000000000)] ∧
    ∀ t ∈ s.shared.reaper.deadlines, Accounted h s t := by
  let cfg := Config.sized 2 0
  let r (id : JobId) : Run := ⟨id, ⟨.rust, [("Cargo.toml", "")], 60000000000⟩, some cfg.grace⟩
  obtain ⟨s, hs, hmap⟩ := exists_reach cfg (by decide) (fun _ _ => true)
    (Script.newEnv ++ (Pool.Script.acquireGrow cfg.pool "a").map (Script.inRun (r 0)) ++
      Script.compile (r 0) "a" ++ Script.compileFails (r 0) "a" ++ Script.unwind (r 0) "a" ++
      (Pool.Script.releaseSend "a").map (Script.inRun (r 0)) ++
      [.act .runtime (.pass 1000000000)] ++
      Pool.Script.acquireParked.map (Script.inRun (r 1)) ++
      [.act (.run (r 1) (.inPool (.acquireReturn (.ok "a")))) (.pool .ret)] ++
      Script.compile (r 1) "a" ++
      (Pool.Script.acquireGrow cfg.pool "b").map (Script.inRun (r 2)) ++ Script.compile (r 2) "b")
    (fun s => (s.shared.reaper.deadlines.map fun t => (t.id, t.deadline)) =
      [("b", 91000000000), ("a", 91000000000)])
    (by decide +kernel)
  obtain ⟨h, ht⟩ := hs.reachable.exists_trace
  exact ⟨h, s, ht, hmap, (deadlines_exact ht).1⟩

end Aicv.Env
