import Aicv.Env.Projection
import Aicv.Env.Replay

/-!
# What the reaper removes

A sweep takes the expired ids out of the table in one critical section and kills
them later, without the lock.  In between, a job whose id was taken may finish
and call `Release`.  The kill then removes a container that is parked, or that
the next job is using.

A kill removes only a container that the job whose deadline expired has checked
out, as long as no job calls `Release` on a container that a sweep has selected
and not yet deleted (`releasesUnselected`, `reaps_checked_out`).  An entry of the
table belongs to a run between its `Track` and its `Untrack` (`tracked`), and so
the run has the container when the sweep selects it.
-/

namespace Aicv.Pool

/-- The container a call of `RemoveByID` is removing. -/
def Call.removing : Call → Option String
  | .removeByID id | .discard .removeByID id | .discardRemove .removeByID id => some id
  | _ => none

/-- `RemoveByID`, before it has deleted its container or found it gone. -/
def Call.undecided : Call → Bool
  | .removeByID _ | .discard .removeByID _ => true
  | _ => false

/-- A call of `RemoveByID` keeps its id, and no call becomes one. -/
theorem Call.Step.removing {cfg : Config} {g g' : World} {c c' : Call} {e : Event}
    {cs : Multiset Call} (h : Call.Step cfg g c e g' cs) (hc : c' ∈ cs) :
    c'.removing = c.removing ∧ (c'.undecided = true → c.undecided = true) := by
  cases h with
  | removeByIDFound =>
      cases Multiset.mem_singleton.mp hc
      exact ⟨rfl, fun h => h⟩
  | @discard w id =>
      cases Multiset.mem_singleton.mp hc
      cases w with
      | release => exact ⟨rfl, fun h => h⟩
      | removeByID => exact ⟨rfl, fun _ => rfl⟩
  | @growRefused w e | @giveBack w e =>
      cases Multiset.mem_singleton.mp hc
      cases w <;> cases e <;> simp [Grower.refused, Call.removing, Call.undecided]
  | @register w =>
      cases Multiset.mem_singleton.mp hc
      cases w <;> simp [Grower.grown, Call.removing, Call.undecided]
  | cancel hcancel =>
      cases Multiset.mem_singleton.mp hc
      cases hcancel <;> simp [Call.removing, Call.undecided]
  | returnErr | releaseDead | releaseSend | removeByIDGone | discardRemove | closeAgain | closeRet
  | prewarmEnd => cases Multiset.notMem_zero _ hc
  | _ =>
      cases Multiset.mem_singleton.mp hc
      simp [Call.removing, Call.undecided]

end Aicv.Pool

namespace Aicv.Env

open Transition Pool Ttl Pipeline

/-! ## Who has a container, and who is to be killed -/

/-- The run a process is. -/
def Proc.job : Proc → Option JobId
  | .run r _ => some r.id
  | _ => none

/-- The run a process is and the container it watches, from `Track` to
`Untrack`. -/
def Proc.tracks : Proc → Option (JobId × String)
  | .run r (.prepare id _) | .run r (.copyIn id _) | .run r (.exec id _) | .run r (.wait id _)
  | .run r (.cleanup id) | .run r (.untrack id) => if r.grace.isSome then some (r.id, id) else none
  | _ => none

/-- The entries a sweep has selected and not yet dealt with. -/
def Proc.victims : Proc → Multiset (Tracked JobId)
  | .reaper (.kills todo) => todo
  | .reaper (.killing c v todo) => if c.undecided then v ::ₘ todo else todo
  | _ => 0

/-- No job calls `Release` on a container that a sweep has selected and not yet
deleted or found gone. -/
def releasesUnselected (s : Soup World Proc) : Label Proc Event → Bool
  | .act p (.pool .release) =>
      decide (∀ v ∈ s.procs.bind Proc.victims, .holding v.id ∉ p.calls)
  | _ => true

/-- The run has the container: `Acquire` has returned it, and the run has not
called `Release`. -/
def CheckedOut (s : Soup World Proc) (job : JobId) (id : String) : Prop :=
  ∃ p ∈ s.procs, p.job = some job ∧ .holding id ∈ p.calls

instance (s : Soup World Proc) (job : JobId) (id : String) : Decidable (CheckedOut s job id) :=
  Multiset.decidableExistsMultiset

section
variable {cfg : Config} {ok : Soup World Proc → Label Proc Event → Prop}
  {g g' : World} {p : Proc} {e : Event} {ps qs : Multiset Proc}

/-! ## Entries of the table -/

/-- A run that watches a container has it. -/
theorem holding_of_tracks {job : JobId} {id : String} (h : p.tracks = some (job, id)) :
    p.job = some job ∧ .holding id ∈ p.calls := by
  revert h
  fun_cases Proc.tracks p
  all_goals intro h
  all_goals cases h
  all_goals exact ⟨rfl, Multiset.mem_singleton_self _⟩

theorem tracks_next (r : Run) (id : String) (exitCode : ℤ) (dur : Duration) (st : Stage) :
    (Proc.run r (Phase.next r id exitCode dur st)).tracks =
      (Proc.run r (.wait id st)).tracks := by
  cases st with
  | compile =>
      simp only [Phase.next]
      split <;> rfl
  | execute => rfl

/-- A run watches its container until it takes the id out of the table. -/
theorem Proc.Step.tracks (h : Proc.Step cfg g p e g' qs) {job : JobId} {id : String}
    (ht : p.tracks = some (job, id)) :
    e ≠ .track ∧ e ≠ .untrack ∧ (∃ q ∈ qs, q.tracks = some (job, id)) ∨
      g'.reaper = g.reaper.untrack id := by
  cases h with
  | untrack hsome =>
      simp only [Proc.tracks, hsome] at ht
      cases ht
      exact .inr rfl
  | untrackNone hnone =>
      simp only [Proc.tracks, hnone] at ht
      cases ht
  | waitRet => exact .inl ⟨nofun, nofun, _, Multiset.mem_singleton_self _, by rwa [tracks_next]⟩
  | prepared | prepareErr | copied | copyErr | exec | execErr | waitErr | cleanup =>
      exact .inl ⟨nofun, nofun, _, Multiset.mem_singleton_self _, ht⟩
  | _ => cases ht

/-- A new entry of the table is made by the `Track` of a run. -/
theorem Proc.Step.deadlines (h : Proc.Step cfg g p e g' qs) {t : Tracked JobId}
    (ht : t ∈ g'.reaper.deadlines) :
    t ∈ g.reaper.deadlines ∨ ∃ r grace, p = .run r (.track t.id) ∧ e = .track ∧
      r.grace = some grace ∧ t.tag = r.id ∧ t.deadline = g.clock + (r.job.ttl + grace).toInt ∧
      qs = {.run r (.prepare t.id .compile)} := by
  cases h with
  | track hsome =>
      rcases Manager.mem_track.mp ht with rfl | ⟨ht, -⟩
      · exact .inr ⟨_, _, rfl, rfl, hsome, rfl, rfl, rfl⟩
      · exact .inl ht
  | untrack => exact .inl (Manager.mem_untrack.mp ht).1
  | lock => exact .inl (Manager.mem_forget.mp ht).1
  | _ => exact .inl ht

/-- Every entry of the table belongs to a run that watches its container. -/
def Watched (s : Soup World Proc) : Prop :=
  ∀ t ∈ s.shared.reaper.deadlines, ∃ p ∈ s.procs, p.tracks = some (t.tag, t.id)

theorem tracked {s : Soup World Proc} (h : (processes cfg).system.Reach ok s) : Watched s := by
  refine Program.invariant (fun s hs => ?_) (fun g p g' ps _ hi _ hc => ?_)
    (fun g p e g' qs ps _ hi _ hs => ?_) h
  · obtain ⟨-, -, rfl⟩ := hs
    intro t ht
    cases ht
  · intro t ht
    have hold : t ∈ g.reaper.deadlines := by cases hc <;> exact ht
    obtain ⟨q, hq, htr⟩ := hi t hold
    exact ⟨q, Multiset.mem_cons_of_mem hq, htr⟩
  · intro t ht
    rcases hs.deadlines ht with hold | ⟨r, grace, -, -, hsome, htag, -, rfl⟩
    · obtain ⟨q, hq, htr⟩ := hi t hold
      rcases Multiset.mem_cons.mp hq with rfl | hq
      · rcases hs.tracks htr with ⟨-, -, q', hq', htr'⟩ | hgone
        · exact ⟨q', Multiset.mem_add.mpr (.inl hq'), htr'⟩
        · simp [hgone] at ht
      · exact ⟨q, Multiset.mem_add.mpr (.inr hq), htr⟩
    · refine ⟨_, Multiset.mem_add.mpr (.inl (Multiset.mem_singleton_self _)), ?_⟩
      simp [Proc.tracks, hsome, htag]

/-! ## Victims -/

/-- The reaper's call of `RemoveByID` is on the id of its victim. -/
def Proc.aimed : Proc → Prop
  | .reaper (.killing c v _) => c.removing = some v.id
  | _ => True

theorem Proc.Step.aimed (h : Proc.Step cfg g p e g' qs) (hp : p.aimed) : ∀ q ∈ qs, q.aimed := by
  intro q hq
  cases h with
  | killing hs =>
      obtain ⟨c', hc', rfl⟩ := Multiset.mem_map.mp hq
      exact (hs.removing hc').1.trans hp
  | kill =>
      cases Multiset.mem_singleton.mp hq
      exact rfl
  | opening | inPool | closing =>
      obtain ⟨c', -, rfl⟩ := Multiset.mem_map.mp hq
      trivial
  | ctxDone => cases Multiset.notMem_zero _ hq
  | _ =>
      cases Multiset.mem_singleton.mp hq
      trivial

theorem aimed {s : Soup World Proc} (h : (processes cfg).system.Reach ok s) :
    ∀ p ∈ s.procs, p.aimed := by
  refine Program.forall_procs (fun s hs => ?_) (fun g p g' hc => ?_)
    (fun _ _ _ _ _ => Proc.Step.aimed) h
  · obtain ⟨-, -, rfl⟩ := hs
    simp [start, Proc.aimed]
  · cases hc <;> trivial

/-- A sweep selects its victims from the table. -/
theorem Proc.Step.victims (h : Proc.Step cfg g p e g' qs) {v : Tracked JobId}
    (hv : v ∈ qs.bind Proc.victims) : v ∈ p.victims ∨ e = .lock ∧ v ∈ g.reaper.deadlines := by
  obtain ⟨q, hq, hv⟩ := Multiset.mem_bind.mp hv
  cases h with
  | lock =>
      cases Multiset.mem_singleton.mp hq
      exact .inr ⟨rfl, (Manager.mem_expired.mp hv).1⟩
  | @kill victim todo hmem =>
      cases Multiset.mem_singleton.mp hq
      left
      simpa [Proc.victims, Call.undecided, Multiset.cons_erase hmem] using hv
  | @killing c victim todo e pool cs hs =>
      obtain ⟨c', hc', rfl⟩ := Multiset.mem_map.mp hq
      left
      have hund := (hs.removing hc').2
      simp only [Proc.victims] at hv ⊢
      split at hv
      next h' => rwa [if_pos (hund h')]
      next h' =>
        split
        next => exact Multiset.mem_cons_of_mem hv
        next => exact hv
  | @killed c victim todo =>
      cases Multiset.mem_singleton.mp hq
      left
      simp only [Proc.victims] at hv ⊢
      split
      next => exact Multiset.mem_cons_of_mem hv
      next => exact hv
  | opening | inPool | closing =>
      obtain ⟨c', -, rfl⟩ := Multiset.mem_map.mp hq
      cases Multiset.notMem_zero _ hv
  | ctxDone => cases Multiset.notMem_zero _ hq
  | _ =>
      cases Multiset.mem_singleton.mp hq
      cases Multiset.notMem_zero _ hv

/-- A run that has a container has it until it calls `Release`. -/
theorem Proc.Step.holds (h : Proc.Step cfg g p e g' qs) {job : JobId} {id : String}
    (hjob : p.job = some job) (hid : .holding id ∈ p.calls) :
    e = .pool .release ∨ ∃ q ∈ qs, q.job = some job ∧ .holding id ∈ q.calls := by
  cases h with
  | inPool hs =>
      cases Multiset.mem_singleton.mp hid
      cases hs with
      | release => exact .inl rfl
      | cancel hc => cases hc
  | waitRet =>
      refine .inr ⟨_, Multiset.mem_singleton_self _, hjob, ?_⟩
      rwa [calls_next]
  | opening | opened | killing | killed | closing => cases hjob
  | _ =>
      first
      | exact .inr ⟨_, Multiset.mem_singleton_self _, hjob, hid⟩
      | cases hjob

/-- The run whose deadline expired has the container of each victim. -/
def Waiting (s : Soup World Proc) : Prop :=
  ∀ v ∈ s.procs.bind Proc.victims, CheckedOut s v.tag v.id

theorem victims_checked_out {s : Soup World Proc}
    (h : (processes cfg).system.Reach (fun s l => releasesUnselected s l = true) s) :
    Waiting s := by
  refine Program.invariant (fun s hs => ?_) (fun g p g' ps _ hi _ hc => ?_)
    (fun g p e g' qs ps hr hi hok hs => ?_) h
  · obtain ⟨-, -, rfl⟩ := hs
    intro v hv
    simp [start, Proc.victims] at hv
  · intro v hv
    rw [Multiset.cons_bind, Multiset.mem_add] at hv
    obtain ⟨q, hq, hhas⟩ := hi v (hv.resolve_left (by cases hc <;> exact Multiset.notMem_zero _))
    exact ⟨q, Multiset.mem_cons_of_mem hq, hhas⟩
  · intro v hv
    have hsel : v ∈ (p ::ₘ ps).bind Proc.victims ∨ e = .lock ∧ v ∈ g.reaper.deadlines := by
      rw [Multiset.add_bind, Multiset.mem_add] at hv
      rw [Multiset.cons_bind, Multiset.mem_add]
      rcases hv with hv | hv
      · exact (hs.victims hv).imp_left .inl
      · exact .inl (.inr hv)
    -- a victim that is selected now is watched by its run
    have hbefore : CheckedOut ⟨g, p ::ₘ ps⟩ v.tag v.id := by
      rcases hsel with hsel | ⟨-, hsel⟩
      · exact hi v hsel
      · obtain ⟨q, hq, htr⟩ := tracked hr v hsel
        exact ⟨q, hq, holding_of_tracks htr⟩
    obtain ⟨q, hq, hjob, hid⟩ := hbefore
    rcases Multiset.mem_cons.mp hq with rfl | hq
    · rcases hs.holds hjob hid with rfl | ⟨q', hq', hhas⟩
      · rcases hsel with hsel | ⟨h, -⟩
        · exact absurd hid (of_decide_eq_true hok v hsel)
        · cases h
      · exact ⟨q', Multiset.mem_add.mpr (.inl hq'), hhas⟩
    · exact ⟨q, Multiset.mem_add.mpr (.inr hq), hjob, hid⟩

/-- If no job calls `Release` on a container that a sweep has selected and not
yet deleted, then a kill that deletes a container deletes one that the run whose
deadline expired has checked out.  It is not parked, and no other run has it. -/
theorem reaps_checked_out {s t : Soup World Proc}
    (h : (processes cfg).system.Reach (fun s l => releasesUnselected s l = true) s)
    {id : String} {v : Tracked JobId} {todo : Multiset (Tracked JobId)}
    (hs : (processes cfg).system.Step s
      (.act (.reaper (.killing (.discard .removeByID id) v todo)) (.pool .lock)) t) :
    CheckedOut s v.tag id ∧ id ∉ s.shared.pool.pool.idle ∧
      ∀ p ∈ s.procs, id ∈ p.calls.bind Call.owned → p.job = some v.tag := by
  have hmem : .reaper (.killing (.discard .removeByID id) v todo) ∈ s.procs := by
    cases hs
    exact Multiset.mem_cons_self _ _
  obtain rfl : id = v.id := Option.some.inj (aimed h _ hmem)
  have hout : CheckedOut s v.tag v.id := by
    refine victims_checked_out h v (Multiset.mem_bind.mpr ⟨_, hmem, ?_⟩)
    exact Multiset.mem_cons_self v todo
  obtain ⟨q, hq, hjob, hid⟩ := hout
  have howns : v.id ∈ containers.proc q :=
    Multiset.mem_bind.mpr ⟨_, hid, by simp [Call.owned, Call.held, Call.creating]⟩
  obtain ⟨ps, hps⟩ := Multiset.exists_cons_of_mem hq
  have hnodup := containers_nodup h
  rw [show s = ⟨s.shared, q ::ₘ ps⟩ by rw [← hps]] at hnodup
  obtain ⟨hidle, hothers⟩ := Tokens.not_mem_of_mem hnodup howns
  refine ⟨⟨q, hq, hjob, hid⟩, hidle, fun p hp hown => ?_⟩
  rw [hps] at hp
  rcases Multiset.mem_cons.mp hp with rfl | hp
  · exact hjob
  · exact absurd hown (hothers p hp)

end

/-- The reaper takes its next step. -/
theorem exists_discard (cfg : Config) {s : Soup World Proc} {id : String} {v : Tracked JobId}
    {todo : Multiset (Tracked JobId)}
    (h : .reaper (.killing (.discard .removeByID id) v todo) ∈ s.procs) :
    ∃ t, (processes cfg).system.Step s
      (.act (.reaper (.killing (.discard .removeByID id) v todo)) (.pool .lock)) t :=
  Program.act_of_mem h ⟨_, _, .killing .discard (Multiset.singleton_ne_zero _)⟩

/-- A job without a limit hangs.  The reaper is about to delete its container
after half a minute. -/
theorem reaps_hung_job : ∃ s : Soup World Proc, "a" ∈ s.shared.pool.pool.all ∧
    CheckedOut s 0 "a" ∧ "a" ∉ s.shared.pool.pool.idle ∧
    ∀ p ∈ s.procs, "a" ∈ p.calls.bind Call.owned → p.job = some 0 := by
  let cfg := Config.sized 1 0
  let r : Run := ⟨0, ⟨.rust, [("Cargo.toml", "")], 0⟩, some cfg.grace⟩
  let v : Tracked JobId := ⟨"a", 30000000000, 0⟩
  obtain ⟨s, hs, hall, hkill⟩ := exists_reach cfg (by decide) releasesUnselected
    (Script.newEnv ++ (Pool.Script.acquireGrow cfg.pool "a").map (Script.inRun r) ++
      Script.compile r "a" ++ [.act .runtime (.pass 30000000000)] ++
      Script.sweep 30000000000 v ++ [Script.inKill v (.removeByID "a") .lock])
    (fun s => "a" ∈ s.shared.pool.pool.all ∧
      .reaper (.killing (.discard .removeByID "a") v 0) ∈ s.procs)
    (by decide +kernel)
  obtain ⟨t, ht⟩ := exists_discard cfg hkill
  exact ⟨s, hall, reaps_checked_out hs ht⟩

/-- A job ends after its deadline, between the sweep and the kill.  The next job
gets the container, and the kill deletes it. -/
theorem reaps_next_job : ¬ ∀ (cfg : Config) (s t : Soup World Proc) (id : String)
    (v : Tracked JobId) (todo : Multiset (Tracked JobId)), (processes cfg).system.Reachable s →
    (processes cfg).system.Step s
      (.act (.reaper (.killing (.discard .removeByID id) v todo)) (.pool .lock)) t →
    id ∈ s.shared.pool.pool.all → CheckedOut s v.tag id := by
  intro h
  let cfg := Config.sized 1 0
  let r (id : JobId) : Run := ⟨id, ⟨.rust, [("Cargo.toml", "")], 0⟩, some cfg.grace⟩
  let v : Tracked JobId := ⟨"a", 30000000000, 0⟩
  obtain ⟨s, hs, hall, hgone, hkill⟩ := exists_reach cfg (by decide) (fun _ _ => true)
    (Script.newEnv ++ (Pool.Script.acquireGrow cfg.pool "a").map (Script.inRun (r 0)) ++
      Script.compile (r 0) "a" ++ [.act .runtime (.pass 30000000000)] ++
      Script.sweep 30000000000 v ++ Script.compileFails (r 0) "a" ++ Script.unwind (r 0) "a" ++
      (Pool.Script.releaseSend "a").map (Script.inRun (r 0)) ++
      Pool.Script.acquireParked.map (Script.inRun (r 1)) ++
      [.act (.run (r 1) (.inPool (.acquireReturn (.ok "a")))) (.pool .ret)] ++
      Script.compile (r 1) "a" ++ [Script.inKill v (.removeByID "a") .lock])
    (fun s => "a" ∈ s.shared.pool.pool.all ∧ ¬ CheckedOut s 0 "a" ∧
      .reaper (.killing (.discard .removeByID "a") v 0) ∈ s.procs)
    (by decide +kernel)
  obtain ⟨t, ht⟩ := exists_discard cfg hkill
  exact hgone (h cfg s t "a" v 0 hs.reachable ht hall)

end Aicv.Env
