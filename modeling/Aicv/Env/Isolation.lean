import Aicv.Env.Projection
import Aicv.Env.Replay

/-!
# One job per container

A stage whose `Exec` returns an error may leave its command running.  `Run` then
goes through its deferred calls, and `Release` looks only at the registry and at
the number of jobs, so it parks the container with the command in it.

No job gets a container in which a command of another job runs, as long as
`Release` parks no container in which a command runs (`parksQuiet`, `isolated`).
The proof is that the containers on their way to a job, in `create`, in the idle
channel or in `Acquire`, are quiet.
-/

namespace Aicv.Pool

open Transition

/-- The container a call is creating, parking for the first time, or handing
out. -/
def Call.handsOver : Call → Multiset String
  | .growStart _ id | .growUnstart _ id _ | .growRegister _ id | .prewarmSend _ id
  | .acquireReturn (.ok id) => {id}
  | _ => 0

theorem handsOver_le_owned (c : Call) : c.handsOver ≤ c.owned := by
  fun_cases Call.handsOver c with
  | case6 => exact Multiset.zero_le _
  | _ => simp [Call.owned, Call.held, Call.creating]

theorem owned_of_handsOver {cs : Multiset Call} {id : String} (h : id ∈ cs.bind Call.handsOver) :
    id ∈ cs.bind Call.owned := by
  obtain ⟨c, hc, hid⟩ := Multiset.mem_bind.mp h
  exact Multiset.mem_bind.mpr ⟨c, hc, Multiset.mem_of_le (handsOver_le_owned c) hid⟩

theorem handsOver_grown (w : Grower) (id : String) : (w.grown id).handsOver = {id} := by
  cases w <;> rfl

theorem handsOver_refused (w : Grower) (e : Error) : (w.refused e).handsOver = 0 := by
  cases w <;> cases e <;> rfl

/-- A container on its way to a job was so before the step, or is new, or is
parked by a `Release`. -/
theorem Call.Step.handsOver {cfg : Config} {g g' : World} {c : Call} {e : Event}
    {cs : Multiset Call} (h : Call.Step cfg g c e g' cs) {id : String}
    (hid : id ∈ g'.pool.idle ∨ id ∈ cs.bind Call.handsOver) :
    id ∈ g.pool.idle ∨ id ∈ c.handsOver ∨ id ∉ g.backend.issued ∨
      c = .releaseSend id ∧ e = .send := by
  cases h with
  | growRefused | giveBack => exact .inl (by simpa [handsOver_refused] using hid)
  | register =>
      rw [Multiset.singleton_bind, handsOver_grown] at hid
      rw [← or_assoc]
      exact .inl hid
  | growReserve hr =>
      obtain ⟨-, -, rfl⟩ := reserve_ok.mp hr
      exact .inl (by simpa [Call.handsOver] using hid)
  | createOk hnew =>
      rcases hid with hid | hid
      · exact .inl hid
      · rw [Multiset.singleton_bind] at hid
        exact .inr (.inr (.inl (by rwa [Multiset.mem_singleton.mp hid])))
  | startOk | startErr =>
      rw [← or_assoc]
      exact .inl (by simpa [Call.handsOver] using hid)
  | fastRecv hhd | waitRecv hhd =>
      rw [← List.cons_head?_tail (Option.mem_def.mpr hhd)]
      exact .inl (by simpa [Call.handsOver, or_comm] using hid)
  | prewarmSend =>
      rw [← or_assoc]
      exact .inl (by simpa [Call.handsOver] using hid)
  | @releaseSend id' =>
      rcases hid with hid | hid
      · rcases List.mem_append.mp hid with hid | hid
        · exact .inl hid
        · exact .inr (.inr (.inr ⟨by rw [List.mem_singleton.mp hid], rfl⟩))
      · cases Multiset.notMem_zero id hid
  | cancel hc =>
      rw [Multiset.singleton_bind] at hid
      rw [← or_assoc]
      cases hc <;> exact .inl hid
  | _ => exact .inl (by simpa [Call.handsOver] using hid)

end Aicv.Pool

namespace Aicv.Env

open Transition Pool Ttl Pipeline

/-- `Release` parks no container in which a command runs. -/
def parksQuiet (s : Soup World Proc) : Label Proc Event → Bool
  | .act p (.pool .send) =>
      decide (∀ cmd ∈ s.shared.running, .releaseSend cmd.container ∉ p.calls)
  | _ => true

/-- No command of another run is running in the container. -/
def Isolated (g : World) (r : Run) (id : String) : Prop :=
  ∀ cmd ∈ g.running, cmd.run ≠ r.id → cmd.container ≠ id

section
variable {cfg : Config} {g g' : World} {p : Proc} {e : Event} {ps qs : Multiset Proc}

/-- The container is on its way to a job: it is in the idle channel, or a call is
creating it or handing it out. -/
def Coming (s : Soup World Proc) (id : String) : Prop :=
  id ∈ s.shared.pool.pool.idle ∨ id ∈ (s.procs.bind Proc.calls).bind Call.handsOver

theorem coming_cons {id : String} : Coming ⟨g, p ::ₘ ps⟩ id ↔
    (id ∈ g.pool.pool.idle ∨ id ∈ p.calls.bind Call.handsOver) ∨
      id ∈ (ps.bind Proc.calls).bind Call.handsOver := by
  simp only [Coming, Multiset.cons_bind, Multiset.add_bind, Multiset.mem_add, or_assoc]

theorem coming_add {id : String} : Coming ⟨g, qs + ps⟩ id ↔
    (id ∈ g.pool.pool.idle ∨ id ∈ (qs.bind Proc.calls).bind Call.handsOver) ∨
      id ∈ (ps.bind Proc.calls).bind Call.handsOver := by
  simp only [Coming, Multiset.add_bind, Multiset.mem_add, or_assoc]

/-- A step brings no issued container on its way to a job, except a `Release`
that parks it. -/
theorem coming_step (h : Proc.Step cfg g p e g' qs) {id : String}
    (hissued : id ∈ g.pool.backend.issued)
    (hpark : e = .pool .send → .releaseSend id ∉ p.calls)
    (hid : Coming ⟨g', qs + ps⟩ id) : Coming ⟨g, p ::ₘ ps⟩ id := by
  rw [coming_add] at hid
  rw [coming_cons]
  refine hid.imp_left fun hid => ?_
  rcases h.pool with ⟨heq, hcalls⟩ | ⟨c, e', rfl, hc, hs⟩ | ⟨c, -, hc, heq, hqs, hown, -⟩
  · rwa [heq, hcalls] at hid
  · rw [hc, Multiset.singleton_bind]
    rcases hs.handsOver hid with h | h | h | ⟨rfl, rfl⟩
    · exact .inl h
    · exact .inr h
    · exact absurd hissued h
    · exact absurd (Multiset.mem_singleton_self _) (hc ▸ hpark rfl)
  · rw [heq, hqs, Multiset.singleton_bind] at hid
    refine .inl (hid.resolve_right fun hmem => ?_)
    have := Multiset.mem_of_le (handsOver_le_owned c) hmem
    rw [hown] at this
    exact Multiset.notMem_zero _ this

/-- The commands that run are in containers that exist, and not in one on its
way to a job. -/
structure Quiet (s : Soup World Proc) : Prop where
  issued : ∀ cmd ∈ s.shared.running, cmd.container ∈ s.shared.pool.backend.issued
  notComing : ∀ cmd ∈ s.shared.running, ¬ Coming s cmd.container

/-- No step takes an issued id back. -/
theorem Proc.Step.issued_mono (h : Proc.Step cfg g p e g' qs) :
    g.pool.backend.issued ⊆ g'.pool.backend.issued := by
  rcases h.pool with ⟨heq, -⟩ | ⟨c, e', -, -, hs⟩ | ⟨c, -, -, heq, -⟩
  · rw [heq]
  · rcases hs.tokens with ⟨-, hiss⟩ | ⟨id, -, -, hiss⟩
    · rw [hiss]
    · rw [hiss]
      exact Finset.subset_insert _ _
  · rw [heq]

/-- The command that a step starts is in the container its run holds. -/
theorem Proc.Step.running (h : Proc.Step cfg g p e g' qs) {cmd : Command}
    (hcmd : cmd ∈ g'.running) :
    cmd ∈ g.running ∨ ∃ r st, p = .run r (.exec cmd.container st) ∧
      qs = {.run r (.wait cmd.container st)} ∧ g'.pool = g.pool := by
  cases h with
  | exec =>
      rcases Finset.mem_insert.mp hcmd with rfl | hcmd
      · exact .inr ⟨_, _, rfl, rfl, rfl⟩
      · exact .inl hcmd
  | exit => exact .inl (Finset.mem_of_mem_erase hcmd)
  | opening | opened | inPool | killing | killed | closing =>
      exact .inl (Finset.mem_of_mem_filter _ hcmd)
  | _ => exact .inl hcmd

theorem quiet {s : Soup World Proc}
    (h : (processes cfg).system.Reach (fun s l => parksQuiet s l = true) s) : Quiet s := by
  refine Program.invariant (fun s hs => ?_) (fun g p g' ps _ hi _ hc => ?_)
    (fun g p e g' qs ps hr hi hok hs => ?_) h
  · obtain ⟨-, -, rfl⟩ := hs
    constructor <;> simp [start]
  · -- a call that is started owns no container
    have hcoming : ∀ id, ¬ Coming ⟨g, ps⟩ id → ¬ Coming ⟨g', p ::ₘ ps⟩ id := by
      intro id hno
      cases hc <;> simpa [Coming, Proc.calls, Call.handsOver] using hno
    have hsame : g'.running = g.running ∧ g'.pool = g.pool := by cases hc <;> exact ⟨rfl, rfl⟩
    refine ⟨fun cmd hcmd => ?_, fun cmd hcmd => ?_⟩ <;> simp only [hsame] at hcmd ⊢
    · exact hi.issued cmd hcmd
    · exact hcoming _ (hi.notComing cmd hcmd)
  · have hpark : ∀ cmd ∈ g.running, e = .pool .send → .releaseSend cmd.container ∉ p.calls := by
      rintro cmd hcmd rfl
      exact of_decide_eq_true hok cmd hcmd
    refine ⟨fun cmd hcmd => ?_, fun cmd hcmd hcoming => ?_⟩
    · rcases hs.running hcmd with hold | ⟨r, st, rfl, -, -⟩
      · exact hs.issued_mono (hi.issued cmd hold)
      · exact hs.issued_mono (issued_of_owned hr
          (by simp [Proc.calls, Call.owned, Call.held, Call.creating]))
    · rcases hs.running hcmd with hold | ⟨r, st, rfl, rfl, hpool⟩
      · exact hi.notComing cmd hold
          (coming_step hs (hi.issued cmd hold) (hpark cmd hold) hcoming)
      · -- the container is held by the run that starts the command
        obtain ⟨hidle, hothers⟩ := Tokens.not_mem_of_mem (containers_nodup hr)
          (t := cmd.container)
          (by simp [containers, Proc.calls, Call.owned, Call.held, Call.creating])
        rw [coming_add, hpool] at hcoming
        rcases hcoming with (h | h) | h
        · exact hidle h
        · simp [Proc.calls, Call.handsOver] at h
        · rw [Multiset.bind_assoc] at h
          obtain ⟨q, hq, h⟩ := Multiset.mem_bind.mp h
          exact hothers q hq (owned_of_handsOver h)

/-- If `Release` parks no container in which a command runs, then no command of
another run is running in a container that `Acquire` hands to a run. -/
theorem isolated {s t : Soup World Proc}
    (h : (processes cfg).system.Reach (fun s l => parksQuiet s l = true) s) {r : Run} {id : String}
    (hs : (processes cfg).system.Step s
      (.act (.run r (.inPool (.acquireReturn (.ok id)))) (.pool .ret)) t) :
    Isolated s.shared r id := by
  have hq := quiet h
  cases hs with
  | act =>
      rintro cmd hcmd - rfl
      refine hq.notComing cmd hcmd (coming_cons.mpr (.inl (.inr ?_)))
      simp [Proc.calls, Call.handsOver]

end

instance (g : World) (r : Run) (id : String) : Decidable (Isolated g r id) :=
  inferInstanceAs (Decidable (∀ cmd ∈ g.running, cmd.run ≠ r.id → cmd.container ≠ id))

/-- A run that has its container from `Acquire` goes on to `Track`. -/
theorem exists_acquired (cfg : Config) {s : Soup World Proc} {r : Run} {id : String}
    (h : .run r (.inPool (.acquireReturn (.ok id))) ∈ s.procs) :
    ∃ t, (processes cfg).system.Step s
      (.act (.run r (.inPool (.acquireReturn (.ok id)))) (.pool .ret)) t :=
  Program.act_of_mem h ⟨_, _, .inPool .returnOk⟩

/-- Three runs in a verifier with two containers.  The first one is over, the
second one compiles, and the third one gets the container of the first. -/
theorem isolated_three : ∃ (s : Soup World Proc) (r : Run), s.shared.running.Nonempty ∧
    .run r (.inPool (.acquireReturn (.ok "a"))) ∈ s.procs ∧ Isolated s.shared r "a" := by
  let cfg := Config.sized 2 0
  let r (id : JobId) : Run := ⟨id, ⟨.rust, [("Cargo.toml", "")], 0⟩, none⟩
  obtain ⟨s, hs, hrunning, hret⟩ := exists_reach cfg (by decide) parksQuiet
    (Script.newEnv ++ (Pool.Script.acquireGrow cfg.pool "a").map (Script.inRun (r 0)) ++
      Script.compile (r 0) "a" ++
      (Pool.Script.acquireGrow cfg.pool "b").map (Script.inRun (r 1)) ++
      Script.compile (r 1) "b" ++ Script.compileFails (r 0) "a" ++ Script.unwind (r 0) "a" ++
      (Pool.Script.releaseSend "a").map (Script.inRun (r 0)) ++
      Pool.Script.acquireParked.map (Script.inRun (r 2)))
    (fun s => s.shared.running = {⟨"b", 1, .compile⟩} ∧
      .run (r 2) (.inPool (.acquireReturn (.ok "a"))) ∈ s.procs)
    (by decide +kernel)
  obtain ⟨t, ht⟩ := exists_acquired cfg hret
  exact ⟨s, r 2, by simp [hrunning], hret, isolated hs ht⟩

/-- The `Exec` of a compile command returns an error and the command runs on.
The run releases its container, and the next run gets it. -/
theorem shared_container : ¬ ∀ (cfg : Config) (s t : Soup World Proc) (r : Run) (id : String),
    (processes cfg).system.Reachable s →
    (processes cfg).system.Step s
      (.act (.run r (.inPool (.acquireReturn (.ok id)))) (.pool .ret)) t →
    Isolated s.shared r id := by
  intro h
  let cfg := Config.sized 1 0
  let r (id : JobId) : Run := ⟨id, ⟨.rust, [("Cargo.toml", "")], 0⟩, some cfg.grace⟩
  obtain ⟨s, hs, hshared, hret⟩ := exists_reach cfg (by decide) (fun _ _ => true)
    (Script.newEnv ++ (Pool.Script.acquireGrow cfg.pool "a").map (Script.inRun (r 0)) ++
      Script.compile (r 0) "a" ++
      [.act (.run (r 0) (.wait "a" .compile)) (.execErr "context canceled")] ++
      Script.unwind (r 0) "a" ++ (Pool.Script.releaseSend "a").map (Script.inRun (r 0)) ++
      Pool.Script.acquireParked.map (Script.inRun (r 1)))
    (fun s => ¬ Isolated s.shared (r 1) "a" ∧
      .run (r 1) (.inPool (.acquireReturn (.ok "a"))) ∈ s.procs)
    (by decide +kernel)
  obtain ⟨t, ht⟩ := exists_acquired cfg hret
  exact hshared (h cfg s t (r 1) "a" hs.reachable ht)

end Aicv.Env
