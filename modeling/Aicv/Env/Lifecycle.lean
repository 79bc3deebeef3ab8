import Aicv.Env.Serial

/-!
# The life of a container

What the container runtime sees of one container (`life`): the `Create` that made it, the `Start`,
what the runs ask of it, and the calls of `Remove`.

In any history a container has one of five lives (`lives`).  It is created once, under the
configuration of the pool, and started once.  If the start fails, it is removed and that was all.
If not, it is asked for things and removed, in any order: the reaper may remove a container while a
run still asks for something, and several calls may remove the same one.  So every command of a
job runs in a container that has been created without a network and under the limits.

The proof says who knows of a started container (`Known`).  Nobody does before the start.
-/

namespace Aicv.Pool

open Transition

/-- The call has a container that has been started, or found its id in the registry. -/
def Call.Knows (id : String) : Call → Prop
  | .prewarmSend _ id' | .growRegister _ id' | .acquireReturn (.ok id') | .holding id'
  | .release id' | .releaseSend id' | .discard _ id' | .discardRemove _ id' => id' = id
  | .closeDone _ todo | .closeRemove _ todo _ => id ∈ todo
  | _ => False

/-- The pool or a call knows of the container. -/
def Known (s : Soup World Call) (id : String) : Prop :=
  id ∈ s.shared.pool.all ∨ id ∈ s.shared.pool.idle ∨ ∃ c ∈ s.procs, c.Knows id

/-- What the runtime is asked to do with a container. -/
inductive Op where
  | create (cfg : CreateConfig)
  | start (err : Option String)
  | remove (err : Option String)
  | ask (req : Sandbox.Request)
deriving DecidableEq

/-- What a step of the pool does with a container. -/
def Event.ops (id : String) : Event → List Op
  | .create cfg (.ok id') => if id' = id then [.create cfg] else []
  | .start id' err => if id' = id then [.start err] else []
  | .remove id' err => if id' = id then [.remove err] else []
  | _ => []

section
variable {cfg : Config} {ok : Soup World Call → Label Call Event → Prop} {g g' : World} {c : Call}
  {e : Event} {cs ps : Multiset Call} {id : String} {l : List Op}

theorem knows_grown (w : Grower) (id' : String) : (w.grown id').Knows id ↔ id' = id := by
  cases w <;> exact Iff.rfl

theorem not_knows_refused (w : Grower) (err : Error) : ¬ (w.refused err).Knows id := by
  intro h
  cases w <;> cases err <;> exact h

/-- Only a start that succeeds makes a container known. -/
theorem Call.Step.knows (h : Call.Step cfg g c e g' cs)
    (hid : id ∈ g'.pool.all ∨ id ∈ g'.pool.idle ∨ ∃ c' ∈ cs, c'.Knows id) :
    (id ∈ g.pool.all ∨ id ∈ g.pool.idle ∨ c.Knows id) ∨
      ∃ w, c = .growStart w id ∧ e = .start id none := by
  cases h with
  | growRefused | giveBack =>
      simp only [Multiset.mem_singleton, exists_eq_left, not_knows_refused, or_false] at hid
      exact .inl (hid.imp_right .inl)
  | growReserve hr =>
      obtain ⟨-, -, rfl⟩ := reserve_ok.mp hr
      exact .inl (by simpa [Call.Knows] using hid)
  | @startOk w id' =>
      by_cases heq : id' = id
      · exact .inr ⟨w, by rw [heq], by rw [heq]⟩
      · exact .inl (by simpa [Call.Knows, heq] using hid)
  | @register w id' =>
      simp only [World.withPool_pool, setState_all, register_all, setState_idle, register_idle,
        Finset.mem_insert, Multiset.mem_singleton, exists_eq_left, knows_grown] at hid
      simp only [Call.Knows]
      tauto
  | fastRecv hhd | waitRecv hhd =>
      rw [← List.cons_head?_tail (Option.mem_def.mpr hhd)]
      simp only [World.withPool_pool, setState_all, recv_all, setState_idle, recv_idle,
        Multiset.mem_singleton, exists_eq_left, Call.Knows, List.mem_cons] at hid ⊢
      tauto
  | cancel hc =>
      left
      simp only [Multiset.mem_singleton, exists_eq_left] at hid
      cases hc <;> exact hid
  | prewarmSend | releaseSend =>
      left
      simp only [World.withPool_pool, send_all, send_idle, List.mem_append, List.mem_singleton,
        Multiset.mem_singleton, Multiset.notMem_zero, exists_eq_left, Call.Knows] at hid ⊢
      tauto
  | @removeByIDFound id' hall =>
      left
      simp only [Multiset.mem_singleton, exists_eq_left, Call.Knows, or_false] at hid ⊢
      rcases hid with hid | hid | rfl
      exacts [.inl hid, .inr hid, .inl hall]
  | discard =>
      left
      simp only [World.withPool_pool, discard_all, discard_idle, Finset.mem_erase,
        Multiset.mem_singleton, exists_eq_left, Call.Knows] at hid ⊢
      tauto
  | closeRemove =>
      left
      simp only [World.withBackend_pool, Finset.mem_erase, Multiset.mem_singleton, exists_eq_left,
        Call.Knows] at hid ⊢
      tauto
  | _ =>
      left
      first
      | exact hid
      | simpa [Call.Knows] using hid
      | (simp [Call.Knows] at hid ⊢; tauto)

/-- What a step does with a container, and who works on one that is not started. -/
theorem Call.Step.ops (h : Call.Step cfg g c e g' cs) (id : String) :
    (e.ops id = [] ∧ (∀ w, .growStart w id ∈ cs → ∃ w', c = .growStart w' id) ∧
      ∀ w err, .growUnstart w id err ∈ cs → ∃ w', c = .growUnstart w' id err) ∨
    (e.ops id = [.create cfg.createConfig] ∧ id ∉ g.backend.issued ∧ id ∈ g'.backend.issued ∧
      ∃ w, cs = {.growStart w id}) ∨
    (∃ w, c = .growStart w id ∧ e.ops id = [.start none] ∧ cs = {.growRegister w id}) ∨
    (∃ w text, c = .growStart w id ∧ e.ops id = [.start (some text)] ∧
      cs = {.growUnstart w id (.start text)}) ∨
    (∃ w err res, c = .growUnstart w id err ∧ e.ops id = [.remove res] ∧
      cs = {.growGiveBack w err}) ∨
    ∃ res, c.Knows id ∧ e.ops id = [.remove res] ∧
      ∀ c' ∈ cs, ∃ w todo first, c' = .closeRemove w todo first := by
  cases h with
  | @createOk w id' hnew =>
      by_cases heq : id' = id
      · subst heq
        exact .inr (.inl ⟨if_pos rfl, hnew, Finset.mem_insert_self _ _, w, rfl⟩)
      · refine .inl ⟨if_neg heq, fun w' hmem => ?_, fun w' err hmem => ?_⟩
        · cases Multiset.mem_singleton.mp hmem
          exact absurd rfl heq
        · cases Multiset.mem_singleton.mp hmem
  | @startOk w id' =>
      by_cases heq : id' = id
      · subst heq
        exact .inr (.inr (.inl ⟨w, rfl, if_pos rfl, rfl⟩))
      · refine .inl ⟨if_neg heq, fun w' hmem => ?_, fun w' err hmem => ?_⟩ <;>
          cases Multiset.mem_singleton.mp hmem
  | @startErr w id' text =>
      by_cases heq : id' = id
      · subst heq
        exact .inr (.inr (.inr (.inl ⟨w, text, rfl, if_pos rfl, rfl⟩)))
      · refine .inl ⟨if_neg heq, fun w' hmem => ?_, fun w' err hmem => ?_⟩
        · cases Multiset.mem_singleton.mp hmem
        · cases Multiset.mem_singleton.mp hmem
          exact absurd rfl heq
  | @unstart w id' err res =>
      by_cases heq : id' = id
      · subst heq
        exact .inr (.inr (.inr (.inr (.inl ⟨w, err, res, rfl, if_pos rfl, rfl⟩))))
      · refine .inl ⟨if_neg heq, fun w' hmem => ?_, fun w' err hmem => ?_⟩ <;>
          cases Multiset.mem_singleton.mp hmem
  | @discardRemove w id' res =>
      by_cases heq : id' = id
      · refine .inr (.inr (.inr (.inr (.inr ⟨res, heq, if_pos heq, fun c' hc' => ?_⟩))))
        cases Multiset.notMem_zero _ hc'
      · refine .inl ⟨if_neg heq, fun w' hmem => ?_, fun w' err hmem => ?_⟩ <;>
          cases Multiset.notMem_zero _ hmem
  | @closeRemove w todo first id' res htodo =>
      by_cases heq : id' = id
      · refine .inr (.inr (.inr (.inr (.inr ⟨res, heq ▸ htodo, if_pos heq, fun c' hc' => ?_⟩))))
        exact ⟨_, _, _, Multiset.mem_singleton.mp hc'⟩
      · refine .inl ⟨if_neg heq, fun w' hmem => ?_, fun w' err hmem => ?_⟩ <;>
          cases Multiset.mem_singleton.mp hmem
  | cancel hc =>
      refine .inl ⟨rfl, fun w' hmem => ?_, fun w' err hmem => ?_⟩ <;>
        cases Multiset.mem_singleton.mp hmem <;> cases hc <;> exact ⟨_, rfl⟩
  | @growRefused w err | @giveBack w err =>
      refine .inl ⟨rfl, fun w' hmem => ?_, fun w' err' hmem => ?_⟩ <;>
        cases w <;> cases err <;> cases Multiset.mem_singleton.mp hmem
  | @register w =>
      refine .inl ⟨rfl, fun w' hmem => ?_, fun w' err hmem => ?_⟩ <;>
        cases w <;> cases Multiset.mem_singleton.mp hmem
  | prewarmEnd | returnErr | releaseDead | releaseSend | removeByIDGone | closeAgain | closeRet =>
      refine .inl ⟨rfl, fun w' hmem => ?_, fun w' err hmem => ?_⟩ <;>
        cases Multiset.notMem_zero _ hmem
  | _ =>
      refine .inl ⟨rfl, fun w' hmem => ?_, fun w' err hmem => ?_⟩ <;>
        cases Multiset.mem_singleton.mp hmem

/-! ## The five lives -/

/-- The container is used or removed. -/
def Op.Uses : Op → Prop
  | .ask _ | .remove _ => True
  | _ => False

/-- The lives of a container. -/
inductive Life (cfg : CreateConfig) : List Op → Prop where
  | unborn : Life cfg []
  | created : Life cfg [.create cfg]
  | failed {text : String} : Life cfg [.create cfg, .start (some text)]
  | gone {text : String} {err : Option String} :
      Life cfg [.create cfg, .start (some text), .remove err]
  | started {l : List Op} : (∀ op ∈ l, op.Uses) → Life cfg (.create cfg :: .start none :: l)

/-- The container has been started. -/
def Running (cfg : CreateConfig) (l : List Op) : Prop :=
  ∃ l', (∀ op ∈ l', op.Uses) ∧ l = .create cfg :: .start none :: l'

theorem Running.append {cfg : CreateConfig} {m : List Op} (h : Running cfg l)
    (hm : ∀ op ∈ m, op.Uses) : Running cfg (l ++ m) := by
  obtain ⟨l', hl', rfl⟩ := h
  exact ⟨l' ++ m, List.forall_mem_append.mpr ⟨hl', hm⟩, rfl⟩

theorem Running.life {cfg : CreateConfig} (h : Running cfg l) : Life cfg l := by
  obtain ⟨l', hl', rfl⟩ := h
  exact .started hl'

/-- How far a container has come in its life, from who has it. -/
structure Lived (cfg : Config) (id : String) (l : List Op) (s : Soup World Call) : Prop where
  life : Life cfg.createConfig l
  unborn : id ∉ s.shared.backend.issued → l = []
  created : ∀ w, .growStart w id ∈ s.procs → l = [.create cfg.createConfig]
  failed : ∀ w err, .growUnstart w id err ∈ s.procs →
    ∃ text, l = [.create cfg.createConfig, .start (some text)]
  known : Known s id → Running cfg.createConfig l

/-- One container is worked on by one call. -/
theorem not_owned_of_owned (hr : (calls cfg).system.Reach ok ⟨g, c ::ₘ ps⟩)
    (hid : id ∈ c.owned) {c' : Call} (hc' : c' ∈ ps) : id ∉ c'.owned :=
  (Tokens.not_mem_of_mem (owned hr).nodup hid).2 c' hc'

theorem Known.before (hs : Call.Step cfg g c e g' cs) (h : Known ⟨g', cs + ps⟩ id) :
    Known ⟨g, c ::ₘ ps⟩ id ∨ ∃ w, c = .growStart w id ∧ e = .start id none := by
  have hor : (id ∈ g'.pool.all ∨ id ∈ g'.pool.idle ∨ ∃ c' ∈ cs, c'.Knows id) ∨
      ∃ c' ∈ ps, c'.Knows id := by
    simpa only [Known, Multiset.mem_add, or_and_right, exists_or, or_assoc] using h
  rcases hor with hnow | ⟨c', hc', hknows⟩
  · refine (hs.knows hnow).imp_left fun hold => ?_
    exact hold.imp_right fun hold => hold.imp_right fun hc => ⟨c, Multiset.mem_cons_self _ _, hc⟩
  · exact .inl (.inr (.inr ⟨c', Multiset.mem_cons_of_mem hc', hknows⟩))

theorem Running.ne {cfg : CreateConfig} (h : Running cfg l) :
    l ≠ [] ∧ l ≠ [.create cfg] ∧ ∀ text, l ≠ [.create cfg, .start (some text)] := by
  obtain ⟨l', -, rfl⟩ := h
  exact ⟨nofun, nofun, nofun⟩

theorem Lived.act (hr : (calls cfg).system.Reach ok ⟨g, c ::ₘ ps⟩)
    (hs : Call.Step cfg g c e g' cs) (hi : Lived cfg id l ⟨g, c ::ₘ ps⟩) :
    Lived cfg id (l ++ e.ops id) ⟨g', cs + ps⟩ := by
  have hself := Multiset.mem_cons_self c ps
  have hissued (hnew : id ∉ g'.backend.issued) : id ∉ g.backend.issued :=
    fun hold => hnew (hs.issued_subset hold)
  have howns (w : Grower) : id ∈ (Call.growStart w id).owned := Multiset.mem_singleton_self _
  have hunowns (w : Grower) (err : Error) : id ∈ (Call.growUnstart w id err).owned :=
    Multiset.mem_singleton_self _
  rcases hs.ops id with ⟨hops, hcreated, hfailed⟩ | ⟨hops, hnew, hissues, w, rfl⟩ |
    ⟨w, rfl, hops, rfl⟩ | ⟨w, text, rfl, hops, rfl⟩ | ⟨w, err, res, rfl, hops, rfl⟩ |
    ⟨res, hknows, hops, hclose⟩
  · rw [hops, List.append_nil]
    refine ⟨hi.life, fun hnew => hi.unborn (hissued hnew), fun w hmem => ?_,
      fun w err hmem => ?_, fun hknown => ?_⟩
    · rcases Multiset.mem_add.mp hmem with hmem | hmem
      · obtain ⟨w', rfl⟩ := hcreated w hmem
        exact hi.created w' hself
      · exact hi.created w (Multiset.mem_cons_of_mem hmem)
    · rcases Multiset.mem_add.mp hmem with hmem | hmem
      · obtain ⟨w', rfl⟩ := hfailed w err hmem
        exact hi.failed w' err hself
      · exact hi.failed w err (Multiset.mem_cons_of_mem hmem)
    · rcases hknown.before hs with hold | ⟨w, rfl, rfl⟩
      · exact hi.known hold
      · rw [Event.ops, if_pos rfl] at hops
        cases hops
  · -- the container is created
    obtain rfl := hi.unborn hnew
    rw [hops, List.nil_append]
    refine ⟨.created, fun hnot => absurd hissues hnot, fun w' hmem => rfl, fun w' err hmem => ?_,
      fun hknown => ?_⟩
    · rcases Multiset.mem_add.mp hmem with hmem | hmem
      · cases Multiset.mem_singleton.mp hmem
      · obtain ⟨text, heq⟩ := hi.failed w' err (Multiset.mem_cons_of_mem hmem)
        cases heq
    · rcases hknown.before hs with hold | ⟨w', rfl, rfl⟩
      · exact absurd rfl (hi.known hold).ne.1
      · rw [Event.ops, if_pos rfl] at hops
        cases hops
  · -- it is started
    obtain rfl := hi.created w hself
    have hrun : Running cfg.createConfig [.create cfg.createConfig, .start none] := ⟨[], nofun, rfl⟩
    rw [hops]
    refine ⟨hrun.life, fun hnew => ?_, fun w' hmem => ?_, fun w' err hmem => ?_, fun _ => hrun⟩
    · cases hi.unborn (hissued hnew)
    · rcases Multiset.mem_add.mp hmem with hmem | hmem
      · cases Multiset.mem_singleton.mp hmem
      · exact absurd (howns w') (not_owned_of_owned hr (howns w) hmem)
    · rcases Multiset.mem_add.mp hmem with hmem | hmem
      · cases Multiset.mem_singleton.mp hmem
      · obtain ⟨text, heq⟩ := hi.failed w' err (Multiset.mem_cons_of_mem hmem)
        cases heq
  · -- its start fails
    obtain rfl := hi.created w hself
    rw [hops]
    refine ⟨.failed, fun hnew => ?_, fun w' hmem => ?_, fun _ _ _ => ⟨text, rfl⟩,
      fun hknown => ?_⟩
    · cases hi.unborn (hissued hnew)
    · rcases Multiset.mem_add.mp hmem with hmem | hmem
      · cases Multiset.mem_singleton.mp hmem
      · exact absurd (howns w') (not_owned_of_owned hr (howns w) hmem)
    · rcases hknown.before hs with hold | ⟨w', -, rfl⟩
      · exact absurd rfl (hi.known hold).ne.2.1
      · rw [Event.ops, if_pos rfl] at hops
        cases hops
  · -- it is removed after that
    obtain ⟨text, rfl⟩ := hi.failed w err hself
    rw [hops]
    refine ⟨.gone, fun hnew => ?_, fun w' hmem => ?_, fun w' err' hmem => ?_, fun hknown => ?_⟩
    · cases hi.unborn (hissued hnew)
    · rcases Multiset.mem_add.mp hmem with hmem | hmem
      · cases Multiset.mem_singleton.mp hmem
      · cases hi.created w' (Multiset.mem_cons_of_mem hmem)
    · rcases Multiset.mem_add.mp hmem with hmem | hmem
      · cases Multiset.mem_singleton.mp hmem
      · exact absurd (hunowns w' err') (not_owned_of_owned hr (hunowns w err) hmem)
    · rcases hknown.before hs with hold | ⟨w', heq, -⟩
      · exact absurd rfl ((hi.known hold).ne.2.2 text)
      · cases heq
  · -- it is removed by somebody who knows of it
    have hrun := hi.known (.inr (.inr ⟨c, hself, hknows⟩))
    have huses : ∀ op ∈ e.ops id, op.Uses := by
      rw [hops]
      exact List.forall_mem_singleton.mpr trivial
    refine ⟨(hrun.append huses).life, fun hnew => ?_, fun w' hmem => ?_, fun w' err' hmem => ?_,
      fun _ => hrun.append huses⟩
    · exact absurd (hi.unborn (hissued hnew)) hrun.ne.1
    · rcases Multiset.mem_add.mp hmem with hmem | hmem
      · obtain ⟨w, todo, first, heq⟩ := hclose _ hmem
        cases heq
      · exact absurd (hi.created w' (Multiset.mem_cons_of_mem hmem)) hrun.ne.2.1
    · rcases Multiset.mem_add.mp hmem with hmem | hmem
      · obtain ⟨w, todo, first, heq⟩ := hclose _ hmem
        cases heq
      · obtain ⟨text, heq⟩ := hi.failed w' err' (Multiset.mem_cons_of_mem hmem)
        exact absurd heq (hrun.ne.2.2 text)

/-- A call that is started knows of no container. -/
theorem Lived.call {c : Call} (hknows : ¬ c.Knows id) (howned : id ∉ c.owned)
    (hi : Lived cfg id l ⟨g, ps⟩) : Lived cfg id l ⟨g, c ::ₘ ps⟩ := by
  refine ⟨hi.life, hi.unborn, fun w hmem => ?_, fun w err hmem => ?_, fun hknown => ?_⟩
  · rcases Multiset.mem_cons.mp hmem with rfl | hmem
    · exact absurd (Multiset.mem_singleton_self _) howned
    · exact hi.created w hmem
  · rcases Multiset.mem_cons.mp hmem with rfl | hmem
    · exact absurd (Multiset.mem_singleton_self _) howned
    · exact hi.failed w err hmem
  · refine hi.known (hknown.imp_right fun hold => hold.imp_right ?_)
    rintro ⟨c', hc', hid⟩
    rcases Multiset.mem_cons.mp hc' with rfl | hc'
    · exact absurd hid hknows
    · exact ⟨c', hc', hid⟩

/-- A container that somebody knows of is asked for something. -/
theorem Lived.ask {s : Soup World Call} {m : List Op} (hknown : Known s id)
    (hm : ∀ op ∈ m, op.Uses) (hi : Lived cfg id l s) : Lived cfg id (l ++ m) s := by
  have hrun := hi.known hknown
  refine ⟨(hrun.append hm).life, fun hnew => absurd (hi.unborn hnew) hrun.ne.1,
    fun w hmem => absurd (hi.created w hmem) hrun.ne.2.1, fun w err hmem => ?_,
    fun _ => hrun.append hm⟩
  obtain ⟨text, heq⟩ := hi.failed w err hmem
  exact absurd heq (hrun.ne.2.2 text)

end

end Aicv.Pool

namespace Aicv.Env

open Transition Pool Ttl Pipeline Sandbox

/-- What a step of an `Env` does with a container. -/
def Proc.ops (rs : JobId → Pipeline.Replies) (id : String) (p : Proc) : Event → List Op
  | .pool e => e.ops id
  | e => ((p.asks rs e).filter fun req => req.container = id).map .ask

/-- What is done with a container in a history, the first operation first. -/
def life (rs : JobId → Pipeline.Replies) (id : String) :
    Program.History World Proc Event → List Op
  | [] => []
  | (_, .act p e) :: h => life rs id h ++ p.ops rs id e
  | (_, .call _) :: h => life rs id h

section
variable {cfg : Config} {ok : Soup World Proc → Label Proc Event → Prop}
  {rs : JobId → Pipeline.Replies} {h : Program.History World Proc Event} {s : Soup World Proc}
  {g g' : World} {p : Proc} {e : Event} {ps qs : Multiset Proc} {id : String}

/-- A step of the pool inside an `Env`. -/
theorem Proc.Step.call {e : Pool.Event} (hs : Proc.Step cfg g p (.pool e) g' qs) :
    ∃ c, p.calls = {c} ∧ Call.Step cfg.pool g.pool c e g'.pool (qs.bind Proc.calls) := by
  cases hs with
  | opening hs | closing hs | killing hs =>
      refine ⟨_, rfl, ?_⟩
      rwa [bind_calls_map fun _ => rfl]
  | opened hs | killed hs => exact ⟨_, rfl, by simpa [Proc.calls] using hs⟩
  | @inPool r c e pool cs hs =>
      refine ⟨_, rfl, ?_⟩
      rwa [bind_calls_map (calls_after r)]

/-- The other steps leave the pool as it is.  They may make a call of the pool, which knows of no
container. -/
theorem Proc.Step.elsewhere (hs : Proc.Step cfg g p e g' qs) (he : ∀ e', e ≠ .pool e') :
    g'.pool = g.pool ∧ (qs.bind Proc.calls = p.calls ∨
      ∃ c, p.calls = 0 ∧ qs.bind Proc.calls = {c} ∧ c.owned = 0 ∧ ∀ id, ¬ c.Knows id) := by
  cases hs with
  | opening | opened | inPool | killing | killed | closing => exact absurd rfl (he _)
  | @kill victim =>
      exact ⟨rfl, .inr ⟨.removeByID victim.id, rfl, by simp [Proc.calls], rfl, fun _ h => h⟩⟩
  | waited => exact ⟨rfl, .inr ⟨.close .user, rfl, by simp [Proc.calls], rfl, fun _ h => h⟩⟩
  | waitRet => exact ⟨rfl, .inl (by rw [Multiset.singleton_bind, calls_next]; rfl)⟩
  | _ => exact ⟨rfl, .inl (by simp [Proc.calls])⟩

/-- A run asks for something of a container that it knows of. -/
theorem known_of_asks {op : Op} (hop : op ∈ p.ops rs id e) (he : ∀ e', e ≠ .pool e') :
    op.Uses ∧ Known (toPool ⟨g, p ::ₘ ps⟩) id := by
  have hops : p.ops rs id e = ((p.asks rs e).filter fun req => req.container = id).map .ask := by
    cases e with
    | pool e => exact absurd rfl (he e)
    | _ => rfl
  rw [hops] at hop
  obtain ⟨req, hmem, rfl⟩ := List.mem_map.mp hop
  obtain ⟨hreq, hid⟩ := List.mem_filter.mp hmem
  obtain rfl := of_decide_eq_true hid
  refine ⟨trivial, .inr (.inr ⟨.holding req.container, ?_, rfl⟩)⟩
  rw [toPool_cons]
  refine Multiset.mem_add.mpr (.inl ?_)
  cases p with
  | run r ph =>
      rw [calls_of_asks hreq]
      exact Multiset.mem_singleton_self _
  | _ => cases hreq

theorem lived (rs : JobId → Pipeline.Replies) (id : String)
    (ht : (processes cfg).system.Trace ok h s) :
    Lived cfg.pool id (life rs id h) (toPool s) := by
  refine Program.trace_invariant (I := fun h s => Lived cfg.pool id (life rs id h) (toPool s))
    (fun s hs => ?_) (fun h g p g' ps _ hi _ hc => ?_) (fun h g p e g' qs ps ht hi _ hs => ?_) ht
  · obtain ⟨-, -, rfl⟩ := hs
    refine ⟨.unborn, fun _ => rfl, fun w hmem => ?_, fun w err hmem => ?_, fun hknown => ?_⟩
    · cases Multiset.mem_singleton.mp hmem
    · cases Multiset.mem_singleton.mp hmem
    · rcases hknown with hall | hidle | ⟨c, hc, hknows⟩
      · exact absurd hall (Finset.notMem_empty _)
      · cases hidle
      · cases Multiset.mem_singleton.mp hc
        cases hknows
  · rw [toPool_cons]
    cases hc with
    | run => exact hi.call nofun (Multiset.notMem_zero _)
    | close =>
        rw [show Proc.calls (.closing .cancel) = 0 from rfl, zero_add]
        exact hi
  · by_cases he : ∀ e', e ≠ .pool e'
    · have hnow : Lived cfg.pool id (life rs id ((⟨g, p ::ₘ ps⟩, .act p e) :: h))
          (toPool ⟨g, p ::ₘ ps⟩) := by
        by_cases hnil : p.ops rs id e = []
        · rw [life, hnil, List.append_nil]
          exact hi
        · obtain ⟨op, hop⟩ := List.exists_mem_of_ne_nil _ hnil
          have hknown : ∀ op ∈ p.ops rs id e, op.Uses ∧ Known (toPool ⟨g, p ::ₘ ps⟩) id :=
            fun op hop => known_of_asks hop he
          exact hi.ask (hknown op hop).2 fun op hop => (hknown op hop).1
      obtain ⟨hpool, hcalls | ⟨c, hnone, hcalls, howned, hknows⟩⟩ := hs.elsewhere he
      · rw [toPool_add, hpool, hcalls, ← toPool_cons]
        exact hnow
      · rw [toPool_cons, hnone, zero_add] at hnow
        rw [toPool_add, hpool, hcalls, Multiset.singleton_add]
        refine hnow.call (hknows id) ?_
        rw [howned]
        exact Multiset.notMem_zero _
    · push Not at he
      obtain ⟨e, rfl⟩ := he
      obtain ⟨c, hcalls, hstep⟩ := hs.call
      have hr := pool_reachable ht.reach
      rw [toPool_cons, hcalls, Multiset.singleton_add] at hi hr
      rw [toPool_add]
      exact hi.act hr hstep

/-- In any history of an `Env` a container is created once, under the configuration of the pool,
and started once before anything else is done with it.  If the start fails, it is only removed,
once. -/
theorem lives (rs : JobId → Pipeline.Replies) (id : String)
    (ht : (processes cfg).system.Trace System.Any h s) :
    Life cfg.pool.createConfig (life rs id h) :=
  (lived rs id ht).life

end

/-- A job compiles in a new container. -/
theorem lives_one : ∃ (rs : JobId → Pipeline.Replies) (h : Program.History World Proc Event)
    (s : Soup World Proc) (r : Run), Has s r "a" ∧ r.id = 0 ∧
      Life (Config.sized 1 0).pool.createConfig (life rs "a" h) := by
  let cfg := Config.sized 1 0
  let r : Run := ⟨0, ⟨.rust, [("Cargo.toml", "")], 60000000000⟩, some cfg.grace⟩
  let rs (_ : JobId) : Pipeline.Replies := ⟨.ok "a", 0, "00",
    ⟨.ok ⟨"", "", 0⟩, .ok (), .ok ⟨"", "", 0⟩, 0⟩, ⟨.ok ⟨"", "", 0⟩, .ok (), .ok ⟨"", "", 0⟩, 0⟩⟩
  obtain ⟨h, s, ht, -, hmem⟩ := exists_trace cfg (by decide) (fun _ _ => true)
    (Script.newEnv ++ (Pool.Script.acquireGrow cfg.pool "a").map (Script.inRun r) ++
      Script.compile r "a")
    (fun s => .run r (.wait "a" .compile) ∈ s.procs)
    (by decide +kernel)
  exact ⟨rs, h, s, r, ⟨_, hmem, Multiset.mem_singleton_self _⟩, rfl,
    lives rs "a" (ht.mono fun _ _ _ => trivial)⟩

end Aicv.Env
