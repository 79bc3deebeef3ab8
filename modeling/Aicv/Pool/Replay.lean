import Aicv.Pool.Calls

/-!
# Running the pool

`Call.exec` computes the step a call takes on an event, and `Call.canStart` the
calls a client may make.  Both agree with the relations of `Aicv.Pool.Calls`
(`Call.exec_eq_some`, `Call.canStart_iff`), so a list of labels that evaluates
to a soup is a run of the pool to that soup (`exists_reach`).
-/

namespace Aicv.Pool

open Transition

/-- The call after its context ended, if its context was live. -/
def Call.cancel (text : String) : Call → Option Call
  | .acquire none => some (.acquire (some text))
  | .acquireFast none => some (.acquireFast (some text))
  | .acquireWait none => some (.acquireWait (some text))
  | .grow (.acquire none) => some (.grow (.acquire (some text)))
  | .growCreate (.acquire none) => some (.growCreate (.acquire (some text)))
  | .growStart (.acquire none) id => some (.growStart (.acquire (some text)) id)
  | .growUnstart (.acquire none) id e => some (.growUnstart (.acquire (some text)) id e)
  | .growRegister (.acquire none) id => some (.growRegister (.acquire (some text)) id)
  | .growGiveBack (.acquire none) e => some (.growGiveBack (.acquire (some text)) e)
  | _ => none

theorem Call.cancel_eq_some {text : String} {c c' : Call} :
    c.cancel text = some c' ↔ Call.Cancel text c c' := by
  constructor
  · fun_cases Call.cancel text c
    all_goals
      intro h
      cases h
    all_goals constructor
  · intro h
    cases h <;> rfl

/-- The step of a call on an event, if it takes one. -/
def Call.exec (cfg : Config) (g : World) : Call → Event → Option (World × Multiset Call)
  | .prewarm i, .loop =>
      if (i : Int) < cfg.minWarm then some (g, {.grow (.new i)}) else none
  | .prewarm i, .ret =>
      if (i : Int) < cfg.minWarm then none else some ({ g with published := true }, 0)
  | .prewarmSend i id, .send =>
      if g.pool.HasRoom cfg then some (g.withPool (g.pool.send id), {.prewarm (i + 1)}) else none
  | .grow w, .lock =>
      match g.pool.reserve cfg with
      | .error e => some (g, {w.refused e})
      | .ok p => some (g.withPool p, {.growCreate w})
  | .growCreate w, .create req (.ok id) =>
      if req = cfg.createConfig then
        if id ∈ g.backend.issued then none
        else some (g.withBackend (g.backend.created id), {.growStart w id})
      else none
  | .growCreate w, .create req (.error text) =>
      if req = cfg.createConfig then some (g, {.growGiveBack w (.create text)}) else none
  | .growStart w id, .start id' none => if id' = id then some (g, {.growRegister w id}) else none
  | .growStart w id, .start id' (some text) =>
      if id' = id then some (g, {.growUnstart w id (.start text)}) else none
  | .growUnstart w id e, .remove id' err =>
      if id' = id then some (g.withBackend (g.backend.removed id err), {.growGiveBack w e})
      else none
  | .growGiveBack w e, .lock => some (g.withPool g.pool.giveBack, {w.refused e})
  | .growRegister w id, .lock =>
      some (g.withPool ((g.pool.register cfg id).setState id w.state), {w.grown id})
  | .acquire ctx, .lock =>
      if g.pool.closed then some (g, {.acquireReturn (.error .closed)})
      else some (g, {.acquireFast ctx})
  | .acquireFast _, .recv =>
      g.pool.idle.head?.map fun id =>
        (g.withPool (g.pool.recv.setState id .busy), {.acquireReturn (.ok id)})
  | .acquireFast ctx, .default =>
      if g.pool.idle = [] then some (g, {.grow (.acquire ctx)}) else none
  | .acquireWait _, .recv =>
      g.pool.idle.head?.map fun id =>
        (g.withPool (g.pool.recv.setState id .busy), {.acquireReturn (.ok id)})
  | .acquireWait _, .recvDone =>
      if g.pool.done then some (g, {.acquireReturn (.error .closed)}) else none
  | .acquireWait (some text), .recvCtx => some (g, {.acquireReturn (.error (.ctx text))})
  | .acquireReturn (.ok id), .ret => some (g, {.holding id})
  | .acquireReturn (.error _), .ret => some (g, 0)
  | .holding id, .release => some (g.withPool (g.pool.finishJob id), {.release id})
  | .release id, .lock =>
      if id ∈ g.pool.all then
        if g.pool.closed || cfg.jobsSpent (g.pool.cells id).jobs then
          some (g, {.discard .release id})
        else some (g, {.releaseSend id})
      else some (g, 0)
  | .releaseSend id, .send =>
      if g.pool.HasRoom cfg then some (g.withPool (g.pool.send id), 0) else none
  | .releaseSend id, .default =>
      if g.pool.HasRoom cfg then none else some (g, {.discard .release id})
  | .removeByID id, .lock =>
      if id ∈ g.pool.all then some (g, {.discard .removeByID id}) else some (g, 0)
  | .discard w id, .lock => some (g.withPool (g.pool.discard id), {.discardRemove w id})
  | .discardRemove _ id, .remove id' err =>
      if id' = id then some (g.withBackend (g.backend.removed id err), 0) else none
  | .close w, .lock =>
      if g.pool.closed then some (g, 0)
      else some (g.withPool g.pool.close, {.closeDone w g.pool.all})
  | .closeDone w todo, .closeDone =>
      some (g.withPool g.pool.closeDone, {.closeRemove w todo none})
  | .closeRemove w todo firstErr, .remove id err =>
      if id ∈ todo then
        some (g.withBackend (g.backend.removed id err),
          {.closeRemove w (todo.erase id) (firstErr <|> err)})
      else none
  | .closeRemove _ todo _, .ret => if todo = ∅ then some (g, 0) else none
  | c, .cancel text => (c.cancel text).map fun c' => (g, {c'})
  | _, _ => none

/-- `Call.exec` computes exactly the steps of the call. -/
theorem Call.exec_eq_some {cfg : Config} {g g' : World} {c : Call} {e : Event}
    {cs : Multiset Call} : c.exec cfg g e = some (g', cs) ↔ Call.Step cfg g c e g' cs := by
  constructor
  · fun_cases Call.exec cfg g c e
    all_goals intro h
    all_goals first
      | cases h
      | obtain ⟨_, _, heq⟩ := Option.map_eq_some_iff.mp h
        cases heq
    all_goals constructor <;> simp_all [Call.cancel_eq_some]
  · intro h
    cases h with
    | cancel hc => cases hc <;> rfl
    | _ => simp_all [Call.exec]

/-- The calls a client may make, computed. -/
def Call.canStart (g : World) : Call → Bool
  | .acquire _ | .removeByID _ | .close .user => g.published
  | _ => false

theorem Call.canStart_iff {g g' : World} {c : Call} :
    (c.canStart g = true ∧ g = g') ↔ Call.Start g c g' := by
  constructor
  · rintro ⟨h, rfl⟩
    fun_cases Call.canStart g c <;> simp_all [Call.canStart]
    all_goals constructor; assumption
  · intro h
    cases h <;> simp_all [Call.canStart]

/-- The interpreter of the pool. -/
def interpreter (cfg : Config) : Interpreter World Call Event where
  call g c := if c.canStart g then some g else none
  act := fun g c e => c.exec cfg g e

theorem interpreter_sound (cfg : Config) : (interpreter cfg).Sound (calls cfg) where
  call h := by
    simp only [interpreter, Option.ite_none_right_eq_some, Option.some.injEq] at h
    exact Call.canStart_iff.mp h
  act h := Call.exec_eq_some.mp h

/-- What a test finds after the steps of a list of labels, from the start of
`New`, is reached by a run. -/
theorem exists_reach (cfg : Config) (hcfg : 1 ≤ cfg.maxSize ∧ cfg.minWarm ≤ cfg.maxSize)
    (ok : Soup World Call → Label Call Event → Bool) (ls : List (Label Call Event))
    (q : Soup World Call → Prop) [DecidablePred q]
    (h : ((interpreter cfg).replay ok start ls).any (fun s => decide (q s)) = true) :
    ∃ s, (calls cfg).system.Reach (fun s l => ok s l = true) s ∧ q s :=
  Interpreter.exists_reach (interpreter_sound cfg) (init_iff.mpr ⟨hcfg.1, hcfg.2, rfl⟩) h

/-- `exists_reach` for runs without a condition on their steps. -/
theorem exists_reachable (cfg : Config) (hcfg : 1 ≤ cfg.maxSize ∧ cfg.minWarm ≤ cfg.maxSize)
    (ls : List (Label Call Event)) (q : Soup World Call → Prop) [DecidablePred q]
    (h : ((interpreter cfg).replay (fun _ _ => true) start ls).any
      (fun s => decide (q s)) = true) :
    ∃ s, (calls cfg).system.Reachable s ∧ q s := by
  obtain ⟨s, hs, hq⟩ := exists_reach cfg hcfg _ ls q h
  exact ⟨s, hs.reachable, hq⟩

/-- An `Acquire` that has its result returns it. -/
theorem exists_return (cfg : Config) {s : Soup World Call} {r : Except Error String}
    (h : .acquireReturn r ∈ s.procs) :
    ∃ t, (calls cfg).system.Step s (.act (.acquireReturn r) .ret) t := by
  refine Program.act_of_mem h ?_
  cases r with
  | error e => exact ⟨_, _, Call.Step.returnErr⟩
  | ok id => exact ⟨_, _, Call.Step.returnOk⟩

/-! ## Scripts

The labels of calls that run undisturbed, to build runs from. -/

/-- A configuration with these sizes and no resource limits. -/
def Config.sized (minWarm maxSize maxJobs : Int) : Config where
  image := "rust-sandbox"
  minWarm := minWarm
  maxSize := maxSize
  maxJobsPerContainer := maxJobs
  memBytes := 0
  nanoCPUs := 0
  pidsLimit := 0
  seccompProfilePath := ""

namespace Script

/-- `New` with nothing to pre-warm. -/
def new : List (Label Call Event) := [.act (.prewarm 0) .ret]

/-- `Acquire`, up to the end of the `Create` in its `grow`. -/
def acquireCreate (cfg : Config) (id : String) : List (Label Call Event) :=
  [.call (.acquire none), .act (.acquire none) .lock, .act (.acquireFast none) .default,
    .act (.grow (.acquire none)) .lock,
    .act (.growCreate (.acquire none)) (.create cfg.createConfig (.ok id))]

/-- The rest of that `Acquire`, up to its return. -/
def grown (id : String) : List (Label Call Event) :=
  [.act (.growStart (.acquire none) id) (.start id none),
    .act (.growRegister (.acquire none) id) .lock]

/-- The rest of that `Acquire`. -/
def growEnd (id : String) : List (Label Call Event) :=
  grown id ++ [.act (.acquireReturn (.ok id)) .ret]

/-- `Acquire` that grows the pool. -/
def acquireGrow (cfg : Config) (id : String) : List (Label Call Event) :=
  acquireCreate cfg id ++ growEnd id

/-- `Acquire` on a full pool, up to its capacity wait. -/
def acquireWait : List (Label Call Event) :=
  [.call (.acquire none), .act (.acquire none) .lock, .act (.acquireFast none) .default,
    .act (.grow (.acquire none)) .lock]

/-- `Acquire` of a parked container, up to its return. -/
def acquireParked : List (Label Call Event) :=
  [.call (.acquire none), .act (.acquire none) .lock, .act (.acquireFast none) .recv]

/-- `Release`, up to its decision. -/
def release (id : String) : List (Label Call Event) :=
  [.act (.holding id) .release, .act (.release id) .lock]

/-- `Release` that parks its container. -/
def releaseSend (id : String) : List (Label Call Event) :=
  release id ++ [.act (.releaseSend id) .send]

/-- `discard`, with a `Remove` that succeeds. -/
def discard (w : Discarder) (id : String) : List (Label Call Event) :=
  [.act (.discard w id) .lock, .act (.discardRemove w id) (.remove id none)]

end Script

end Aicv.Pool
