import Aicv.Env.Steps
import Aicv.Pool.Replay

/-!
# Running an `Env`

`Proc.exec` computes the step a process takes on an event, so that a run of an
`Env` is found by evaluating a list of labels (`exists_reach`).
-/

namespace Aicv.Env

open Transition Pool Ttl Pipeline Sandbox

/-- The step of a process on an event, if it takes one. -/
def Proc.exec (cfg : Config) (g : World) : Proc → Event → Option (World × Multiset Proc)
  | .opening c, .pool e =>
      (c.exec cfg.pool g.pool e).bind fun s =>
        if s.1.published = true then
          if s.2 = 0 then some (g.withPool s.1, {.reaper .select}) else none
        else some (g.withPool s.1, s.2.map .opening)
  | .run r (.inPool c), .pool e =>
      (c.exec cfg.pool g.pool e).map fun s =>
        (g.withPool s.1, s.2.map fun c' => .run r (Phase.after c'))
  | .run r (.track id), .track =>
      match r.grace with
      | some grace => some (g.withReaper (g.reaper.track id (r.job.ttl + grace) g.clock r.id),
          {.run r (.prepare id .compile)})
      | none => some (g, {.run r (.prepare id .compile)})
  | .run r (.prepare id st), .mkdir res =>
      if res = .ok 0 then some (g, {.run r (.copyIn id st)}) else some (g, {.run r (.cleanup id)})
  | .run r (.copyIn id st), .copyIn files none =>
      if files = r.job.staged st then some (g, {.run r (.exec id st)}) else none
  | .run r (.copyIn id st), .copyIn files (some _) =>
      if files = r.job.staged st then
        if files = [] then none else some (g, {.run r (.cleanup id)})
      else none
  | .run r (.exec id st), .exec cmd =>
      if cmd = (wrapWithTimeout (command r.job.lang st) r.job.ttl).1 then
        if id ∈ g.pool.backend.live then
          some (g.withRunning (insert ⟨id, r.id, st⟩ g.running), {.run r (.wait id st)})
        else none
      else none
  | .run r (.exec id _), .execErr _ => some (g, {.run r (.cleanup id)})
  | .run r (.wait id _), .execErr _ => some (g, {.run r (.cleanup id)})
  | .run r (.wait id st), .execRet exitCode dur =>
      if ⟨id, r.id, st⟩ ∈ g.running then none
      else some (g, {.run r (Phase.next r id exitCode dur st)})
  | .run r (.cleanup id), .cleanup => some (g, {.run r (.untrack id)})
  | .run r (.untrack id), .untrack =>
      match r.grace with
      | some _ => some (g.withReaper (g.reaper.untrack id), {.run r (.inPool (.holding id))})
      | none => some (g, {.run r (.inPool (.holding id))})
  | .reaper .select, .tick => some (g, {.reaper .readClock})
  | .reaper .select, .ctxDone => if g.cancelled then some ({ g with stopped := true }, 0) else none
  | .reaper .readClock, .readClock => some (g, {.reaper (.lock g.clock)})
  | .reaper (.lock now), .lock =>
      some (g.withReaper (g.reaper.forget now), {.reaper (.kills (g.reaper.expired now))})
  | .reaper (.kills todo), .kill victim =>
      if victim ∈ todo then
        some (g, {.reaper (.killing (.removeByID victim.id) victim (todo.erase victim))})
      else none
  | .reaper (.killing c victim todo), .pool e =>
      (c.exec cfg.pool g.pool e).map fun s =>
        if s.2 = 0 then (g.withPool s.1, {.reaper (.kills todo)})
        else (g.withPool s.1, s.2.map fun c' => .reaper (.killing c' victim todo))
  | .reaper (.kills todo), .swept => if todo = 0 then some (g, {.reaper .select}) else none
  | .closing .cancel, .cancel => some ({ g with cancelled := true }, {.closing .wait})
  | .closing .wait, .waited =>
      if g.stopped then some (g, {.closing (.inPool (.close .user))}) else none
  | .closing (.inPool c), .pool e =>
      (c.exec cfg.pool g.pool e).map fun s =>
        (g.withPool s.1, s.2.map fun c' => .closing (.inPool c'))
  | .runtime, .pass d => some ({ g with clock := g.clock + d }, {.runtime})
  | .runtime, .exit c =>
      if c ∈ g.running then some (g.withRunning (g.running.erase c), {.runtime}) else none
  | _, _ => none

/-- Everything `Proc.exec` computes is a step. -/
theorem Proc.exec_sound {cfg : Config} {g g' : World} {p : Proc} {e : Event} {qs : Multiset Proc}
    (h : p.exec cfg g e = some (g', qs)) : Proc.Step cfg g p e g' qs := by
  revert h
  fun_cases Proc.exec cfg g p e
  case case1 c e =>
    intro h
    obtain ⟨⟨p, cs⟩, hs, heq⟩ := Option.bind_eq_some_iff.mp h
    simp only at heq
    split at heq
    next hpub =>
      split at heq
      next hnil =>
        cases heq
        exact .opened (hnil ▸ Call.exec_eq_some.mp hs) hpub
      next => cases heq
    next hpub =>
      cases heq
      exact .opening (Call.exec_eq_some.mp hs) (Bool.eq_false_iff.mpr hpub)
  case case2 r c e =>
    intro h
    obtain ⟨s, hs, heq⟩ := Option.map_eq_some_iff.mp h
    cases heq
    exact .inPool (Call.exec_eq_some.mp hs)
  case case29 c victim todo e =>
    intro h
    obtain ⟨s, hs, heq⟩ := Option.map_eq_some_iff.mp h
    split at heq
    next hnil =>
      cases heq
      exact .killed (hnil ▸ Call.exec_eq_some.mp hs)
    next hnil =>
      cases heq
      exact .killing (Call.exec_eq_some.mp hs) hnil
  case case35 c e =>
    intro h
    obtain ⟨s, hs, heq⟩ := Option.map_eq_some_iff.mp h
    cases heq
    exact .closing (Call.exec_eq_some.mp hs)
  -- the other steps are read off the rule
  all_goals intro h
  all_goals cases h
  all_goals constructor <;> simp_all

/-- The shared state after a client's call is started, if it may be. -/
def Proc.begin (cfg : Config) (g : World) : Proc → Option World
  | .run r (.inPool (.acquire _)) =>
      if g.pool.published = true ∧ r.id = g.runs ∧ (r.grace = some cfg.grace ∨ r.grace = none) then
        some { g with runs := g.runs + 1 }
      else none
  | .closing .cancel => if g.pool.published then some g else none
  | _ => none

theorem Proc.begin_sound {cfg : Config} {g g' : World} {p : Proc}
    (h : p.begin cfg g = some g') : Proc.Start cfg g p g' := by
  revert h
  fun_cases Proc.begin cfg g p
  all_goals intro h
  all_goals cases h
  all_goals constructor <;> simp_all

/-- The interpreter of an `Env`. -/
def interpreter (cfg : Config) : Interpreter World Proc Event where
  call := fun g p => p.begin cfg g
  act := fun g p e => p.exec cfg g e

theorem interpreter_sound (cfg : Config) : (interpreter cfg).Sound (processes cfg) where
  call := Proc.begin_sound
  act := Proc.exec_sound

/-- What a test finds after the steps of a list of labels, from the start of
`NewEnv`, is reached by a run. -/
theorem exists_reach (cfg : Config)
    (hcfg : 1 ≤ cfg.pool.maxSize ∧ cfg.pool.minWarm ≤ cfg.pool.maxSize)
    (ok : Soup World Proc → Label Proc Event → Bool) (ls : List (Label Proc Event))
    (q : Soup World Proc → Prop) [DecidablePred q]
    (h : ((interpreter cfg).replay ok start ls).any (fun s => decide (q s)) = true) :
    ∃ s, (processes cfg).system.Reach (fun s l => ok s l = true) s ∧ q s :=
  Interpreter.exists_reach (interpreter_sound cfg) ⟨hcfg.1, hcfg.2, rfl⟩ h

/-- `exists_reach`, with the labels of the history. -/
theorem exists_trace (cfg : Config)
    (hcfg : 1 ≤ cfg.pool.maxSize ∧ cfg.pool.minWarm ≤ cfg.pool.maxSize)
    (ok : Soup World Proc → Label Proc Event → Bool) (ls : List (Label Proc Event))
    (q : Soup World Proc → Prop) [DecidablePred q]
    (h : ((interpreter cfg).replay ok start ls).any (fun s => decide (q s)) = true) :
    ∃ hist s, (processes cfg).system.Trace (fun s l => ok s l = true) hist s ∧
      hist.map Prod.snd = ls.reverse ∧ q s :=
  Interpreter.exists_trace (interpreter_sound cfg) ⟨hcfg.1, hcfg.2, rfl⟩ h

/-! ## Scripts -/

/-- A configuration whose pool may hold `maxSize` containers. -/
def Config.sized (maxSize : ℤ) (reaperGrace : Duration) : Config :=
  ⟨Pool.Config.sized 0 maxSize 0, reaperGrace⟩

namespace Script

/-- `NewEnv` with nothing to pre-warm. -/
def newEnv : List (Label Proc Event) := [.act (.opening (.prewarm 0)) (.pool .ret)]

/-- A label of the pool, as a step of a run. -/
def inRun (r : Run) : Label Call Pool.Event → Label Proc Event
  | .call c => .call (.run r (.inPool c))
  | .act c e => .act (.run r (.inPool c)) (.pool e)

/-- A stage, up to the start of its command. -/
def stage (r : Run) (id : String) (st : Stage) : List (Label Proc Event) :=
  [.act (.run r (.prepare id st)) (.mkdir (.ok 0)),
    .act (.run r (.copyIn id st)) (.copyIn (r.job.staged st) none),
    .act (.run r (.exec id st)) (.exec (wrapWithTimeout (command r.job.lang st) r.job.ttl).1)]

/-- `Run`, from the return of `Acquire` to the start of the compile command. -/
def compile (r : Run) (id : String) : List (Label Proc Event) :=
  .act (.run r (.track id)) .track :: stage r id .compile

/-- A compile command that fails. -/
def compileFails (r : Run) (id : String) : List (Label Proc Event) :=
  [.act .runtime (.exit ⟨id, r.id, .compile⟩), .act (.run r (.wait id .compile)) (.execRet 101 0)]

/-- The deferred calls, up to `Release`. -/
def unwind (r : Run) (id : String) : List (Label Proc Event) :=
  [.act (.run r (.cleanup id)) .cleanup, .act (.run r (.untrack id)) .untrack]

/-- A sweep, up to the kill of one of the expired ids. -/
def sweep (now : ℤ) (victim : Tracked JobId) : List (Label Proc Event) :=
  [.act (.reaper .select) .tick, .act (.reaper .readClock) .readClock,
    .act (.reaper (.lock now)) .lock, .act (.reaper (.kills {victim})) (.kill victim)]

/-- A step of a kill, the last one of its sweep. -/
def inKill (victim : Tracked JobId) (c : Call) (e : Pool.Event) : Label Proc Event :=
  .act (.reaper (.killing c victim 0)) (.pool e)

end Script

end Aicv.Env
