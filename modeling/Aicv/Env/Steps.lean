import Aicv.Pipeline.Job
import Aicv.Pool.Calls
import Aicv.Sandbox.Capture
import Aicv.Ttl.Manager

/-!
# The running verifier

`Env` is a pool, a TTL manager whose kill is the pool's `RemoveByID`, and any
number of calls of `pipeline.Run` that share them.  The processes are `NewEnv`,
the runs, the reaper goroutine, the calls of `Close`, and the runtime, which
lets time pass and commands end.

A process that is inside a call of the pool is at a point of that call, and its
steps are the steps of `Pool.Call`.  Each other step is one critical section of
the manager, one request to the container runtime, or the start of a kill.

A run walks through `Run`: `Acquire`, `Track`, then for each stage the work
directory, the files and the command, then the deferred calls in their order:
the removal of the work directory, `Untrack`, `Release`.

A command that has been started runs until it exits or is killed by its
in-container limit, which is the step `exit` of the runtime, or until its
container is removed.  An `Exec` that returns normally has seen its command
end.  An `Exec` that returns an error may leave it running.
-/

namespace Aicv.Env

open Transition Pool Ttl Pipeline Sandbox

/-! ## State -/

/-- `api.Config`, as far as `Env` keeps it. -/
structure Config where
  pool : Pool.Config
  reaperGrace : Duration
deriving DecidableEq

/-- The grace of `NewEnv`. -/
def Config.grace (cfg : Config) : Duration :=
  if cfg.reaperGrace ≤ 0 then 30000000000 else cfg.reaperGrace

/-- A compile or execute command that runs in a container. -/
structure Command where
  container : String
  /-- The run that started it. -/
  run : JobId
  stage : Stage
deriving DecidableEq

/-- What the processes of an `Env` share. -/
structure World where
  pool : Pool.World
  reaper : Manager JobId
  /-- What `now` returns. -/
  clock : ℤ
  /-- The commands that are running. -/
  running : Finset Command
  /-- The number of calls of `Run` so far. -/
  runs : JobId
  /-- The context of the reaper has been cancelled. -/
  cancelled : Bool
  /-- The reaper goroutine has exited. -/
  stopped : Bool

namespace World

/-- A world with another pool.  The commands of a container that no longer
exists have ended. -/
def withPool (g : World) (p : Pool.World) : World :=
  { g with pool := p, running := g.running.filter fun c => c.container ∈ p.backend.live }

/-- A world with another table of deadlines. -/
def withReaper (g : World) (m : Manager JobId) : World := { g with reaper := m }

/-- A world with other running commands. -/
def withRunning (g : World) (cs : Finset Command) : World := { g with running := cs }

@[simp] theorem withPool_pool (g : World) (p : Pool.World) : (g.withPool p).pool = p := rfl

end World

/-! ## Processes -/

/-- A call of `pipeline.Run`. -/
structure Run where
  id : JobId
  job : Job
  /-- The grace of the option `WithReaper`, if it is given. -/
  grace : Option Duration
deriving DecidableEq

/-- A call of `pipeline.Run`, at the point before its next atomic step. -/
inductive Phase where
  /-- In `Acquire`, or from its call of `Release` on. -/
  | inPool (c : Call)
  /-- Before `Track`. -/
  | track (id : String)
  /-- Before the `Exec` that makes the work directory. -/
  | prepare (id : String) (st : Stage)
  /-- Before `CopyIn`. -/
  | copyIn (id : String) (st : Stage)
  /-- Before the `Exec` of the stage's command. -/
  | exec (id : String) (st : Stage)
  /-- In that `Exec`, with the command started. -/
  | wait (id : String) (st : Stage)
  /-- Before the `Exec` that removes the work directory. -/
  | cleanup (id : String)
  /-- Before `Untrack`. -/
  | untrack (id : String)
deriving DecidableEq

/-- The reaper goroutine. -/
inductive Sweep where
  /-- At the select of its loop. -/
  | select
  /-- `sweepOnce`, before it reads the clock. -/
  | readClock
  /-- `sweepOnce`, before its critical section. -/
  | lock (now : ℤ)
  /-- `sweepOnce`, in the loop over the ids that have expired. -/
  | kills (todo : Multiset (Tracked JobId))
  /-- In the kill of one of them. -/
  | killing (c : Call) (victim : Tracked JobId) (todo : Multiset (Tracked JobId))
deriving DecidableEq

/-- A call of `Env.Close`. -/
inductive Closing where
  /-- Before it cancels the reaper's context. -/
  | cancel
  /-- In `Wait`. -/
  | wait
  /-- In the `Close` of the pool. -/
  | inPool (c : Call)
deriving DecidableEq

/-- A process of an `Env`. -/
inductive Proc where
  /-- `NewEnv`, in the `New` of the pool. -/
  | opening (c : Call)
  | run (r : Run) (ph : Phase)
  | reaper (sw : Sweep)
  | closing (cl : Closing)
  /-- The container runtime and the clock. -/
  | runtime
deriving DecidableEq

/-- What an atomic step does. -/
inductive Event where
  | pool (e : Pool.Event)
  | track
  | untrack
  | mkdir (r : Except String ℤ)
  | copyIn (files : List (String × String)) (err : Option String)
  /-- `Exec` starts the command. -/
  | exec (cmd : List String)
  /-- `Exec` fails. -/
  | execErr (text : String)
  /-- `Exec` returns the exit code.  The duration is the one `Run` measures. -/
  | execRet (exitCode : ℤ) (dur : Duration)
  | cleanup
  | tick
  | ctxDone
  | readClock
  | lock
  | kill (victim : Tracked JobId)
  | swept
  | cancel
  | waited
  /-- Time passes. -/
  | pass (d : ℕ)
  /-- A command exits or is killed by its limit. -/
  | exit (c : Command)
deriving DecidableEq

/-- After `Acquire` has returned a container, the run goes on to `Track`. -/
def Phase.after : Call → Phase
  | .holding id => .track id
  | c => .inPool c

/-- The point after a stage has returned a result.  Only a compile stage that
succeeds is followed by the other stage. -/
def Phase.next (r : Run) (id : String) (exitCode : ℤ) (dur : Duration) : Stage → Phase
  | .compile =>
      let ttlSecs := (wrapWithTimeout (command r.job.lang .compile) r.job.ttl).2
      if timedOut exitCode ttlSecs dur || exitCode ≠ 0 then .cleanup id
      else .prepare id .execute
  | .execute => .cleanup id

/-! ## Steps -/

/-- One atomic step of a process. -/
inductive Proc.Step (cfg : Config) : World → Proc → Event → World → Multiset Proc → Prop where
  -- NewEnv
  | opening {g : World} {c : Call} {e : Pool.Event} {p : Pool.World} {cs : Multiset Call} :
      Call.Step cfg.pool g.pool c e p cs →
      p.published = false →
      Step cfg g (.opening c) (.pool e) (g.withPool p) (cs.map .opening)
  | opened {g : World} {c : Call} {e : Pool.Event} {p : Pool.World} :
      Call.Step cfg.pool g.pool c e p 0 →
      p.published = true →
      Step cfg g (.opening c) (.pool e) (g.withPool p) {.reaper .select}
  -- Run
  | inPool {g : World} {r : Run} {c : Call} {e : Pool.Event} {p : Pool.World}
      {cs : Multiset Call} :
      Call.Step cfg.pool g.pool c e p cs →
      Step cfg g (.run r (.inPool c)) (.pool e) (g.withPool p)
        (cs.map fun c' => .run r (Phase.after c'))
  | track {g : World} {r : Run} {id : String} {grace : Duration} :
      r.grace = some grace →
      Step cfg g (.run r (.track id)) .track
        (g.withReaper (g.reaper.track id (r.job.ttl + grace) g.clock r.id))
        {.run r (.prepare id .compile)}
  | trackNone {g : World} {r : Run} {id : String} :
      r.grace = none →
      Step cfg g (.run r (.track id)) .track g {.run r (.prepare id .compile)}
  | prepared {g : World} {r : Run} {id : String} {st : Stage} :
      Step cfg g (.run r (.prepare id st)) (.mkdir (.ok 0)) g {.run r (.copyIn id st)}
  | prepareErr {g : World} {r : Run} {id : String} {st : Stage} {res : Except String ℤ} :
      res ≠ .ok 0 →
      Step cfg g (.run r (.prepare id st)) (.mkdir res) g {.run r (.cleanup id)}
  | copied {g : World} {r : Run} {id : String} {st : Stage} :
      Step cfg g (.run r (.copyIn id st)) (.copyIn (r.job.staged st) none) g {.run r (.exec id st)}
  /-- Without files `CopyIn` is not called. -/
  | copyErr {g : World} {r : Run} {id text : String} {st : Stage} :
      r.job.staged st ≠ [] →
      Step cfg g (.run r (.copyIn id st)) (.copyIn (r.job.staged st) (some text)) g
        {.run r (.cleanup id)}
  | exec {g : World} {r : Run} {id : String} {st : Stage} :
      id ∈ g.pool.backend.live →
      Step cfg g (.run r (.exec id st))
        (.exec (wrapWithTimeout (command r.job.lang st) r.job.ttl).1)
        (g.withRunning (insert ⟨id, r.id, st⟩ g.running)) {.run r (.wait id st)}
  | execErr {g : World} {r : Run} {id text : String} {st : Stage} :
      Step cfg g (.run r (.exec id st)) (.execErr text) g {.run r (.cleanup id)}
  /-- The command may still be running. -/
  | waitErr {g : World} {r : Run} {id text : String} {st : Stage} :
      Step cfg g (.run r (.wait id st)) (.execErr text) g {.run r (.cleanup id)}
  | waitRet {g : World} {r : Run} {id : String} {st : Stage} {exitCode : ℤ} {dur : Duration} :
      ⟨id, r.id, st⟩ ∉ g.running →
      Step cfg g (.run r (.wait id st)) (.execRet exitCode dur) g
        {.run r (Phase.next r id exitCode dur st)}
  | cleanup {g : World} {r : Run} {id : String} :
      Step cfg g (.run r (.cleanup id)) .cleanup g {.run r (.untrack id)}
  | untrack {g : World} {r : Run} {id : String} :
      r.grace.isSome = true →
      Step cfg g (.run r (.untrack id)) .untrack (g.withReaper (g.reaper.untrack id))
        {.run r (.inPool (.holding id))}
  | untrackNone {g : World} {r : Run} {id : String} :
      r.grace = none →
      Step cfg g (.run r (.untrack id)) .untrack g {.run r (.inPool (.holding id))}
  -- the reaper
  | tick {g : World} : Step cfg g (.reaper .select) .tick g {.reaper .readClock}
  | ctxDone {g : World} :
      g.cancelled = true →
      Step cfg g (.reaper .select) .ctxDone { g with stopped := true } 0
  | readClock {g : World} :
      Step cfg g (.reaper .readClock) .readClock g {.reaper (.lock g.clock)}
  | lock {g : World} {now : ℤ} :
      Step cfg g (.reaper (.lock now)) .lock (g.withReaper (g.reaper.forget now))
        {.reaper (.kills (g.reaper.expired now))}
  /-- The ids were collected in the order of the map, which is any order. -/
  | kill {g : World} {victim : Tracked JobId} {todo : Multiset (Tracked JobId)} :
      victim ∈ todo →
      Step cfg g (.reaper (.kills todo)) (.kill victim) g
        {.reaper (.killing (.removeByID victim.id) victim (todo.erase victim))}
  | killing {g : World} {c : Call} {victim : Tracked JobId} {todo : Multiset (Tracked JobId)}
      {e : Pool.Event} {p : Pool.World} {cs : Multiset Call} :
      Call.Step cfg.pool g.pool c e p cs →
      cs ≠ 0 →
      Step cfg g (.reaper (.killing c victim todo)) (.pool e) (g.withPool p)
        (cs.map fun c' => .reaper (.killing c' victim todo))
  | killed {g : World} {c : Call} {victim : Tracked JobId} {todo : Multiset (Tracked JobId)}
      {e : Pool.Event} {p : Pool.World} :
      Call.Step cfg.pool g.pool c e p 0 →
      Step cfg g (.reaper (.killing c victim todo)) (.pool e) (g.withPool p)
        {.reaper (.kills todo)}
  | swept {g : World} : Step cfg g (.reaper (.kills 0)) .swept g {.reaper .select}
  -- Close
  | cancel {g : World} :
      Step cfg g (.closing .cancel) .cancel { g with cancelled := true } {.closing .wait}
  | waited {g : World} :
      g.stopped = true →
      Step cfg g (.closing .wait) .waited g {.closing (.inPool (.close .user))}
  | closing {g : World} {c : Call} {e : Pool.Event} {p : Pool.World} {cs : Multiset Call} :
      Call.Step cfg.pool g.pool c e p cs →
      Step cfg g (.closing (.inPool c)) (.pool e) (g.withPool p)
        (cs.map fun c' => .closing (.inPool c'))
  -- the runtime
  | pass {g : World} {d : ℕ} :
      Step cfg g .runtime (.pass d) { g with clock := g.clock + d } {.runtime}
  | exit {g : World} {c : Command} :
      c ∈ g.running →
      Step cfg g .runtime (.exit c) (g.withRunning (g.running.erase c)) {.runtime}

/-- The calls a client may make once `NewEnv` has returned. -/
inductive Proc.Start (cfg : Config) : World → Proc → World → Prop where
  /-- `Verify`, which runs the pipeline with the reaper, or `pipeline.Run`
  without it. -/
  | run {g : World} {r : Run} {ctx : Ctx} :
      g.pool.published = true →
      r.id = g.runs →
      r.grace = some cfg.grace ∨ r.grace = none →
      Start cfg g (.run r (.inPool (.acquire ctx))) { g with runs := g.runs + 1 }
  | close {g : World} : g.pool.published = true → Start cfg g (.closing .cancel) g

/-- An `Env` before the first step of `NewEnv`. -/
def start : Soup World Proc :=
  ⟨⟨⟨Pool.empty, .empty, false⟩, Manager.empty, 0, ∅, 0, false, false⟩,
    {.opening (.prewarm 0), .runtime}⟩

/-- An `Env` with any number of concurrent calls. -/
def processes (cfg : Config) : Program World Proc Event where
  Init s := 1 ≤ cfg.pool.maxSize ∧ cfg.pool.minWarm ≤ cfg.pool.maxSize ∧ s = start
  Call := Proc.Start cfg
  Act := Proc.Step cfg

end Aicv.Env
