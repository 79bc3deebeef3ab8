import Aicv.Transition.Soup
import Aicv.Pool.State

/-!
# The calls of the pool, step by step

`Call` is a call in flight, at the point between two of its atomic steps.  An
atomic step is one critical section, one operation on a channel, or one call of
the backend, with the local work up to the next of these.  `Call.Step` is the
relation between the state before such a step and after it, with one rule for
each branch of the source.

A container that `Acquire` has returned and `Release` has not been called on is
`Call.holding`: no call is in flight, but someone holds the container.  The
only thing a holder can do is call `Release`, so every acquired container is
released at most once, by its holder.

`grow` runs inside `New` and inside `Acquire`.  `Grower` says which of them,
and what they do with its result (`Grower.grown`, `Grower.refused`).
-/

namespace Aicv.Pool

open Transition

/-! ## Calls and events -/

/-- `ctx.Err()`: none while the context is live. -/
abbrev Ctx := Option String

/-- The caller of `grow`. -/
inductive Grower where
  /-- The pre-warm loop of `New`, at this index. -/
  | new (i : Nat)
  | acquire (ctx : Ctx)
deriving DecidableEq, Repr

/-- The caller of `discard`. -/
inductive Discarder where
  | release
  | removeByID
deriving DecidableEq, Repr

/-- The caller of `Close`. -/
inductive Closer where
  /-- `New`, to undo a pre-warm that failed. -/
  | new (e : Error)
  | user
deriving DecidableEq, Repr

/-- A call in flight, at the point before its next atomic step. -/
inductive Call where
  /-- `New`, at the head of the pre-warm loop. -/
  | prewarm (i : Nat)
  /-- `New`, before `p.idle <- c`. -/
  | prewarmSend (i : Nat) (id : String)
  /-- `grow`, before its first critical section. -/
  | grow (w : Grower)
  /-- `create`, before `backend.Create`.  A slot is reserved from here on. -/
  | growCreate (w : Grower)
  /-- `create`, before `backend.Start`. -/
  | growStart (w : Grower) (id : String)
  /-- `create`, before the `backend.Remove` that follows a failed start. -/
  | growUnstart (w : Grower) (id : String) (e : Error)
  /-- `create`, before the critical section that registers the container. -/
  | growRegister (w : Grower) (id : String)
  /-- `grow`, before the critical section that gives the slot back. -/
  | growGiveBack (w : Grower) (e : Error)
  /-- `Acquire`, before it reads `p.closed`. -/
  | acquire (ctx : Ctx)
  /-- `Acquire`, before the select of the fast path. -/
  | acquireFast (ctx : Ctx)
  /-- `Acquire`, at the select of the capacity wait. -/
  | acquireWait (ctx : Ctx)
  /-- `Acquire`, before it returns. -/
  | acquireReturn (r : Except Error String)
  /-- A caller between the return of `Acquire` and its call of `Release`. -/
  | holding (id : String)
  /-- `Release`, before it reads the registry and `p.closed`. -/
  | release (id : String)
  /-- `Release`, before the select that parks the container. -/
  | releaseSend (id : String)
  /-- `RemoveByID`, before it reads the registry. -/
  | removeByID (id : String)
  /-- `discard`, before its critical section. -/
  | discard (w : Discarder) (id : String)
  /-- `discard`, before `backend.Remove`. -/
  | discardRemove (w : Discarder) (id : String)
  /-- `Close`, before its critical section. -/
  | close (w : Closer)
  /-- `Close`, before `close(p.done)`. -/
  | closeDone (w : Closer) (todo : Finset String)
  /-- `Close`, in the loop over its snapshot. -/
  | closeRemove (w : Closer) (todo : Finset String) (firstErr : Option String)
deriving DecidableEq

/-- What an atomic step does. -/
inductive Event where
  /-- A critical section. -/
  | lock
  /-- A send on `idle`. -/
  | send
  /-- A receive from `idle`. -/
  | recv
  /-- The `default` of a select. -/
  | default
  /-- A receive from `done`. -/
  | recvDone
  /-- A receive from `ctx.Done()`. -/
  | recvCtx
  /-- `close(p.done)`. -/
  | closeDone
  | create (cfg : CreateConfig) (r : Except String String)
  | start (id : String) (err : Option String)
  | remove (id : String) (err : Option String)
  /-- The caller's context ends. -/
  | cancel (text : String)
  /-- A holder calls `Release`. -/
  | release
  /-- The loop test of `New`. -/
  | loop
  /-- The call returns. -/
  | ret
deriving DecidableEq

/-! ## What `New` and `Acquire` do with the result of `grow` -/

/-- After `grow` returned the container `id`. -/
def Grower.grown : Grower → String → Call
  | .new i, id => .prewarmSend i id
  | .acquire _, id => .acquireReturn (.ok id)

/-- The state the caller gives the container `grow` returned. -/
def Grower.state : Grower → State
  | .new _ => .idle
  | .acquire _ => .busy

/-- After `grow` returned an error.  `New` closes the pool.  `Acquire` waits at
capacity and returns every other error. -/
def Grower.refused : Grower → Error → Call
  | .new _, e => .close (.new (.prewarm e))
  | .acquire ctx, .atCapacity => .acquireWait ctx
  | .acquire _, e => .acquireReturn (.error e)

/-- The context of an `Acquire` ends, wherever the call is.  `New` and the
deferred calls run under `context.Background()`, which never ends. -/
inductive Call.Cancel (text : String) : Call → Call → Prop where
  | acquire : Cancel text (.acquire none) (.acquire (some text))
  | acquireFast : Cancel text (.acquireFast none) (.acquireFast (some text))
  | acquireWait : Cancel text (.acquireWait none) (.acquireWait (some text))
  | grow : Cancel text (.grow (.acquire none)) (.grow (.acquire (some text)))
  | growCreate : Cancel text (.growCreate (.acquire none)) (.growCreate (.acquire (some text)))
  | growStart {id : String} :
      Cancel text (.growStart (.acquire none) id) (.growStart (.acquire (some text)) id)
  | growUnstart {id : String} {e : Error} :
      Cancel text (.growUnstart (.acquire none) id e) (.growUnstart (.acquire (some text)) id e)
  | growRegister {id : String} :
      Cancel text (.growRegister (.acquire none) id) (.growRegister (.acquire (some text)) id)
  | growGiveBack {e : Error} :
      Cancel text (.growGiveBack (.acquire none) e) (.growGiveBack (.acquire (some text)) e)

/-! ## Steps -/

/-- One atomic step of a call: the world before, the call, what it does, the
world after, and the call at its next point.  A call that ends leaves
nothing. -/
inductive Call.Step (cfg : Config) : World → Call → Event → World → Multiset Call → Prop where
  -- New
  | prewarmMore {g : World} {i : Nat} :
      (i : Int) < cfg.minWarm →
      Step cfg g (.prewarm i) .loop g {.grow (.new i)}
  | prewarmEnd {g : World} {i : Nat} :
      ¬ (i : Int) < cfg.minWarm →
      Step cfg g (.prewarm i) .ret { g with published := true } 0
  | prewarmSend {g : World} {i : Nat} {id : String} :
      g.pool.HasRoom cfg →
      Step cfg g (.prewarmSend i id) .send (g.withPool (g.pool.send id)) {.prewarm (i + 1)}
  -- grow and create
  | growRefused {g : World} {w : Grower} {e : Error} :
      g.pool.reserve cfg = .error e →
      Step cfg g (.grow w) .lock g {w.refused e}
  | growReserve {g : World} {w : Grower} {p : Pool} :
      g.pool.reserve cfg = .ok p →
      Step cfg g (.grow w) .lock (g.withPool p) {.growCreate w}
  /-- The runtime never issues an id twice. -/
  | createOk {g : World} {w : Grower} {id : String} :
      id ∉ g.backend.issued →
      Step cfg g (.growCreate w) (.create cfg.createConfig (.ok id))
        (g.withBackend (g.backend.created id)) {.growStart w id}
  | createErr {g : World} {w : Grower} {text : String} :
      Step cfg g (.growCreate w) (.create cfg.createConfig (.error text)) g
        {.growGiveBack w (.create text)}
  | startOk {g : World} {w : Grower} {id : String} :
      Step cfg g (.growStart w id) (.start id none) g {.growRegister w id}
  | startErr {g : World} {w : Grower} {id text : String} :
      Step cfg g (.growStart w id) (.start id (some text)) g {.growUnstart w id (.start text)}
  | unstart {g : World} {w : Grower} {id : String} {e : Error} {err : Option String} :
      Step cfg g (.growUnstart w id e) (.remove id err)
        (g.withBackend (g.backend.removed id err)) {.growGiveBack w e}
  | giveBack {g : World} {w : Grower} {e : Error} :
      Step cfg g (.growGiveBack w e) .lock (g.withPool g.pool.giveBack) {w.refused e}
  | register {g : World} {w : Grower} {id : String} :
      Step cfg g (.growRegister w id) .lock
        (g.withPool ((g.pool.register cfg id).setState id w.state)) {w.grown id}
  -- Acquire
  | acquireClosed {g : World} {ctx : Ctx} :
      g.pool.closed = true →
      Step cfg g (.acquire ctx) .lock g {.acquireReturn (.error .closed)}
  | acquireOpen {g : World} {ctx : Ctx} :
      g.pool.closed = false →
      Step cfg g (.acquire ctx) .lock g {.acquireFast ctx}
  | fastRecv {g : World} {ctx : Ctx} {id : String} :
      g.pool.idle.head? = some id →
      Step cfg g (.acquireFast ctx) .recv (g.withPool (g.pool.recv.setState id .busy))
        {.acquireReturn (.ok id)}
  | fastDefault {g : World} {ctx : Ctx} :
      g.pool.idle = [] →
      Step cfg g (.acquireFast ctx) .default g {.grow (.acquire ctx)}
  | waitRecv {g : World} {ctx : Ctx} {id : String} :
      g.pool.idle.head? = some id →
      Step cfg g (.acquireWait ctx) .recv (g.withPool (g.pool.recv.setState id .busy))
        {.acquireReturn (.ok id)}
  | waitDone {g : World} {ctx : Ctx} :
      g.pool.done = true →
      Step cfg g (.acquireWait ctx) .recvDone g {.acquireReturn (.error .closed)}
  | waitCtx {g : World} {text : String} :
      Step cfg g (.acquireWait (some text)) .recvCtx g {.acquireReturn (.error (.ctx text))}
  | returnOk {g : World} {id : String} :
      Step cfg g (.acquireReturn (.ok id)) .ret g {.holding id}
  | returnErr {g : World} {e : Error} :
      Step cfg g (.acquireReturn (.error e)) .ret g 0
  | cancel {g : World} {c c' : Call} {text : String} :
      Call.Cancel text c c' →
      Step cfg g c (.cancel text) g {c'}
  -- Release
  | release {g : World} {id : String} :
      Step cfg g (.holding id) .release (g.withPool (g.pool.finishJob id)) {.release id}
  /-- The container was removed while checked out. -/
  | releaseDead {g : World} {id : String} :
      id ∉ g.pool.all →
      Step cfg g (.release id) .lock g 0
  | releaseRecycle {g : World} {id : String} :
      id ∈ g.pool.all →
      (g.pool.closed || cfg.jobsSpent (g.pool.cells id).jobs) = true →
      Step cfg g (.release id) .lock g {.discard .release id}
  | releaseKeep {g : World} {id : String} :
      id ∈ g.pool.all →
      (g.pool.closed || cfg.jobsSpent (g.pool.cells id).jobs) = false →
      Step cfg g (.release id) .lock g {.releaseSend id}
  | releaseSend {g : World} {id : String} :
      g.pool.HasRoom cfg →
      Step cfg g (.releaseSend id) .send (g.withPool (g.pool.send id)) 0
  | releaseFull {g : World} {id : String} :
      ¬ g.pool.HasRoom cfg →
      Step cfg g (.releaseSend id) .default g {.discard .release id}
  -- RemoveByID and discard
  | removeByIDFound {g : World} {id : String} :
      id ∈ g.pool.all →
      Step cfg g (.removeByID id) .lock g {.discard .removeByID id}
  | removeByIDGone {g : World} {id : String} :
      id ∉ g.pool.all →
      Step cfg g (.removeByID id) .lock g 0
  | discard {g : World} {w : Discarder} {id : String} :
      Step cfg g (.discard w id) .lock (g.withPool (g.pool.discard id)) {.discardRemove w id}
  | discardRemove {g : World} {w : Discarder} {id : String} {err : Option String} :
      Step cfg g (.discardRemove w id) (.remove id err)
        (g.withBackend (g.backend.removed id err)) 0
  -- Close
  | closeAgain {g : World} {w : Closer} :
      g.pool.closed = true →
      Step cfg g (.close w) .lock g 0
  | close {g : World} {w : Closer} :
      g.pool.closed = false →
      Step cfg g (.close w) .lock (g.withPool g.pool.close) {.closeDone w g.pool.all}
  | closeDone {g : World} {w : Closer} {todo : Finset String} :
      Step cfg g (.closeDone w todo) .closeDone (g.withPool g.pool.closeDone)
        {.closeRemove w todo none}
  /-- The snapshot is taken in the order of the map, which is any order. -/
  | closeRemove {g : World} {w : Closer} {todo : Finset String} {firstErr : Option String}
      {id : String} {err : Option String} :
      id ∈ todo →
      Step cfg g (.closeRemove w todo firstErr) (.remove id err)
        (g.withBackend (g.backend.removed id err))
        {.closeRemove w (todo.erase id) (firstErr <|> err)}
  | closeRet {g : World} {w : Closer} {firstErr : Option String} :
      Step cfg g (.closeRemove w ∅ firstErr) .ret g 0

/-- A call stays one call until it ends. -/
theorem Call.Step.card_le {cfg : Config} {g g' : World} {c : Call} {e : Event}
    {cs : Multiset Call} (h : Call.Step cfg g c e g' cs) : cs.card ≤ 1 := by
  cases h <;> simp

/-- The calls a client may make, once `New` has returned the pool.  Acquired
containers are released by their holders, so `Release` is not among them. -/
inductive Call.Start : World → Call → World → Prop where
  | acquire {g : World} {ctx : Ctx} : g.published = true → Start g (.acquire ctx) g
  | removeByID {g : World} {id : String} : g.published = true → Start g (.removeByID id) g
  | close {g : World} : g.published = true → Start g (.close .user) g

/-- The pool under any number of concurrent calls.  A run starts with `New`, on
a configuration that passes its size check. -/
def calls (cfg : Config) : Program World Call Event where
  Init s := ∃ p, new cfg = .ok p ∧ s = ⟨⟨p, .empty, false⟩, {.prewarm 0}⟩
  Call := Call.Start
  Act := Call.Step cfg

/-- The soup before the first step of `New`. -/
def start : Soup World Call := ⟨⟨empty, .empty, false⟩, {.prewarm 0}⟩

theorem init_iff {cfg : Config} {s : Soup World Call} :
    (calls cfg).Init s ↔ 1 ≤ cfg.maxSize ∧ cfg.minWarm ≤ cfg.maxSize ∧ s = start := by
  constructor
  · rintro ⟨p, hp, rfl⟩
    obtain ⟨hmax, hmin, rfl⟩ := new_ok.mp hp
    exact ⟨hmax, hmin, rfl⟩
  · rintro ⟨hmax, hmin, rfl⟩
    exact ⟨empty, new_ok.mpr ⟨hmax, hmin, rfl⟩, rfl⟩

end Aicv.Pool
