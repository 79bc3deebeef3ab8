import Mathlib.Data.Finset.Card
import Mathlib.Data.Int.Basic

/-!
# The container pool: its state and its critical sections

The pool of `internal/pool` keeps two things.  The buffered channel `idle`
hands containers over.  The registry `all` with the counter `count`, both under
the mutex, is the capacity ledger.

A `*Container` is modelled by its id.  `Pool.create` makes one `Container` for
an id `Create` has just returned, and the id never changes.  The fields behind
the pointer are in `Pool.cells`.

Every definition on `Pool` below is one critical section of the source, or one
operation on a channel.  Which call performs which of them, and in what order,
is in `Aicv.Pool.Calls`.
-/

namespace Aicv

/-! ## Errors -/

/-- The errors the pool's functions return.  The text of a backend error and of
a context error comes from outside. -/
inductive Pool.Error where
  | closed
  | invalidConfig
  | atCapacity
  | ctx (text : String)
  | create (text : String)
  | start (text : String)
  | prewarm (e : Pool.Error)
deriving DecidableEq, Repr

/-- `Error()`. -/
def Pool.Error.text : Pool.Error → String
  | .closed => "pool: closed"
  | .invalidConfig => "pool: MaxSize must be >= 1 and >= MinWarm"
  | .atCapacity => "pool: at capacity"
  | .ctx t => t
  | .create t => "create: " ++ t
  | .start t => "start: " ++ t
  | .prewarm e => "pre-warm: " ++ e.text

/-! ## Configuration -/

/-- `pool.Config`. -/
structure Pool.Config where
  /-- Sandbox image. -/
  image : String
  /-- Containers to create in `New`. -/
  minWarm : Int
  /-- Hard cap on live containers. -/
  maxSize : Int
  /-- Recycle a container after this many jobs; `0` is unlimited. -/
  maxJobsPerContainer : Int
  memBytes : Int
  nanoCPUs : Int
  pidsLimit : Int
  seccompProfilePath : String
deriving DecidableEq, Repr

/-- `dockercli.CreateConfig`, with the fields the pool sets. -/
structure Pool.CreateConfig where
  image : String
  cmd : List String
  network : String
  memBytes : Int
  nanoCPUs : Int
  pidsLimit : Int
  seccompProfilePath : String
deriving DecidableEq, Repr

/-- What `Pool.create` asks the backend for. -/
def Pool.Config.createConfig (cfg : Pool.Config) : Pool.CreateConfig where
  image := cfg.image
  cmd := ["sleep", "2147483647"]
  network := "none"
  memBytes := cfg.memBytes
  nanoCPUs := cfg.nanoCPUs
  pidsLimit := cfg.pidsLimit
  seccompProfilePath := cfg.seccompProfilePath

/-- The job limit of `Release`: `c.jobs` has reached a positive
`MaxJobsPerContainer`. -/
def Pool.Config.jobsSpent (cfg : Pool.Config) (jobs : Int) : Bool :=
  decide (cfg.maxJobsPerContainer > 0) && decide (jobs ≥ cfg.maxJobsPerContainer)

/-! ## Containers -/

/-- `pool.State`. -/
inductive Pool.State where
  | idle
  | busy
deriving DecidableEq, Repr

/-- `pool.Container`. -/
structure Pool.Container where
  id : String
  image : String
  state : Pool.State
  /-- Number of jobs run in this container so far. -/
  jobs : Int
deriving DecidableEq, Repr

/-! ## The pool -/

/-- `pool.Pool` without its configuration and backend, which never change. -/
structure Pool where
  /-- The `idle` channel, oldest first.  Its capacity is `MaxSize`. -/
  idle : List String
  /-- The `done` channel has been closed. -/
  done : Bool
  /-- The keys of the registry `all`. -/
  all : Finset String
  /-- Live container count, for capacity accounting. -/
  count : Int
  closed : Bool
  /-- The `Container` behind each pointer. -/
  cells : String → Pool.Container

namespace Pool

/-- The pool before its first container. -/
def empty : Pool where
  idle := []
  done := false
  all := ∅
  count := 0
  closed := false
  cells := fun id => ⟨id, "", .idle, 0⟩

/-- `New` up to the pre-warm loop: the size check and the empty pool. -/
def new (cfg : Config) : Except Error Pool :=
  if cfg.maxSize < 1 ∨ cfg.minWarm > cfg.maxSize then .error .invalidConfig
  else .ok empty

theorem new_ok {cfg : Config} {p : Pool} :
    new cfg = .ok p ↔ 1 ≤ cfg.maxSize ∧ cfg.minWarm ≤ cfg.maxSize ∧ p = empty := by
  unfold new
  split
  next h =>
    simp
    omega
  next h =>
    rw [not_or, Int.not_lt, Int.not_lt] at h
    simp [h, eq_comm]

/-! ### Fields of a container

No lock is held here.  The caller is the only owner of the container, which is
what `Aicv.Pool.Ownership` proves. -/

/-- Change the container `id` points to. -/
def setCell (p : Pool) (id : String) (f : Container → Container) : Pool :=
  { p with cells := Function.update p.cells id (f (p.cells id)) }

/-- `c.state = Busy` or `c.state = Idle`. -/
def setState (p : Pool) (id : String) (st : State) : Pool :=
  p.setCell id fun c => { c with state := st }

/-- `c.jobs++; c.state = Idle`, the start of `Release`. -/
def finishJob (p : Pool) (id : String) : Pool :=
  p.setCell id fun c => { c with jobs := c.jobs + 1, state := .idle }

section
variable (p : Pool) (id : String) (st : State)

@[simp] theorem setState_idle : (p.setState id st).idle = p.idle := rfl
@[simp] theorem setState_all : (p.setState id st).all = p.all := rfl
@[simp] theorem setState_count : (p.setState id st).count = p.count := rfl
@[simp] theorem setState_closed : (p.setState id st).closed = p.closed := rfl
@[simp] theorem setState_jobs (id' : String) :
    ((p.setState id st).cells id').jobs = (p.cells id').jobs := by
  by_cases h : id' = id
  · subst h
    simp [setState, setCell]
  · simp [setState, setCell, h]

@[simp] theorem finishJob_idle : (p.finishJob id).idle = p.idle := rfl
@[simp] theorem finishJob_all : (p.finishJob id).all = p.all := rfl
@[simp] theorem finishJob_count : (p.finishJob id).count = p.count := rfl
@[simp] theorem finishJob_closed : (p.finishJob id).closed = p.closed := rfl

theorem finishJob_jobs (id' : String) :
    ((p.finishJob id).cells id').jobs =
      if id' = id then (p.cells id').jobs + 1 else (p.cells id').jobs := by
  by_cases h : id' = id
  · subst h
    simp [finishJob, setCell]
  · simp [finishJob, setCell, h]

end

/-! ### Channel operations -/

/-- A send on `idle` does not block. -/
def HasRoom (cfg : Config) (p : Pool) : Prop := (p.idle.length : Int) < cfg.maxSize

instance (cfg : Config) (p : Pool) : Decidable (p.HasRoom cfg) :=
  inferInstanceAs (Decidable (_ < _))

/-- `p.idle <- c`. -/
def send (p : Pool) (id : String) : Pool := { p with idle := p.idle ++ [id] }

/-- The pool after `<-p.idle` took the head of the channel. -/
def recv (p : Pool) : Pool := { p with idle := p.idle.tail }

/-- `close(p.done)`. -/
def closeDone (p : Pool) : Pool := { p with done := true }

section
variable (p : Pool) (id : String)

@[simp] theorem send_idle : (p.send id).idle = p.idle ++ [id] := rfl
@[simp] theorem send_all : (p.send id).all = p.all := rfl
@[simp] theorem send_count : (p.send id).count = p.count := rfl
@[simp] theorem send_closed : (p.send id).closed = p.closed := rfl
@[simp] theorem recv_idle : p.recv.idle = p.idle.tail := rfl
@[simp] theorem recv_all : p.recv.all = p.all := rfl
@[simp] theorem recv_count : p.recv.count = p.count := rfl
@[simp] theorem recv_closed : p.recv.closed = p.closed := rfl
@[simp] theorem closeDone_idle : p.closeDone.idle = p.idle := rfl
@[simp] theorem closeDone_all : p.closeDone.all = p.all := rfl
@[simp] theorem closeDone_count : p.closeDone.count = p.count := rfl
@[simp] theorem closeDone_closed : p.closeDone.closed = p.closed := rfl

end

/-! ### Critical sections -/

/-- The first critical section of `grow`. -/
def reserve (cfg : Config) (p : Pool) : Except Error Pool :=
  if p.closed then .error .closed
  else if p.count ≥ cfg.maxSize then .error .atCapacity
  else .ok { p with count := p.count + 1 }

/-- The second critical section of `grow`: `p.count--` after a failed create. -/
def giveBack (p : Pool) : Pool := { p with count := p.count - 1 }

/-- The end of `create`: the new `Container` goes into the registry. -/
def register (cfg : Config) (p : Pool) (id : String) : Pool :=
  { p with
    all := insert id p.all
    cells := Function.update p.cells id ⟨id, cfg.image, .idle, 0⟩ }

/-- The critical section of `discard`. -/
def discard (p : Pool) (id : String) : Pool :=
  if id ∈ p.all then { p with all := p.all.erase id, count := p.count - 1 } else p

/-- The critical section of `Close` on an open pool.  The snapshot `Close`
takes of the registry is `p.all`. -/
def close (p : Pool) : Pool := { p with closed := true, all := ∅, count := 0 }

section
variable (cfg : Config) (p : Pool) (id : String)

@[simp] theorem giveBack_idle : p.giveBack.idle = p.idle := rfl
@[simp] theorem giveBack_all : p.giveBack.all = p.all := rfl
@[simp] theorem giveBack_count : p.giveBack.count = p.count - 1 := rfl
@[simp] theorem giveBack_closed : p.giveBack.closed = p.closed := rfl
@[simp] theorem register_idle : (p.register cfg id).idle = p.idle := rfl
@[simp] theorem register_all : (p.register cfg id).all = insert id p.all := rfl
@[simp] theorem register_count : (p.register cfg id).count = p.count := rfl
@[simp] theorem register_closed : (p.register cfg id).closed = p.closed := rfl
theorem register_jobs (id' : String) :
    ((p.register cfg id).cells id').jobs = if id' = id then 0 else (p.cells id').jobs := by
  by_cases h : id' = id
  · subst h
    simp [register]
  · simp [register, h]

@[simp] theorem close_idle : p.close.idle = p.idle := rfl
@[simp] theorem close_all : p.close.all = ∅ := rfl
@[simp] theorem close_count : p.close.count = 0 := rfl

@[simp] theorem discard_idle : (p.discard id).idle = p.idle := by
  unfold discard; split <;> rfl

@[simp] theorem discard_closed : (p.discard id).closed = p.closed := by
  unfold discard; split <;> rfl

@[simp] theorem discard_cells : (p.discard id).cells = p.cells := by
  unfold discard; split <;> rfl

@[simp] theorem discard_all : (p.discard id).all = p.all.erase id := by
  unfold discard
  split
  next => rfl
  next h => exact (Finset.erase_eq_of_notMem h).symm

theorem discard_count : (p.discard id).count = if id ∈ p.all then p.count - 1 else p.count := by
  unfold discard; split <;> rfl

/-- A slot is reserved on an open pool below its cap, and nothing else
changes. -/
theorem reserve_ok {cfg : Config} {p q : Pool} :
    p.reserve cfg = .ok q ↔
      p.closed = false ∧ p.count < cfg.maxSize ∧ q = { p with count := p.count + 1 } := by
  unfold reserve
  split
  next h => simp [h]
  next h =>
    split
    next hc => simp [h, Int.not_lt.mpr hc]
    next hc => simp [h, Int.not_le.mp hc, eq_comm]

theorem reserve_error {cfg : Config} {p : Pool} {e : Error} :
    p.reserve cfg = .error e ↔
      p.closed = true ∧ e = .closed ∨
        p.closed = false ∧ cfg.maxSize ≤ p.count ∧ e = .atCapacity := by
  unfold reserve
  split
  next h => simp [h, eq_comm]
  next h =>
    split
    next hc => simp [h, hc, eq_comm]
    next hc => simp [h, Int.not_le.mpr (Int.not_le.mp hc)]

end

/-! ## The backend -/

/-- The container runtime, as far as the pool can tell. -/
structure Backend where
  /-- The ids `Create` has returned. -/
  issued : Finset String
  /-- The containers that exist: `Create` returned and no `Remove` has
  completed. -/
  live : Finset String
  /-- The ids that have been passed to `Remove`. -/
  passed : Finset String

namespace Backend

/-- The runtime before the pool's first call. -/
def empty : Backend := ⟨∅, ∅, ∅⟩

/-- `Create` returned `id`. -/
def created (b : Backend) (id : String) : Backend :=
  { b with issued := insert id b.issued, live := insert id b.live }

/-- `Remove(id)` returned, with an error or without. -/
def removed (b : Backend) (id : String) (err : Option String) : Backend :=
  { b with
    passed := insert id b.passed
    live := if err.isNone then b.live.erase id else b.live }

section
variable (b : Backend) (id : String) (err : Option String)

@[simp] theorem created_issued : (b.created id).issued = insert id b.issued := rfl
@[simp] theorem removed_passed : (b.removed id err).passed = insert id b.passed := rfl

variable {b id err} in
theorem live_of_removed {id' : String} (h : id' ∈ (b.removed id err).live) : id' ∈ b.live := by
  unfold removed at h
  split at h
  next => exact Finset.mem_of_mem_erase h
  next => exact h

end

end Backend

/-- What the calls in flight share. -/
structure World where
  pool : Pool
  backend : Backend
  /-- `New` has returned the pool, so others can call it. -/
  published : Bool

namespace World

/-- A world with another pool. -/
def withPool (g : World) (p : Pool) : World := { g with pool := p }

/-- A world with another backend. -/
def withBackend (g : World) (b : Backend) : World := { g with backend := b }

section
variable (g : World) (p : Pool) (b : Backend)

@[simp] theorem withPool_pool : (g.withPool p).pool = p := rfl
@[simp] theorem withPool_backend : (g.withPool p).backend = g.backend := rfl
@[simp] theorem withBackend_pool : (g.withBackend b).pool = g.pool := rfl
@[simp] theorem withBackend_backend : (g.withBackend b).backend = b := rfl

end

end World

end Pool

end Aicv
