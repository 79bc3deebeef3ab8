import Aicv.Sandbox.Capture

/-!
# One command in a container

`sandbox.Run` makes the work directory, copies the files of the job into it and
runs the command under its limit.  What the container runtime answers is
`Replies`, and a `Session` is what a function asks of the runtime together with
what it returns.

`run_served` says what comes out when nothing fails.
-/

namespace Aicv.Sandbox

universe u v

/-! ## Sessions with the container runtime -/

/-- `dockercli.ExecConfig`. -/
structure ExecConfig where
  cmd : List String
  workDir : String
  env : List String
deriving DecidableEq

/-- `dockercli.ExecOutput`. -/
structure ExecOutput where
  stdout : String
  stderr : String
  exitCode : ℤ
deriving DecidableEq

/-- A request to the container runtime. -/
inductive Request where
  /-- `Exec`, under a context with a deadline of its own if there is one. -/
  | exec (id : String) (cfg : ExecConfig) (timeout : Option Duration)
  | copyIn (id dest : String) (files : List (String × String))
deriving DecidableEq

/-- What a function asks of the runtime, in this order, and what it returns. -/
structure Session (ε : Type u) (α : Type v) where
  requests : List Request
  result : Except ε α

namespace Session

variable {ε ε' : Type u} {α β : Type v}

/-- A request, with the reply and what an error in it is turned into. -/
def ask (req : Request) (reply : Except String α) (wrap : String → ε) : Session ε α :=
  ⟨[req], reply.mapError wrap⟩

/-- The errors of a session, wrapped. -/
def mapError (f : ε → ε') (s : Session ε α) : Session ε' α :=
  ⟨s.requests, s.result.mapError f⟩

/-- A deferred request, whose reply is dropped. -/
def deferred (s : Session ε α) (req : Request) : Session ε α := ⟨s.requests ++ [req], s.result⟩

instance : Monad (Session ε) where
  pure a := ⟨[], .ok a⟩
  bind s f :=
    match s.result with
    | .ok a => ⟨s.requests ++ (f a).requests, (f a).result⟩
    | .error e => ⟨s.requests, .error e⟩

/-- The commands of the `Exec` requests. -/
def commands (s : Session ε α) : List (List String) :=
  s.requests.filterMap fun
    | .exec _ cfg _ => some cfg.cmd
    | .copyIn .. => none

theorem result_bind {s : Session ε α} {a : α} (h : s.result = .ok a) (f : α → Session ε β) :
    (s >>= f).result = (f a).result := by
  obtain ⟨l, r⟩ := s
  cases h
  rfl

theorem result_mapError_ok {s : Session ε α} {a : α} (h : s.result = .ok a) (f : ε → ε') :
    (s.mapError f).result = .ok a := congrArg (Except.mapError f) h

theorem result_mapError_error {s : Session ε α} {e : ε} (h : s.result = .error e) (f : ε → ε') :
    (s.mapError f).result = .error (f e) := congrArg (Except.mapError f) h

theorem requests_bind {s : Session ε α} {a : α} (h : s.result = .ok a) (f : α → Session ε β) :
    (s >>= f).requests = s.requests ++ (f a).requests := by
  obtain ⟨l, r⟩ := s
  cases h
  rfl

/-- An error ends a session. -/
theorem bind_error {s : Session ε α} {e : ε} (h : s.result = .error e) (f : α → Session ε β) :
    (s >>= f).requests = s.requests ∧ (s >>= f).result = .error e := by
  obtain ⟨l, r⟩ := s
  cases h
  exact ⟨rfl, rfl⟩

/-- A session begins with the requests of its first part. -/
theorem prefix_bind (s : Session ε α) (f : α → Session ε β) :
    s.requests <+: (s >>= f).requests := by
  cases h : s.result with
  | error e => exact ((bind_error h f).1).symm ▸ List.prefix_rfl
  | ok a => exact (requests_bind h f).symm ▸ List.prefix_append _ _

theorem commands_bind {s : Session ε α} {a : α} (h : s.result = .ok a) (f : α → Session ε β) :
    (s >>= f).commands = s.commands ++ (f a).commands := by
  obtain ⟨l, r⟩ := s
  cases h
  exact List.filterMap_append

end Session

/-! ## `Run` -/

/-- `sandbox.ExecSpec`. -/
structure ExecSpec where
  files : List (String × String)
  workDir : String
  cmd : List String
  env : List String
  ttl : Duration
deriving DecidableEq

/-- `sandbox.ExecResult`. -/
structure ExecResult where
  stdout : String
  stderr : String
  exitCode : ℤ
  timedOut : Bool
  duration : Duration
deriving DecidableEq

/-- The errors of `Run`.  The result that goes with them is not read. -/
inductive Error where
  /-- `prepare workdir: %w`. -/
  | prepare (text : String)
  /-- `prepare workdir %q: exit %d: %s`. -/
  | workDir (dir : String) (exitCode : ℤ) (stderr : String)
  /-- `stage files: %w`. -/
  | stage (text : String)
  /-- `exec: %w`. -/
  | exec (text : String)
deriving DecidableEq

/-- What the runtime answers to one `Run`. -/
structure Replies where
  /-- To the `Exec` that makes the work directory. -/
  mkdir : Except String ExecOutput
  copyIn : Except String Unit
  /-- To the `Exec` of the command. -/
  exec : Except String ExecOutput
  /-- How long the command took. -/
  dur : Duration

/-- The work directory of `Run`. -/
def prepare (r : Replies) (id : String) (spec : ExecSpec) : Session Error Unit :=
  if spec.workDir = "" then pure ()
  else do
    let out ← .ask (.exec id ⟨["mkdir", "-p", spec.workDir], "", []⟩ none) r.mkdir .prepare
    if out.exitCode ≠ 0 then ⟨[], .error (.workDir spec.workDir out.exitCode out.stderr)⟩
    else pure ()

/-- The files of `Run`. -/
def stage (r : Replies) (id : String) (spec : ExecSpec) : Session Error Unit :=
  if spec.files = [] then pure ()
  else
    let dest := if spec.workDir = "" then "/" else spec.workDir
    .ask (.copyIn id dest spec.files) r.copyIn .stage

/-- The deadline `Run` puts on the `Exec` of a command with this limit. -/
def execTimeout (ttlSecs : ℤ) : Option Duration :=
  if ttlSecs > 0 then
    some (Int64.ofInt ttlSecs * Duration.second + 10 * Duration.second)
  else none

/-- `Run`. -/
def run (r : Replies) (id : String) (spec : ExecSpec) : Session Error ExecResult := do
  prepare r id spec
  stage r id spec
  let (cmd, ttlSecs) := wrapWithTimeout spec.cmd spec.ttl
  let out ← .ask (.exec id ⟨cmd, spec.workDir, spec.env⟩ (execTimeout ttlSecs)) r.exec .exec
  pure ⟨out.stdout, out.stderr, out.exitCode, timedOut out.exitCode ttlSecs r.dur, r.dur⟩

/-! ## The requests of `Run` -/

section
variable {r : Replies} {id : String} {spec : ExecSpec} {e : Error}

/-- The request of `Run` for the command. -/
def execRequest (id : String) (spec : ExecSpec) : Request :=
  .exec id ⟨(wrapWithTimeout spec.cmd spec.ttl).1, spec.workDir, spec.env⟩
    (execTimeout (wrapWithTimeout spec.cmd spec.ttl).2)

/-- The last part of `Run`. -/
def execute (r : Replies) (id : String) (spec : ExecSpec) : Session Error ExecResult := do
  let out ← .ask (execRequest id spec) r.exec .exec
  pure ⟨out.stdout, out.stderr, out.exitCode,
    timedOut out.exitCode (wrapWithTimeout spec.cmd spec.ttl).2 r.dur, r.dur⟩

theorem run_eq : run r id spec =
    (do prepare r id spec; stage r id spec; execute r id spec) := rfl

theorem execute_requests : (execute r id spec).requests = [execRequest id spec] := by
  rw [execute]
  cases r.exec <;> rfl

theorem execute_error {text : String} (h : r.exec = .error text) :
    (execute r id spec).result = .error (.exec text) := by
  rw [execute, h]
  rfl

theorem execute_ok {out : ExecOutput} (h : r.exec = .ok out) :
    (execute r id spec).result = .ok ⟨out.stdout, out.stderr, out.exitCode,
      timedOut out.exitCode (wrapWithTimeout spec.cmd spec.ttl).2 r.dur, r.dur⟩ := by
  rw [execute, h]
  rfl

theorem run_of_prepare_error (h : (prepare r id spec).result = .error e) :
    (run r id spec).requests = (prepare r id spec).requests ∧ (run r id spec).result = .error e :=
  Session.bind_error h _

theorem run_of_stage_error (hprep : (prepare r id spec).result = .ok ())
    (h : (stage r id spec).result = .error e) :
    (run r id spec).requests = (prepare r id spec).requests ++ (stage r id spec).requests ∧
      (run r id spec).result = .error e := by
  obtain ⟨hreqs, hres⟩ := Session.bind_error h fun _ => execute r id spec
  rw [run_eq, Session.requests_bind hprep, Session.result_bind hprep]
  exact ⟨congrArg _ hreqs, hres⟩

/-- Once the files are there `Run` makes its last request and returns the reply. -/
theorem run_of_staged (hprep : (prepare r id spec).result = .ok ())
    (hstage : (stage r id spec).result = .ok ()) :
    (run r id spec).requests =
        (prepare r id spec).requests ++ (stage r id spec).requests ++ [execRequest id spec] ∧
      (run r id spec).result = (execute r id spec).result := by
  rw [run_eq, Session.requests_bind hprep, Session.requests_bind hstage, Session.result_bind hprep,
    Session.result_bind hstage, execute_requests, List.append_assoc]
  exact ⟨rfl, rfl⟩

end

/-! ## Without errors -/

/-- The runtime makes the work directory, takes the files if there are any, and
runs the command, with this output. -/
structure Replies.Served (r : Replies) (files : List (String × String)) (out : ExecOutput) :
    Prop where
  mkdir : ∃ o, r.mkdir = .ok o ∧ o.exitCode = 0
  copyIn : files ≠ [] → r.copyIn = .ok ()
  exec : r.exec = .ok out

section
variable {r : Replies} {out : ExecOutput} (id : String) {spec : ExecSpec}

/-- `prepare` makes the directory. -/
theorem prepare_served (h : r.Served spec.files out) (hdir : spec.workDir ≠ "") :
    (prepare r id spec).result = .ok () ∧
      (prepare r id spec).commands = [["mkdir", "-p", spec.workDir]] := by
  obtain ⟨o, ho, hzero⟩ := h.mkdir
  rw [prepare, if_neg hdir, ho]
  refine ⟨(Session.result_bind rfl _).trans ?_, (Session.commands_bind rfl _).trans ?_⟩
  · rw [if_neg (not_not_intro hzero)]
    rfl
  · rw [if_neg (not_not_intro hzero)]
    rfl

/-- `stage` copies files and runs no command. -/
theorem stage_served (h : r.Served spec.files out) :
    (stage r id spec).result = .ok () ∧ (stage r id spec).commands = [] := by
  unfold stage
  split
  next => exact ⟨rfl, rfl⟩
  next hfiles =>
    rw [h.copyIn hfiles]
    exact ⟨rfl, rfl⟩

/-- When nothing fails, `Run` returns what the command has put out, and the
commands it has run are `mkdir` and the command under its limit. -/
theorem run_served (h : r.Served spec.files out) (hdir : spec.workDir ≠ "") :
    (run r id spec).result = .ok ⟨out.stdout, out.stderr, out.exitCode,
        timedOut out.exitCode (wrapWithTimeout spec.cmd spec.ttl).2 r.dur, r.dur⟩ ∧
      (run r id spec).commands =
        [["mkdir", "-p", spec.workDir], (wrapWithTimeout spec.cmd spec.ttl).1] := by
  obtain ⟨hprep, hmkdir⟩ := prepare_served id h hdir
  obtain ⟨hstage, hnone⟩ := stage_served id h
  constructor
  · rw [run, Session.result_bind hprep, Session.result_bind hstage, h.exec]
    rfl
  · rw [run, Session.commands_bind hprep, Session.commands_bind hstage, h.exec, hmkdir, hnone]
    rfl

end

end Aicv.Sandbox
