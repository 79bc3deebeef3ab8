import Aicv.Pipeline.Job
import Aicv.Pool.State
import Aicv.Sandbox.Run

/-!
# What a run of the pipeline returns

`Run` compiles a submission and, if that succeeds, runs its tests.  This module
follows one call by itself, from the replies of the pool and of the container
runtime to its `Result`.  How calls interleave is in `Aicv.Env.Steps`.

`stages_compile` and `stages_execute` give the result when neither the staging nor an
`Exec` fails.
-/

namespace Aicv.Pipeline

open Sandbox

/-- `pipeline.Result`. -/
structure Result where
  stage : Stage
  compiled : Bool
  passed : Bool
  compilerRaw : String
  compilerJSON : String
  runtimeStdout : String
  runtimeStderr : String
  exitCode : ℤ
  timedOut : Bool
  /-- The program terminated abnormally at run time. -/
  crashed : Bool
  /-- Compile and execute, without the assignment. -/
  duration : Duration
  assignment : Duration
  compile : Duration
  execute : Duration
deriving DecidableEq

/-- `isCrash`. -/
def isCrash (exitCode : ℤ) : Bool := decide (exitCode ≥ 128)

/-- The errors of `Run`. -/
inductive Error where
  /-- `acquire container: %w`. -/
  | acquire (e : Pool.Error)
  /-- `compile stage: %w`. -/
  | compile (e : Sandbox.Error)
  /-- `execute stage: %w`. -/
  | execute (e : Sandbox.Error)
deriving DecidableEq

/-- What a call of `Run` is answered. -/
structure Replies where
  acquire : Except Pool.Error String
  assignment : Duration
  /-- The eight random bytes of `randID`, in hexadecimal. -/
  randID : String
  compile : Sandbox.Replies
  execute : Sandbox.Replies

/-- The work directory of a job. -/
def Replies.workDir (r : Replies) : String := "/tmp/job-" ++ r.randID

/-- What `Run` hands to the sandbox for a stage. -/
def Job.spec (job : Job) (workDir : String) (st : Stage) : ExecSpec :=
  ⟨job.staged st, workDir, command job.lang st, [], job.ttl⟩

/-- The result of `Run` after the compile stage. -/
def compileResult (assignment : Duration) (res : ExecResult) : Result where
  stage := .compile
  compiled := false
  passed := false
  compilerJSON := res.stdout
  compilerRaw := res.stderr
  runtimeStdout := ""
  runtimeStderr := ""
  exitCode := 0
  timedOut := res.timedOut
  crashed := false
  duration := res.duration
  assignment := assignment
  compile := res.duration
  execute := 0

/-- The result of `Run` after the execute stage. -/
def executeResult (res : Result) (compileRes execRes : ExecResult) : Result :=
  { res with
    compiled := true
    stage := .execute
    runtimeStdout := execRes.stdout
    runtimeStderr := execRes.stderr
    exitCode := execRes.exitCode
    timedOut := execRes.timedOut
    crashed := isCrash execRes.exitCode
    passed := decide (execRes.exitCode = 0) && !execRes.timedOut
    execute := execRes.duration
    duration := compileRes.duration + execRes.duration }

/-- The two stages of `Run`, in the container `id`. -/
def stages (r : Replies) (id : String) (job : Job) : Session Error Result := do
  let compileRes ← (Sandbox.run r.compile id (job.spec r.workDir .compile)).mapError .compile
  let res := compileResult r.assignment compileRes
  if compileRes.timedOut || compileRes.exitCode ≠ 0 then pure res
  else do
    let execRes ← (Sandbox.run r.execute id (job.spec r.workDir .execute)).mapError .execute
    pure (executeResult res compileRes execRes)

/-- `Run`.  The work directory is removed on every path after `Acquire`. -/
def run (r : Replies) (job : Job) : Session Error Result :=
  match r.acquire with
  | .error e => ⟨[], .error (.acquire e)⟩
  | .ok id => (stages r id job).deferred (.exec id ⟨["rm", "-rf", r.workDir], "", []⟩ none)

/-! ## Without errors -/

/-- The command of a stage, under its limit. -/
def Job.wrapped (job : Job) (st : Stage) : List String :=
  (wrapWithTimeout (command job.lang st) job.ttl).1

/-- The limit of a stage. -/
def Job.limit (job : Job) (st : Stage) : ℤ :=
  (wrapWithTimeout (command job.lang st) job.ttl).2

/-- What the sandbox returns for a stage that put this out. -/
def Job.captured (job : Job) (st : Stage) (out : ExecOutput) (dur : Duration) : ExecResult :=
  ⟨out.stdout, out.stderr, out.exitCode, timedOut out.exitCode (job.limit st) dur, dur⟩

theorem workDir_ne (r : Replies) : r.workDir ≠ "" := by
  intro h
  have := congrArg String.length h
  simp [Replies.workDir] at this

section
variable {r : Replies} {job : Job} (id : String) {c x : ExecOutput}

/-- A stage without errors. -/
theorem stage_served {rs : Sandbox.Replies} (st : Stage) {out : ExecOutput}
    (h : rs.Served (job.staged st) out) (wrap : Sandbox.Error → Error) :
    ((Sandbox.run rs id (job.spec r.workDir st)).mapError wrap).result =
        .ok (job.captured st out rs.dur) ∧
      ((Sandbox.run rs id (job.spec r.workDir st)).mapError wrap).commands =
        [["mkdir", "-p", r.workDir], job.wrapped st] := by
  have hspec : rs.Served (job.spec r.workDir st).files out := h
  obtain ⟨hres, hcmds⟩ := run_served id hspec (workDir_ne r)
  exact ⟨congrArg (Except.mapError wrap) hres, hcmds⟩

/-- A submission that does not compile ends with the compile stage. -/
theorem stages_compile (hc : r.compile.Served job.files c) (hne : c.exitCode ≠ 0) :
    (stages r id job).result =
        .ok (compileResult r.assignment (job.captured .compile c r.compile.dur)) ∧
      (stages r id job).commands = [["mkdir", "-p", r.workDir], job.wrapped .compile] := by
  obtain ⟨hres, hcmds⟩ := stage_served (r := r) id .compile hc .compile
  have hends : ((job.captured .compile c r.compile.dur).timedOut ||
      decide ((job.captured .compile c r.compile.dur).exitCode ≠ 0)) = true := by
    simp [Job.captured, hne]
  constructor
  · rw [stages, Session.result_bind hres, if_pos hends]
    rfl
  · rw [stages, Session.commands_bind hres, if_pos hends, hcmds]
    rfl

/-- A submission that compiles is executed. -/
theorem stages_execute (hc : r.compile.Served job.files c) (hzero : c.exitCode = 0)
    (hx : r.execute.Served [] x) :
    (stages r id job).result =
        .ok (executeResult (compileResult r.assignment (job.captured .compile c r.compile.dur))
          (job.captured .compile c r.compile.dur) (job.captured .execute x r.execute.dur)) ∧
      (stages r id job).commands = [["mkdir", "-p", r.workDir], job.wrapped .compile,
        ["mkdir", "-p", r.workDir], job.wrapped .execute] := by
  obtain ⟨hres, hcmds⟩ := stage_served (r := r) id .compile hc .compile
  obtain ⟨hres', hcmds'⟩ := stage_served (r := r) id .execute hx .execute
  have hgoes : ¬ ((job.captured .compile c r.compile.dur).timedOut ||
      decide ((job.captured .compile c r.compile.dur).exitCode ≠ 0)) = true := by
    simp [Job.captured, hzero, timedOut_zero]
  constructor
  · rw [stages, Session.result_bind hres, if_neg hgoes, Session.result_bind hres']
    rfl
  · rw [stages, Session.commands_bind hres, if_neg hgoes, Session.commands_bind hres', hcmds,
      hcmds']
    rfl

/-! ## The execute command -/

theorem wrap_inj {cmd cmd' : List String} {ttl : Duration}
    (h : (wrapWithTimeout cmd ttl).1 = (wrapWithTimeout cmd' ttl).1) : cmd = cmd' := by
  unfold wrapWithTimeout at h
  split at h
  next => exact h
  next => exact List.append_cancel_left h

/-- The execute command is none of the other commands of `Run`. -/
theorem wrapped_execute_ne (job : Job) :
    job.wrapped .execute ≠ job.wrapped .compile ∧
      ∀ prog args, prog = "mkdir" ∨ prog = "rm" → job.wrapped .execute ≠ prog :: args := by
  constructor
  · intro h
    have hcmd := wrap_inj h
    cases hlang : job.lang <;> rw [hlang] at hcmd <;> exact absurd hcmd (by decide)
  · rintro prog args hprog h
    unfold Job.wrapped wrapWithTimeout at h
    split at h
    · cases hlang : job.lang <;> rw [hlang] at h <;> cases h <;> simp at hprog
    · cases h
      simp at hprog

theorem run_acquired {id : String} (job : Job) (hacq : r.acquire = .ok id) :
    (run r job).result = (stages r id job).result ∧
      (run r job).commands = (stages r id job).commands ++ [["rm", "-rf", r.workDir]] := by
  rw [run, hacq]
  exact ⟨rfl, List.filterMap_append⟩

end

end Aicv.Pipeline
