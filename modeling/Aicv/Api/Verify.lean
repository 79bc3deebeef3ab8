import Aicv.Env.Steps
import Aicv.Pipeline.Run

/-!
# The verdict on a submission

`Verify` runs the pipeline and reduces its `Result` to an outcome.  Four flags of
the `Result` go into the outcome, and they come from two exit codes and from the
timeout heuristic of the sandbox.

`verdict_sound` says what the verdict is for every pair of exit codes when
neither the staging nor an `Exec` fails.  `goes_on_iff` ties the pipeline that
returns a `Result` to the one that interleaves with others.
-/

namespace Aicv.Api

open Pipeline Sandbox

/-- `verdict.Outcome`. -/
inductive Outcome where
  | passed
  | compileError
  | runtimeError
  | testFailed
deriving DecidableEq, Repr

/-- `verdict.Classify`. -/
def classify (r : Result) : Outcome :=
  if !r.compiled then .compileError
  else if r.passed then .passed
  else if r.timedOut || r.crashed then .runtimeError
  else .testFailed

/-- `api.Verdict`, over the diagnostics of the verifier. -/
structure Verdict (δ : Type) where
  outcome : Outcome
  diagnostics : List δ
  compilerOutput : String
  stdout : String
  stderr : String
  exitCode : ℤ
  timedOut : Bool
  duration : Duration
  assignment : Duration
  compile : Duration
  execute : Duration

section
variable {δ : Type} (parseGo parseRust : String → List δ)

/-- `diagnosticsFor`, over the two parsers of the verifier. -/
def diagnosticsFor (lang : Lang) (res : Result) : List δ :=
  match lang with
  | .go => parseGo res.compilerRaw
  | .rust => parseRust res.compilerJSON

/-- The verdict `Verify` makes of a result. -/
def verdictOf (job : Job) (res : Result) : Verdict δ where
  outcome := classify res
  diagnostics := diagnosticsFor parseGo parseRust job.lang res
  compilerOutput := res.compilerRaw
  stdout := res.runtimeStdout
  stderr := res.runtimeStderr
  exitCode := res.exitCode
  timedOut := res.timedOut
  duration := res.duration
  assignment := res.assignment
  compile := res.compile
  execute := res.execute

/-- `Env.Verify`. -/
def verify (r : Pipeline.Replies) (job : Job) : Session Pipeline.Error (Verdict δ) := do
  let res ← Pipeline.run r job
  pure (verdictOf parseGo parseRust job res)

end

/-! ## Outcomes -/

/-- The exit code of the execute stage decides its outcome. -/
theorem classify_execute (res : Result) (compileRes execRes : ExecResult)
    (h : execRes.timedOut = true → 128 ≤ execRes.exitCode) :
    classify (executeResult res compileRes execRes) =
      if execRes.exitCode = 0 then .passed
      else if 128 ≤ execRes.exitCode then .runtimeError
      else .testFailed := by
  simp only [classify, executeResult, isCrash]
  by_cases hzero : execRes.exitCode = 0
  · have hin : execRes.timedOut = false := by
      rw [Bool.eq_false_iff]
      intro hout
      have := h hout
      omega
    simp [hzero, hin]
  · by_cases hsig : 128 ≤ execRes.exitCode
    · simp [hzero, hsig]
    · have hin : execRes.timedOut = false := Bool.eq_false_iff.mpr fun hout => hsig (h hout)
      simp [hzero, hsig, hin]

section
variable {δ : Type} (parseGo parseRust : String → List δ) {r : Pipeline.Replies} {job : Job}
  {id : String} {c x : ExecOutput}

theorem verify_ok {res : Result} (h : (Pipeline.run r job).result = .ok res) :
    (verify parseGo parseRust r job).result = .ok (verdictOf parseGo parseRust job res) ∧
      (verify parseGo parseRust r job).commands = (Pipeline.run r job).commands :=
  ⟨Session.result_bind h _, (Session.commands_bind h _).trans (List.append_nil _)⟩

/-- The execute command is issued exactly if the compile command exits with code
zero. -/
theorem executes_iff (hacq : r.acquire = .ok id) (hc : r.compile.Served job.files c)
    (hx : c.exitCode = 0 → r.execute.Served [] x) :
    job.wrapped .execute ∈ (Pipeline.run r job).commands ↔ c.exitCode = 0 := by
  obtain ⟨hcompile, hother⟩ := wrapped_execute_ne job
  rw [(run_acquired job hacq).2]
  by_cases hzero : c.exitCode = 0
  · simp [(stages_execute id hc hzero (hx hzero)).2, hzero]
  · simp [(stages_compile id hc hzero).2, hzero, hcompile, hother]

/-- For every pair of exit codes the verdict is the right one, the execute command
is issued exactly if the submission compiles, and the flags and the times agree
with the outcome. -/
theorem verdict_sound (hacq : r.acquire = .ok id) (hc : r.compile.Served job.files c)
    (hx : c.exitCode = 0 → r.execute.Served [] x) :
    ∃ v, (verify parseGo parseRust r job).result = .ok v ∧
      (v.outcome = .passed ↔ c.exitCode = 0 ∧ x.exitCode = 0) ∧
      (v.outcome = .compileError ↔ c.exitCode ≠ 0) ∧
      (v.outcome = .runtimeError ↔ c.exitCode = 0 ∧ 128 ≤ x.exitCode) ∧
      (v.outcome = .testFailed ↔ c.exitCode = 0 ∧ x.exitCode ≠ 0 ∧ x.exitCode < 128) ∧
      (job.wrapped .execute ∈ (verify parseGo parseRust r job).commands ↔ c.exitCode = 0) ∧
      (v.outcome = .compileError → v.stdout = "" ∧ v.stderr = "" ∧ v.execute = 0) ∧
      (v.timedOut = true → v.outcome ≠ .passed ∧ v.outcome ≠ .testFailed) ∧
      v.duration = v.compile + v.execute := by
  have hcmds := executes_iff hacq hc hx
  obtain ⟨hres, -⟩ := run_acquired job hacq
  by_cases hzero : c.exitCode = 0
  · rw [(stages_execute id hc hzero (hx hzero)).1] at hres
    obtain ⟨hv, hsame⟩ := verify_ok parseGo parseRust hres
    have hsig (h : timedOut x.exitCode (job.limit .execute) r.execute.dur = true) :
        128 ≤ x.exitCode := by
      rcases timedOut_signal h with h | h <;> omega
    have hout := classify_execute
      (compileResult r.assignment (job.captured .compile c r.compile.dur))
      (job.captured .compile c r.compile.dur) (job.captured .execute x r.execute.dur) hsig
    refine ⟨_, hv, ?_⟩
    rw [hsame, hcmds]
    simp only [verdictOf, hout, hzero]
    by_cases hpass : x.exitCode = 0
    · simp [Job.captured, executeResult, compileResult, hpass, timedOut_zero]
    · by_cases hbig : 128 ≤ x.exitCode
      · simp [Job.captured, executeResult, compileResult, hpass, hbig]
      · have hin : timedOut x.exitCode (job.limit .execute) r.execute.dur = false :=
          Bool.eq_false_iff.mpr fun h => hbig (hsig h)
        simp [Job.captured, executeResult, compileResult, hpass, hbig, hin, Int.not_le.mp hbig]
  · rw [(stages_compile id hc hzero).1] at hres
    obtain ⟨hv, hsame⟩ := verify_ok parseGo parseRust hres
    have hout : (verdictOf parseGo parseRust job
        (compileResult r.assignment (job.captured .compile c r.compile.dur))).outcome =
          .compileError := rfl
    refine ⟨_, hv, ?_⟩
    rw [hsame, hcmds, hout]
    simp [hzero, verdictOf, compileResult]

/-- Between the other processes of an `Env`, a run goes on to the execute stage
exactly if by itself it issues the execute command. -/
theorem goes_on_iff (hacq : r.acquire = .ok id) (hc : r.compile.Served job.files c)
    (hx : c.exitCode = 0 → r.execute.Served [] x) (run : JobId) (grace : Option Duration) :
    Env.Phase.next ⟨run, job, grace⟩ id c.exitCode r.compile.dur .compile = .prepare id .execute ↔
      job.wrapped .execute ∈ (Pipeline.run r job).commands := by
  rw [executes_iff hacq hc hx]
  by_cases hzero : c.exitCode = 0
  · simp [Env.Phase.next, hzero, timedOut_zero]
  · simp [Env.Phase.next, hzero]

end

/-- A submission that compiles and is killed at its limit. -/
theorem verdict_sound_killed : ∃ (r : Pipeline.Replies) (job : Job) (v : Verdict Unit),
    (verify (fun _ => []) (fun _ => []) r job).result = .ok v ∧ v.outcome = .runtimeError := by
  let mkdir : Except String ExecOutput := .ok ⟨"", "", 0⟩
  let r : Pipeline.Replies := ⟨.ok "a", 0, "00", ⟨mkdir, .ok (), .ok ⟨"", "", 0⟩, 2000000000⟩,
    ⟨mkdir, .ok (), .ok ⟨"", "", 137⟩, 60000000000⟩⟩
  let job : Job := ⟨.rust, [("Cargo.toml", "")], 60000000000⟩
  have hc : r.compile.Served job.files ⟨"", "", 0⟩ := ⟨⟨_, rfl, rfl⟩, fun _ => rfl, rfl⟩
  have hx : r.execute.Served [] ⟨"", "", 137⟩ := ⟨⟨_, rfl, rfl⟩, fun _ => rfl, rfl⟩
  have hacq : r.acquire = .ok "a" := rfl
  obtain ⟨v, hv, -, -, hruntime, -⟩ :=
    verdict_sound (fun _ => ([] : List Unit)) (fun _ => []) hacq hc fun _ => hx
  exact ⟨r, job, v, hv, hruntime.mpr ⟨rfl, by decide⟩⟩

end Aicv.Api
