import Aicv.Pipeline.Job
import Aicv.Sandbox.Capture

/-!
# The jobs of a bench file

A line of a bench file is a `JobSpec`, with its time limit in whole seconds.
`JobSpec.job` turns the seconds into a `time.Duration`, which is a product of
64-bit integers that may wrap.

The job runs under a limit of exactly `ttl_secs` seconds as long as that many
seconds fit into a `time.Duration` (`limit_exact_iff`).
-/

namespace Aicv.Cli

open Pipeline Sandbox

/-- The errors of `parseLang` and `job`. -/
inductive Error where
  /-- `unknown language %q (want rust or go)`. -/
  | unknownLang (s : String)
  /-- `job %q has no files`. -/
  | noFiles (id : String)
deriving DecidableEq, Repr

/-- `parseLang`.  Outside of ASCII only the letters `k` and `i` are the lower case
of another letter, and no name has one of them. -/
def parseLang (s : String) : Except Error Lang :=
  match s.toLower with
  | "rust" | "rs" | "" => .ok .rust
  | "go" | "golang" => .ok .go
  | _ => .error (.unknownLang s)

/-- `jobSpec`. -/
structure JobSpec where
  id : String
  lang : String
  files : List (String × String)
  ttlSecs : Int64
  expected : String
deriving DecidableEq

/-- `jobSpec.job`. -/
def JobSpec.job (s : JobSpec) (defaultTTL : Duration) : Except Error Job := do
  let lang ← parseLang s.lang
  if s.files = [] then .error (.noFiles s.id)
  else
    let ttl := if 0 < s.ttlSecs then s.ttlSecs * Duration.second else defaultTTL
    .ok ⟨lang, s.files, ttl⟩

section
variable {s : JobSpec} {defaultTTL : Duration} {job : Job}

/-- A positive limit is multiplied into nanoseconds. -/
theorem ttl_of_job (hjob : s.job defaultTTL = .ok job) (hpos : 0 < s.ttlSecs) :
    job.ttl = s.ttlSecs * Duration.second := by
  unfold JobSpec.job at hjob
  cases hlang : parseLang s.lang with
  | error e =>
      rw [hlang] at hjob
      cases hjob
  | ok lang =>
      rw [hlang, if_pos hpos] at hjob
      change (if s.files = [] then _ else _) = Except.ok job at hjob
      split at hjob
      next => cases hjob
      next =>
        cases hjob
        rfl

/-- Seconds that fit into a `time.Duration` are its whole seconds. -/
theorem toInt_mul_second {n : Int64} (hpos : 0 < n) (hn : n.toInt ≤ 9223372036) :
    (n * Duration.second).toInt = n.toInt * 1000000000 := by
  have h0 : 0 < n.toInt := Int64.lt_iff_toInt_lt.mp hpos
  rw [Int64.toInt_mul, Duration.toInt_second]
  exact Int.bmod_eq_of_le (by omega) (by omega)

/-- The first number of seconds that does not fit wraps to a negative
duration. -/
theorem mul_second_neg {n : Int64} (hn : n.toInt = 9223372037) :
    (n * Duration.second).toInt < 0 := by
  rw [Int64.toInt_mul, Duration.toInt_second, hn]
  decide

/-- A job with a positive `ttl_secs` runs under a limit of exactly that many
seconds if and only if they fit into a `time.Duration`. -/
theorem limit_exact_iff (cmd : List String) (hjob : s.job defaultTTL = .ok job)
    (hpos : 0 < s.ttlSecs) :
    wrapWithTimeout cmd job.ttl =
        (["timeout", "-s", "KILL", toString s.ttlSecs.toInt] ++ cmd, s.ttlSecs.toInt) ↔
      s.ttlSecs.toInt ≤ 9223372036 := by
  have h0 : 0 < s.ttlSecs.toInt := Int64.lt_iff_toInt_lt.mp hpos
  rw [wrap_eq_iff _ _ h0, ttl_of_job hjob hpos]
  constructor
  · intro hlimit
    by_contra hbig
    by_cases hwrap : 0 < s.ttlSecs * Duration.second
    · have hle := limit_le cmd hwrap
      have hlt := (s.ttlSecs * Duration.second).toInt_lt
      -- only one number of seconds is that close to the longest duration
      have hneg := mul_second_neg (n := s.ttlSecs) (by omega)
      have := Int64.lt_iff_toInt_lt.mp hwrap
      simp only [Int64.toInt_zero] at this
      omega
    · rw [limit_of_nonpos cmd (Int64.not_lt.mp hwrap)] at hlimit
      omega
  · intro hn
    exact limit_of_dvd (toInt_mul_second hpos hn) h0

end

/-- A limit of an hour. -/
theorem limit_exact_hour : ∃ job, (JobSpec.mk "" "go" [("go.mod", "")] 3600 "").job 0 = .ok job ∧
    wrapWithTimeout ["go"] job.ttl =
      (["timeout", "-s", "KILL", toString (3600 : ℤ), "go"], 3600) := by
  let s : JobSpec := ⟨"", "go", [("go.mod", "")], 3600, ""⟩
  have hjob : s.job 0 = .ok ⟨.go, [("go.mod", "")], 3600 * Duration.second⟩ := by decide +kernel
  exact ⟨_, hjob, (limit_exact_iff ["go"] hjob (by decide)).mpr (by decide)⟩

/-- A limit of some 292 years wraps, and the job runs without one. -/
theorem not_limit_exact : ¬ ∀ (s : JobSpec) (defaultTTL : Duration) (job : Job)
    (cmd : List String), s.job defaultTTL = .ok job → 0 < s.ttlSecs →
    wrapWithTimeout cmd job.ttl =
      (["timeout", "-s", "KILL", toString s.ttlSecs.toInt] ++ cmd, s.ttlSecs.toInt) := by
  intro h
  let s : JobSpec := ⟨"", "go", [("go.mod", "")], 9223372037, ""⟩
  have hjob : s.job 0 = .ok ⟨.go, [("go.mod", "")], 9223372037 * Duration.second⟩ := by
    decide +kernel
  have hwrap := congrArg Prod.snd (h s 0 _ [] hjob (by decide))
  rw [limit_of_nonpos [] (by decide)] at hwrap
  exact absurd hwrap (by decide)

end Aicv.Cli
