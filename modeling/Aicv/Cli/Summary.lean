import Mathlib.Data.List.Dedup
import Mathlib.Data.String.Basic
import Aicv.Api.Verify
import Aicv.Cli.JobSpec
import Aicv.Sequence.Collect

/-!
# The results of a bench run

`verifyOne` makes a `BenchResult` of a job spec and of what `Env.Verify` returns, and
`printSummary` counts the results.  Whether a result is correct is decided by
`scoreCorrect`, which takes every label but `pass` for `fail`.  The two classes of errors
are counted by comparing the label again, with `pass` and with `fail`.

The classes add up if and only if no job with another label passes (`adds_up_iff`).
-/

namespace Aicv.Cli

open Pipeline

/-- `verdict.Outcome.String`. -/
def outcomeText : Api.Outcome → String
  | .passed => "passed"
  | .compileError => "compile_error"
  | .runtimeError => "runtime_error"
  | .testFailed => "test_failed"

/-- `benchResult`. -/
structure BenchResult where
  id : String
  outcome : String
  expected : String
  correct : Option Bool
  durationMs : Int64
  assignmentNs : Int64
  timedOut : Bool
  error : String
deriving DecidableEq, Repr

/-- `scoreCorrect`. -/
def scoreCorrect (expected outcome : String) : Bool :=
  if expected = "pass" then outcome == "passed" else outcome != "passed"

/-- What a call of `Env.Verify` returns, with an error by its text, and the
milliseconds it takes. -/
structure Reply (δ : Type) where
  verdict : Except String (Api.Verdict δ)
  millis : Int64

section
variable {δ : Type}

/-- The text of an error, over the quoting of `%q`. -/
def Error.text (quote : String → String) : Error → String
  | unknownLang s => "unknown language " ++ quote s ++ " (want rust or go)"
  | noFiles id => "job " ++ quote id ++ " has no files"

/-- `verifyOne`. -/
def verifyOne (quote : String → String) (spec : JobSpec) (defaultTTL : Duration)
    (reply : Reply δ) : BenchResult :=
  let r : BenchResult := ⟨spec.id, "", "", none, 0, 0, false, ""⟩
  match spec.job defaultTTL with
  | .error e => { r with outcome := "error", error := e.text quote }
  | .ok _ =>
      let r := { r with durationMs := reply.millis }
      match reply.verdict with
      | .error e => { r with outcome := "error", error := e }
      | .ok v =>
          let r := { r with
            outcome := outcomeText v.outcome
            timedOut := v.timedOut
            assignmentNs := v.assignment }
          if spec.expected ≠ "" then
            { r with
              expected := spec.expected
              correct := some (scoreCorrect spec.expected r.outcome) }
          else r

end

/-! ## The summary -/

/-- The line on correctness. -/
structure Totals where
  graded : ℕ
  correct : ℕ
  falsePos : ℕ
  falseNeg : ℕ
deriving DecidableEq, Repr

/-- The result is a false positive: an accepted broken solution. -/
def BenchResult.isFalsePos (r : BenchResult) : Bool :=
  r.expected == "fail" && r.outcome == "passed"

/-- The result is a false negative: a rejected correct solution. -/
def BenchResult.isFalseNeg (r : BenchResult) : Bool :=
  r.expected == "pass" && r.outcome != "passed"

/-- The body of the last loop of `printSummary`. -/
def Totals.add (t : Totals) (r : BenchResult) : Totals :=
  match r.correct with
  | none => t
  | some c => {
      graded := t.graded + 1
      correct := if c then t.correct + 1 else t.correct
      falsePos := if r.isFalsePos then t.falsePos + 1 else t.falsePos
      falseNeg := if r.isFalseNeg then t.falseNeg + 1 else t.falseNeg }

/-- The totals of `printSummary`. -/
def totals (results : List BenchResult) : Totals := results.foldl Totals.add ⟨0, 0, 0, 0⟩

/-- The figure at 95 percent of sorted figures.  No slice is so long that the product wraps. -/
def percentile95 (xs : List Int64) : Int64 := xs.getD (min (95 * xs.length / 100) (xs.length - 1)) 0

/-- What `printSummary` prints. -/
structure Summary where
  jobs : ℕ
  /-- How many jobs have each outcome, by outcome. -/
  counts : List (String × ℕ)
  /-- Mean, 95th percentile and maximum, in milliseconds. -/
  latency : Option (Int64 × Int64 × Int64)
  /-- Median, 95th percentile and maximum, in nanoseconds. -/
  assignment : Option (Int64 × Int64 × Int64)
  correctness : Option Totals
deriving DecidableEq, Repr

/-- `printSummary`.  The sum of the milliseconds wraps. -/
def printSummary (results : List BenchResult) : Summary :=
  let outcomes := results.map (·.outcome)
  let served := results.filter (·.error = "")
  let durs := Sequence.sortBy Int64.toInt (served.map (·.durationMs))
  let asn := Sequence.sortBy Int64.toInt (served.map (·.assignmentNs))
  let t := totals results
  { jobs := results.length
    counts := (Sequence.sortBy id outcomes.dedup).map fun o => (o, outcomes.count o)
    latency :=
      if durs = [] then none
      else some (durs.foldl (· + ·) 0 / Int64.ofNat durs.length, percentile95 durs,
        durs.getLastD 0)
    assignment :=
      if asn = [] then none
      else some (asn.getD (asn.length / 2) 0, percentile95 asn, asn.getLastD 0)
    correctness := if 0 < t.graded then some t else none }

/-! ## What the totals count -/

/-- Every graded result is scored by its own label and outcome. -/
def BenchResult.Scored (r : BenchResult) : Prop :=
  ∀ c, r.correct = some c → c = scoreCorrect r.expected r.outcome

/-- The result is counted as correct. -/
def BenchResult.isCorrect (r : BenchResult) : Bool := r.correct == some true

/-- The result is graded and in no class: neither correct nor an error. -/
def BenchResult.isUncounted (r : BenchResult) : Bool :=
  r.correct == some false && !r.isFalsePos && !r.isFalseNeg

theorem foldl_add (results : List BenchResult) (t : Totals) :
    results.foldl Totals.add t = {
      graded := t.graded + results.countP fun r => r.correct.isSome
      correct := t.correct + results.countP fun r => r.isCorrect
      falsePos := t.falsePos + results.countP fun r => r.correct.isSome && r.isFalsePos
      falseNeg := t.falseNeg + results.countP fun r => r.correct.isSome && r.isFalseNeg } := by
  induction results generalizing t with
  | nil => rfl
  | cons r results ih =>
      rw [List.foldl_cons, ih]
      simp only [List.countP_cons, BenchResult.isCorrect]
      cases hc : r.correct with
      | none => simp [Totals.add, hc]
      | some c =>
          cases c <;> cases hpos : r.isFalsePos <;> cases hneg : r.isFalseNeg <;>
            simp [Totals.add, hc, hpos, hneg] <;> omega

/-- A job passes although its label is neither `pass` nor `fail`. -/
def BenchResult.PassesUnlabelled (r : BenchResult) : Prop :=
  r.expected ≠ "pass" ∧ r.expected ≠ "fail" ∧ r.outcome = "passed"

/-- A graded result is correct, a false positive, a false negative, or in no class. -/
theorem BenchResult.Scored.classes {r : BenchResult} (h : r.Scored) {c : Bool}
    (hc : r.correct = some c) :
    (c = true ∧ r.isFalsePos = false ∧ r.isFalseNeg = false ∧ ¬ r.PassesUnlabelled) ∨
    (c = false ∧ r.isFalsePos = true ∧ r.isFalseNeg = false ∧ ¬ r.PassesUnlabelled) ∨
    (c = false ∧ r.isFalsePos = false ∧ r.isFalseNeg = true ∧ ¬ r.PassesUnlabelled) ∨
    (c = false ∧ r.isFalsePos = false ∧ r.isFalseNeg = false ∧ r.PassesUnlabelled) := by
  obtain rfl := h c hc
  unfold isFalsePos isFalseNeg PassesUnlabelled
  by_cases hpass : r.expected = "pass" <;> by_cases hfail : r.expected = "fail" <;>
    by_cases hout : r.outcome = "passed" <;> simp [scoreCorrect, hpass, hfail, hout]

/-- A graded result is in exactly one class, or uncounted. -/
theorem one_class {r : BenchResult} (h : r.Scored) :
    (if r.correct.isSome then 1 else 0) =
      (if r.isCorrect then 1 else 0) + (if r.correct.isSome && r.isFalsePos then 1 else 0) +
        (if r.correct.isSome && r.isFalseNeg then 1 else 0) + if r.isUncounted then 1 else 0 := by
  unfold BenchResult.isCorrect BenchResult.isUncounted
  cases hc : r.correct with
  | none => rfl
  | some c =>
      obtain ⟨rfl, hpos, hneg, -⟩ | ⟨rfl, hpos, hneg, -⟩ | ⟨rfl, hpos, hneg, -⟩ |
        ⟨rfl, hpos, hneg, -⟩ := h.classes hc
      all_goals rw [hpos, hneg]; rfl

theorem isUncounted_iff {r : BenchResult} (h : r.Scored) :
    r.isUncounted = true ↔ r.correct.isSome = true ∧ r.PassesUnlabelled := by
  unfold BenchResult.isUncounted
  cases hc : r.correct with
  | none => simp
  | some c =>
      obtain ⟨rfl, hpos, hneg, hlabel⟩ | ⟨rfl, hpos, hneg, hlabel⟩ | ⟨rfl, hpos, hneg, hlabel⟩ |
        ⟨rfl, hpos, hneg, hlabel⟩ := h.classes hc
      all_goals simp [hpos, hneg, hlabel]

/-- A graded result that is not correct is in exactly one class of errors, unless it is
uncounted. -/
theorem isUncounted_eq {r : BenchResult} (h : r.Scored) (hc : r.correct = some false) :
    r.isUncounted = !(r.isFalsePos ^^ r.isFalseNeg) := by
  unfold BenchResult.isUncounted
  obtain ⟨hfalse, -⟩ | ⟨-, hpos, hneg, -⟩ | ⟨-, hpos, hneg, -⟩ | ⟨-, hpos, hneg, -⟩ := h.classes hc
  · cases hfalse
  all_goals rw [hc, hpos, hneg]; rfl

theorem graded_eq {results : List BenchResult} (h : ∀ r ∈ results, r.Scored) :
    (totals results).graded = (totals results).correct + (totals results).falsePos +
      (totals results).falseNeg + results.countP fun r => r.isUncounted := by
  rw [totals, foldl_add]
  simp only [Nat.zero_add]
  induction results with
  | nil => rfl
  | cons r results ih =>
      obtain ⟨hr, hresults⟩ := List.forall_mem_cons.mp h
      have hone := one_class hr
      have hrest := ih hresults
      simp only [List.countP_cons]
      omega

section
variable {δ : Type} (quote : String → String) (spec : JobSpec) (defaultTTL : Duration)
  (reply : Reply δ)

theorem scored_verifyOne : (verifyOne quote spec defaultTTL reply).Scored := by
  unfold verifyOne
  split
  · exact nofun
  · split
    · exact nofun
    · split
      · exact fun c hc => (Option.some.inj hc).symm
      · exact nofun

theorem outcomeText_eq_passed (o : Api.Outcome) : outcomeText o = "passed" ↔ o = .passed := by
  cases o <;> decide

/-- A result is uncounted if the job passes and its label is neither `pass` nor `fail`. -/
theorem isUncounted_verifyOne :
    (verifyOne quote spec defaultTTL reply).isUncounted = true ↔
      ∃ job v, spec.job defaultTTL = .ok job ∧ reply.verdict = .ok v ∧ v.outcome = .passed ∧
        spec.expected ∉ ["", "pass", "fail"] := by
  rw [isUncounted_iff (scored_verifyOne quote spec defaultTTL reply)]
  cases hjob : spec.job defaultTTL with
  | error e => simp [verifyOne, hjob]
  | ok job =>
      cases hv : reply.verdict with
      | error e => simp [verifyOne, hjob, hv]
      | ok v =>
          by_cases hexp : spec.expected = ""
          · simp [verifyOne, hjob, hv, hexp]
          · simp [verifyOne, hjob, hv, hexp, BenchResult.PassesUnlabelled, outcomeText_eq_passed]
            tauto

end

/-- The totals add up, with each graded result that is not correct in exactly one class
of errors, if and only if no job passes whose label is not empty and neither `pass` nor
`fail`. -/
theorem adds_up_iff {δ : Type} (quote : String → String) (defaultTTL : Duration)
    (jobs : List (JobSpec × Reply δ)) :
    let results := jobs.map fun j => verifyOne quote j.1 defaultTTL j.2
    ((∀ t, (printSummary results).correctness = some t →
          t.graded = t.correct + t.falsePos + t.falseNeg) ∧
        ∀ r ∈ results, r.correct = some false → (r.isFalsePos ^^ r.isFalseNeg) = true) ↔
      ∀ j ∈ jobs, ∀ job v, j.1.job defaultTTL = .ok job → j.2.verdict = .ok v →
        v.outcome = .passed → j.1.expected ∈ ["", "pass", "fail"] := by
  intro results
  have hscored : ∀ r ∈ results, r.Scored := by
    intro r hr
    obtain ⟨j, -, rfl⟩ := List.mem_map.mp hr
    exact scored_verifyOne quote j.1 defaultTTL j.2
  have hsum := graded_eq hscored
  have hcond : (∀ j ∈ jobs, ∀ job v, j.1.job defaultTTL = .ok job → j.2.verdict = .ok v →
      v.outcome = .passed → j.1.expected ∈ ["", "pass", "fail"]) ↔
        ∀ r ∈ results, ¬ r.isUncounted = true := by
    simp only [results, List.forall_mem_map, isUncounted_verifyOne, not_exists, not_and, not_not]
  rw [hcond]
  constructor
  · rintro ⟨-, hclass⟩ r hr hun
    have hc : r.correct = some false := by
      simp only [BenchResult.isUncounted, Bool.and_eq_true, beq_iff_eq] at hun
      exact hun.1.1
    rw [isUncounted_eq (hscored r hr) hc, hclass r hr hc] at hun
    cases hun
  · intro hnone
    refine ⟨fun t ht => ?_, fun r hr hc => ?_⟩
    · simp only [printSummary] at ht
      split at ht
      next =>
        obtain rfl := Option.some.inj ht
        rw [hsum, List.countP_eq_zero.mpr hnone, Nat.add_zero]
      next => cases ht
    · have hun := hnone r hr
      rw [isUncounted_eq (hscored r hr) hc] at hun
      simpa using hun

/-- A label that is spelt in another way. -/
theorem not_adds_up : ¬ ∀ (quote : String → String) (defaultTTL : Duration)
    (jobs : List (JobSpec × Reply Unit)),
    let results := jobs.map fun j => verifyOne quote j.1 defaultTTL j.2
    (∀ t, (printSummary results).correctness = some t →
        t.graded = t.correct + t.falsePos + t.falseNeg) ∧
      ∀ r ∈ results, r.correct = some false → (r.isFalsePos ^^ r.isFalseNeg) = true := by
  intro h
  let spec : JobSpec := ⟨"1", "rust", [("src/main.rs", "")], 60, "Fail"⟩
  let v : Api.Verdict Unit := ⟨.passed, [], "", "", "", 0, false, 0, 0, 0, 0⟩
  have hsum := (h id 0 [(spec, ⟨.ok v, 1⟩)]).1 ⟨1, 0, 0, 0⟩ (by decide +kernel)
  cases hsum

end Aicv.Cli
