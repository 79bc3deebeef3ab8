import Aicv.Api.Verify
import Aicv.Number.Binary64
import Aicv.Verifier.Go
import Aicv.Verifier.Rust

/-!
# The reward

`compute` turns a `Result` and its diagnostics into a reward in binary64.  Under `coarse` there are
four levels, and under `structured` the level of the submissions that do not compile is divided by
the number of errors.

The constants are rounded when they are used, and so is each operation.  The last addition may be
fused with the multiplication before it, which some machines do and others do not.

`compute_value` says that all this is the nearest number to the exact formula, fused or not, and
`compute_lt_iff` that the order of rewards is the order of the levels, on either machine and in
either mode.
-/

namespace Aicv.Reward

open Number Pipeline Verifier Go

/-! ## The package -/

/-- `Mode`. -/
inductive Mode where
  | coarse
  | structured
deriving DecidableEq, Repr

/-- `RewardResult`. -/
structure RewardResult where
  value : ℚ
  mode : Mode
  breakdown : List (String × ℚ)

/-- `rewardPass`. -/
def rewardPass : ℚ := 1

/-- `rewardTestFailed`. -/
def rewardTestFailed : ℚ := -3 / 10

/-- `rewardRuntimeErr`. -/
def rewardRuntimeErr : ℚ := -6 / 10

/-- `rewardCompileErr`. -/
def rewardCompileErr : ℚ := -1

/-- `compileBandTop`. -/
def compileBandTop : ℚ := -65 / 100

/-- `errorSaturation`. -/
def errorSaturation : ℕ := 5

/-- `outcome`. -/
inductive Outcome where
  | compileError
  | runtimeError
  | testFailed
  | passed
deriving DecidableEq, Repr

/-- `float64` of an outcome. -/
def Outcome.float64 : Outcome → ℚ
  | .compileError => 0
  | .runtimeError => 1
  | .testFailed => 2
  | .passed => 3

/-- `classify`. -/
def classify (r : Result) : Outcome :=
  if !r.compiled then .compileError
  else if r.passed then .passed
  else if r.timedOut || r.crashed then .runtimeError
  else .testFailed

/-- `anchorValue`. -/
def anchorValue : Outcome → ℚ
  | .passed => Binary64.round rewardPass
  | .testFailed => Binary64.round rewardTestFailed
  | .runtimeError => Binary64.round rewardRuntimeErr
  | .compileError => Binary64.round rewardCompileErr

/-- `errorCount`. -/
def errorCount (diags : List Diagnostic) : ℕ := diags.countP fun d => d.level == utf8 "error"

/-- `clamp01`. -/
def clamp01 (x : ℚ) : ℚ := if x < 0 then 0 else if x > 1 then 1 else x

/-- `remaining`, of `n` errors. -/
def remaining (n : ℕ) : ℚ :=
  Binary64.round (1 - clamp01 (Binary64.round (Binary64.round n / errorSaturation)))

/-- `value`, of `n` errors. -/
def compileValue (fused : Bool) (n : ℕ) : ℚ :=
  let band := Binary64.round (compileBandTop - rewardCompileErr)
  if fused then Binary64.round (rewardCompileErr + band * remaining n)
  else Binary64.round (rewardCompileErr + Binary64.round (band * remaining n))

/-- `Compute`, on a machine that fuses or does not. -/
def compute (fused : Bool) (r : Result) (diags : List Diagnostic) (mode : Mode) : RewardResult :=
  let o := classify r
  if o ≠ .compileError then ⟨anchorValue o, mode, [("outcome", o.float64)]⟩
  else
    match mode with
    | .coarse => ⟨Binary64.round rewardCompileErr, .coarse,
        [("outcome", Outcome.compileError.float64)]⟩
    | .structured =>
        let n := errorCount diags
        ⟨compileValue fused n, .structured, [("outcome", Outcome.compileError.float64),
          ("error_count", Binary64.round n), ("remaining", remaining n)]⟩

/-! ## Levels -/

/-- The level of a submission, from the worst to the best.  The errors from the saturation on do
not count. -/
def level (r : Result) (diags : List Diagnostic) (mode : Mode) : ℕ :=
  match classify r, mode with
  | .compileError, .coarse => 0
  | .compileError, .structured => errorSaturation - errorCount diags
  | .runtimeError, _ => 6
  | .testFailed, _ => 7
  | .passed, _ => 8

/-- The exact reward of a level. -/
def ideal : ℕ → ℚ
  | 6 => rewardRuntimeErr
  | 7 => rewardTestFailed
  | 8 => rewardPass
  | n => rewardCompileErr + (compileBandTop - rewardCompileErr) * (n / errorSaturation)

theorem ideal_zero : ideal 0 = rewardCompileErr := by
  rw [ideal, Nat.cast_zero, zero_div, mul_zero, add_zero]
  all_goals decide

theorem level_le (r : Result) (diags : List Diagnostic) (mode : Mode) : level r diags mode ≤ 8 := by
  unfold level
  split
  · exact Nat.zero_le _
  · exact (Nat.sub_le _ _).trans (by decide)
  · decide
  · decide
  · exact le_refl _

/-- From the saturation on nothing remains. -/
theorem remaining_of_le {n : ℕ} (h : errorSaturation ≤ n) : remaining n = 0 := by
  have hfive : Binary64.round 5 = 5 := by exact_mod_cast Binary64.round_intCast (n := 5) (by decide)
  have hone : Binary64.round 1 = 1 := by exact_mod_cast Binary64.round_intCast (n := 1) (by decide)
  have hn : (5 : ℚ) ≤ n := by exact_mod_cast h
  have hsat : (errorSaturation : ℚ) = 5 := rfl
  have hcount : 5 ≤ Binary64.round n := by
    rw [← hfive]
    exact Binary64.round_mono (by norm_num) hn
  have hquot : 1 ≤ Binary64.round (Binary64.round n / 5) := by
    rw [← hone]
    exact Binary64.round_mono zero_le_one (by linarith)
  have hclamp : clamp01 (Binary64.round (Binary64.round n / 5)) = 1 := by
    unfold clamp01
    split_ifs <;> linarith
  rw [remaining, hsat, hclamp, sub_self, Binary64.round_zero]

/-- The reward of a submission that does not compile is the nearest number to the exact one,
whether the last addition is fused or not. -/
theorem compileValue_eq (fused : Bool) (n : ℕ) :
    compileValue fused n = Binary64.round (ideal (errorSaturation - n)) := by
  rcases Nat.lt_or_ge n errorSaturation with hlt | hge
  · -- five numbers on two machines
    have hall : ∀ n : Fin 5, ∀ fused,
        compileValue fused n.val = Binary64.round (ideal (errorSaturation - n.val)) := by
      decide +kernel
    exact hall ⟨n, hlt⟩ fused
  · have hideal : ideal (errorSaturation - n) = rewardCompileErr := by
      rw [Nat.sub_eq_zero_of_le hge, ideal_zero]
    rw [hideal, compileValue, remaining_of_le hge, mul_zero, Binary64.round_zero, add_zero,
      ite_self]

/-- The reward is the nearest number to the exact one. -/
theorem compute_value (fused : Bool) (r : Result) (diags : List Diagnostic) (mode : Mode) :
    (compute fused r diags mode).value = Binary64.round (ideal (level r diags mode)) := by
  unfold compute level
  cases hout : classify r with
  | compileError =>
      cases mode with
      | coarse => exact congrArg Binary64.round ideal_zero.symm
      | structured => exact compileValue_eq fused _
  | runtimeError | testFailed | passed => rfl

/-! ## The order of rewards -/

/-- The exact rewards of two levels are further apart than the rounding of both. -/
theorem ideal_lt {i j : ℕ} (h : i < j) (hj : j ≤ 8) : ideal i + 2 ^ (-52 : ℤ) < ideal j := by
  have hall : ∀ i j : Fin 9, i < j → ideal i.val + 1 / 2 ^ 52 < ideal j.val := by decide +kernel
  have hlt := hall ⟨i, by omega⟩ ⟨j, by omega⟩ h
  rwa [zpow_neg, ← one_div]

theorem abs_ideal_lt {i : ℕ} (h : i ≤ 8) : |ideal i| < 2 := by
  have hall : ∀ i : Fin 9, |ideal i.val| < 2 := by decide +kernel
  exact hall ⟨i, by omega⟩

theorem round_ideal_lt {i j : ℕ} (h : i < j) (hj : j ≤ 8) :
    Binary64.round (ideal i) < Binary64.round (ideal j) := by
  have htwo : (2 : ℚ) ^ ((-52 : ℤ) + 53) = 2 := by norm_num
  refine Binary64.round_lt_round (e := -52) ?_ ?_ (by decide) (ideal_lt h hj)
  · rw [htwo]
    exact abs_ideal_lt (h.le.trans hj)
  · rw [htwo]
    exact abs_ideal_lt hj

/-- A reward is less than another one exactly if its level is: on the same machine or on two
machines, in either mode. -/
theorem compute_lt_iff (fused fused' : Bool) (r r' : Result) (diags diags' : List Diagnostic)
    (mode mode' : Mode) :
    (compute fused r diags mode).value < (compute fused' r' diags' mode').value ↔
      level r diags mode < level r' diags' mode' := by
  rw [compute_value, compute_value]
  refine ⟨fun h => ?_, fun h => round_ideal_lt h (level_le r' diags' mode')⟩
  by_contra hnot
  rcases (Nat.not_lt.mp hnot).lt_or_eq with hlt | heq
  · exact lt_asymm h (round_ideal_lt hlt (level_le r diags mode))
  · rw [heq] at h
    exact lt_irrefl _ h

/-- The reward is the nearest number to the exact one, between `-1` and `1`, and rewards are ordered
as their levels: whatever the two submissions, in either mode, fused or not. -/
theorem compute_exact (fused fused' : Bool) (r r' : Result) (diags diags' : List Diagnostic)
    (mode mode' : Mode) :
    (compute fused r diags mode).value = Binary64.round (ideal (level r diags mode)) ∧
      -1 ≤ (compute fused r diags mode).value ∧ (compute fused r diags mode).value ≤ 1 ∧
      ((compute fused r diags mode).value < (compute fused' r' diags' mode').value ↔
        level r diags mode < level r' diags' mode') := by
  have hall : ∀ i : Fin 9,
      -1 ≤ Binary64.round (ideal i.val) ∧ Binary64.round (ideal i.val) ≤ 1 := by
    decide +kernel
  have hle := level_le r diags mode
  obtain ⟨hlow, hhigh⟩ := hall ⟨level r diags mode, by omega⟩
  rw [← compute_value fused] at hlow hhigh
  exact ⟨compute_value fused r diags mode, hlow, hhigh,
    compute_lt_iff fused fused' r r' diags diags' mode mode'⟩

/-! ## From the output of the compiler -/

section
variable (unmarshal : Bytes → Option RustLine)

/-- A compiler message of level error. -/
def isError (rl : RustLine) : Bool :=
  rl.reason == utf8 "compiler-message" && rl.message.any fun m => m.level == utf8 "error"

/-- The lines with a compiler message of level error. -/
def errorLines (lines : List Bytes) : ℕ :=
  lines.countP fun line => (record unmarshal line).any isError

/-- A line counts if it has a compiler message of level error. -/
theorem any_parseLine (line : Bytes) :
    (parseLine unmarshal line).any (fun d => d.level == utf8 "error") =
      (record unmarshal line).any isError := by
  unfold parseLine record
  by_cases hhead : (trimSpace line).head? = some 123
  · cases hrl : unmarshal (trimSpace line) with
    | none => simp [hhead, hrl]
    | some rl =>
        cases hm : rl.message with
        | none => simp [hhead, hrl, hm, isError]
        | some m =>
            have hlevel : (convertRust m).level = m.level := by
              cases m
              rfl
            by_cases hreason : rl.reason = utf8 "compiler-message"
            · by_cases herror : m.level = utf8 "error"
              · simp [hhead, hrl, hm, hreason, herror, hlevel, isError]
              · by_cases hwarning : m.level = utf8 "warning"
                · simp [hhead, hrl, hm, hreason, hwarning, hlevel, isError]
                · simp [hhead, hrl, hm, hreason, herror, hwarning, isError]
            · simp [hhead, hrl, hm, hreason, isError]
  · simp [hhead]

/-- The errors are the lines with a compiler message of level error. -/
theorem errorCount_parseRust {lines : List Bytes} (h : ∀ line ∈ lines, 10 ∉ line) :
    errorCount (parseRust unmarshal ([10].intercalate lines)) = errorLines unmarshal lines := by
  rw [parseRust_join unmarshal h, errorCount, List.countP_filterMap]
  refine List.countP_congr fun line _ => ?_
  rw [← any_parseLine]
  cases parseLine unmarshal line <;> simp

theorem level_of_not_compiled {r : Result} (hr : r.compiled = false) (diags : List Diagnostic) :
    level r diags .structured = errorSaturation - errorCount diags := by
  have hclass : classify r = .compileError := by
    rw [classify, hr]
    rfl
  unfold level
  rw [hclass]

/-- Of two submissions that do not compile the one with fewer errors in the output of its compiler
has the higher reward, as long as they are fewer than the saturation.  Warnings, messages of other
kinds and lines that are no record do not count. -/
theorem output_lt_iff (fused fused' : Bool) {r r' : Result} (hr : r.compiled = false)
    (hr' : r'.compiled = false) {lines lines' : List Bytes} (h : ∀ line ∈ lines, 10 ∉ line)
    (h' : ∀ line ∈ lines', 10 ∉ line) :
    (compute fused r (parseRust unmarshal ([10].intercalate lines)) .structured).value <
        (compute fused' r' (parseRust unmarshal ([10].intercalate lines')) .structured).value ↔
      errorLines unmarshal lines' < errorLines unmarshal lines ∧
        errorLines unmarshal lines' < errorSaturation := by
  rw [compute_lt_iff, level_of_not_compiled hr, level_of_not_compiled hr',
    errorCount_parseRust unmarshal h, errorCount_parseRust unmarshal h']
  omega

end

/-- An error and a warning against two errors. -/
theorem output_lt_iff_two : ∃ (unmarshal : Bytes → Option RustLine) (r : Result)
    (lines lines' : List Bytes), lines.length = 2 ∧ lines'.length = 2 ∧
      (compute true r (parseRust unmarshal ([10].intercalate lines)) .structured).value <
        (compute false r (parseRust unmarshal ([10].intercalate lines')) .structured).value := by
  let object (level : String) : Bytes :=
    utf8 ("\x7b\"reason\":\"compiler-message\",\"message\":\x7b\"code\":null,\"level\":\"" ++
      level ++ "\",\"message\":\"unused\",\"spans\":[],\"children\":[]\x7d\x7d")
  let rustLine (level : String) : RustLine :=
    ⟨utf8 "compiler-message", some ⟨none, utf8 level, utf8 "unused", [], []⟩⟩
  let unmarshal (text : Bytes) : Option RustLine :=
    if text = object "error" then some (rustLine "error")
    else if text = object "warning" then some (rustLine "warning")
    else none
  let r := Pipeline.compileResult 0 ⟨"", "", 101, false, 0⟩
  let lines := [object "error", object "error"]
  let lines' := [object "error", object "warning"]
  have hr : r.compiled = false := rfl
  have hlines : ∀ line ∈ lines, 10 ∉ line := by decide +kernel
  have hlines' : ∀ line ∈ lines', 10 ∉ line := by decide +kernel
  refine ⟨unmarshal, r, lines, lines', rfl, rfl, ?_⟩
  exact (output_lt_iff unmarshal true false hr hr hlines hlines').mpr (by decide +kernel)

end Aicv.Reward
