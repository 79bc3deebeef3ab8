import Aicv.Mining.Threshold
import Aicv.Python.Text

/-!
# What an image is made of

`analyze_prevalence.py` writes a report, and the generators read the selection of one threshold
from it.  The selected packages differ in their names (`nodup_select`), so that a generator
that sorts them sorts them strictly.
-/

namespace Aicv.Mining

open Python

/-- What the generators read of a report. -/
structure Analysis where
  sourceFile : Option String
  sourceMinedAt : Option String
  thresholds : Dict String Selection

/-- The report that `main` of `analyze_prevalence.py` writes. -/
def prevalenceAnalysis [BEq Json] (round : ℚ → String) (rawPath : String) (n : Normalised) :
    Option Analysis := do
  let curve ← computePrevalenceCurve n
  return ⟨some rawPath, some n.minedAt, buildThresholdReport round curve⟩

/-- How a generator ends without a file. -/
inductive Failure where
  /-- `sys.exit` with a message. -/
  | exit (message : String)
  /-- A `KeyError`. -/
  | missing (key : String)
  /-- `max` of nothing. -/
  | empty
  /-- A method that the value does not have. -/
  | attribute
deriving DecidableEq, Repr

/-- The choices of `--threshold`. -/
def choices : List ℕ := [5, 10, 15, 20]

/-- The text of a value in an f-string, over the texts of the values that are no text. -/
def shown (str : Json → String) : Json → String
  | .str s => s
  | v => str v

/-- The selection of a threshold. -/
def Analysis.selection (analysis : Analysis) (threshold : ℕ) : Except Failure Selection :=
  let key := toString threshold
  match analysis.thresholds.lookup key with
  | none => .error (.exit ("error: threshold " ++ key ++ " not in analysis."))
  | some selection => .ok selection

/-- Every choice is a threshold of the report. -/
theorem lookup_report (round : ℚ → String) (curve : List CurveEntry) {m : ℕ} (hm : m ∈ choices) :
    (buildThresholdReport round curve).lookup (toString m) =
      some (select round curve (m / 100)) := by
  have hkeys : (thresholds.map percent).Nodup := by decide +kernel
  have hkey : ∀ m ∈ choices, (m / 100 : ℚ) ∈ thresholds ∧ percent (m / 100) = toString m := by
    decide +kernel
  obtain ⟨hmem, heq⟩ := hkey m hm
  rw [← heq]
  exact Dict.lookup_foldl_alter hkeys hmem

theorem map_name_select (round : ℚ → String) (curve : List CurveEntry) (t : ℚ) :
    (select round curve t).packages.map Package.name =
      (curve.take (findKAtThreshold curve t)).map CurveEntry.name := by
  rw [select, List.map_map]
  rfl

section
variable [BEq Json] {n : Normalised} {curve : List CurveEntry}

/-- No package is selected twice. -/
theorem nodup_select (h : computePrevalenceCurve n = some curve) (round : ℚ → String) (t : ℚ) :
    ((select round curve t).packages.map Package.name).Nodup := by
  rw [map_name_select]
  exact (nodup_curve h).sublist ((List.take_sublist _ curve).map _)

end

end Aicv.Mining
