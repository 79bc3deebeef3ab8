import Aicv.Dataset.Crates

/-!
# Known-answer cases

`Convert` makes up to two cases of a record of the task suite, one with the canonical
solution and one with the buggy one.  `mem_convert` says which.
-/

namespace Aicv.Dataset

/-- `Record`, with the two fields of its `Raw`. -/
structure Record where
  id : String
  source : String
  prompt : String
  tests : String
  canonicalSolution : String
  buggySolution : String
deriving DecidableEq, Repr

/-- `Expected`. -/
inductive Expected where
  | pass
  | fail
deriving DecidableEq, Repr

/-- The value of an `Expected`. -/
def Expected.text : Expected → String
  | pass => "pass"
  | fail => "fail"

/-- `Case`.  The files are listed by name. -/
structure Case where
  id : String
  files : List (String × String)
  expected : Expected
deriving DecidableEq, Repr

/-- The source of a solution. -/
def Record.src (r : Record) (body : String) : String := r.prompt ++ body ++ r.tests

/-- `assemble`. -/
def assemble (r : Record) (body : String) : List (String × String) :=
  let src := r.src body
  [("Cargo.toml", cargoToml (detectCrates src)), ("src/main.rs", src)]

/-- `Convert`. -/
def convert (r : Record) : List Case :=
  if r.source ≠ "humaneval-x" then []
  else
    (if r.canonicalSolution ≠ "" then
      [⟨r.id ++ "#canonical", assemble r r.canonicalSolution, .pass⟩] else []) ++
    (if r.buggySolution ≠ "" then
      [⟨r.id ++ "#buggy", assemble r r.buggySolution, .fail⟩] else [])

/-- The solutions of a record, each with the end of its id. -/
def Record.solutions (r : Record) : List (String × String × Expected) :=
  [("#canonical", r.canonicalSolution, .pass), ("#buggy", r.buggySolution, .fail)]

theorem mem_convert {r : Record} {c : Case} :
    c ∈ convert r ↔ r.source = "humaneval-x" ∧
      ∃ s ∈ r.solutions, s.2.1 ≠ "" ∧ c = ⟨r.id ++ s.1, assemble r s.2.1, s.2.2⟩ := by
  unfold convert Record.solutions
  split
  next hsource => simp [hsource]
  next hsource =>
    rw [not_not] at hsource
    split <;> split <;> simp_all

/-- A record without a buggy solution. -/
theorem convert_canonical {r : Record} (hsource : r.source = "humaneval-x")
    (hcanonical : r.canonicalSolution ≠ "") (hbuggy : r.buggySolution = "") :
    convert r = [⟨r.id ++ "#canonical", assemble r r.canonicalSolution, .pass⟩] := by
  simp [convert, hsource, hcanonical, hbuggy]

end Aicv.Dataset
