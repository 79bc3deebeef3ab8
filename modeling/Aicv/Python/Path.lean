/-!
# Paths

A path of `pathlib` is a root and the parts behind it.  `relative_to` compares these and looks at
no file: a relative path is not below an absolute one, whatever the working directory is.
-/

namespace Aicv.Python

/-- A `PosixPath`. -/
structure Path where
  /-- Empty, if the path is relative. -/
  root : String
  parts : List String
deriving DecidableEq, Repr

namespace Path

/-- `Path(s)`.  Two slashes in front are a root of their own. -/
def parse (s : String) : Path where
  root :=
    match s.toList.takeWhile (· = '/') with
    | [] => ""
    | [_, _] => "//"
    | _ => "/"
  parts := ((s.toList.splitOn '/').filter fun part => part ≠ [] ∧ part ≠ ['.']).map String.ofList

/-- `p / name`, for a name without a slash. -/
def child (p : Path) (name : String) : Path := ⟨p.root, p.parts ++ [name]⟩

/-- `str(p)`. -/
def str (p : Path) : String :=
  if p.root = "" ∧ p.parts = [] then "." else p.root ++ "/".intercalate p.parts

/-- `p.relative_to(other)`, unless it raises. -/
def relativeTo (p other : Path) : Option Path :=
  if p.root = other.root ∧ other.parts <+: p.parts then
    some ⟨"", p.parts.drop other.parts.length⟩
  else none

variable {p other rest : Path}

theorem isSome_relativeTo :
    (p.relativeTo other).isSome ↔ p.root = other.root ∧ other.parts <+: p.parts := by
  unfold relativeTo
  split <;> simp [*]

/-- What is below a path is a child of it. -/
theorem relativeTo_descend (p : Path) (names : List String) :
    (names.foldl child p).relativeTo p = some ⟨"", names⟩ := by
  have hfold : names.foldl child p = ⟨p.root, p.parts ++ names⟩ := by
    induction names generalizing p with
    | nil => simp
    | cons name names ih => simp [ih, child]
  simp [hfold, relativeTo]

end Path

end Aicv.Python
