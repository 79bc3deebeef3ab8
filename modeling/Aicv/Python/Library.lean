import Mathlib.Data.Int.Notation
import Mathlib.Data.Nat.Notation

/-!
# Python values and library functions

`Json` is what `json.loads` returns.  A script sees an object through `r[key]` and
`r.get(key)`.

`Library` has the functions of the standard library the scripts call on texts.
Nothing is assumed about them, so what is proved holds of Python's own.
-/

namespace Aicv.Python

/-- A JSON value. -/
inductive Json where
  | null
  | bool (b : Bool)
  /-- A number, by its digits. -/
  | num (digits : String)
  | str (s : String)
  | arr (items : List Json)
  | obj (fields : List (String × Json))

namespace Json

/-- `r[key]`, which raises unless `r` is an object with that key. -/
def item (key : String) : Json → Option Json
  | .obj fields => fields.lookup key
  | _ => none

/-- `r.get(key)`, which raises unless `r` is an object.  A missing key is `None`. -/
def get (key : String) : Json → Option Json
  | .obj fields => some ((fields.lookup key).getD .null)
  | _ => none

/-- The text of a string, for what raises on every other value. -/
def text : Json → Option String
  | .str s => some s
  | _ => none

/-- The items of a list, for what raises on every other value. -/
def items : Json → Option (List Json)
  | .arr items => some items
  | _ => none

/-- A Boolean, for what no script does with another value. -/
def truth : Json → Option Bool
  | .bool b => some b
  | _ => none

/-- A natural number. -/
def ofNat (n : ℕ) : Json := .num (toString n)

/-- The value of a natural number. -/
def natural : Json → Option ℕ
  | .num digits =>
      if digits.toList ≠ [] ∧ digits.toList.all Char.isDigit then
        some (Nat.ofDigitChars 10 digits.toList 0)
      else none
  | _ => none

@[simp] theorem natural_ofNat (n : ℕ) : (ofNat n).natural = some n := by
  have hall : (Nat.toDigits 10 n).all Char.isDigit = true :=
    List.all_eq_true.mpr fun c hc => Nat.isDigit_of_mem_toDigits (by decide) (by decide) hc
  simp [natural, ofNat, hall, Nat.toDigits_ne_nil]

/-- Whether a value can be a key.  Python raises on a list and on a dictionary. -/
def isHashable : Json → Bool
  | .arr _ | .obj _ => false
  | _ => true

end Json

/-- Functions of Python's standard library. -/
structure Library where
  /-- `json.loads`, unless it raises. -/
  loads : String → Option Json
  /-- `int` of a text, unless it raises. -/
  int : String → Option ℤ
  /-- `str.isspace` of a character, which is `\s` of a pattern. -/
  isSpace : Char → Bool
  /-- `str.isalnum` of a character. -/
  isAlnum : Char → Bool

namespace Library

variable (py : Library)

/-- `\w` of a pattern. -/
def isWord (c : Char) : Bool := py.isAlnum c || c == '_'

/-- `bool(s.strip())`. -/
def nonBlank (s : String) : Bool := s.toList.any fun c => !py.isSpace c

/-- `int(s.split(sep)[1])`. -/
def intAfter (sep : Char) (s : String) : Option ℤ := do
  let piece ← (s.toList.splitOn sep)[1]?
  py.int (String.ofList piece)

end Library

end Aicv.Python
