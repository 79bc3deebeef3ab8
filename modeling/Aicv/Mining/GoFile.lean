import Aicv.Mining.GoMod

/-!
# `go.mod` files

A `File` is a text by its line forms: directives, requirements, blocks, and blank lines,
each with any white space and any comment.  `direct` is what it requires directly, which is
the requirements without the mark of an indirect one.
-/

namespace Aicv.Mining.GoMod

open Python Text

/-! ## Lines -/

/-- A line of a file, without its end. -/
structure Line where
  raw : List Char
  crlf : Bool
  noFeed : '\n' ∉ raw

namespace Line

/-- The line with its end. -/
def text (l : Line) : List Char := l.raw ++ (if l.crlf then ['\r', '\n'] else ['\n'])

/-- The comment marks an indirect requirement: it is `indirect`, alone or followed by `;`. -/
def marked (l : Line) : Bool :=
  match comment l.raw with
  | none => false
  | some c => strip c = indirectWord || (indirectWord ++ [';']).isPrefixOf (strip c)

end Line

/-! ## Line forms -/

/-- What stands between the two sides of a replacement. -/
def arrow : List Char := "=>".toList

/-- A text without the characters that have a meaning of their own. -/
def IsBare (v : List Char) : Prop :=
  v ≠ [] ∧ v ≠ arrow ∧ v.all (· ∉ ['(', ')', '[', ']', '{', '}', ',', '"', '\x60']) = true

instance (v : List Char) : Decidable (IsBare v) := inferInstanceAs (Decidable (_ ∧ _ ∧ _))

/-- A path or a version, which may be quoted. -/
structure Name where
  text : List Char
  value : List Char
  isBare : IsBare value
  spelled : text = value ∨ text = '"' :: (value ++ ['"']) ∨ text = '\x60' :: (value ++ ['\x60'])

/-- A requirement, behind the words `lead`. -/
structure Entry (lead : List (List Char)) where
  line : Line
  path : Name
  version : Name
  tokens_eq : tokens line.raw = lead ++ [path.text, version.text]

/-- The other directives. -/
inductive Keyword where
  | module
  | go
  | toolchain
  | exclude
  | replace
  | retract
deriving DecidableEq

/-- The word of a directive. -/
def Keyword.word : Keyword → List Char
  | .module => "module".toList
  | .go => "go".toList
  | .toolchain => "toolchain".toList
  | .exclude => "exclude".toList
  | .replace => "replace".toList
  | .retract => "retract".toList

/-- The directive may have a block. -/
def Keyword.hasBlock : Keyword → Bool
  | .exclude | .replace | .retract => true
  | _ => false

/-- An argument is no arrow and has no parentheses. -/
def IsArg (w : List Char) : Prop := w ≠ arrow ∧ '(' ∉ w ∧ ')' ∉ w

instance (w : List Char) : Decidable (IsArg w) := inferInstanceAs (Decidable (_ ∧ _ ∧ _))

/-- The arguments of a directive. -/
inductive Args : Keyword → List (List Char) → Prop where
  | module {p : List Char} : IsArg p → Args .module [p]
  | go {v : List Char} : IsArg v → Args .go [v]
  | toolchain {v : List Char} : IsArg v → Args .toolchain [v]
  | exclude {p v : List Char} : IsArg p → IsArg v → Args .exclude [p, v]
  | replace {p : List Char} {target : List (List Char)} :
      IsArg p → (∀ w ∈ target, IsArg w) → target ≠ [] → Args .replace (p :: arrow :: target)
  | replaceVersion {p v : List Char} {target : List (List Char)} :
      IsArg p → IsArg v → (∀ w ∈ target, IsArg w) → target ≠ [] →
      Args .replace (p :: v :: arrow :: target)
  | retract {v : List Char} : IsArg v → Args .retract [v]
  /-- The range `[low, high]`, with or without white space in it. -/
  | retractRange {w : List Char} {ws : List (List Char)} :
      (∀ u ∈ ('[' :: w) :: ws, IsArg u) → Args .retract (('[' :: w) :: ws)

/-- A line of a block of another directive. -/
structure Spec (k : Keyword) where
  line : Line
  args : List (List Char)
  isArgs : Args k args
  tokens_eq : tokens line.raw = args

/-- A line in a block. -/
inductive Row (α : Type) where
  | blank (line : Line) (tokens_eq : tokens line.raw = [])
  | spec (a : α)

/-- A block. -/
structure Block (keyword : List Char) (α : Type) where
  opening : Line
  opens : Opens keyword (tokens opening.raw)
  rows : List (Row α)
  closing : Line
  closes : tokens closing.raw = [[')']]

/-- A part of a file. -/
inductive Item where
  /-- A line with nothing but a comment, if that. -/
  | blank (line : Line) (tokens_eq : tokens line.raw = [])
  | directive (k : Keyword) (line : Line) (args : List (List Char)) (isArgs : Args k args)
      (tokens_eq : tokens line.raw = k.word :: args)
  | require (e : Entry [requireWord])
  | requireBlock (b : Block requireWord (Entry []))
  | block (k : Keyword) (hasBlock : k.hasBlock = true) (b : Block k.word (Spec k))

/-- A file.  The last line may have no end. -/
structure File where
  items : List Item
  ended : Bool

/-! ## The text of a file -/

/-- The lines of a row. -/
def Row.line {α : Type} (f : α → Line) : Row α → Line
  | .blank l _ => l
  | .spec a => f a

/-- The lines of a block. -/
def Block.lines {keyword : List Char} {α : Type} (f : α → Line) (b : Block keyword α) :
    List Line :=
  b.opening :: (b.rows.map (Row.line f) ++ [b.closing])

/-- The lines of a part. -/
def Item.lines : Item → List Line
  | .blank l _ => [l]
  | .directive _ l _ _ _ => [l]
  | .require e => [e.line]
  | .requireBlock b => b.lines Entry.line
  | .block _ _ b => b.lines Spec.line

/-- The text of lines. -/
def joinLines (ended : Bool) : List Line → List Char
  | [] => []
  | [l] => if ended then l.text else l.raw
  | l :: ls => l.text ++ joinLines ended ls

/-- The text of a file. -/
def File.text (m : File) : String :=
  String.ofList (joinLines m.ended (m.items.flatMap Item.lines))

/-! ## What a file requires directly -/

/-- The pairs of a row. -/
def Row.pairs {α : Type} (f : α → List (String × String)) : Row α → List (String × String)
  | .blank _ _ => []
  | .spec a => f a

/-- The pair of a requirement, if it is direct. -/
def Entry.dep {lead : List (List Char)} (e : Entry lead) : List (String × String) :=
  if e.line.marked then []
  else [(String.ofList e.path.value, String.ofList e.version.value)]

/-- The pairs of a part. -/
def Item.direct : Item → List (String × String)
  | .require e => e.dep
  | .requireBlock b => b.rows.flatMap (Row.pairs Entry.dep)
  | _ => []

/-- The pairs of a file. -/
def File.direct (m : File) : List (String × String) := m.items.flatMap Item.direct

end Aicv.Mining.GoMod
