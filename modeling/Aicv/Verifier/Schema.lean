import Aicv.Go.Strings

/-!
# Diagnostics

`Diagnostic` is what the verifier reports of a compiler message, and `Message` the
message itself, as rustc writes it into its JSON output.  Both are trees.  A message
is over the type of its spans, since rustc writes more about a span than the verifier
reads: `RustSpan` has the fields the verifier decodes and `RustcSpan` also the
applicability of the suggested replacement.

`Message.induction` is the induction over messages.  `Message.nodes` are the messages
of a tree in pre-order.
-/

namespace Aicv.Verifier

open Go

/-- `verifier.Span`. -/
structure Span where
  file : Bytes
  lineStart : ℤ
  lineEnd : ℤ
  colStart : ℤ
  colEnd : ℤ
  byteStart : ℤ
  byteEnd : ℤ
  label : Bytes
  primary : Bool
deriving DecidableEq, Repr

/-- `verifier.Diagnostic`. -/
structure Diagnostic where
  code : Bytes
  level : Bytes
  message : Bytes
  spans : List Span
  suggestions : List Bytes
  children : List Diagnostic

/-- `rustSpan`. -/
structure RustSpan where
  fileName : Bytes
  byteStart : ℤ
  byteEnd : ℤ
  lineStart : ℤ
  lineEnd : ℤ
  columnStart : ℤ
  columnEnd : ℤ
  isPrimary : Bool
  label : Bytes
  suggestedReplacement : Option Bytes
deriving DecidableEq, Repr

/-- The `suggestion_applicability` of rustc. -/
inductive Applicability where
  | machineApplicable
  | maybeIncorrect
  | hasPlaceholders
  | unspecified
deriving DecidableEq, Repr

/-- A span as rustc writes it. -/
structure RustcSpan extends RustSpan where
  suggestionApplicability : Option Applicability
deriving DecidableEq, Repr

/-- `rustMessage`, over its spans.  `code` is the code within `rustCode`. -/
structure Message (σ : Type) where
  code : Option Bytes
  level : Bytes
  message : Bytes
  spans : List σ
  children : List (Message σ)

namespace Message

variable {σ τ : Type}

/-- The induction over messages. -/
@[elab_as_elim]
theorem induction {P : Message σ → Prop}
    (mk : ∀ code level message spans children, (∀ c ∈ children, P c) →
      P (mk code level message spans children)) (m : Message σ) : P m := by
  refine @Message.rec σ P (fun cs => ∀ c ∈ cs, P c) mk ?_ ?_ m
  · exact List.forall_mem_nil P
  · exact fun _ _ hc hcs => List.forall_mem_cons.mpr ⟨hc, hcs⟩

mutual

/-- A message with its spans under a map. -/
def map (f : σ → τ) : Message σ → Message τ
  | mk code level message spans children =>
      mk code level message (spans.map f) (mapAll f children)

/-- `map`, on a list. -/
def mapAll (f : σ → τ) : List (Message σ) → List (Message τ)
  | [] => []
  | c :: cs => map f c :: mapAll f cs

end

mutual

/-- The messages of a tree in pre-order. -/
def nodes : Message σ → List (Message σ)
  | mk code level message spans children =>
      mk code level message spans children :: nodesAll children

/-- `nodes`, on a list. -/
def nodesAll : List (Message σ) → List (Message σ)
  | [] => []
  | c :: cs => nodes c ++ nodesAll cs

end

/-- The spans of a tree, own spans first. -/
def allSpans (m : Message σ) : List σ := m.nodes.flatMap spans

theorem mapAll_eq (f : σ → τ) : ∀ cs, mapAll f cs = cs.map (map f)
  | [] => rfl
  | c :: cs => congrArg (map f c :: ·) (mapAll_eq f cs)

theorem nodesAll_eq : ∀ cs : List (Message σ), nodesAll cs = cs.flatMap nodes
  | [] => rfl
  | c :: cs => congrArg (nodes c ++ ·) (nodesAll_eq cs)

theorem allSpans_mk (code : Option Bytes) (level message : Bytes) (spans : List σ)
    (children : List (Message σ)) :
    (mk code level message spans children).allSpans = spans ++ children.flatMap allSpans := by
  rw [allSpans, nodes, List.flatMap_cons, nodesAll_eq, List.flatMap_assoc]
  rfl

theorem allSpans_map (f : σ → τ) (m : Message σ) : (m.map f).allSpans = m.allSpans.map f := by
  induction m using induction with
  | mk code level message spans children ih =>
      rw [map, mapAll_eq, allSpans_mk, allSpans_mk, List.map_append, List.map_flatMap,
        List.flatMap_map]
      exact congrArg _ (List.flatMap_congr ih)

end Message

/-- What `json.Unmarshal` makes of a message: `rustMessage`. -/
abbrev RustMessage := Message RustSpan

/-- A message as rustc writes it. -/
abbrev RustcMessage := Message RustcSpan

/-- `json.Unmarshal` leaves out what `rustSpan` does not have. -/
def RustcMessage.decode (m : RustcMessage) : RustMessage := m.map RustcSpan.toRustSpan

end Aicv.Verifier
