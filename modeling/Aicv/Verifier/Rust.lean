import Mathlib.Data.List.Forall2
import Aicv.Verifier.Schema

/-!
# Diagnostics of rustc

`convertRust` makes a `Diagnostic` of a message and calls `collectSuggestions` at each
node, which walks the whole tree below.  The two recursions agree at every depth
(`convertRust_projects`): the suggestions of a node are its own and those of its
children.

The suggestions are the replacements that are not empty, whatever their applicability.
They are the machine-applicable ones if and only if these are the same
(`suggestions_applicable_iff`).

`ParseRust` reads one message a line.  No line has an effect on what another one
yields (`parseRust_lines`).
-/

namespace Aicv.Verifier

open Go

/-! ## Suggestions -/

/-- The replacement that a span adds to the suggestions. -/
def RustSpan.suggestion (sp : RustSpan) : Option Bytes := sp.suggestedReplacement.filter (· ≠ [])

mutual

/-- `collectSuggestions`. -/
def collectSuggestions : RustMessage → List Bytes
  | ⟨_, _, _, spans, children⟩ => spans.filterMap RustSpan.suggestion ++ collectAll children

/-- The loop of `collectSuggestions` over the children. -/
def collectAll : List RustMessage → List Bytes
  | [] => []
  | c :: cs => collectSuggestions c ++ collectAll cs

end

theorem collectAll_eq : ∀ cs, collectAll cs = cs.flatMap collectSuggestions
  | [] => rfl
  | c :: cs => congrArg (collectSuggestions c ++ ·) (collectAll_eq cs)

/-- The suggestions in pre-order. -/
theorem collectSuggestions_eq (m : RustMessage) :
    collectSuggestions m = m.allSpans.filterMap RustSpan.suggestion := by
  induction m using Message.induction with
  | mk code level message spans children ih =>
      rw [collectSuggestions, collectAll_eq, Message.allSpans_mk, List.filterMap_append,
        List.filterMap_flatMap]
      exact congrArg _ (List.flatMap_congr ih)

/-! ## Conversion -/

/-- The `Span` of a `rustSpan`. -/
def RustSpan.span (s : RustSpan) : Span where
  file := s.fileName
  lineStart := s.lineStart
  lineEnd := s.lineEnd
  colStart := s.columnStart
  colEnd := s.columnEnd
  byteStart := s.byteStart
  byteEnd := s.byteEnd
  label := s.label
  primary := s.isPrimary

mutual

/-- `convertRust`. -/
def convertRust : RustMessage → Diagnostic
  | ⟨code, level, message, spans, children⟩ => {
      level := level
      message := message
      code := code.getD []
      spans := spans.map RustSpan.span
      children := convertAll children
      suggestions := collectSuggestions ⟨code, level, message, spans, children⟩ }

/-- The loop of `convertRust` over the children. -/
def convertAll : List RustMessage → List Diagnostic
  | [] => []
  | c :: cs => convertRust c :: convertAll cs

end

theorem convertAll_eq : ∀ cs, convertAll cs = cs.map convertRust
  | [] => rfl
  | c :: cs => congrArg (convertRust c :: ·) (convertAll_eq cs)

theorem suggestions_convertRust (m : RustMessage) :
    (convertRust m).suggestions = collectSuggestions m := by
  cases m
  rfl

/-- A span with every field of a `rustSpan` in its counterpart. -/
structure Carries (s : RustSpan) (sp : Span) : Prop where
  file : sp.file = s.fileName
  lineStart : sp.lineStart = s.lineStart
  lineEnd : sp.lineEnd = s.lineEnd
  colStart : sp.colStart = s.columnStart
  colEnd : sp.colEnd = s.columnEnd
  byteStart : sp.byteStart = s.byteStart
  byteEnd : sp.byteEnd = s.byteEnd
  label : sp.label = s.label
  primary : sp.primary = s.isPrimary

/-- The replacements of spans that are not empty, in order. -/
def replacements (spans : List RustSpan) : List Bytes :=
  (spans.filterMap (·.suggestedReplacement)).filter (· ≠ [])

/-- A diagnostic is a faithful projection of a message, at every node. -/
inductive Projects : RustMessage → Diagnostic → Prop where
  | mk {m : RustMessage} {d : Diagnostic} :
      d.level = m.level → d.message = m.message → d.code = m.code.getD [] →
      List.Forall₂ Carries m.spans d.spans →
      d.suggestions = replacements m.spans ++ d.children.flatMap (·.suggestions) →
      List.Forall₂ Projects m.children d.children → Projects m d

theorem carries_span (s : RustSpan) : Carries s s.span :=
  ⟨rfl, rfl, rfl, rfl, rfl, rfl, rfl, rfl, rfl⟩

theorem filterMap_suggestion (spans : List RustSpan) :
    spans.filterMap RustSpan.suggestion = replacements spans := by
  rw [replacements, List.filter_filterMap]
  rfl

/-- The diagnostic of a message has the shape of the message and its data at each node.
The suggestions of a node are its own followed by those of its children, and no
replacement of the tree is lost, duplicated or reordered. -/
theorem convertRust_projects (m : RustMessage) :
    Projects m (convertRust m) ∧ (convertRust m).suggestions = replacements m.allSpans := by
  have hall : (convertRust m).suggestions = m.allSpans.filterMap RustSpan.suggestion :=
    (suggestions_convertRust m).trans (collectSuggestions_eq m)
  refine ⟨?_, hall.trans (filterMap_suggestion m.allSpans)⟩
  clear hall
  induction m using Message.induction with
  | mk code level message spans children ih =>
      refine .mk rfl rfl rfl ?_ ?_ ?_
      · rw [convertRust, List.forall₂_map_right_iff]
        exact List.forall₂_same.mpr fun s _ => carries_span s
      · rw [← filterMap_suggestion]
        simp only [convertRust, collectSuggestions, collectAll_eq, convertAll_eq, List.flatMap_map,
          suggestions_convertRust]
      · rw [convertRust, convertAll_eq, List.forall₂_map_right_iff]
        exact List.forall₂_same.mpr ih

/-! ## Applicability -/

/-- The replacement of a span that rustc marks as machine-applicable. -/
def RustcSpan.applicable (sp : RustcSpan) : Option Bytes :=
  if sp.suggestionApplicability = some .machineApplicable then sp.suggestedReplacement else none

section
variable {α β : Type} {f g : α → Option β} {as : List α}

theorem length_filterMap_le (h : ∀ a ∈ as, ∀ b, f a = some b → g a = some b) :
    (as.filterMap f).length ≤ (as.filterMap g).length := by
  rw [List.length_filterMap_eq_countP, List.length_filterMap_eq_countP]
  refine List.countP_mono_left fun a ha hf => ?_
  obtain ⟨b, hb⟩ := Option.isSome_iff_exists.mp hf
  rw [h a ha b hb]
  rfl

/-- If whatever `f` selects `g` selects as well, then both select as many only if they
select the same. -/
theorem eq_of_length_filterMap (h : ∀ a ∈ as, ∀ b, f a = some b → g a = some b)
    (hlen : (as.filterMap f).length = (as.filterMap g).length) : ∀ a ∈ as, f a = g a := by
  induction as with
  | nil => exact List.forall_mem_nil _
  | cons a as ih =>
      obtain ⟨ha, has⟩ := List.forall_mem_cons.mp h
      have hle := length_filterMap_le has
      rw [List.filterMap_cons, List.filterMap_cons] at hlen
      cases hf : f a with
      | some b =>
          rw [hf, ha b hf] at hlen
          have hrest := ih has (Nat.succ.inj hlen)
          exact List.forall_mem_cons.mpr ⟨hf.trans (ha b hf).symm, hrest⟩
      | none =>
          cases hg : g a with
          | none =>
              rw [hf, hg] at hlen
              exact List.forall_mem_cons.mpr ⟨hf.trans hg.symm, ih has hlen⟩
          | some b =>
              rw [hf, hg] at hlen
              simp only [List.length_cons] at hlen
              omega

end

/-- The suggestion of a span is the machine-applicable one exactly if a replacement
is machine-applicable when it is not empty and only then. -/
theorem applicable_eq_iff (sp : RustcSpan) :
    sp.applicable = sp.toRustSpan.suggestion ↔
      ∀ r, sp.suggestedReplacement = some r →
        (sp.suggestionApplicability = some .machineApplicable ↔ r ≠ []) := by
  unfold RustcSpan.applicable RustSpan.suggestion
  cases sp.suggestedReplacement with
  | none => simp
  | some r =>
      by_cases hr : r = [] <;> by_cases happ : sp.suggestionApplicability = some .machineApplicable
      all_goals simp [hr, happ, Option.filter]

/-- The suggestions of a diagnostic are the machine-applicable replacements of the
message in pre-order if and only if the machine-applicable replacements are those that
are not empty. -/
theorem suggestions_applicable_iff (m : RustcMessage) :
    (convertRust m.decode).suggestions = m.allSpans.filterMap RustcSpan.applicable ↔
      ∀ sp ∈ m.allSpans, ∀ r, sp.suggestedReplacement = some r →
        (sp.suggestionApplicability = some .machineApplicable ↔ r ≠ []) := by
  rw [suggestions_convertRust, collectSuggestions_eq, RustcMessage.decode, Message.allSpans_map,
    List.filterMap_map]
  have hspan : (∀ sp ∈ m.allSpans, sp.applicable = sp.toRustSpan.suggestion) ↔
      ∀ sp ∈ m.allSpans, ∀ r, sp.suggestedReplacement = some r →
        (sp.suggestionApplicability = some .machineApplicable ↔ r ≠ []) :=
    forall₂_congr fun sp _ => applicable_eq_iff sp
  rw [← hspan]
  constructor
  · intro h
    refine eq_of_length_filterMap (fun sp hsp r hr => ?_) (congrArg List.length h.symm)
    -- a deletion is in the one list and cannot be in the other
    have hmem : r ∈ m.allSpans.filterMap (RustSpan.suggestion ∘ RustcSpan.toRustSpan) :=
      h ▸ List.mem_filterMap.mpr ⟨sp, hsp, hr⟩
    obtain ⟨sp', -, hr'⟩ := List.mem_filterMap.mp hmem
    have hne : r ≠ [] := by simpa using (Option.filter_eq_some_iff.mp hr').2
    have hrep : sp.suggestedReplacement = some r := by
      unfold RustcSpan.applicable at hr
      split at hr
      next => exact hr
      next => cases hr
    exact Option.filter_eq_some_iff.mpr ⟨hrep, by simpa using hne⟩
  · intro h
    exact List.filterMap_congr fun sp hsp => (h sp hsp).symm

/-- A replacement that may be incorrect. -/
theorem not_suggestions_applicable : ¬ ∀ m : RustcMessage,
    (convertRust m.decode).suggestions = m.allSpans.filterMap RustcSpan.applicable := by
  intro h
  let sp : RustcSpan := {
    fileName := utf8 "src/main.rs", byteStart := 16, byteEnd := 17, lineStart := 1, lineEnd := 1
    columnStart := 17, columnEnd := 18, isPrimary := true, label := []
    suggestedReplacement := some (utf8 "_x"), suggestionApplicability := some .maybeIncorrect }
  have := h ⟨none, utf8 "warning", utf8 "unused variable", [sp], []⟩
  revert this
  decide

/-! ## The output of a build -/

/-- `rustLine`. -/
structure RustLine where
  reason : Bytes
  message : Option RustMessage

section
variable (unmarshal : Bytes → Option RustLine)

/-- The body of the loop of `ParseRust`, over `json.Unmarshal`. -/
def parseLine (line : Bytes) : Option Diagnostic :=
  let line := trimSpace line
  if line.head? ≠ some 123 then none
  else
    match unmarshal line with
    | none => none
    | some rl =>
        match rl.message with
        | none => none
        | some m =>
            if rl.reason ≠ utf8 "compiler-message" then none
            else if m.level ≠ utf8 "error" ∧ m.level ≠ utf8 "warning" then none
            else some (convertRust m)

/-- `ParseRust`, whose error is always `nil`. -/
def parseRust (cargoJSON : Bytes) : List Diagnostic :=
  (cargoJSON.splitOn 10).filterMap (parseLine unmarshal)

/-- The record on a line: what is decoded of the trimmed line, if it begins as an
object does. -/
def record (line : Bytes) : Option RustLine :=
  if (trimSpace line).head? = some 123 then unmarshal (trimSpace line) else none

/-- A compiler message of level error or warning. -/
def RustLine.isReport (rl : RustLine) : Bool :=
  rl.reason == utf8 "compiler-message" &&
    rl.message.any fun m => m.level == utf8 "error" || m.level == utf8 "warning"

theorem isSome_parseLine (line : Bytes) :
    (parseLine unmarshal line).isSome = (record unmarshal line).any RustLine.isReport := by
  unfold parseLine record
  by_cases hhead : (trimSpace line).head? = some 123
  · cases hrl : unmarshal (trimSpace line) with
    | none => simp [hhead, hrl]
    | some rl =>
        cases hm : rl.message with
        | none => simp [hhead, hrl, hm, RustLine.isReport]
        | some m =>
            by_cases hreason : rl.reason = utf8 "compiler-message"
            · by_cases hlevel : m.level = utf8 "error" ∨ m.level = utf8 "warning"
              · simp [hhead, hrl, hm, hreason, hlevel, not_and_or.mpr, RustLine.isReport]
              · simp [hhead, hrl, hm, hreason, not_or.mp hlevel, RustLine.isReport]
            · simp [hhead, hrl, hm, hreason, RustLine.isReport]
  · simp [hhead]

theorem parseRust_append (a b : Bytes) :
    parseRust unmarshal (a ++ 10 :: b) = parseRust unmarshal a ++ parseRust unmarshal b := by
  rw [parseRust, List.splitOn_append_cons_self, List.filterMap_append]
  rfl

theorem parseRust_line {line : Bytes} (h : 10 ∉ line) :
    parseRust unmarshal line = (parseLine unmarshal line).toList := by
  rw [parseRust, List.splitOn_eq_singleton h]
  cases hline : parseLine unmarshal line <;> simp [hline]

theorem parseRust_join {lines : List Bytes} (h : ∀ line ∈ lines, 10 ∉ line) :
    parseRust unmarshal ([10].intercalate lines) = lines.filterMap (parseLine unmarshal) := by
  by_cases hne : lines = []
  · subst hne
    exact parseRust_line unmarshal List.not_mem_nil
  · rw [parseRust, List.splitOn_intercalate 10 h hne]

theorem length_parseRust_join {lines : List Bytes} (h : ∀ line ∈ lines, 10 ∉ line) :
    (parseRust unmarshal ([10].intercalate lines)).length =
      lines.countP fun line => (record unmarshal line).any RustLine.isReport := by
  rw [parseRust_join unmarshal h, List.length_filterMap_eq_countP]
  exact List.countP_congr fun line _ => by rw [isSome_parseLine]

/-- The diagnostics of several lines are those of each line by itself, in order, and
as many as there are lines with a compiler message of level error or warning.  Texts
joined by a newline are read apart.  If `json.Unmarshal` finds a compiler message in
objects only, the lines that count are those of which it decodes one. -/
theorem parseRust_lines {lines : List Bytes} (h : ∀ line ∈ lines, 10 ∉ line) :
    parseRust unmarshal ([10].intercalate lines) = lines.flatMap (parseRust unmarshal) ∧
      (parseRust unmarshal ([10].intercalate lines)).length =
        lines.countP (fun line => (record unmarshal line).any RustLine.isReport) ∧
      ((∀ text, (unmarshal text).any RustLine.isReport → text.head? = some 123) →
        (parseRust unmarshal ([10].intercalate lines)).length =
          lines.countP fun line => (unmarshal (trimSpace line)).any RustLine.isReport) ∧
      ∀ a b, parseRust unmarshal (a ++ 10 :: b) =
        parseRust unmarshal a ++ parseRust unmarshal b := by
  have hcount := length_parseRust_join unmarshal h
  refine ⟨?_, hcount, fun hobj => hcount.trans ?_, parseRust_append unmarshal⟩
  · rw [parseRust_join unmarshal h, List.filterMap_eq_flatMap_toList]
    exact List.flatMap_congr fun line hline => (parseRust_line unmarshal (h line hline)).symm
  · refine List.countP_congr fun line _ => ?_
    unfold record
    by_cases hhead : (trimSpace line).head? = some 123
    · rw [if_pos hhead]
    · rw [if_neg hhead]
      exact ⟨nofun, fun hreport => absurd (hobj _ hreport) hhead⟩

end

/-- A message between a line that is no record and an empty one. -/
theorem parseRust_lines_three : ∃ (unmarshal : Bytes → Option RustLine) (lines : List Bytes),
    lines.length = 3 ∧ (parseRust unmarshal ([10].intercalate lines)).length = 1 := by
  let m : RustMessage := ⟨none, utf8 "error", utf8 "mismatched types", [], []⟩
  let object := utf8 ("\x7b\"reason\":\"compiler-message\",\"message\":\x7b\"code\":null," ++
    "\"level\":\"error\",\"message\":\"mismatched types\",\"spans\":[],\"children\":[]\x7d\x7d")
  let unmarshal (text : Bytes) : Option RustLine :=
    if text = object then some ⟨utf8 "compiler-message", some m⟩ else none
  let lines := [utf8 "warning: x", utf8 " " ++ object ++ utf8 "\r", []]
  have hlines : ∀ line ∈ lines, 10 ∉ line := by decide +kernel
  obtain ⟨-, hcount, -, -⟩ := parseRust_lines unmarshal hlines
  refine ⟨unmarshal, lines, rfl, hcount.trans ?_⟩
  decide +kernel

end Aicv.Verifier
