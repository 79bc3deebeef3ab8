import Aicv.Text.Pattern
import Aicv.Verifier.Schema

/-!
# Diagnostics of the Go compiler

`ParseGo` finds the lines of the form `file:line:col: message` in the output of the
compiler.  The file is the shortest text that leaves a position behind it, so that a
message may quote other positions.

`parseGo_text` is the round trip: the diagnostics written on lines are read back from
them, between lines without a position.
-/

namespace Aicv.Verifier

open Go Text Pattern

/-! ## The parser -/

/-- `\s` of a pattern. -/
def isBlank (b : UInt8) : Bool := b == 9 || b == 10 || b == 12 || b == 13 || b == 32

/-- `.` of a pattern.  No byte of a character of several bytes is a colon or a
newline, so that bytes may stand for characters here. -/
def isAny (b : UInt8) : Bool := b != 10

/-- The byte `b`. -/
def byte (b : UInt8) : Pattern UInt8 := one (· == b)

/-- `goDiagRe` behind the file. -/
def goPosition : Pattern UInt8 :=
  seq (byte 58) <| seq (group (plus isDigit)) <| seq (byte 58) <| seq (group (plus isDigit)) <|
    seq (byte 58) <| seq (many isBlank) <| seq (group (many isAny)) stop

/-- `goDiagRe`. -/
def goDiagRe : Pattern UInt8 := seq start <| seq (group (few isAny)) goPosition

/-- The diagnostic of a match. -/
def goDiagnostic (file : Bytes) (line col : ℤ) (message : Bytes) : Diagnostic where
  code := []
  level := utf8 "error"
  message := message
  spans := [{
    file := file, lineStart := line, lineEnd := line, colStart := col, colEnd := col
    byteStart := 0, byteEnd := 0, label := [], primary := true }]
  suggestions := []
  children := []

/-- The body of the loop of `ParseGo`. -/
def parseGoLine (line : Bytes) : Option Diagnostic :=
  match goDiagRe.find none (trimSpace line) with
  | some [file, lineNo, col, message] => some (goDiagnostic file (atoi lineNo) (atoi col) message)
  | _ => none

/-- `ParseGo`, whose error is always `nil`. -/
def parseGo (stderr : Bytes) : List Diagnostic := (stderr.splitOn 10).filterMap parseGoLine

/-! ## Lines -/

/-- A position, as the compiler writes it behind a file. -/
def position (line col : Bytes) : Bytes := 58 :: line ++ 58 :: col ++ [58]

/-- A text has a position in it. -/
def HasPosition (s : Bytes) : Prop :=
  ∃ line col, line ≠ [] ∧ col ≠ [] ∧ line.all isDigit = true ∧ col.all isDigit = true ∧
    position line col <:+: s

/-- What the compiler reports. -/
structure GoError where
  file : Bytes
  line : ℕ
  col : ℕ
  message : Bytes
  file_line : 10 ∉ file
  file_colon : 58 ∉ file
  file_start : NoStart spaces file
  line_lt : line < 2 ^ 63
  col_lt : col < 2 ^ 63
  message_line : 10 ∉ message
  message_start : NoStart spaces message
  message_end : NoEnd spaces message

/-- A line without a position. -/
structure Noise where
  text : Bytes
  text_line : 10 ∉ text
  no_position : ¬ HasPosition text

/-- A line of output. -/
inductive GoLine where
  | error (e : GoError)
  | noise (n : Noise)

/-- `file:line:col: message`. -/
def GoError.text (e : GoError) : Bytes :=
  e.file ++ position (decimal e.line) (decimal e.col) ++ 32 :: e.message

def GoError.diagnostic (e : GoError) : Diagnostic := goDiagnostic e.file e.line e.col e.message

def GoLine.text : GoLine → Bytes
  | error e => e.text
  | noise n => n.text

def GoLine.diagnostic : GoLine → Option Diagnostic
  | error e => some e.diagnostic
  | noise _ => none

/-! ## Reading a line -/

theorem isAny_of_not_mem {s : Bytes} (h : 10 ∉ s) : ∀ b ∈ s, isAny b = true := by
  rintro b hb
  rw [isAny, bne_iff_ne]
  rintro rfl
  exact h hb

/-- Text without white space at its start has no `\s` there. -/
theorem isBlank_head {s : Bytes} (h : NoStart spaces s) : ∀ b ∈ s.head?, isBlank b = false := by
  intro b hb
  obtain ⟨t, rfl⟩ := List.head?_eq_some_iff.mp hb
  rw [Bool.eq_false_iff]
  intro hblank
  have hmem : b ∈ [9, 10, 12, 13, 32] := by simpa [isBlank, or_assoc] using hblank
  have hall : (([9, 10, 12, 13, 32] : Bytes).all fun b => [b] ∈ spaces) = true := by decide
  have hspace := of_decide_eq_true (List.all_eq_true.mp hall b hmem)
  exact h [b] hspace ⟨t, rfl⟩

/-- The position behind a file is read as it is written, and the rest is the
message. -/
theorem goPosition_leads (prev : Option UInt8) (gs : List Bytes) {line col gap message : Bytes}
    (hline : line ≠ []) (hcol : col ≠ []) (hline' : line.all isDigit = true)
    (hcol' : col.all isDigit = true) (hgap : ∀ b ∈ gap, isBlank b = true)
    (hmsg : 10 ∉ message) (hstart : NoStart spaces message) :
    ∃ prev', Leads goPosition
      ⟨prev, 58 :: (line ++ 58 :: (col ++ 58 :: (gap ++ message))), gs⟩
      ⟨prev', [], gs ++ [line] ++ [col] ++ [message]⟩ := by
  rw [List.all_eq_true] at hline' hcol'
  apply Exists.intro
  refine .seq (.one (by decide)) ?_
  refine .seq (.group (.plus hline hline' (by simp; decide))) ?_
  refine .seq (.one (by decide)) ?_
  refine .seq (.group (.plus hcol hcol' (by simp; decide))) ?_
  refine .seq (.one (by decide)) ?_
  refine .seq (.many hgap (isBlank_head hstart)) ?_
  exact .seq (.group_rest (isAny_of_not_mem hmsg)) (.look (by rfl))

/-- The file ends at the first colon. -/
theorem find_goDiagRe {file line col gap message : Bytes} (hfile : 10 ∉ file)
    (hcolon : 58 ∉ file) (hline : line ≠ []) (hcol : col ≠ []) (hline' : line.all isDigit = true)
    (hcol' : col.all isDigit = true) (hgap : ∀ b ∈ gap, isBlank b = true)
    (hmsg : 10 ∉ message) (hstart : NoStart spaces message) :
    goDiagRe.find none (file ++ 58 :: (line ++ 58 :: (col ++ 58 :: (gap ++ message)))) =
      some [file, line, col, message] := by
  obtain ⟨prev, hlead⟩ := goPosition_leads (after none file) [file] hline hcol
    hline' hcol' hgap hmsg hstart
  generalize htail : line ++ 58 :: (col ++ 58 :: (gap ++ message)) = tail at hlead ⊢
  have hrun : run (seq (group (few isAny)) goPosition) some ⟨none, file ++ 58 :: tail, []⟩ =
      some ⟨prev, [], [file, line, col, message]⟩ := by
    rw [run, run, run, lazily_append (isAny_of_not_mem hfile)]
    · exact lazily_first (by simpa using hlead.run)
    · -- no position begins within the file
      rintro u b v rfl
      have hb : b ≠ 58 := by
        rintro rfl
        exact hcolon (by simp)
      simp [goPosition, byte, run, hb]
  rw [goDiagRe, find_start, hrun]
  rfl

theorem find_noise {s : Bytes} (h : ¬ HasPosition s) : goDiagRe.find none s = none := by
  rw [Option.eq_none_iff_forall_ne_some]
  intro gs hgs
  rw [goDiagRe, find_start, Option.map_eq_some_iff] at hgs
  obtain ⟨d, hrun, -⟩ := hgs
  obtain ⟨e, hmatch, -⟩ := exists_of_run hrun
  obtain ⟨c₁, hfile, hmatch⟩ := hmatch.of_seq
  obtain ⟨c₂, hcolon₁, hmatch⟩ := hmatch.of_seq
  obtain ⟨c₃, hline, hmatch⟩ := hmatch.of_seq
  obtain ⟨c₄, hcolon₂, hmatch⟩ := hmatch.of_seq
  obtain ⟨c₅, hcol, hmatch⟩ := hmatch.of_seq
  obtain ⟨c₆, hcolon₃, -⟩ := hmatch.of_seq
  obtain ⟨file, hfile, -⟩ := hfile.exists_rest
  obtain ⟨_, hb₁, hcolon₁⟩ := hcolon₁.of_one
  obtain ⟨_, hb₂, hcolon₂⟩ := hcolon₂.of_one
  obtain ⟨_, hb₃, hcolon₃⟩ := hcolon₃.of_one
  obtain ⟨line, hne, hdigits, hline⟩ := hline.of_group_plus
  obtain ⟨col, hne', hdigits', hcol⟩ := hcol.of_group_plus
  obtain rfl := beq_iff_eq.mp hb₁
  obtain rfl := beq_iff_eq.mp hb₂
  obtain rfl := beq_iff_eq.mp hb₃
  refine h ⟨line, col, hne, hne', List.all_eq_true.mpr hdigits, List.all_eq_true.mpr hdigits',
    file, c₆.rest, ?_⟩
  have hs : s = _ := hfile
  rw [hs, hcolon₁, hline, hcolon₂, hcol, hcolon₃]
  simp [position]

/-! ## The round trip -/

/-- Trimming removes the blank in front of a message that is empty. -/
theorem exists_trimSpace_text (e : GoError) : ∃ gap : Bytes, (∀ b ∈ gap, isBlank b = true) ∧
    trimSpace e.text =
      e.file ++ 58 :: (decimal e.line ++ 58 :: (decimal e.col ++ 58 :: (gap ++ e.message))) := by
  have hcolon : Alone spaces 58 := alone_ascii (by decide)
  have hblank : Alone spaces 32 := alone_ascii (by decide)
  have hstart (t : Bytes) : NoStart spaces (e.file ++ 58 :: t) :=
    noStart_append e.file_start hcolon (by decide)
  by_cases hmsg : e.message = []
  · refine ⟨[], List.forall_mem_nil _, ?_⟩
    have htext : e.text =
        (e.file ++ 58 :: (decimal e.line ++ 58 :: decimal e.col ++ [58])) ++ [32] := by
      simp [GoError.text, position, hmsg]
    rw [htext, trimSpace_concat _ (by decide) (by decide), trimSpace_eq_self (hstart _)]
    · simp [hmsg]
    · have hend : NoEnd spaces (e.file ++ 58 :: (decimal e.line ++ 58 :: decimal e.col) ++ [58]) :=
        noEnd_append (by decide) hcolon (.inr (by decide))
      simpa using hend
  · refine ⟨[32], List.forall_mem_singleton.mpr rfl, ?_⟩
    have htext : e.text =
        e.file ++ 58 :: (decimal e.line ++ 58 :: (decimal e.col ++ 58 :: ([32] ++ e.message))) := by
      simp [GoError.text, position]
    rw [htext, trimSpace_eq_self (hstart _)]
    have hend : NoEnd spaces ((e.file ++ position (decimal e.line) (decimal e.col)) ++
        32 :: e.message) := noEnd_append e.message_end hblank (.inl hmsg)
    simpa [position] using hend

theorem parseGoLine_error (e : GoError) : parseGoLine e.text = some e.diagnostic := by
  obtain ⟨gap, hgap, htrim⟩ := exists_trimSpace_text e
  rw [parseGoLine, htrim, find_goDiagRe e.file_line e.file_colon (decimal_ne_nil _)
    (decimal_ne_nil _) (all_isDigit_decimal _) (all_isDigit_decimal _) hgap e.message_line
    e.message_start]
  simp only [atoi_decimal e.line_lt, atoi_decimal e.col_lt, GoError.diagnostic]

theorem parseGoLine_noise (n : Noise) : parseGoLine n.text = none := by
  have hnone : ¬ HasPosition (trimSpace n.text) := by
    rintro ⟨line, col, hline, hcol, hline', hcol', hinfix⟩
    exact n.no_position
      ⟨line, col, hline, hcol, hline', hcol', hinfix.trans (trimSpace_isInfix n.text)⟩
  rw [parseGoLine, find_noise hnone]

theorem parseGoLine_text : ∀ l : GoLine, parseGoLine l.text = l.diagnostic
  | .error e => parseGoLine_error e
  | .noise n => parseGoLine_noise n

theorem newline_not_mem_text : ∀ l : GoLine, 10 ∉ l.text
  | .noise n => n.text_line
  | .error e => by
      have hdigits (n : ℕ) : 10 ∉ decimal n := fun h =>
        absurd (List.all_eq_true.mp (all_isDigit_decimal n) 10 h) (by decide)
      simp [GoLine.text, GoError.text, position, e.file_line, e.message_line, hdigits]

/-- The end of a line. -/
def eol (crlf : Bool) : Bytes := if crlf then [13, 10] else [10]

/-- A carriage return at the end of a line is trimmed. -/
theorem parseGo_eol (crlf : Bool) {line : Bytes} (h : 10 ∉ line) (rest : Bytes) :
    parseGo (line ++ eol crlf ++ rest) = (parseGoLine line).toList ++ parseGo rest := by
  have hcr : parseGoLine (line ++ [13]) = parseGoLine line := by
    rw [parseGoLine, trimSpace_concat _ (by decide) (by decide), parseGoLine]
  cases crlf with
  | false =>
      rw [parseGo, eol, if_neg Bool.false_ne_true, List.append_assoc, List.singleton_append,
        List.splitOn_append_cons_self_of_not_mem h, List.filterMap_cons]
      cases parseGoLine line <;> rfl
  | true =>
      have hsplit : line ++ eol true ++ rest = (line ++ [13]) ++ 10 :: rest := by simp [eol]
      have hmem : 10 ∉ line ++ [13] := by simp [h]
      rw [parseGo, hsplit, List.splitOn_append_cons_self_of_not_mem hmem, List.filterMap_cons, hcr]
      cases parseGoLine line <;> rfl

/-- The diagnostics written on lines are read back from them in order, with either end
of line, and nothing is read from the lines without a position. -/
theorem parseGo_text (crlf : Bool) (lines : List GoLine) :
    parseGo ((eol crlf).intercalate (lines.map GoLine.text)) =
      lines.filterMap GoLine.diagnostic := by
  induction lines with
  | nil => rfl
  | cons l lines ih =>
      have hl := newline_not_mem_text l
      cases lines with
      | nil =>
          rw [List.map_singleton, List.intercalate_singleton, parseGo,
            List.splitOn_eq_singleton hl, List.filterMap_cons, parseGoLine_text,
            List.filterMap_cons]
          rfl
      | cons l' lines =>
          rw [List.map_cons, List.map_cons, List.intercalate_cons_cons, parseGo_eol crlf hl,
            ← List.map_cons, ih, parseGoLine_text, List.filterMap_cons (a := l)]
          cases l.diagnostic <;> rfl

/-- A message that quotes another position. -/
example : (parseGo (utf8 "# aicv\n./main.go:12:15: x redeclared, see 1:2:3:4:\r\n")).map
    (fun d => (d.message, d.spans.map fun s => (s.file, s.lineStart, s.colStart))) =
      [(utf8 "x redeclared, see 1:2:3:4:", [(utf8 "./main.go", 12, 15)])] := by
  decide +kernel

end Aicv.Verifier
