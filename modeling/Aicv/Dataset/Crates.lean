import Mathlib.Data.List.Count
import Mathlib.Data.String.Basic
import Aicv.Sequence.Collect
import Aicv.Text.Lines
import Aicv.Text.Pattern

/-!
# The crates of a source text

`DetectCrates` searches a whole text for `use` statements with one pattern, whose
white space runs across the ends of lines, and whose matches consume text.  A match
nevertheless is the `use` of one line, as long as no line is the bare word `use`, and
every such line is found (`mem_findAll_useStmt`).

`detectCrates_exact` says which crates are found, and that the manifest declares each
on one line.
-/

namespace Aicv.Dataset

open Text Pattern

/-! ## The search -/

/-- `\s` of a pattern. -/
def isBlank (c : Char) : Bool := c == '\t' || c == '\n' || c == '\x0c' || c == '\r' || c == ' '

/-- The first character of an identifier. -/
def isFirst (c : Char) : Bool := c.isAlpha || c == '_'

/-- The other characters of an identifier. -/
def isRest (c : Char) : Bool := c.isAlphanum || c == '_'

/-- `useStmt` behind the start of a line. -/
def useWord : Pattern Char :=
  seq (one (· == 'u')) <| seq (one (· == 's')) <| seq (one (· == 'e')) <| seq (plus isBlank) <|
    group (seq (one isFirst) (many isRest))

/-- `useStmt`. -/
def useStmt : Pattern Char := seq (lineStart (· == '\n')) <| seq (many isBlank) useWord

/-- The names that are no external crates. -/
def builtins : List String := ["std", "core", "alloc", "crate", "self", "super"]

/-- The body of the loop of `DetectCrates`.  The crates found so far are those seen. -/
def addCrate (crates : List String) (c : String) : List String :=
  if c ∈ builtins ∨ c ∈ crates then crates else crates ++ [c]

/-- The first group of each match. -/
def useNames (src : String) : List String :=
  (useStmt.findAll 0 none src.toList).map fun m => String.ofList (m.headD [])

/-- `DetectCrates`. -/
def detectCrates (src : String) : List String :=
  Sequence.sortBy id ((useNames src).foldl addCrate [])

/-- The line of the manifest for a crate. -/
def dependency (c : String) : String := c ++ " = \"*\""

/-- The manifest without its dependencies. -/
def header : String :=
  "[package]\nname = \"submission\"\nversion = \"0.1.0\"\nedition = \"2021\"\n\n[dependencies]\n"

/-- `cargoToml`. -/
def cargoToml (crates : List String) : String :=
  crates.foldl (fun b c => b ++ dependency c ++ "\n") header

/-! ## Lines with a `use` statement -/

/-- The line is the word `use` and white space. -/
def Bare (line : List Char) : Prop :=
  ∃ w v, (∀ c ∈ w, isBlank c = true) ∧ (∀ c ∈ v, isBlank c = true) ∧
    line = w ++ 'u' :: 's' :: 'e' :: v

/-- The line is white space, `use`, white space, and then the identifier `c`, which
does not go on. -/
def Uses (line c : List Char) : Prop :=
  ∃ w v r, (∀ x ∈ w, isBlank x = true) ∧ v ≠ [] ∧ (∀ x ∈ v, isBlank x = true) ∧
    (∃ a t, c = a :: t ∧ isFirst a = true ∧ ∀ x ∈ t, isRest x = true) ∧
    (∀ x ∈ r.head?, isRest x = false) ∧ line = w ++ 'u' :: 's' :: 'e' :: (v ++ c ++ r)

theorem not_isBlank_of_isFirst {c : Char} (h : isFirst c = true) : isBlank c = false := by
  rw [Bool.eq_false_iff]
  intro hblank
  have hmem : c ∈ ['\t', '\n', '\x0c', '\r', ' '] := by simpa [isBlank, or_assoc] using hblank
  have hall : (['\t', '\n', '\x0c', '\r', ' '].all fun c => !isFirst c) = true := by decide
  have hnot := List.all_eq_true.mp hall c hmem
  rw [h] at hnot
  cases hnot

theorem isRest_of_isFirst {c : Char} (h : isFirst c = true) : isRest c = true := by
  simp only [isFirst, isRest, Char.isAlphanum, Bool.or_eq_true] at h ⊢
  exact h.imp_left .inl

theorem isRest_ne_newline {c : Char} (h : isRest c = true) : c ≠ '\n' := by
  rintro rfl
  exact absurd h (by decide)

section
variable {prev : Option Char} {line rest c : List Char}

/-- The start of a line, of the first one or behind a newline. -/
def AtLine (prev : Option Char) : Prop := prev.all (· == '\n') = true

theorem run_useStmt (h : AtLine prev) (s : List Char) :
    run useStmt some ⟨prev, s, []⟩ =
      greedy isBlank (fun prev s => run useWord some ⟨prev, s, []⟩) prev s := by
  have hline : (prev.all fun x => x == '\n') = true := h
  simp [useStmt, run, lineStart, hline]

theorem run_useStmt_of_not (h : ¬ AtLine prev) (s : List Char) :
    run useStmt some ⟨prev, s, []⟩ = none := by
  have hline : (prev.all fun x => x == '\n') = false := Bool.eq_false_iff.mpr h
  simp [useStmt, run, lineStart, hline]

theorem run_useWord_of_ne {a : Char} (h : a ≠ 'u') (s : List Char) :
    run useWord some ⟨prev, a :: s, []⟩ = none := by
  simp [useWord, run, h]

/-- Within a line there is no match. -/
theorem findAll_within {a : Char} (ha : a ≠ '\n') (hline : '\n' ∉ line) (s : List Char) :
    findAll useStmt 0 (some a) (line ++ s) = findAll useStmt 0 (after (some a) line) s := by
  refine findAll_append fun u b v huv => run_useStmt_of_not ?_ _
  rcases List.eq_nil_or_concat u with rfl | ⟨u, x, rfl⟩
  · simpa [AtLine] using ha
  · have hx : x ≠ '\n' := by
      rintro rfl
      exact hline (huv ▸ by simp)
    simpa [AtLine] using hx

/-- Where there is no match at the start of a line, there is none in the line. -/
theorem findAll_line {s : List Char} (hne : line ≠ []) (hline : '\n' ∉ line)
    (hrun : run useStmt some ⟨prev, line ++ s, []⟩ = none) :
    findAll useStmt 0 prev (line ++ s) = findAll useStmt 0 (after prev line) s := by
  cases line with
  | nil => exact absurd rfl hne
  | cons a line =>
      have ha : a ≠ '\n' := (List.ne_of_not_mem_cons hline).symm
      rw [List.cons_append] at hrun ⊢
      rw [findAll, hrun]
      exact findAll_within ha (List.not_mem_of_not_mem_cons hline) s

/-- Behind a line that is not empty the search goes on in the next line. -/
theorem findAll_newline (hne : line ≠ []) (hline : '\n' ∉ line) (rest : List Char) :
    findAll useStmt 0 (after prev line) ('\n' :: rest) = findAll useStmt 0 (some '\n') rest := by
  obtain ⟨x, hx, hafter⟩ := exists_after prev hne
  have hnewline : x ≠ '\n' := fun h => hline (h ▸ hx)
  have hline : ¬ AtLine (some x) := by simpa [AtLine] using hnewline
  rw [hafter, findAll, run_useStmt_of_not hline]

/-- What follows a line of a text: nothing, or the next line. -/
def Behind (s : List Char) : Prop := ∀ a ∈ s.head?, a = '\n'

/-- A line starts a text that does not go on with a newline. -/
theorem of_append_eq_cons {y s z : List Char} {a : Char} (hs : Behind s) (ha : a ≠ '\n')
    (h : y ++ s = a :: z) : ∃ y', y = a :: y' ∧ y' ++ s = z := by
  cases y with
  | nil =>
      rw [List.nil_append] at h
      subst h
      exact absurd (hs a rfl) ha
  | cons b y =>
      obtain ⟨rfl, hz⟩ := List.cons.inj h
      exact ⟨y, rfl, hz⟩

/-- The `use` statement of a line is the first choice of the search. -/
theorem useStmt_leads {s w v r t : List Char} {a : Char} (hprev : AtLine prev) (hs : Behind s)
    (hw : ∀ x ∈ w, isBlank x = true) (hne : v ≠ []) (hv : ∀ x ∈ v, isBlank x = true)
    (ha : isFirst a = true) (ht : ∀ x ∈ t, isRest x = true)
    (hr : ∀ x ∈ r.head?, isRest x = false) :
    ∃ prev', Leads useStmt
      ⟨prev, w ++ 'u' :: 's' :: 'e' :: (v ++ (a :: t ++ (r ++ s))), []⟩
      ⟨prev', r ++ s, [a :: t]⟩ := by
  have hend : ∀ x ∈ (r ++ s).head?, isRest x = false := by
    cases r with
    | nil =>
        intro x hx
        obtain rfl := hs x hx
        decide
    | cons b r => exact hr
  apply Exists.intro
  refine .seq (.look hprev) ?_
  refine .seq (.many hw (by simp; decide)) ?_
  refine .seq (.one (by decide)) ?_
  refine .seq (.one (by decide)) ?_
  refine .seq (.one (by decide)) ?_
  refine .seq (.plus hne hv (by simpa using not_isBlank_of_isFirst ha)) ?_
  exact .group (.seq (.one ha) (.many ht hend))

/-- A line that uses a crate is a match. -/
theorem findAll_uses {s : List Char} (hprev : AtLine prev) (hs : Behind s) (hline : '\n' ∉ line)
    (huse : Uses line c) :
    findAll useStmt 0 prev (line ++ s) = [c] :: findAll useStmt 0 (after prev line) s := by
  obtain ⟨w, v, r, hw, hne, hv, ⟨a, t, rfl, ha, ht⟩, hr, rfl⟩ := huse
  obtain ⟨prev', hlead⟩ := useStmt_leads hprev hs hw hne hv ha ht hr
  have htext : w ++ 'u' :: 's' :: 'e' :: (v ++ a :: t ++ r) ++ s =
      (w ++ 'u' :: 's' :: 'e' :: (v ++ a :: t)) ++ (r ++ s) := by simp
  have hrun : run useStmt some ⟨prev, (w ++ 'u' :: 's' :: 'e' :: (v ++ a :: t)) ++ (r ++ s), []⟩ =
      some ⟨prev', r ++ s, [a :: t]⟩ := by simpa using hlead.run
  obtain ⟨x, hx, hafter⟩ := exists_after (after prev (w ++ 'u' :: 's' :: 'e' :: v))
    (List.cons_ne_nil a t)
  have hxr : isRest x = true := by
    rcases List.mem_cons.mp hx with rfl | hx
    · exact isRest_of_isFirst ha
    · exact ht x hx
  have hafter' : after prev (w ++ 'u' :: 's' :: 'e' :: (v ++ a :: t)) = some x := by
    simpa using hafter
  have hr' : '\n' ∉ r := fun h => hline (by simp [h])
  rw [htext, findAll_match hrun rfl (by simp), hafter', findAll_within (isRest_ne_newline hxr) hr']
  simp [← hafter]

/-- The text of a match. -/
theorem exists_of_useStmt {s : List Char} {d : Cursor Char}
    (h : run useStmt some ⟨prev, s, []⟩ = some d) :
    ∃ w v a t, (∀ x ∈ w, isBlank x = true) ∧ v ≠ [] ∧ (∀ x ∈ v, isBlank x = true) ∧
      isFirst a = true ∧ s = w ++ 'u' :: 's' :: 'e' :: (v ++ a :: (t ++ d.rest)) := by
  obtain ⟨e, hmatch, hd⟩ := exists_of_run h
  obtain rfl := Option.some.inj hd
  obtain ⟨c₁, hline, hmatch⟩ := hmatch.of_seq
  obtain ⟨c₂, hblank, hmatch⟩ := hmatch.of_seq
  obtain ⟨c₃, hu, hmatch⟩ := hmatch.of_seq
  obtain ⟨c₄, hs, hmatch⟩ := hmatch.of_seq
  obtain ⟨c₅, he, hmatch⟩ := hmatch.of_seq
  obtain ⟨c₆, hplus, hname⟩ := hmatch.of_seq
  obtain ⟨c₇, hname, hend⟩ := hname.of_group
  obtain ⟨c₈, hfirst, hmany⟩ := hname.of_seq
  obtain rfl := hline.of_look
  obtain ⟨w, hw, hrest⟩ := hblank.of_many
  obtain ⟨_, hu, hrest₂⟩ := hu.of_one
  obtain ⟨_, hs, hrest₃⟩ := hs.of_one
  obtain ⟨_, he, hrest₄⟩ := he.of_one
  obtain ⟨v, hne, hv, hrest₅⟩ := hplus.of_plus
  obtain ⟨a, ha, hrest₆⟩ := hfirst.of_one
  obtain ⟨t, -, hrest₇⟩ := hmany.of_many
  obtain rfl := beq_iff_eq.mp hu
  obtain rfl := beq_iff_eq.mp hs
  obtain rfl := beq_iff_eq.mp he
  refine ⟨w, v, a, t, hw, hne, hv, ha, ?_⟩
  rw [← hend, ← hrest₇, ← hrest₆, ← hrest₅, ← hrest₄, ← hrest₃, ← hrest₂, ← hrest]

/-- A line that is neither bare nor blank and uses no crate is no match. -/
theorem run_useStmt_line (prev : Option Char) {s : List Char} (hs : Behind s) (hbare : ¬ Bare line)
    (huse : ∀ c, ¬ Uses line c) (hblank : ¬ ∀ c ∈ line, isBlank c = true) :
    run useStmt some ⟨prev, line ++ s, []⟩ = none := by
  rw [Option.eq_none_iff_forall_ne_some]
  intro d hrun
  obtain ⟨w, v, a, t, hw, hne, hv, ha, htext⟩ := exists_of_useStmt hrun
  rcases List.append_eq_append_iff.mp htext with ⟨z, rfl, -⟩ | ⟨y, rfl, hy⟩
  · exact hblank fun c hc => hw c (List.mem_append_left z hc)
  · obtain ⟨y, rfl, hys⟩ := of_append_eq_cons (a := 'u') hs (by decide) hy.symm
    obtain ⟨y, rfl, hye⟩ := of_append_eq_cons (a := 's') hs (by decide) hys
    obtain ⟨y, rfl, hyv⟩ := of_append_eq_cons (a := 'e') hs (by decide) hye
    rcases List.append_eq_append_iff.mp hyv with ⟨z, rfl, -⟩ | ⟨z, rfl, hz⟩
    · exact hbare ⟨w, y, hw, fun c hc => hv c (List.mem_append_left z hc), rfl⟩
    · have hnewline : a ≠ '\n' := isRest_ne_newline (isRest_of_isFirst ha)
      obtain ⟨z, rfl, -⟩ := of_append_eq_cons hs hnewline hz.symm
      refine huse (a :: z.takeWhile isRest) ⟨w, v, z.dropWhile isRest, hw, hne, hv, ?_, ?_, ?_⟩
      · exact ⟨a, _, rfl, ha, List.all_eq_true.mp List.all_takeWhile⟩
      · intro x hx
        have := List.head?_dropWhile_not isRest z
        rw [hx] at this
        exact this
      · simp

/-- White space in front of a line has no effect on the match in it. -/
theorem run_useStmt_blank {t : List Char} (hprev : AtLine prev)
    (hall : ∀ c ∈ t, isBlank c = true) (hafter : after prev t = some '\n') (rest : List Char) :
    run useStmt some ⟨prev, t ++ rest, []⟩ = run useStmt some ⟨some '\n', rest, []⟩ := by
  have hnext : AtLine (some '\n') := rfl
  rw [run_useStmt hprev, run_useStmt hnext, greedy_append hall, hafter]
  rintro u a v rfl
  have ha : a ≠ 'u' := by
    rintro rfl
    exact absurd (hall 'u' (by simp)) (by decide)
  exact run_useWord_of_ne ha _

/-- A line of white space has no effect on the search in the next lines. -/
theorem findAll_blank (hprev : AtLine prev) (hline : '\n' ∉ line)
    (hblank : ∀ c ∈ line, isBlank c = true) (rest : List Char) :
    findAll useStmt 0 prev (line ++ '\n' :: rest) = findAll useStmt 0 (some '\n') rest := by
  generalize ht : line ++ ['\n'] = t
  have hafter : after prev t = some '\n' := by simp [← ht]
  have hall : ∀ c ∈ t, isBlank c = true := by
    rw [← ht]
    exact List.forall_mem_append.mpr ⟨hblank, List.forall_mem_singleton.mpr rfl⟩
  have hrun := run_useStmt_blank hprev hall hafter rest
  have htext : line ++ '\n' :: rest = t ++ rest := by simp [← ht]
  rw [htext]
  cases hr : run useStmt some ⟨some '\n', rest, []⟩ with
  | none =>
      rw [hr] at hrun
      by_cases hne : line = []
      · subst hne
        rw [← ht] at hrun ⊢
        rw [List.nil_append, List.singleton_append] at hrun ⊢
        rw [findAll, hrun]
      · rw [← htext] at hrun ⊢
        rw [findAll_line hne hline hrun, findAll_newline hne hline]
  | some d =>
      -- the same match, with the line before it
      obtain ⟨w, v, a, u, -, -, -, -, hd⟩ := exists_of_useStmt hr
      generalize hy : w ++ 'u' :: 's' :: 'e' :: (v ++ a :: u) = y
      have hne : y ≠ [] := by simp [← hy]
      have hrest : rest = y ++ d.rest := by simp [hd, ← hy]
      rw [hrest, ← List.append_assoc] at hrun ⊢
      rw [hrest] at hr
      rw [findAll_match (hrun.trans hr) rfl (by simp [hne]), findAll_match hr rfl hne, after_append,
        hafter]

/-- The matches that begin in a line are its `use` statement. -/
theorem mem_findAll_line (gs : List (List Char)) {s : List Char} (hprev : AtLine prev)
    (hs : Behind s) (hline : '\n' ∉ line) (hbare : ¬ Bare line)
    (hblank : ¬ ∀ c ∈ line, isBlank c = true) :
    gs ∈ findAll useStmt 0 prev (line ++ s) ↔
      (∃ c, Uses line c ∧ gs = [c]) ∨ gs ∈ findAll useStmt 0 (after prev line) s := by
  have hne : line ≠ [] := by
    rintro rfl
    exact hblank (List.forall_mem_nil _)
  by_cases huse : ∃ c, Uses line c
  · obtain ⟨c, hc⟩ := huse
    have hfound := findAll_uses hprev hs hline hc
    have honly : ∀ c', Uses line c' → c' = c := by
      intro c' hc'
      obtain ⟨hsame, -⟩ := List.cons.inj ((findAll_uses hprev hs hline hc').symm.trans hfound)
      exact List.singleton_inj.mp hsame
    rw [hfound, List.mem_cons]
    refine or_congr_left ⟨fun h => ⟨c, hc, h⟩, ?_⟩
    rintro ⟨c', hc', rfl⟩
    rw [honly c' hc']
  · have hnone := run_useStmt_line prev hs hbare (not_exists.mp huse) hblank
    rw [findAll_line hne hline hnone]
    simp only [not_exists.mp huse, false_and, exists_false, false_or]

theorem not_blank_of_uses (h : Uses line c) : ¬ ∀ x ∈ line, isBlank x = true := by
  obtain ⟨w, v, r, -, -, -, -, -, rfl⟩ := h
  intro hblank
  exact absurd (hblank 'u' (by simp)) (by decide)

theorem mem_findAll_next {gs : List (List Char)} (hprev : AtLine prev) (hline : '\n' ∉ line)
    (hbare : ¬ Bare line) (rest : List Char) :
    gs ∈ findAll useStmt 0 prev (line ++ '\n' :: rest) ↔
      (∃ c, Uses line c ∧ gs = [c]) ∨ gs ∈ findAll useStmt 0 (some '\n') rest := by
  by_cases hblank : ∀ c ∈ line, isBlank c = true
  · rw [findAll_blank hprev hline hblank]
    refine (or_iff_right ?_).symm
    rintro ⟨c, hc, -⟩
    exact not_blank_of_uses hc hblank
  · have hne : line ≠ [] := by
      rintro rfl
      exact hblank (List.forall_mem_nil _)
    rw [mem_findAll_line gs hprev (by simp [Behind]) hline hbare hblank, findAll_newline hne hline]

theorem mem_findAll_last {gs : List (List Char)} (hprev : AtLine prev) (hline : '\n' ∉ line)
    (hbare : ¬ Bare line) :
    gs ∈ findAll useStmt 0 prev line ↔ ∃ c, Uses line c ∧ gs = [c] := by
  by_cases hblank : ∀ c ∈ line, isBlank c = true
  · have hnone : findAll useStmt 0 prev line = [] := by
      by_cases hne : line = []
      · rw [hne, findAll]
      · have hrun : run useStmt some ⟨prev, line ++ [], []⟩ = none := by
          rw [Option.eq_none_iff_forall_ne_some]
          intro d hrun
          obtain ⟨w, v, a, t, -, -, -, -, htext⟩ := exists_of_useStmt hrun
          have hu : 'u' ∈ line ++ [] := htext ▸ by simp
          exact absurd (hblank 'u' (by simpa using hu)) (by decide)
        have h := findAll_line hne hline hrun
        rw [List.append_nil] at h
        rw [h, findAll]
    rw [hnone]
    refine (iff_false_intro List.not_mem_nil).trans (iff_false_intro ?_).symm
    rintro ⟨c, hc, -⟩
    exact not_blank_of_uses hc hblank
  · have h := mem_findAll_line (s := []) gs hprev (by simp [Behind]) hline hbare hblank
    rw [List.append_nil] at h
    rw [h, findAll]
    exact or_iff_left List.not_mem_nil

/-- The matches in a text are the `use` statements of its lines. -/
theorem mem_findAll_lines (gs : List (List Char)) {lines : List (List Char)}
    (hlines : ∀ line ∈ lines, '\n' ∉ line ∧ ¬ Bare line) (hprev : AtLine prev) :
    gs ∈ findAll useStmt 0 prev (['\n'].intercalate lines) ↔
      ∃ line ∈ lines, ∃ c, Uses line c ∧ gs = [c] := by
  induction lines generalizing prev with
  | nil => simp [findAll]
  | cons line lines ih =>
      obtain ⟨⟨hline, hbare⟩, hrest⟩ := List.forall_mem_cons.mp hlines
      rw [List.exists_mem_cons_iff]
      have hnext : AtLine (some '\n') := rfl
      cases lines with
      | nil =>
          rw [List.intercalate_singleton, mem_findAll_last hprev hline hbare]
          simp
      | cons line' lines =>
          rw [List.intercalate_cons_cons, List.append_assoc, List.singleton_append,
            mem_findAll_next hprev hline hbare, ih hrest hnext]

/-- The matches in a text none of whose lines is bare. -/
theorem mem_findAll_useStmt {gs : List (List Char)} {src : List Char}
    (hbare : ∀ line ∈ src.splitOn '\n', ¬ Bare line) :
    gs ∈ findAll useStmt 0 none src ↔
      ∃ line ∈ src.splitOn '\n', ∃ c, Uses line c ∧ gs = [c] := by
  have hlines : ∀ line ∈ src.splitOn '\n', '\n' ∉ line ∧ ¬ Bare line :=
    fun line h => ⟨not_mem_of_mem_splitOn h, hbare line h⟩
  have hstart : AtLine none := rfl
  have hall := mem_findAll_lines gs hlines hstart
  rwa [List.intercalate_splitOn] at hall

end

/-! ## Crates and their manifest -/

section
variable {crates names : List String} {c : String}

theorem mem_foldl_addCrate :
    c ∈ names.foldl addCrate crates ↔ c ∈ crates ∨ c ∈ names ∧ c ∉ builtins := by
  induction names generalizing crates with
  | nil => simp
  | cons name names ih =>
      rw [List.foldl_cons, ih, addCrate]
      split <;> grind

theorem nodup_foldl_addCrate (h : crates.Nodup) : (names.foldl addCrate crates).Nodup := by
  induction names generalizing crates with
  | nil => exact h
  | cons name names ih =>
      refine ih ?_
      rw [addCrate]
      split
      next => exact h
      next hnew =>
        rw [← List.concat_eq_append]
        exact h.concat fun hmem => hnew (.inr hmem)

theorem pairwise_detectCrates (src : String) : (detectCrates src).Pairwise (· < ·) := by
  have hnodup : (detectCrates src).Nodup :=
    Sequence.sortBy_perm.nodup_iff.mpr (nodup_foldl_addCrate List.nodup_nil)
  exact Sequence.pairwise_sortBy.imp₂ (fun _ _ => lt_of_le_of_ne) hnodup

/-- The crates are the names in the `use` statements of the lines. -/
theorem mem_detectCrates {src : String} (hbare : ∀ line ∈ src.toList.splitOn '\n', ¬ Bare line) :
    c ∈ detectCrates src ↔
      c ∉ builtins ∧ ∃ line ∈ src.toList.splitOn '\n', Uses line c.toList := by
  have hnames : c ∈ useNames src ↔ ∃ line ∈ src.toList.splitOn '\n', Uses line c.toList := by
    simp only [useNames, List.mem_map, mem_findAll_useStmt hbare]
    constructor
    · rintro ⟨_, ⟨line, hline, name, huse, rfl⟩, rfl⟩
      exact ⟨line, hline, by simpa using huse⟩
    · rintro ⟨line, hline, huse⟩
      exact ⟨_, ⟨line, hline, _, huse, rfl⟩, by simp⟩
  rw [detectCrates, Sequence.sortBy_perm.mem_iff, mem_foldl_addCrate, hnames]
  simp only [List.not_mem_nil, false_or, and_comm]

/-- A crate has no newline in its name. -/
theorem newline_not_mem_of_uses {line name : List Char} (h : Uses line name) : '\n' ∉ name := by
  obtain ⟨-, -, -, -, -, -, ⟨a, t, rfl, ha, ht⟩, -, -⟩ := h
  intro hmem
  rcases List.mem_cons.mp hmem with rfl | hmem
  · exact isRest_ne_newline (isRest_of_isFirst ha) rfl
  · exact isRest_ne_newline (ht _ hmem) rfl

theorem toList_cargoToml (crates : List String) :
    (cargoToml crates).toList =
      header.toList ++ crates.flatMap fun c => (dependency c).toList ++ ['\n'] := by
  have hfold (b : String) : (crates.foldl (fun b c => b ++ dependency c ++ "\n") b).toList =
      b.toList ++ crates.flatMap fun c => (dependency c).toList ++ ['\n'] := by
    induction crates generalizing b with
    | nil => simp
    | cons c crates ih => simp [ih]
  exact hfold header

/-- The lines of a manifest. -/
theorem splitOn_cargoToml (h : ∀ c ∈ crates, '\n' ∉ c.toList) :
    (cargoToml crates).toList.splitOn '\n' =
      (header.toList.splitOn '\n').dropLast ++ (crates.map fun c => (dependency c).toList) ++
        [[]] := by
  have hbody : (crates.flatMap fun c => (dependency c).toList ++ ['\n']).splitOn '\n' =
      (crates.map fun c => (dependency c).toList) ++ [[]] := by
    induction crates with
    | nil => rfl
    | cons c crates ih =>
        obtain ⟨hc, hcrates⟩ := List.forall_mem_cons.mp h
        have hdep : '\n' ∉ (dependency c).toList := by simp [dependency, hc]
        rw [List.flatMap_cons, List.append_assoc, List.singleton_append,
          List.splitOn_append_cons_self_of_not_mem hdep, ih hcrates]
        rfl
  have hheader : header.toList = header.toList.dropLast ++ ['\n'] := by decide +kernel
  have hlines : header.toList.dropLast.splitOn '\n' = (header.toList.splitOn '\n').dropLast := by
    decide +kernel
  rw [toList_cargoToml, hheader, List.append_assoc, List.singleton_append,
    List.splitOn_append_cons_self, hbody, ← hheader, hlines, List.append_assoc]

/-- Each crate is declared on one line of the manifest. -/
theorem count_cargoToml (hnodup : crates.Nodup) (h : ∀ c ∈ crates, '\n' ∉ c.toList)
    (hc : c ∈ crates) :
    ((cargoToml crates).toList.splitOn '\n').count (dependency c).toList = 1 := by
  have hsuffix : " = \"*\"".toList <:+ (dependency c).toList := ⟨c.toList, by simp [dependency]⟩
  have hheader : (dependency c).toList ∉ (header.toList.splitOn '\n').dropLast := by
    have hall : ∀ line ∈ (header.toList.splitOn '\n').dropLast, ¬ " = \"*\"".toList <:+ line := by
      decide +kernel
    exact fun hmem => hall _ hmem hsuffix
  have hempty : (dependency c).toList ∉ [[]] := by simp [dependency]
  have hinj : Function.Injective fun c : String => (dependency c).toList := by
    intro a b hab
    simpa [dependency, String.toList_inj] using hab
  rw [splitOn_cargoToml h, List.count_append, List.count_append, List.count_eq_zero.mpr hheader,
    List.count_eq_zero.mpr hempty, List.count_map_of_injective _ _ hinj,
    List.count_eq_one_of_mem hnodup hc]

/-- Of a text without a bare line, the crates are the identifiers behind the `use` of a
line, other than the names that are no crates, in increasing order.  The manifest
declares each on one line. -/
theorem detectCrates_exact {src : String}
    (hbare : ∀ line ∈ src.toList.splitOn '\n', ¬ Bare line) :
    (detectCrates src).Pairwise (· < ·) ∧
      (∀ c, c ∈ detectCrates src ↔
        c ∉ builtins ∧ ∃ line ∈ src.toList.splitOn '\n', Uses line c.toList) ∧
      ∀ c ∈ detectCrates src,
        ((cargoToml (detectCrates src)).toList.splitOn '\n').count (dependency c).toList = 1 := by
  have hsorted := pairwise_detectCrates src
  refine ⟨hsorted, fun c => mem_detectCrates hbare, fun c hc => ?_⟩
  refine count_cargoToml (hsorted.imp ne_of_lt) (fun c hc => ?_) hc
  obtain ⟨-, line, -, huse⟩ := (mem_detectCrates hbare).mp hc
  exact newline_not_mem_of_uses huse

end

theorem filter_of_bare {line : List Char} (h : Bare line) :
    (line.filter fun c => !isBlank c) = "use".toList := by
  obtain ⟨w, v, hw, hv, rfl⟩ := h
  have hnil {t : List Char} (ht : ∀ c ∈ t, isBlank c = true) : t.filter (!isBlank ·) = [] :=
    List.filter_eq_nil_iff.mpr fun c hc => by simp [ht c hc]
  rw [List.filter_append, hnil hw]
  simp only [List.filter_cons, hnil hv]
  rfl

/-- The crates of a text that uses two. -/
theorem detectCrates_exact_two : ∃ src : String,
    "rand" ∈ detectCrates src ∧ "std" ∉ detectCrates src := by
  let src := "use std::io;\n\n  use rand::Rng;\nuse md5;\n"
  have hbare : ∀ line ∈ src.toList.splitOn '\n', ¬ Bare line := by
    have hall : ∀ line ∈ src.toList.splitOn '\n',
        (line.filter fun c => !isBlank c) ≠ "use".toList := by decide +kernel
    exact fun line hline h => hall line hline (filter_of_bare h)
  obtain ⟨-, hmem, -⟩ := detectCrates_exact hbare
  refine ⟨src, (hmem _).mpr ⟨by decide, "  use rand::Rng;".toList, by decide +kernel, ?_⟩, ?_⟩
  · refine ⟨[' ', ' '], [' '], "::Rng;".toList, List.all_eq_true.mp rfl, by decide,
      List.all_eq_true.mp rfl, ?_, ?_, ?_⟩
    · exact ⟨'r', "and".toList, by decide, by decide, List.all_eq_true.mp (by decide)⟩
    · rintro x ⟨⟩
      rfl
    · decide
  · exact fun h => absurd ((hmem _).mp h).1 (by decide)

end Aicv.Dataset
