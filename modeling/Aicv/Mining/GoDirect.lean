import Aicv.Mining.GoFile
import Aicv.Mining.Miners

/-!
# The direct requirements of a `go.mod` file

The reader is a machine with two states that takes a file line by line.  The runs over the
parts of a file make the run over the file.

A comment may hold a character at which Python ends a line and Go does not.  A line is
`Whole` if that makes no difference, as it does where there is no such character
(`Line.whole_of_plain`).  In a file of whole lines the reader finds in each part the pairs of
`Item.found` (`parseDirectDeps_eq`), which are the direct requirements of the part if and
only if it is `Sound`.  `parseDirectDeps_exact` says the same of the file.
-/

namespace Aicv.Mining.GoMod

open Python Text
open scoped List

/-! ## Lines of the reader -/

/-- What the reader takes for lines in it. -/
def Line.pieces (l : Line) : List (List Char) := splitlines l.text

/-- The first of them. -/
def Line.first (l : Line) : List Char := l.pieces.headD []

/-- A piece that has no requirement in it and neither opens a block nor closes one. -/
def Silent : Bool → List Char → Prop
  | false, p => ¬ (comment p = none ∧ Opens requireWord (tokens p)) ∧
      (mentions p = true ∨ required (tokens p) = [])
  | true, p => tokens p ≠ [[')']] ∧ (mentions p = true ∨ firstTwo (tokens p) = [])

/-- The first piece, which leaves the reader in a block or out of one, has the words and the
mark of the line, and the others are silent. -/
structure Line.Whole (inBlock : Bool) (l : Line) : Prop where
  tokens_eq : tokens l.first = tokens l.raw
  of_marked : l.marked = true → mentions l.first = true
  silent : ∀ p ∈ l.pieces.tail, Silent inBlock p

/-- The reader does nothing on the silent pieces, and on no other. -/
theorem silent_iff_readLine {inBlock : Bool} {p : List Char} :
    Silent inBlock p ↔ readLine inBlock p = (inBlock, []) := by
  have hkept (out : List (String × String)) :
      (mentions p = true ∨ out = []) ↔ (if mentions p then [] else out) = [] := by
    cases mentions p <;> simp
  cases inBlock with
  | false =>
      rw [readLine_outside, Silent, hkept]
      by_cases hopen : comment p = none ∧ Opens requireWord (tokens p)
      · rw [if_pos hopen]
        exact iff_of_false (fun h => h.1 hopen) fun h => Bool.noConfusion (congrArg Prod.fst h)
      · rw [if_neg hopen, Prod.mk.injEq]
        exact and_congr_left' (iff_of_true hopen rfl)
  | true =>
      rw [readLine_inside, Silent, hkept]
      by_cases hclose : tokens p = [[')']]
      · rw [if_pos hclose]
        exact iff_of_false (fun h => h.1 hclose) fun h => Bool.noConfusion (congrArg Prod.fst h)
      · rw [if_neg hclose, Prod.mk.injEq]
        exact and_congr_left' (iff_of_true hclose rfl)

/-- A line in which Python ends no line is taken as a whole. -/
theorem Line.whole_of_plain {l : Line} (h : ∀ c ∈ l.raw, isLineBoundary c = false)
    (inBlock : Bool) : l.Whole inBlock := by
  have hpieces : l.pieces = [l.raw] := by
    have hplain (t : List Char) : splitlines (l.raw ++ t) = splitlinesFrom false l.raw t :=
      splitlinesFrom_plain h
    rw [Line.pieces, Line.text]
    rw [hplain]
    cases l.crlf <;> rfl
  have hfirst : l.first = l.raw := by rw [Line.first, hpieces, List.headD_cons]
  refine ⟨by rw [hfirst], fun hmarked => ?_, by simp [hpieces]⟩
  rw [hfirst, GoMod.mentions]
  rw [Line.marked] at hmarked
  cases hcomment : comment l.raw with
  | none => simp [hcomment] at hmarked
  | some c =>
      have hword : indirectWord <:+: strip c := by
        rw [hcomment] at hmarked
        rcases Bool.or_eq_true_iff.mp hmarked with heq | hpre
        · rw [of_decide_eq_true heq]
        · exact (List.prefix_append _ _).isInfix.trans
            (List.isPrefixOf_iff_prefix.mp hpre).isInfix
      exact decide_eq_true (hword.trans (strip_isInfix c))

/-! ## What the reader finds -/

/-- The pair of a requirement as it is written, unless the comment mentions `indirect`. -/
def Entry.found {lead : List (List Char)} (e : Entry lead) : List (String × String) :=
  if mentions e.line.first then []
  else [(String.ofList e.path.text, String.ofList e.version.text)]

/-- The pair of a line of another block, if that is taken for a requirement. -/
def Spec.found {k : Keyword} (s : Spec k) : List (String × String) :=
  if mentions s.line.first then [] else required s.args

/-- The reader finds the start of the block. -/
def Block.entered {keyword : List Char} {α : Type} (b : Block keyword α) : Bool :=
  (comment b.opening.first).isNone

/-- The pairs that the reader finds in a part. -/
def Item.found : Item → List (String × String)
  | .require e => e.found
  | .requireBlock b => if b.entered then b.rows.flatMap (Row.pairs Entry.found) else []
  | .block _ _ b => b.rows.flatMap (Row.pairs Spec.found)
  | _ => []

@[simp] theorem Row.pairs_nil {α : Type} (r : Row α) : r.pairs (fun _ => []) = [] := by
  cases r <;> rfl

/-- The reader takes each line of a block as a whole. -/
structure Block.Whole {keyword : List Char} {α : Type} (f : α → Line) (inBlock : Bool)
    (b : Block keyword α) : Prop where
  opening : b.opening.Whole inBlock
  rows : ∀ r ∈ b.rows, (r.line f).Whole inBlock
  closing : b.closing.Whole false

/-- The reader takes each line of a part as a whole. -/
def Item.Whole : Item → Prop
  | .blank l _ => l.Whole false
  | .directive _ l _ _ _ => l.Whole false
  | .require e => e.line.Whole false
  | .requireBlock b => b.Whole Entry.line b.entered
  | .block _ _ b => b.Whole Spec.line false

/-- The reader takes each line of a file as a whole. -/
def File.Whole (m : File) : Prop := ∀ i ∈ m.items, i.Whole

/-- Python ends a line nowhere but at the ends of the lines. -/
def File.plain (m : File) : Bool :=
  m.items.all fun i => i.lines.all fun l => l.raw.all (!isLineBoundary ·)

theorem Block.whole_of_lines {keyword : List Char} {α : Type} {b : Block keyword α}
    {f : α → Line} (h : ∀ l ∈ b.lines f, ∀ inBlock, l.Whole inBlock) (inBlock : Bool) :
    b.Whole f inBlock := by
  obtain ⟨hopening, h⟩ := List.forall_mem_cons.mp h
  obtain ⟨hrows, hclosing⟩ := List.forall_mem_append.mp h
  exact ⟨hopening inBlock, fun r hr => hrows _ (List.mem_map_of_mem hr) inBlock,
    hclosing _ (List.mem_singleton_self _) false⟩

/-- A file in which Python ends no further lines is taken as a whole. -/
theorem File.whole_of_plain {m : File} (h : m.plain = true) : m.Whole := by
  intro i hi
  have hlines : ∀ l ∈ i.lines, ∀ inBlock, l.Whole inBlock := fun l hl =>
    Line.whole_of_plain fun c hc => by
      simpa using List.all_eq_true.mp
        (List.all_eq_true.mp (List.all_eq_true.mp h i hi) l hl) c hc
  cases i with
  | requireBlock b => exact Block.whole_of_lines hlines _
  | block k hk b => exact Block.whole_of_lines hlines _
  | _ => exact hlines _ (List.mem_singleton_self _) false

section
variable {b b' : Bool} {out : List (String × String)} {l : Line} {lead : List (List Char)}
  {k : Keyword}

/-! ### Lines -/

theorem Line.pieces_eq (l : Line) : l.pieces = l.first :: l.pieces.tail := by
  have hne : l.text ≠ [] := List.append_ne_nil_of_right_ne_nil _ (by cases l.crlf <;> simp)
  have hpieces : l.pieces ≠ [] := splitlinesFrom_ne_nil (.inr hne)
  cases h : l.pieces with
  | nil => exact absurd h hpieces
  | cons p ps => simp [Line.first, h]

/-- A line does what its first piece does. -/
theorem Line.Whole.reads (h : l.Whole b') (hread : readLine b l.first = (b', out)) :
    Sequence.run readLine b l.pieces = (b', out) := by
  rw [l.pieces_eq, ← List.append_nil out]
  have hidle := Sequence.run_idle fun p hp => silent_iff_readLine.mp (h.silent p hp)
  exact Sequence.run_cons hread hidle

theorem not_opens {keyword : List Char} {ts : List (List Char)} (h : ∀ w ∈ ts, '(' ∉ w) :
    ¬ Opens keyword ts := by
  rintro (rfl | rfl)
  · exact h ['('] (by simp) (by simp)
  · exact h _ (List.mem_singleton_self _) (by simp)

theorem Opens.unique {keyword keyword' : List Char} {ts : List (List Char)}
    (h : Opens keyword ts) (h' : Opens keyword' ts) : keyword = keyword' := by
  rcases h with rfl | rfl <;> rcases h' with h' | h'
  · exact (List.cons.inj h').1
  · cases h'
  · cases h'
  · exact List.append_cancel_right (List.singleton_inj.mp h')

/-- A line without a parenthesis, outside of a block. -/
theorem Line.Whole.reads_outside (h : l.Whole false) (hparen : ∀ w ∈ tokens l.raw, '(' ∉ w) :
    Sequence.run readLine false l.pieces =
      (false, if mentions l.first then [] else required (tokens l.raw)) := by
  have hnot : ¬ (comment l.first = none ∧ Opens requireWord (tokens l.first)) := by
    rw [h.tokens_eq]
    exact fun hopen => not_opens hparen hopen.2
  exact h.reads (by rw [readLine_outside, if_neg hnot, h.tokens_eq])

/-- A line that requires nothing, outside of a block. -/
theorem Line.Whole.reads_silent (h : l.Whole false)
    (hnot : ¬ (comment l.first = none ∧ Opens requireWord (tokens l.raw)))
    (hnone : required (tokens l.raw) = []) :
    Sequence.run readLine false l.pieces = (false, []) := by
  rw [← h.tokens_eq] at hnot hnone
  exact h.reads (by rw [readLine_outside, if_neg hnot, hnone, ite_self])

/-- A line that does not close the block. -/
theorem Line.Whole.reads_inside (h : l.Whole true) (hclose : tokens l.raw ≠ [[')']]) :
    Sequence.run readLine true l.pieces =
      (true, if mentions l.first then [] else firstTwo (tokens l.raw)) := by
  rw [← h.tokens_eq] at hclose
  exact h.reads (by rw [readLine_inside, if_neg hclose, h.tokens_eq])

/-! ### Parts -/

theorem Args.noParen {args : List (List Char)} (h : Args k args) : ∀ w ∈ args, '(' ∉ w := by
  have harrow : '(' ∉ arrow := by decide
  cases h with
  | replace hp ht | replaceVersion hp ht => simp_all [IsArg]
  | _ => simp_all [IsArg]

theorem IsBare.not_mem {v : List Char} {c : Char} (h : IsBare v)
    (hc : c ∈ ['(', ')', '[', ']', '{', '}', ',', '"', '\x60']) : c ∉ v :=
  fun hmem => of_decide_eq_true (List.all_eq_true.mp h.2.2 c hmem) hc

theorem Name.noParen (n : Name) : '(' ∉ n.text := by
  have hbare : '(' ∉ n.value := n.isBare.not_mem (by decide)
  rcases n.spelled with h | h | h <;> simp [h, hbare]

theorem Keyword.noParen (k : Keyword) : '(' ∉ k.word := by
  cases k <;> decide

theorem Keyword.word_ne (k : Keyword) : k.word ≠ requireWord := by
  cases k <;> decide

theorem Entry.noParen (e : Entry lead) (h : ∀ w ∈ lead, '(' ∉ w) :
    ∀ w ∈ tokens e.line.raw, '(' ∉ w := by
  rw [e.tokens_eq]
  refine List.forall_mem_append.mpr ⟨h, List.forall_mem_cons.mpr ⟨e.path.noParen, ?_⟩⟩
  exact List.forall_mem_singleton.mpr e.version.noParen

/-- A line without words. -/
theorem Line.Whole.reads_blank (h : l.Whole b) (htokens : tokens l.raw = []) :
    Sequence.run readLine b l.pieces = (b, []) := by
  cases b with
  | false =>
      refine h.reads_silent (fun hopen => not_opens (by simp) (htokens ▸ hopen.2)) ?_
      rw [htokens, required]
  | true =>
      have hread := h.reads_inside (by simp [htokens])
      have hnone : firstTwo (tokens l.raw) = [] := congrArg firstTwo htokens
      rwa [hnone, ite_self] at hread

/-- A line that closes a block. -/
theorem Line.Whole.reads_closing (h : l.Whole false) (hclose : tokens l.raw = [[')']]) :
    Sequence.run readLine b l.pieces = (false, []) := by
  cases b with
  | false =>
      refine h.reads_silent (fun hopen => not_opens (by simp) (hclose ▸ hopen.2)) ?_
      rw [hclose]
      rfl
  | true =>
      rw [← h.tokens_eq] at hclose
      exact h.reads (by rw [readLine_inside, if_pos hclose])

/-- A line that opens a block which the reader does not enter. -/
theorem Line.Whole.reads_opening {keyword : List Char} (h : l.Whole false)
    (hopens : Opens keyword (tokens l.raw))
    (hnot : comment l.first ≠ none ∨ keyword ≠ requireWord) :
    Sequence.run readLine false l.pieces = (false, []) := by
  refine h.reads_silent (fun hopen => ?_) ?_
  · rcases hnot with hcomment | hne
    · exact hcomment hopen.1
    · exact hne (hopens.unique hopen.2)
  · rcases hopens with hopens | hopens
    · rw [hopens]
      exact ite_self []
    · rw [hopens]
      exact ite_self []

/-- The reader finds in a block what it finds in its rows. -/
theorem Block.Whole.reads {keyword : List Char} {α : Type} {b : Block keyword α} {f : α → Line}
    {g : α → List (String × String)} {inBlock : Bool} (h : b.Whole f inBlock)
    (hopening : Sequence.run readLine false b.opening.pieces = (inBlock, []))
    (hspec : ∀ a : α, (f a).Whole inBlock →
      Sequence.run readLine inBlock (f a).pieces = (inBlock, g a)) :
    Sequence.run readLine false ((b.lines f).flatMap Line.pieces) =
      (false, b.rows.flatMap (Row.pairs g)) := by
  have hrows : Sequence.run readLine inBlock (b.rows.flatMap fun r => (r.line f).pieces) =
      (inBlock, b.rows.flatMap (Row.pairs g)) := by
    refine Sequence.run_flatMap fun r hr => ?_
    have hr := h.rows r hr
    cases r with
    | blank l htokens => exact hr.reads_blank htokens
    | spec a => exact hspec a hr
  have hall := Sequence.run_append hopening <|
    Sequence.run_append hrows (h.closing.reads_closing b.closes)
  rw [List.nil_append, List.append_nil] at hall
  rwa [Block.lines, List.flatMap_cons, List.flatMap_append, List.flatMap_singleton,
    List.flatMap_map]

/-- What the reader finds in a part, after which it is out of a block. -/
theorem Item.reads {i : Item} (h : i.Whole) :
    Sequence.run readLine false (i.lines.flatMap Line.pieces) = (false, i.found) := by
  cases i with
  | blank l htokens =>
      rw [Item.lines, List.flatMap_singleton]
      exact Line.Whole.reads_blank h htokens
  | directive k l args hargs htokens =>
      have hparen : ∀ w ∈ tokens l.raw, '(' ∉ w := by
        rw [htokens]
        exact List.forall_mem_cons.mpr ⟨k.noParen, hargs.noParen⟩
      rw [Item.lines, List.flatMap_singleton]
      refine Line.Whole.reads_silent h (fun hopen => not_opens hparen hopen.2) ?_
      rw [htokens, required, if_neg k.word_ne]
  | require e =>
      have hread := Line.Whole.reads_outside h
        (e.noParen (List.forall_mem_singleton.mpr (by decide)))
      rw [e.tokens_eq] at hread
      rw [Item.lines, List.flatMap_singleton]
      exact hread
  | requireBlock b =>
      have h : b.Whole Entry.line b.entered := h
      cases hentered : b.entered with
      | true =>
          rw [hentered] at h
          have hcomment : comment b.opening.first = none := by simpa [Block.entered] using hentered
          have hopens : Opens requireWord (tokens b.opening.first) := h.opening.tokens_eq ▸ b.opens
          have hopening : Sequence.run readLine false b.opening.pieces = (true, []) :=
            h.opening.reads (by rw [readLine_outside, if_pos ⟨hcomment, hopens⟩])
          rw [Item.found, if_pos hentered]
          refine h.reads hopening fun e he => ?_
          have hread := he.reads_inside (by simp [e.tokens_eq])
          rw [e.tokens_eq] at hread
          exact hread
      | false =>
          rw [hentered] at h
          have hcomment : comment b.opening.first ≠ none := fun hnone => by
            simp [Block.entered, hnone] at hentered
          have hnone : b.rows.flatMap (Row.pairs fun _ : Entry [] => []) = [] :=
            List.flatMap_eq_nil_iff.mpr fun r _ => r.pairs_nil
          rw [Item.found, if_neg (by simp [hentered]), ← hnone]
          refine h.reads (h.opening.reads_opening b.opens (.inl hcomment)) fun e he => ?_
          have hparen := e.noParen (List.forall_mem_nil _)
          refine he.reads_silent (fun hopen => not_opens hparen hopen.2) ?_
          rw [e.tokens_eq]
          exact ite_self []
  | block k hk b =>
      have h : b.Whole Spec.line false := h
      refine h.reads (h.opening.reads_opening b.opens (.inr k.word_ne)) fun s hs => ?_
      have hread := hs.reads_outside (s.tokens_eq ▸ s.isArgs.noParen)
      rw [s.tokens_eq] at hread
      exact hread

/-! ### Files -/

/-- The reader does not see whether the last line has an end. -/
theorem run_splitlines_concat {c : Char} (hc : isLineBoundary c = true) (s : List Char)
    (b : Bool) : Sequence.run readLine b (splitlines (s ++ [c])) =
      Sequence.run readLine b (splitlines s) := by
  rcases splitlines_concat hc s with h | h
  · rw [h]
  · have hblank : ∀ b, Sequence.run readLine b [[]] = Sequence.run readLine b [] := fun b => by
      cases b <;> rfl
    rw [h, Sequence.run_append_congr hblank, List.append_nil]

theorem Line.splitlines_text_append (l : Line) (t : List Char) :
    splitlines (l.text ++ t) = l.pieces ++ splitlines t := by
  rw [Line.pieces, Line.text]
  cases l.crlf with
  | false => simpa using splitlines_append l.raw t
  | true => simpa using splitlines_append (l.raw ++ ['\r']) t

theorem Line.run_raw (l : Line) (b : Bool) :
    Sequence.run readLine b (splitlines l.raw) = Sequence.run readLine b l.pieces := by
  rw [Line.pieces, Line.text]
  cases l.crlf with
  | false => exact (run_splitlines_concat (by decide) l.raw b).symm
  | true =>
      have hfeed := run_splitlines_concat (c := '\n') (by decide) (l.raw ++ ['\r']) b
      have hreturn := run_splitlines_concat (c := '\r') (by decide) l.raw b
      rw [← hreturn, ← hfeed, List.append_assoc]
      rfl

/-- The reader finds in a text what it finds in its lines. -/
theorem run_joinLines (ended : Bool) : ∀ (ls : List Line) (b : Bool),
    Sequence.run readLine b (splitlines (joinLines ended ls)) =
      Sequence.run readLine b (ls.flatMap Line.pieces)
  | [], _ => rfl
  | [l], b => by
      rw [List.flatMap_singleton]
      cases ended with
      | true => rfl
      | false => exact l.run_raw b
  | l :: l' :: ls, b => by
      rw [joinLines, Line.splitlines_text_append, List.flatMap_cons]
      · exact Sequence.run_append_congr (run_joinLines ended (l' :: ls))
      · exact List.cons_ne_nil l' ls

/-- The reader finds in a file what it finds in its parts. -/
theorem parseDirectDeps_eq {m : File} (h : m.Whole) :
    parseDirectDeps m.text = m.items.flatMap Item.found := by
  have hreads := Sequence.run_flatMap fun i hi => Item.reads (h i hi)
  rw [← List.flatMap_assoc] at hreads
  rw [parseDirectDeps, File.text, String.toList_ofList, run_joinLines, hreads]

end

/-! ## Files that are read right -/

/-- The reader keeps the requirement if and only if it is direct, and finds its path and
version as they are if so. -/
structure Entry.Sound {lead : List (List Char)} (e : Entry lead) : Prop where
  marked : mentions e.line.first = true → e.line.marked = true
  spelled : e.line.marked = false →
    e.path.text = e.path.value ∧ e.version.text = e.version.value

/-- The line does not replace a module `require`, unless its comment mentions `indirect`. -/
def Spec.Sound {k : Keyword} (s : Spec k) : Prop :=
  k = .replace → s.args.head? = some requireWord → mentions s.line.first = true

/-- What holds of the row, if that is not blank. -/
def Row.All {α : Type} (p : α → Prop) : Row α → Prop
  | .blank _ _ => True
  | .spec a => p a

/-- The reader finds the direct requirements of the part.  A block whose opening line has a
comment has none. -/
def Item.Sound : Item → Prop
  | .require e => e.Sound
  | .requireBlock b =>
      if b.entered then ∀ r ∈ b.rows, r.All Entry.Sound
      else ∀ r ∈ b.rows, r.All fun e => e.line.marked = true
  | .block _ _ b => ∀ r ∈ b.rows, r.All Spec.Sound
  | _ => True

/-- The reader finds the direct requirements of each part. -/
def File.Sound (m : File) : Prop := ∀ i ∈ m.items, i.Sound

/-- A path and a version without the characters that have a meaning of their own. -/
def IsDep (d : String × String) : Prop := IsBare d.1.toList ∧ IsBare d.2.toList

section
variable {lead : List (List Char)} {k : Keyword} {inBlock : Bool}

/-- A quoted name is not bare. -/
theorem Name.text_eq (n : Name) (h : IsBare n.text) : n.text = n.value := by
  rcases n.spelled with htext | htext | htext
  · exact htext
  · exact absurd (by simp [htext]) (h.not_mem (c := '"') (by decide))
  · exact absurd (by simp [htext]) (h.not_mem (c := '\x60') (by decide))

/-! ### Requirements -/

theorem Entry.isDep_of_mem_dep (e : Entry lead) : ∀ d ∈ e.dep, IsDep d := by
  rw [Entry.dep]
  split
  next => exact List.forall_mem_nil _
  next =>
    rw [List.forall_mem_singleton, IsDep, String.toList_ofList, String.toList_ofList]
    exact ⟨e.path.isBare, e.version.isBare⟩

theorem Entry.found_eq_nil {e : Entry lead} (h : mentions e.line.first = true) :
    e.found = [] := if_pos h

theorem Entry.found_eq_text {e : Entry lead} (h : mentions e.line.first = false) :
    e.found = [(String.ofList e.path.text, String.ofList e.version.text)] :=
  if_neg (by simp [h])

theorem Entry.dep_eq_nil_iff {e : Entry lead} : e.dep = [] ↔ e.line.marked = true :=
  ite_eq_left_iff.trans <| by simp

theorem Entry.dep_eq_value {e : Entry lead} (h : e.line.marked = false) :
    e.dep = [(String.ofList e.path.value, String.ofList e.version.value)] :=
  if_neg (by simp [h])

theorem Line.Whole.marked_eq_false {l : Line} (h : l.Whole inBlock)
    (hmentions : mentions l.first = false) : l.marked = false :=
  eq_false_of_ne_true fun hmarked => by simp [h.of_marked hmarked] at hmentions

/-- The reader adds no requirement but one with a quoted name. -/
theorem Entry.found_sublist {e : Entry lead} (h : e.line.Whole inBlock)
    (hdep : ∀ d ∈ e.found, IsDep d) : e.found <+ e.dep := by
  cases hmentions : mentions e.line.first with
  | true =>
      rw [e.found_eq_nil hmentions]
      exact List.nil_sublist _
  | false =>
      rw [e.found_eq_text hmentions, List.forall_mem_singleton, IsDep, String.toList_ofList,
        String.toList_ofList] at hdep
      rw [e.found_eq_text hmentions, e.dep_eq_value (h.marked_eq_false hmentions),
        e.path.text_eq hdep.1, e.version.text_eq hdep.2]

theorem Entry.found_eq_iff {e : Entry lead} (h : e.line.Whole inBlock) :
    e.found = e.dep ↔ e.Sound := by
  cases hmarked : e.line.marked with
  | true =>
      rw [e.found_eq_nil (h.of_marked hmarked), e.dep_eq_nil_iff.mpr hmarked]
      exact iff_of_true rfl ⟨fun _ => hmarked, fun hnot => by simp [hmarked] at hnot⟩
  | false =>
      rw [e.dep_eq_value hmarked]
      cases hmentions : mentions e.line.first with
      | true =>
          rw [e.found_eq_nil hmentions]
          refine iff_of_false (List.cons_ne_nil _ _).symm fun hsound => ?_
          simp [hsound.marked hmentions] at hmarked
      | false =>
          rw [e.found_eq_text hmentions, List.singleton_inj, Prod.mk.injEq, String.ofList_inj,
            String.ofList_inj]
          exact ⟨fun htext => ⟨fun hnot => by simp [hmentions] at hnot, fun _ => htext⟩,
            fun hsound => hsound.spelled hmarked⟩

/-! ### Other blocks -/

/-- A line of another block is taken for a requirement if it replaces a module `require`.
What is then found is no requirement, since the arrow is in it. -/
theorem Args.required_cases {args : List (List Char)} (h : Args k args) :
    (k = .replace ∧ args.head? = some requireWord ∧ ∃ d, required args = [d] ∧ ¬ IsDep d) ∨
      (¬ (k = .replace ∧ args.head? = some requireWord) ∧ required args = []) := by
  have harrow : ¬ IsBare (String.ofList arrow).toList := by
    rw [String.toList_ofList]
    exact fun h => h.2.1 rfl
  cases h with
  | @replace p target hp ht hne =>
      obtain ⟨t, target, rfl⟩ := List.exists_cons_of_ne_nil hne
      by_cases hword : p = requireWord
      · exact .inl ⟨rfl, congrArg some hword, _, if_pos hword, fun hdep => harrow hdep.1⟩
      · exact .inr ⟨fun hnot => hword (Option.some.inj hnot.2), if_neg hword⟩
  | @replaceVersion p v target hp hv ht hne =>
      by_cases hword : p = requireWord
      · exact .inl ⟨rfl, congrArg some hword, _, if_pos hword, fun hdep => harrow hdep.2⟩
      · exact .inr ⟨fun hnot => hword (Option.some.inj hnot.2), if_neg hword⟩
  | @retractRange w ws hall =>
      have hhead : some '[' ≠ requireWord.head? := by decide
      have hword : '[' :: w ≠ requireWord := fun h => hhead (congrArg List.head? h)
      exact .inr ⟨fun hnot => Keyword.noConfusion hnot.1, by rw [required, if_neg hword]⟩
  | _ => exact .inr ⟨fun hnot => Keyword.noConfusion hnot.1, ite_self []⟩

theorem Spec.not_isDep {s : Spec k} : ∀ d ∈ s.found, ¬ IsDep d := by
  rw [Spec.found]
  split
  next => exact List.forall_mem_nil _
  next =>
    rcases s.isArgs.required_cases with ⟨-, -, d, hd, hnot⟩ | ⟨-, hnone⟩
    · rw [hd]
      exact List.forall_mem_singleton.mpr hnot
    · rw [hnone]
      exact List.forall_mem_nil _

theorem Spec.found_eq_nil_iff {s : Spec k} : s.found = [] ↔ s.Sound := by
  rw [Spec.found, Spec.Sound]
  cases hmentions : mentions s.line.first with
  | true => exact iff_of_true (if_pos rfl) fun _ _ => rfl
  | false =>
      rw [if_neg Bool.false_ne_true]
      rcases s.isArgs.required_cases with ⟨hk, hhead, d, hd, -⟩ | ⟨hnot, hnone⟩
      · rw [hd]
        exact iff_of_false (List.cons_ne_nil d []) fun h => absurd (h hk hhead) Bool.false_ne_true
      · exact iff_of_true hnone fun hk hhead => absurd ⟨hk, hhead⟩ hnot

/-! ### Parts -/

theorem Row.pairs_eq_iff {α : Type} {f g : α → List (String × String)} {p : α → Prop} {r : Row α}
    {line : α → Line} (hr : (r.line line).Whole inBlock)
    (h : ∀ a, (line a).Whole inBlock → (f a = g a ↔ p a)) : r.pairs f = r.pairs g ↔ r.All p := by
  cases r with
  | blank l htokens => exact iff_of_true rfl trivial
  | spec a => exact h a hr

theorem Row.isDep_of_mem_dep (r : Row (Entry lead)) : ∀ d ∈ r.pairs Entry.dep, IsDep d := by
  cases r with
  | blank l htokens => exact List.forall_mem_nil _
  | spec e => exact e.isDep_of_mem_dep

theorem Row.found_sublist {r : Row (Entry lead)} (h : (r.line Entry.line).Whole inBlock)
    (hdep : ∀ d ∈ r.pairs Entry.found, IsDep d) : r.pairs Entry.found <+ r.pairs Entry.dep := by
  cases r with
  | blank l htokens => exact List.Sublist.refl _
  | spec e => exact e.found_sublist h hdep

theorem Item.isDep_of_mem_direct (i : Item) : ∀ d ∈ i.direct, IsDep d := by
  cases i with
  | require e => exact e.isDep_of_mem_dep
  | requireBlock b =>
      intro d hd
      obtain ⟨r, -, hd⟩ := List.mem_flatMap.mp hd
      exact r.isDep_of_mem_dep d hd
  | _ => exact List.forall_mem_nil _

/-- The reader adds no requirement to a part but one with a quoted name. -/
theorem Item.found_sublist {i : Item} (h : i.Whole) (hdep : ∀ d ∈ i.found, IsDep d) :
    i.found <+ i.direct := by
  cases i with
  | require e => exact Entry.found_sublist h hdep
  | requireBlock b =>
      have h : b.Whole Entry.line b.entered := h
      rw [Item.found] at hdep ⊢
      split at hdep
      next hentered =>
        rw [if_pos hentered]
        exact List.Sublist.flatMap_right _ fun r hr =>
          r.found_sublist (h.rows r hr) fun d hd => hdep d (List.mem_flatMap_of_mem hr hd)
      next hentered =>
        rw [if_neg hentered]
        exact List.nil_sublist _
  | block k hk b =>
      have hnone : (Item.block k hk b).found = [] := by
        refine List.eq_nil_iff_forall_not_mem.mpr fun d hd => ?_
        obtain ⟨r, -, hr⟩ := List.mem_flatMap.mp hd
        cases r with
        | blank l htokens => exact List.not_mem_nil hr
        | spec s => exact s.not_isDep d hr (hdep d hd)
      rw [hnone]
      exact List.nil_sublist _
  | _ => exact List.Sublist.refl _

/-- The reader finds the direct requirements of a part if and only if it is sound. -/
theorem Item.found_eq_iff {i : Item} (h : i.Whole) : i.found = i.direct ↔ i.Sound := by
  cases i with
  | require e => exact Entry.found_eq_iff h
  | requireBlock b =>
      have h : b.Whole Entry.line b.entered := h
      rw [Item.found, Item.direct, Item.Sound]
      split
      next hentered =>
        rw [Sequence.flatMap_eq_iff (fun r hr => r.found_sublist (h.rows r hr))
          fun r _ => r.isDep_of_mem_dep]
        exact forall₂_congr fun r hr =>
          Row.pairs_eq_iff (h.rows r hr) fun e he => e.found_eq_iff he
      next hentered =>
        rw [eq_comm, List.flatMap_eq_nil_iff]
        refine forall₂_congr fun r hr => ?_
        rw [← r.pairs_nil]
        exact Row.pairs_eq_iff (h.rows r hr) fun e _ => e.dep_eq_nil_iff
  | block k hk b =>
      have h : b.Whole Spec.line false := h
      have hdirect : (Item.block k hk b).direct = [] := rfl
      rw [Item.found, hdirect, Item.Sound, List.flatMap_eq_nil_iff]
      refine forall₂_congr fun r hr => ?_
      rw [← r.pairs_nil]
      exact Row.pairs_eq_iff (h.rows r hr) fun s _ => s.found_eq_nil_iff
  | _ => exact iff_of_true rfl trivial

end

/-- The direct requirements are found if and only if they are in each part. -/
theorem parseDirectDeps_eq_direct_iff {m : File} (h : m.Whole) :
    parseDirectDeps m.text = m.direct ↔ m.Sound := by
  rw [parseDirectDeps_eq h, File.direct,
    Sequence.flatMap_eq_iff (fun i hi => Item.found_sublist (h i hi))
      fun i _ => i.isDep_of_mem_direct]
  exact forall₂_congr fun i hi => Item.found_eq_iff (h i hi)

/-- A repository with such a file votes for the modules that it requires directly. -/
theorem mem_packageInfo_visit {m : File} (h : m.Whole) (hsound : m.Sound) (s : GoState)
    (repo : Repo) {path : String} :
    path ∈ (s.visit parseDirectDeps repo (some m.text)).packageInfo.map Prod.fst ↔
      path ∈ s.packageInfo.map Prod.fst ∨ path ∈ m.direct.map Prod.fst := by
  have hunique : path ∈ (uniquePkgs m.direct).map Prod.fst ↔
      path ∈ ([] : Dict String String).map Prod.fst ∨ path ∈ m.direct.map Prod.fst :=
    Dict.mem_keys_foldl_alter
  rw [List.map_nil, or_iff_right List.not_mem_nil] at hunique
  rw [← hunique, GoState.visit, (parseDirectDeps_eq_direct_iff h).mpr hsound]
  exact Dict.mem_keys_foldl_alter

/-- In a file of whole lines the reader finds the direct requirements if the file is sound,
and only then. -/
theorem parseDirectDeps_exact (m : File) :
    (m.Whole → m.Sound → parseDirectDeps m.text = m.direct) ∧
      (m.Whole → parseDirectDeps m.text = m.direct → m.Sound) :=
  ⟨fun h => (parseDirectDeps_eq_direct_iff h).mpr, fun h => (parseDirectDeps_eq_direct_iff h).mp⟩

/-- A block with a direct requirement and an indirect one, and a replacement. -/
theorem parseDirectDeps_exact_block : ∃ m : File,
    m.text = "module m // main\n\nrequire (\n\ta v1.0.0\n\tb v1.1.0 // indirect; old\n) // end\n" ++
      "replace a => ../a" ∧
    parseDirectDeps m.text = [("a", "v1.0.0")] := by
  let name (v : String) (h : IsBare v.toList) : Name := ⟨v.toList, v.toList, h, .inl rfl⟩
  let line (s : String) (h : '\n' ∉ s.toList) : Line := ⟨s.toList, false, h⟩
  let a : Entry [] := ⟨line "\ta v1.0.0" (by decide), name "a" (by decide),
    name "v1.0.0" (by decide), by decide⟩
  let b : Entry [] := ⟨line "\tb v1.1.0 // indirect; old" (by decide), name "b" (by decide),
    name "v1.1.0" (by decide), by decide⟩
  let block : Block requireWord (Entry []) := ⟨line "require (" (by decide), .inl (by decide),
    [.spec a, .spec b], line ") // end" (by decide), by decide⟩
  let m : File := ⟨[
    .directive .module (line "module m // main" (by decide)) ["m".toList] (.module (by decide))
      (by decide),
    .blank (line "" (by decide)) (by decide),
    .requireBlock block,
    .directive .replace (line "replace a => ../a" (by decide))
      ["a".toList, arrow, "../a".toList]
      (.replace (by decide) (List.forall_mem_singleton.mpr (by decide)) (by simp)) (by decide)],
    false⟩
  have hblock : (Item.requireBlock block).Sound := by
    have ha : a.Sound := ⟨fun h => absurd h (by decide), fun _ => ⟨rfl, rfl⟩⟩
    have hb : b.Sound := ⟨fun _ => by decide, fun h => absurd h (by decide)⟩
    rw [Item.Sound, if_pos (by decide)]
    exact List.forall_mem_cons.mpr ⟨ha, List.forall_mem_singleton.mpr hb⟩
  have hsound : m.Sound := by
    intro i hi
    simp only [m, List.mem_cons, List.not_mem_nil, or_false] at hi
    rcases hi with rfl | rfl | rfl | rfl
    · trivial
    · trivial
    · exact hblock
    · trivial
  refine ⟨m, by decide +kernel, ?_⟩
  rw [(parseDirectDeps_exact m).1 (File.whole_of_plain (by decide +kernel)) hsound]
  decide +kernel

/-- A block is lost with a comment on its opening line. -/
theorem not_parseDirectDeps_exact : ¬ ∀ m : File, parseDirectDeps m.text = m.direct := by
  intro h
  let line (s : String) (h : '\n' ∉ s.toList) : Line := ⟨s.toList, false, h⟩
  let name (v : String) (h : IsBare v.toList) : Name := ⟨v.toList, v.toList, h, .inl rfl⟩
  let e : Entry [] := ⟨line "\texample.com/a v1.0.0" (by decide), name "example.com/a" (by decide),
    name "v1.0.0" (by decide), by decide⟩
  let m : File := ⟨[
    .directive .module (line "module m" (by decide)) ["m".toList] (.module (by decide))
      (by decide),
    .blank (line "" (by decide)) (by decide),
    .requireBlock ⟨line "require ( // direct" (by decide), .inl (by decide), [.spec e],
      line ")" (by decide), by decide⟩], true⟩
  have htext : m.text = "module m\n\nrequire ( // direct\n\texample.com/a v1.0.0\n)\n" := by
    decide +kernel
  have hfound : parseDirectDeps m.text = [] := by
    rw [htext]
    decide +kernel
  have hdirect : m.direct = [("example.com/a", "v1.0.0")] := by decide +kernel
  cases hfound.symm.trans ((h m).trans hdirect)

end Aicv.Mining.GoMod
