import Aicv.Python.Text
import Aicv.Sequence.Machine

/-!
# The requirements of a `go.mod`

`parse_direct_deps` of `mine_go.py` reads a file line by line and matches each line against
three patterns.  What a line does depends on its words and on its comment
(`readLine_outside`, `readLine_inside`).  The line that opens a block is matched with its
comment, the others without theirs.
-/

namespace Aicv.Mining.GoMod

open Python Text Pattern

/-! ## The reader -/

/-- The word of a requirement. -/
def requireWord : List Char := "require".toList

/-- The word of an indirect requirement. -/
def indirectWord : List Char := "indirect".toList

/-- What a comment starts with. -/
def slashes : List Char := "//".toList

/-- `\S+`, as a group. -/
def field : Pattern Char := group (plus fun c => !isSpace c)

/-- `(\S+)\s+(\S+)`. -/
def twoFields : Pattern Char := seq field <| seq (plus isSpace) field

/-- `_REQUIRE_BLOCK_OPEN`.  A line has no line feed, so that `$` is its end. -/
def requireBlockOpen : Pattern Char :=
  seq start <| seq (many isSpace) <| seq (lit requireWord) <| seq (many isSpace) <|
    seq (one (· == '(')) <| seq (many isSpace) stop

/-- `_REQUIRE_SINGLE`. -/
def requireSingle : Pattern Char :=
  seq start <| seq (many isSpace) <| seq (lit requireWord) <| seq (plus isSpace) twoFields

/-- `_BLOCK_LINE`. -/
def blockLine : Pattern Char := seq start <| seq (many isSpace) twoFields

/-- `(m.group(1), m.group(2))`. -/
def pair (groups : List (List Char)) : String × String :=
  (String.ofList (groups[0]?.getD []), String.ofList (groups[1]?.getD []))

/-- The body of the loop of `parse_direct_deps`: whether the next line is in a block, and what
is appended to `deps`. -/
def readLine (inBlock : Bool) (rawLine : List Char) : Bool × List (String × String) :=
  let parts := splitOnce slashes rawLine
  let code := rstrip parts.1
  let comment := parts.2.getD []
  let isIndirect := contains indirectWord comment
  if !inBlock then
    if (reMatch requireBlockOpen rawLine).isSome then (true, [])
    else
      match reMatch requireSingle code with
      | some m => (false, if isIndirect then [] else [pair m])
      | none => (false, [])
  else if strip code = [')'] then (false, [])
  else if strip code = [] then (true, [])
  else
    match reMatch blockLine code with
    | some m => (true, if isIndirect then [] else [pair m])
    | none => (true, [])

/-- `parse_direct_deps`. -/
def parseDirectDeps (gomodText : String) : List (String × String) :=
  (Sequence.run readLine false (splitlines gomodText.toList)).2

/-! ## Lines by their words -/

/-- The text before a comment. -/
def code (rawLine : List Char) : List Char := (splitOnce slashes rawLine).1

/-- The text of a comment. -/
def comment (rawLine : List Char) : Option (List Char) := (splitOnce slashes rawLine).2

/-- The words before a comment. -/
def tokens (rawLine : List Char) : List (List Char) := words isSpace (code rawLine)

/-- The word `indirect` is somewhere in the comment. -/
def mentions (rawLine : List Char) : Bool := contains indirectWord ((comment rawLine).getD [])

/-- The words of a line that opens a block. -/
def Opens (keyword : List Char) (ts : List (List Char)) : Prop :=
  ts = [keyword, ['(']] ∨ ts = [keyword ++ ['(']]

instance (keyword : List Char) (ts : List (List Char)) : Decidable (Opens keyword ts) :=
  inferInstanceAs (Decidable (_ ∨ _))

/-- The first two words. -/
def firstTwo : List (List Char) → List (String × String)
  | a :: b :: _ => [(String.ofList a, String.ofList b)]
  | _ => []

/-- The two words behind `require`. -/
def required : List (List Char) → List (String × String)
  | w :: ts => if w = requireWord then firstTwo ts else []
  | [] => []

section
variable {s t a b g : List Char} {ts : List (List Char)} {prev : Option Char}
  {gs : List (List Char)} {c d : Cursor Char}

theorem requireWord_noSpace : ∀ c ∈ requireWord, isSpace c = false := noSpace_of_all (by decide)

theorem paren_noSpace : ∀ c ∈ ['('], isSpace c = false := noSpace_of_all (by decide)

theorem forall_head_append (hne : a ≠ []) (ha : ∀ c ∈ a, isSpace c = false) :
    ∀ c ∈ (a ++ t).head?, isSpace c = false := by
  obtain ⟨x, a, rfl⟩ := List.exists_cons_of_ne_nil hne
  exact fun c hc => Option.some.inj hc ▸ ha x List.mem_cons_self

theorem exists_of_reMatch {p : Pattern Char} {m : List (List Char)} (h : reMatch p s = some m) :
    ∃ d, Matches p ⟨none, s, []⟩ d := by
  obtain ⟨d, hrun, -⟩ := Option.map_eq_some_iff.mp h
  obtain ⟨d, hd, -⟩ := exists_of_run hrun
  exact ⟨d, hd⟩

theorem reMatch_of_leads {p : Pattern Char} (h : Leads p ⟨none, s, []⟩ d) :
    reMatch p s = some d.groups := by
  rw [reMatch, h.run]
  rfl

/-- White space at the start is in no word. -/
theorem exists_of_indented {p : Pattern Char}
    (h : Matches (seq start <| seq (many isSpace) p) c d) :
    ∃ e, words isSpace c.rest = words isSpace e.rest ∧ Matches p e d := by
  obtain ⟨c, hstart, h⟩ := h.of_seq
  obtain rfl := hstart.of_look
  obtain ⟨e, hmany, h⟩ := h.of_seq
  obtain ⟨g, hg, hrest⟩ := hmany.of_many
  exact ⟨e, by rw [hrest, words_append_left hg], h⟩

/-! ### Opening a block -/

theorem opens_of_matches (h : Matches requireBlockOpen c d) :
    Opens requireWord (words isSpace c.rest) := by
  obtain ⟨c₁, hwords, h⟩ := exists_of_indented h
  obtain ⟨c₂, hlit, h⟩ := h.of_seq
  obtain ⟨c₃, hmany, h⟩ := h.of_seq
  obtain ⟨c₄, hone, h⟩ := h.of_seq
  obtain ⟨c₅, hmany', hstop⟩ := h.of_seq
  obtain ⟨u, hu, hrest⟩ := hmany.of_many
  obtain ⟨x, hx, hparen⟩ := hone.of_one
  obtain ⟨v, hv, hrest'⟩ := hmany'.of_many
  obtain rfl := eq_of_beq hx
  rw [hwords, hlit.of_lit, hrest, hparen, hrest', hstop.of_stop.2, List.append_nil]
  cases u with
  | nil =>
      have hword : ∀ c ∈ requireWord ++ ['('], isSpace c = false := noSpace_of_all (by decide)
      refine .inr ?_
      rw [List.nil_append, List.append_cons, words_append_right hv,
        words_eq_singleton (by simp) hword]
  | cons x u =>
      have hone : words isSpace ('(' :: v) = [['(']] :=
        (words_append_right (s := ['(']) hv).trans (words_eq_singleton (by simp) paren_noSpace)
      refine .inl ?_
      rw [words_append (by decide) requireWord_noSpace (by simpa using hu x),
        words_append_left hu, hone]

theorem leads_requireBlockOpen {u v : List Char} (hg : ∀ c ∈ g, isSpace c = true)
    (hu : ∀ c ∈ u, isSpace c = true) (hv : ∀ c ∈ v, isSpace c = true) :
    ∃ d, Leads requireBlockOpen ⟨none, g ++ (requireWord ++ (u ++ '(' :: v)), []⟩ d := by
  have hend : ∀ prev, Leads (many isSpace) ⟨prev, v, []⟩ ⟨after prev v, [], []⟩ := by
    intro prev
    have h : Leads (many isSpace) ⟨prev, v ++ [], []⟩ ⟨after prev v, [], []⟩ :=
      .many hv (by simp)
    rwa [List.append_nil] at h
  have hword := forall_head_append (t := u ++ '(' :: v) (by decide) requireWord_noSpace
  have hparen : ∀ c ∈ ('(' :: v).head?, isSpace c = false := fun c hc =>
    Option.some.inj hc ▸ by decide
  exact ⟨_, .seq .start <| .seq (.many hg hword) <| .seq (.lit _) <|
    .seq (.many hu hparen) <| .seq (.one rfl) <| .seq (hend _) .stop⟩

/-- A line opens a block if and only if these are its words. -/
theorem reMatch_requireBlockOpen :
    (reMatch requireBlockOpen s).isSome ↔ Opens requireWord (words isSpace s) := by
  constructor
  · intro h
    obtain ⟨m, hm⟩ := Option.isSome_iff_exists.mp h
    obtain ⟨d, hd⟩ := exists_of_reMatch hm
    exact opens_of_matches hd
  · rintro (h | h)
    · obtain ⟨g, t, rfl, hg, -, -, -, ht⟩ := exists_of_words_cons h
      obtain ⟨g', g'', rfl, hg', -, -, -, hg''⟩ := exists_of_words_cons ht
      obtain ⟨d, hd⟩ := leads_requireBlockOpen hg hg' (words_eq_nil_iff.mp hg'')
      exact Option.isSome_iff_exists.mpr ⟨_, reMatch_of_leads hd⟩
    · obtain ⟨g, g'', rfl, hg, -, -, -, hg''⟩ := exists_of_words_cons h
      obtain ⟨d, hd⟩ := leads_requireBlockOpen (u := []) hg (by simp) (words_eq_nil_iff.mp hg'')
      rw [List.append_assoc]
      exact Option.isSome_iff_exists.mpr ⟨_, reMatch_of_leads hd⟩

/-! ### Two fields -/

theorem exists_words_of_twoFields (h : Matches twoFields c d) :
    ∃ a b ts, words isSpace c.rest = a :: b :: ts := by
  obtain ⟨c₁, hfield, h⟩ := h.of_seq
  obtain ⟨c₂, hplus, hfield'⟩ := h.of_seq
  obtain ⟨a, hne, ha, hrest⟩ := hfield.of_group_plus
  obtain ⟨g, hgne, hg, hrest'⟩ := hplus.of_plus
  obtain ⟨b, hne', hb, hrest''⟩ := hfield'.of_group_plus
  obtain ⟨x, g, rfl⟩ := List.exists_cons_of_ne_nil hgne
  obtain ⟨y, b, rfl⟩ := List.exists_cons_of_ne_nil hne'
  have hy : isSpace y = false := by simpa using hb y List.mem_cons_self
  obtain ⟨v, t, heq, hv, hrun, hstop⟩ := exists_word_of_cons (s := b ++ d.rest) hy
  refine ⟨a, v, words isSpace t, ?_⟩
  rw [hrest, hrest', hrest'', words_append hne (by simpa using ha) (by simpa using hg x),
    words_append_left hg, List.cons_append, heq, words_append hv hrun hstop]

theorem leads_field (hne : a ≠ []) (ha : ∀ c ∈ a, isSpace c = false)
    (ht : ∀ c ∈ t.head?, isSpace c = true) :
    Leads field ⟨prev, a ++ t, gs⟩ ⟨after prev a, t, gs ++ [a]⟩ :=
  (Leads.plus hne (by simpa using ha) (by simpa using ht)).group

/-- The groups are the first two words. -/
theorem exists_leads_twoFields (h : words isSpace s = a :: b :: ts)
    (hs : ∀ c ∈ s.head?, isSpace c = false) :
    ∃ d, Leads twoFields ⟨prev, s, gs⟩ d ∧ d.groups = gs ++ [a] ++ [b] := by
  obtain ⟨t, rfl, hne, ha, ht, hwords⟩ := exists_of_words_word h hs
  obtain ⟨g, t', rfl, hgne, hg, hne', hb, ht', -⟩ := exists_of_words_gap hwords ht
  exact ⟨_, .seq (leads_field hne ha ht) <|
    .seq (.plus hgne hg (forall_head_append hne' hb)) (leads_field hne' hb ht'), rfl⟩

theorem reMatch_blockLine (h : words isSpace s = a :: b :: ts) :
    reMatch blockLine s = some [a, b] := by
  obtain ⟨g, t, rfl, hg, hne, ha, -⟩ := exists_of_words_cons h
  have hhead := forall_head_append (t := t) hne ha
  rw [words_append_left hg] at h
  obtain ⟨d, hd, hgroups⟩ := exists_leads_twoFields h hhead
  have hlead : Leads blockLine ⟨none, g ++ (a ++ t), []⟩ d :=
    .seq .start <| .seq (.many hg hhead) hd
  rw [reMatch_of_leads hlead, hgroups]
  rfl

theorem exists_of_blockLine {m : List (List Char)} (h : reMatch blockLine s = some m) :
    ∃ a b ts, words isSpace s = a :: b :: ts := by
  obtain ⟨d, h⟩ := exists_of_reMatch h
  obtain ⟨e, hwords, h⟩ := exists_of_indented h
  exact hwords ▸ exists_words_of_twoFields h

theorem reMatch_requireSingle (h : words isSpace s = requireWord :: a :: b :: ts) :
    reMatch requireSingle s = some [a, b] := by
  obtain ⟨g, t, rfl, hg, hne, hword, ht, hwords⟩ := exists_of_words_cons h
  obtain ⟨g', t', rfl, hgne, hg', hne', ha, -⟩ := exists_of_words_gap hwords ht
  have hhead := forall_head_append (t := t') hne' ha
  rw [words_append_left hg'] at hwords
  obtain ⟨d, hd, hgroups⟩ := exists_leads_twoFields hwords hhead
  have hlead : Leads requireSingle ⟨none, g ++ (requireWord ++ (g' ++ (a ++ t'))), []⟩ d :=
    .seq .start <| .seq (.many hg (forall_head_append hne hword)) <| .seq (.lit _) <|
      .seq (.plus hgne hg' hhead) hd
  rw [reMatch_of_leads hlead, hgroups]
  rfl

theorem exists_of_requireSingle {m : List (List Char)} (h : reMatch requireSingle s = some m) :
    ∃ a b ts, words isSpace s = requireWord :: a :: b :: ts := by
  obtain ⟨d, h⟩ := exists_of_reMatch h
  obtain ⟨c₁, hindent, h⟩ := exists_of_indented h
  obtain ⟨c₂, hlit, h⟩ := h.of_seq
  obtain ⟨c₃, hplus, h⟩ := h.of_seq
  obtain ⟨g, hne, hg, hrest⟩ := hplus.of_plus
  obtain ⟨y, g, rfl⟩ := List.exists_cons_of_ne_nil hne
  obtain ⟨a, b, ts, hwords⟩ := exists_words_of_twoFields h
  refine ⟨a, b, ts, hindent.trans ?_⟩
  rw [hlit.of_lit, hrest, words_append (by decide) requireWord_noSpace (by simpa using hg y),
    words_append_left hg, hwords]

end

/-! ### The body of the loop -/

section
variable {rawLine : List Char} {ts : List (List Char)}

theorem exists_of_firstTwo (h : firstTwo ts ≠ []) : ∃ a b us, ts = a :: b :: us := by
  match ts, h with
  | a :: b :: us, _ => exact ⟨a, b, us, rfl⟩

theorem exists_of_required (h : required ts ≠ []) : ∃ a b us, ts = requireWord :: a :: b :: us := by
  cases ts with
  | nil => exact absurd rfl h
  | cons w ts =>
      rw [required] at h
      split at h
      next hw =>
        obtain ⟨a, b, us, rfl⟩ := exists_of_firstTwo h
        exact ⟨a, b, us, by rw [hw]⟩
      next => exact absurd rfl h

/-- A line with a comment opens no block. -/
theorem opens_words_iff (rawLine : List Char) : Opens requireWord (words isSpace rawLine) ↔
    comment rawLine = none ∧ Opens requireWord (tokens rawLine) := by
  constructor
  · intro h
    cases hcomment : comment rawLine with
    | none => exact ⟨rfl, by rwa [tokens, code, splitOnce_eq_none hcomment]⟩
    | some t =>
        have hmem : '/' ∈ rawLine := by
          rw [splitOnce_eq_some hcomment]
          simp [slashes]
        have hchar : isSpace '/' = false := by decide
        obtain ⟨w, hw, hslash⟩ := exists_mem_words hchar hmem
        rcases h with h | h
        · rw [h] at hw
          rcases List.mem_pair.mp hw with rfl | rfl <;> exact absurd hslash (by decide)
        · rw [h] at hw
          obtain rfl := List.mem_singleton.mp hw
          exact absurd hslash (by decide)
  · rintro ⟨hcomment, h⟩
    rwa [tokens, code, splitOnce_eq_none hcomment] at h

/-- Outside of a block a line opens one, or requires its second and third word. -/
theorem readLine_outside (rawLine : List Char) :
    readLine false rawLine =
      if comment rawLine = none ∧ Opens requireWord (tokens rawLine) then (true, [])
      else (false, if mentions rawLine then [] else required (tokens rawLine)) := by
  have hcode : words isSpace (rstrip (code rawLine)) = tokens rawLine := words_rstrip _
  have hopen := reMatch_requireBlockOpen.trans (opens_words_iff rawLine)
  rw [readLine, Bool.not_false, if_pos rfl]
  split
  next h => rw [if_pos (hopen.mp h)]
  next h =>
    rw [if_neg (mt hopen.mpr h)]
    split
    next m hm =>
      obtain ⟨a, b, us, hwords⟩ := exists_of_requireSingle hm
      obtain rfl := Option.some.inj (hm.symm.trans (reMatch_requireSingle hwords))
      have htokens : tokens rawLine = requireWord :: a :: b :: us := hcode.symm.trans hwords
      rw [htokens, required, if_pos rfl]
      rfl
    next hm =>
      have hnone : required (tokens rawLine) = [] := by
        by_contra h
        obtain ⟨a, b, us, hwords⟩ := exists_of_required h
        cases hm.symm.trans (reMatch_requireSingle (hcode.trans hwords))
      rw [hnone, ite_self]

/-- Inside of a block a line closes it, or requires its first and second word. -/
theorem readLine_inside (rawLine : List Char) :
    readLine true rawLine =
      if tokens rawLine = [[')']] then (false, [])
      else (true, if mentions rawLine then [] else firstTwo (tokens rawLine)) := by
  have hcode : words isSpace (rstrip (code rawLine)) = tokens rawLine := words_rstrip _
  have hclose : strip (rstrip (code rawLine)) = [')'] ↔ tokens rawLine = [[')']] := by
    rw [strip_eq_iff (by simp) (noSpace_of_all (by decide)), hcode]
  have hblank : strip (rstrip (code rawLine)) = [] ↔ tokens rawLine = [] := by
    rw [strip_eq_nil_iff, hcode]
  rw [readLine, Bool.not_true, if_neg Bool.false_ne_true]
  split
  next h => rw [if_pos (hclose.mp h)]
  next h =>
    rw [if_neg (mt hclose.mpr h)]
    split
    next h =>
      have hnone : firstTwo (tokens rawLine) = [] := congrArg firstTwo (hblank.mp h)
      rw [hnone, ite_self]
    next =>
      split
      next m hm =>
        obtain ⟨a, b, us, hwords⟩ := exists_of_blockLine hm
        obtain rfl := Option.some.inj (hm.symm.trans (reMatch_blockLine hwords))
        have htokens : tokens rawLine = a :: b :: us := hcode.symm.trans hwords
        rw [htokens]
        rfl
      next hm =>
        have hnone : firstTwo (tokens rawLine) = [] := by
          by_contra h
          obtain ⟨a, b, us, hwords⟩ := exists_of_firstTwo h
          cases hm.symm.trans (reMatch_blockLine (hcode.trans hwords))
        rw [hnone, ite_self]

end

end Aicv.Mining.GoMod
