import Mathlib.Data.List.DropRight
import Aicv.Text.Pattern
import Aicv.Text.Words

/-!
# Texts

Methods of `str`, on the characters of a text, and `re.match`.  A line ends at more
characters than a line feed: at a vertical tab, a form feed and the separators of Unicode.

White space at the ends of a text belongs to no word (`words_rstrip`, `strip_eq_iff`).  The
lines of a text are those of its parts that end with a line feed (`splitlines_append`).
-/

namespace Aicv.Python

open Text

/-- The characters of `str.isspace`, which are `\s` of a pattern. -/
def isSpace (c : Char) : Bool :=
  c ∈ ['\t', '\n', '\x0b', '\x0c', '\r', '\x1c', '\x1d', '\x1e', '\x1f', ' ', '\x85', '\xa0',
    '\u1680', '\u2028', '\u2029', '\u202f', '\u205f', '\u3000'] ||
  ('\u2000' ≤ c && c ≤ '\u200a')

/-- The characters at which `str.splitlines` ends a line. -/
def isLineBoundary (c : Char) : Bool :=
  c ∈ ['\n', '\r', '\x0b', '\x0c', '\x1c', '\x1d', '\x1e', '\x85', '\u2028', '\u2029']

/-- `re.match(p, s)`, with its groups. -/
def reMatch (p : Pattern Char) (s : List Char) : Option (List (List Char)) :=
  (p.run some ⟨none, s, []⟩).map (·.groups)

/-- `t in s`. -/
def contains (t s : List Char) : Bool := t <:+: s

/-- `s.rstrip()`. -/
def rstrip (s : List Char) : List Char := s.rdropWhile isSpace

/-- `s.strip()`. -/
def strip (s : List Char) : List Char := (rstrip s).dropWhile isSpace

/-- `s.split(sep, 1)`, of a separator that is not empty. -/
def splitOnce (sep : List Char) : List Char → List Char × Option (List Char)
  | [] => ([], none)
  | c :: s =>
      if sep.isPrefixOf (c :: s) then ([], some ((c :: s).drop sep.length))
      else (c :: (splitOnce sep s).1, (splitOnce sep s).2)

/-- `splitlines` behind the start of a line.  A line feed behind a carriage return belongs
to it. -/
def splitlinesFrom (afterReturn : Bool) (line : List Char) : List Char → List (List Char)
  | [] => if line = [] then [] else [line]
  | c :: s =>
      if c = '\n' ∧ afterReturn then splitlinesFrom false line s
      else if isLineBoundary c then line :: splitlinesFrom (c = '\r') [] s
      else splitlinesFrom false (line ++ [c]) s

/-- `f"{s:<width}"`. -/
def ljust (width : ℕ) (s : List Char) : List Char := s ++ List.replicate (width - s.length) ' '

/-- `s.splitlines()`. -/
def splitlines (s : List Char) : List (List Char) := splitlinesFrom false [] s

/-! ## White space -/

theorem noSpace_of_all {w : List Char} (h : w.all (!isSpace ·) = true) :
    ∀ c ∈ w, isSpace c = false := by
  simpa using h

theorem words_rstrip (s : List Char) : words isSpace (rstrip s) = words isSpace s := by
  have htake : ∀ c ∈ s.rtakeWhile isSpace, isSpace c = true := fun c hc =>
    List.mem_takeWhile_imp (List.mem_reverse.mp hc)
  rw [← words_append_right htake, rstrip, List.rdropWhile_append_rtakeWhile]

theorem words_strip (s : List Char) : words isSpace (strip s) = words isSpace s := by
  have htake : ∀ c ∈ (rstrip s).takeWhile isSpace, isSpace c = true :=
    fun c hc => List.mem_takeWhile_imp hc
  rw [← words_rstrip s, strip, ← words_append_left htake, List.takeWhile_append_dropWhile]

theorem strip_eq_nil_iff {s : List Char} : strip s = [] ↔ words isSpace s = [] := by
  constructor
  · intro h
    rw [← words_strip, h, words_nil]
  · intro h
    rw [← words_rstrip, words_eq_nil_iff] at h
    exact List.dropWhile_eq_nil_iff.mpr h

theorem strip_isInfix (s : List Char) : strip s <:+: s :=
  (List.dropWhile_suffix isSpace).isInfix.trans (List.rdropWhile_prefix isSpace s).isInfix

/-- A text is stripped to its only word. -/
theorem strip_eq_iff {s w : List Char} (hne : w ≠ []) (hw : ∀ c ∈ w, isSpace c = false) :
    strip s = w ↔ words isSpace s = [w] := by
  constructor
  · intro h
    rw [← words_strip, h, words_eq_singleton hne hw]
  · intro h
    obtain ⟨g, t, rfl, hg, -, -, -, ht⟩ := exists_of_words_cons h
    have hend : ∀ hl : g ++ w ≠ [], ¬ isSpace ((g ++ w).getLast hl) = true := by
      intro hl
      rw [List.getLast_append_of_ne_nil _ hne, hw _ (List.getLast_mem hne)]
      exact Bool.false_ne_true
    have hrstrip : rstrip (g ++ (w ++ t)) = g ++ w := by
      rw [← List.append_assoc, rstrip, List.rdropWhile, List.reverse_append,
        List.dropWhile_append_of_pos fun c hc =>
          words_eq_nil_iff.mp ht c (List.mem_reverse.mp hc)]
      exact List.rdropWhile_eq_self_iff.mpr hend
    obtain ⟨c, w, rfl⟩ := List.exists_cons_of_ne_nil hne
    rw [strip, hrstrip, List.dropWhile_append_of_pos hg,
      List.dropWhile_cons_of_neg (by simp [hw c List.mem_cons_self])]

/-! ## Splitting -/

section
variable {sep s : List Char}

theorem splitOnce_eq_none (h : (splitOnce sep s).2 = none) : (splitOnce sep s).1 = s := by
  induction s with
  | nil => rfl
  | cons c s ih =>
      rw [splitOnce] at h ⊢
      split at h
      next => cases h
      next hpre =>
        rw [if_neg hpre]
        exact congrArg (c :: ·) (ih h)

theorem splitOnce_eq_some {t : List Char} (h : (splitOnce sep s).2 = some t) :
    s = (splitOnce sep s).1 ++ (sep ++ t) := by
  induction s with
  | nil => cases h
  | cons c s ih =>
      rw [splitOnce] at h ⊢
      split at h
      next hpre =>
        obtain ⟨u, hu⟩ := List.isPrefixOf_iff_prefix.mp hpre
        rw [if_pos hpre]
        obtain rfl := Option.some.inj h
        rw [← hu, List.drop_left, List.nil_append]
      next hpre =>
        rw [if_neg hpre]
        exact congrArg (c :: ·) (ih h)

theorem splitOnce_isPrefix : (splitOnce sep s).1 <+: s := by
  cases hsplit : (splitOnce sep s).2 with
  | none => exact ⟨[], by rw [List.append_nil, splitOnce_eq_none hsplit]⟩
  | some t => exact ⟨sep ++ t, (splitOnce_eq_some hsplit).symm⟩

/-- The separator is nowhere before the first place where it is. -/
theorem not_isInfix_splitOnce (hsep : sep ≠ []) : ¬ sep <:+: (splitOnce sep s).1 := by
  induction s with
  | nil => exact fun h => hsep (List.infix_nil.mp h)
  | cons c s ih =>
      rw [splitOnce]
      split
      next => exact fun h => hsep (List.infix_nil.mp h)
      next hpre =>
        intro h
        rcases List.infix_cons_iff.mp h with h | h
        · refine hpre (List.isPrefixOf_iff_prefix.mpr (h.trans ?_))
          rw [List.prefix_cons_inj]
          exact splitOnce_isPrefix
        · exact ih h

/-- A text without the separator is not split. -/
theorem splitOnce_of_not_isInfix (h : ¬ sep <:+: s) : splitOnce sep s = (s, none) := by
  have hnone : (splitOnce sep s).2 = none := by
    cases hsplit : (splitOnce sep s).2 with
    | none => rfl
    | some t => exact absurd ⟨_, t, (List.append_assoc _ sep t).trans
        (splitOnce_eq_some hsplit).symm⟩ h
  exact Prod.ext (splitOnce_eq_none hnone) hnone

end

/-! ## Lines -/

section
variable {s t line : List Char} {afterReturn : Bool}

/-- Behind a line feed a line starts anew. -/
theorem splitlinesFrom_append (h : afterReturn = true → line = []) :
    splitlinesFrom afterReturn line (s ++ '\n' :: t) =
      splitlinesFrom afterReturn line (s ++ ['\n']) ++ splitlines t := by
  induction s generalizing afterReturn line with
  | nil =>
      rw [List.nil_append, List.nil_append, splitlinesFrom, splitlinesFrom]
      split
      next hreturn =>
        rw [h hreturn.2]
        rfl
      next => rfl
  | cons c s ih =>
      rw [List.cons_append, List.cons_append, splitlinesFrom, splitlinesFrom]
      split
      next hreturn => exact ih (by simp)
      next =>
        split
        next => rw [ih fun _ => rfl, List.cons_append]
        next => exact ih (by simp)

theorem splitlines_append (s t : List Char) :
    splitlines (s ++ '\n' :: t) = splitlines (s ++ ['\n']) ++ splitlines t :=
  splitlinesFrom_append fun h => absurd h Bool.false_ne_true

/-- A boundary at the end adds no line but an empty one. -/
theorem splitlinesFrom_concat {c : Char} (hc : isLineBoundary c = true)
    (h : afterReturn = true → line = []) :
    splitlinesFrom afterReturn line (s ++ [c]) = splitlinesFrom afterReturn line s ∨
      splitlinesFrom afterReturn line (s ++ [c]) = splitlinesFrom afterReturn line s ++ [[]] := by
  induction s generalizing afterReturn line with
  | nil =>
      by_cases hfeed : c = '\n' ∧ afterReturn = true
      · have hone : splitlinesFrom afterReturn line [c] = splitlinesFrom false line [] :=
          if_pos hfeed
        exact .inl hone
      · have hone : splitlinesFrom afterReturn line [c] = [line] :=
          (if_neg hfeed).trans (if_pos hc)
        rw [List.nil_append, hone, splitlinesFrom]
        split
        next hline => exact .inr (by rw [hline, List.nil_append])
        next => exact .inl rfl
  | cons c s ih =>
      rw [List.cons_append, splitlinesFrom, splitlinesFrom]
      split
      next hreturn => exact ih (by simp)
      next =>
        split
        next =>
          rcases @ih [] (c = '\r') fun _ => rfl with h | h
          · exact .inl (congrArg _ h)
          · exact .inr (congrArg _ h)
        next => exact ih (by simp)

theorem splitlines_concat {c : Char} (hc : isLineBoundary c = true) (s : List Char) :
    splitlines (s ++ [c]) = splitlines s ∨ splitlines (s ++ [c]) = splitlines s ++ [[]] :=
  splitlinesFrom_concat hc fun h => absurd h Bool.false_ne_true

/-- A text that is not empty has a line. -/
theorem splitlinesFrom_ne_nil (h : line ≠ [] ∨ s ≠ []) : splitlinesFrom false line s ≠ [] := by
  induction s generalizing line with
  | nil =>
      rw [splitlinesFrom, if_neg (h.resolve_right (absurd rfl))]
      exact List.cons_ne_nil line []
  | cons c s ih =>
      rw [splitlinesFrom, if_neg (by simp)]
      split
      next => exact List.cons_ne_nil line _
      next => exact ih (.inl (by simp))

/-- The characters of a line that has no boundary. -/
theorem splitlinesFrom_plain (hs : ∀ c ∈ s, isLineBoundary c = false) :
    splitlinesFrom false line (s ++ t) = splitlinesFrom false (line ++ s) t := by
  induction s generalizing line with
  | nil => rw [List.nil_append, List.append_nil]
  | cons c s ih =>
      obtain ⟨hc, hs⟩ := List.forall_mem_cons.mp hs
      rw [List.cons_append, splitlinesFrom, if_neg (by simp), if_neg (by simp [hc]), ih hs,
        List.append_assoc, List.singleton_append]

/-- Lines without a boundary, each with a line feed behind it. -/
theorem splitlines_flatMap {ls : List (List Char)}
    (h : ∀ l ∈ ls, ∀ c ∈ l, isLineBoundary c = false) :
    splitlines (ls.flatMap (· ++ ['\n'])) = ls := by
  induction ls with
  | nil => rfl
  | cons l ls ih =>
      obtain ⟨hl, hls⟩ := List.forall_mem_cons.mp h
      have hone : splitlines (l ++ ['\n']) = [l] := by
        rw [splitlines, splitlinesFrom_plain hl]
        rfl
      rw [List.flatMap_cons, List.append_assoc, List.singleton_append, splitlines_append, hone,
        ih hls, List.singleton_append]

/-- `"\n".join(ls + [""])` ends every line of `ls`. -/
theorem toList_join_lines (ls : List String) :
    ("\n".intercalate (ls ++ [""])).toList = (ls.map String.toList).flatMap (· ++ ['\n']) := by
  induction ls with
  | nil => rfl
  | cons l ls ih =>
      rw [List.cons_append, String.intercalate_cons_of_ne_nil (by simp), String.toList_append,
        String.toList_append, ih, List.map_cons, List.flatMap_cons]
      rfl

end

/-! ## Text files -/

/-- What is read of a text file: each end of a line as a line feed. -/
def universalFrom (afterReturn : Bool) : List Char → List Char
  | [] => []
  | c :: cs =>
      if c = '\n' ∧ afterReturn = true then universalFrom false cs
      else if c = '\r' then '\n' :: universalFrom true cs
      else c :: universalFrom false cs

/-- Nothing of a text without carriage returns is replaced. -/
theorem universalFrom_eq {cs : List Char} (h : '\r' ∉ cs) : universalFrom false cs = cs := by
  induction cs with
  | nil => rfl
  | cons c cs ih =>
      obtain ⟨hc, hcs⟩ := not_or.mp (mt List.mem_cons.mpr h)
      rw [universalFrom, if_neg fun h => Bool.false_ne_true h.2, if_neg (Ne.symm hc), ih hcs]

end Aicv.Python
