import Mathlib.Data.List.Infix
import Mathlib.Data.List.TakeWhile

/-!
# Words

The words of a text are its longest parts without a break.  Everything about them follows
from `words_append_cons`: a break separates the words before it from those behind it.

`exists_of_words_cons` takes the first word off a text, with the breaks around it.
-/

namespace Text

universe u

variable {α : Type u} {sp : α → Bool} {s t w g : List α} {ws : List (List α)} {c : α}

/-- The words of a text, between breaks. -/
def words (sp : α → Bool) (s : List α) : List (List α) := (s.splitOnP sp).filter fun w => !w.isEmpty

@[simp] theorem words_nil : words sp [] = [] := by
  rw [words, List.splitOnP_nil]
  rfl

theorem words_append_cons (hc : sp c = true) :
    words sp (s ++ c :: t) = words sp s ++ words sp t := by
  rw [words, List.splitOnP_append_cons s t hc, List.filter_append]
  rfl

theorem words_cons (hc : sp c = true) : words sp (c :: s) = words sp s :=
  words_append_cons (s := []) hc

/-- A text without breaks is a word. -/
theorem words_eq_singleton (hne : w ≠ []) (hw : ∀ c ∈ w, sp c = false) : words sp w = [w] := by
  simp [words, List.splitOnP_eq_singleton hw, hne]

/-- Breaks at the start are in no word. -/
theorem words_append_left (hg : ∀ c ∈ g, sp c = true) : words sp (g ++ s) = words sp s := by
  induction g with
  | nil => rfl
  | cons c g ih =>
      obtain ⟨hc, hg⟩ := List.forall_mem_cons.mp hg
      rw [List.cons_append, words_cons hc, ih hg]

/-- Breaks at the end are in no word. -/
theorem words_append_right (hg : ∀ c ∈ g, sp c = true) : words sp (s ++ g) = words sp s := by
  cases g with
  | nil => rw [List.append_nil]
  | cons c g =>
      obtain ⟨hc, hg⟩ := List.forall_mem_cons.mp hg
      have hnil : words sp g = [] := by
        rw [← List.append_nil g, words_append_left hg, words_nil]
      rw [words_append_cons hc, hnil, List.append_nil]

/-- A text that starts with a word. -/
theorem words_append (hne : w ≠ []) (hw : ∀ c ∈ w, sp c = false)
    (hs : ∀ c ∈ s.head?, sp c = true) : words sp (w ++ s) = w :: words sp s := by
  cases s with
  | nil => rw [List.append_nil, words_eq_singleton hne hw, words_nil]
  | cons c s =>
      have hc : sp c = true := hs c rfl
      rw [words_append_cons hc, words_cons hc, words_eq_singleton hne hw, List.singleton_append]

/-- A word with breaks behind it. -/
theorem words_append_gap (hne : w ≠ []) (hw : ∀ c ∈ w, sp c = false) (hgne : g ≠ [])
    (hg : ∀ c ∈ g, sp c = true) : words sp (w ++ (g ++ s)) = w :: words sp s := by
  obtain ⟨c, g, rfl⟩ := List.exists_cons_of_ne_nil hgne
  have hhead : ∀ a ∈ (c :: g ++ s).head?, sp a = true := fun a ha =>
    hg a (Option.some.inj ha ▸ List.mem_cons_self)
  rw [words_append hne hw hhead, words_append_left hg]

/-- A text that starts with no break starts with a word, which goes up to the next break. -/
theorem exists_word_of_cons (hc : sp c = false) :
    ∃ w t, c :: s = w ++ t ∧ w ≠ [] ∧ (∀ a ∈ w, sp a = false) ∧ ∀ a ∈ t.head?, sp a = true := by
  refine ⟨(c :: s).takeWhile (!sp ·), (c :: s).dropWhile (!sp ·),
    List.takeWhile_append_dropWhile.symm, by simp [hc],
    fun a ha => by simpa using List.mem_takeWhile_imp ha, fun a ha => ?_⟩
  have hstop := List.head?_dropWhile_not (!sp ·) (c :: s)
  rw [Option.mem_def.mp ha] at hstop
  simpa using hstop

/-- The first word, with the breaks before it and what is behind it. -/
theorem exists_of_words_cons (h : words sp s = w :: ws) :
    ∃ g t, s = g ++ (w ++ t) ∧ (∀ c ∈ g, sp c = true) ∧ w ≠ [] ∧ (∀ c ∈ w, sp c = false) ∧
      (∀ c ∈ t.head?, sp c = true) ∧ words sp t = ws := by
  induction s with
  | nil => cases h
  | cons c s ih =>
      cases hc : sp c with
      | true =>
          rw [words_cons hc] at h
          obtain ⟨g, t, rfl, hg, hrest⟩ := ih h
          exact ⟨c :: g, t, rfl, List.forall_mem_cons.mpr ⟨hc, hg⟩, hrest⟩
      | false =>
          obtain ⟨v, t, hs, hne, hrun, hstop⟩ := exists_word_of_cons (s := s) hc
          rw [hs, words_append hne hrun hstop] at h
          obtain ⟨rfl, rfl⟩ := List.cons.inj h
          exact ⟨[], t, hs, List.forall_mem_nil _, hne, hrun, hstop, rfl⟩

/-- A word comes first where there is no break before it. -/
theorem exists_of_words_word (h : words sp s = w :: ws) (hs : ∀ c ∈ s.head?, sp c = false) :
    ∃ t, s = w ++ t ∧ w ≠ [] ∧ (∀ c ∈ w, sp c = false) ∧ (∀ c ∈ t.head?, sp c = true) ∧
      words sp t = ws := by
  obtain ⟨g, t, rfl, hg, hrest⟩ := exists_of_words_cons h
  cases g with
  | nil => exact ⟨t, rfl, hrest⟩
  | cons c g =>
      have hc : sp c = false := hs c rfl
      rw [hg c List.mem_cons_self] at hc
      cases hc

/-- A word comes behind a gap where there is a break before it. -/
theorem exists_of_words_gap (h : words sp s = w :: ws) (hs : ∀ c ∈ s.head?, sp c = true) :
    ∃ g t, s = g ++ (w ++ t) ∧ g ≠ [] ∧ (∀ c ∈ g, sp c = true) ∧ w ≠ [] ∧
      (∀ c ∈ w, sp c = false) ∧ (∀ c ∈ t.head?, sp c = true) ∧ words sp t = ws := by
  obtain ⟨g, t, rfl, hg, hne, hw, hrest⟩ := exists_of_words_cons h
  cases g with
  | nil =>
      obtain ⟨c, w, rfl⟩ := List.exists_cons_of_ne_nil hne
      have hc : sp c = true := hs c rfl
      rw [hw c List.mem_cons_self] at hc
      cases hc
  | cons c g => exact ⟨c :: g, t, rfl, List.cons_ne_nil c g, hg, hne, hw, hrest⟩

theorem words_eq_nil_iff : words sp s = [] ↔ ∀ c ∈ s, sp c = true := by
  constructor
  · intro h
    induction s with
    | nil => exact List.forall_mem_nil _
    | cons c s ih =>
        cases hc : sp c with
        | true => exact List.forall_mem_cons.mpr ⟨hc, ih (words_cons hc ▸ h)⟩
        | false =>
            obtain ⟨v, t, hs, hne, hrun, hstop⟩ := exists_word_of_cons (s := s) hc
            rw [hs, words_append hne hrun hstop] at h
            cases h
  · intro h
    rw [← List.append_nil s, words_append_left h, words_nil]

/-- A word is a part of the text, has a unit and has no break. -/
theorem of_mem_words (h : w ∈ words sp s) : w <:+: s ∧ w ≠ [] ∧ ∀ c ∈ w, sp c = false := by
  induction hws : words sp s generalizing s with
  | nil =>
      rw [hws] at h
      cases h
  | cons v ws ih =>
      rw [hws] at h
      obtain ⟨g, t, rfl, -, hne, hv, -, ht⟩ := exists_of_words_cons hws
      rcases List.mem_cons.mp h with rfl | hw
      · exact ⟨⟨g, t, List.append_assoc g w t⟩, hne, hv⟩
      · obtain ⟨hpart, hrest⟩ := ih (ht.symm ▸ hw) ht
        rw [← List.append_assoc]
        exact ⟨hpart.trans (List.suffix_append (g ++ v) t).isInfix, hrest⟩

/-- A part without a break does not reach over one. -/
theorem isInfix_append_cons (hw : ∀ a ∈ w, sp a = false) (hc : sp c = true)
    (h : w <:+: s ++ c :: t) : w <:+: s ∨ w <:+: t := by
  obtain ⟨u, v, h⟩ := h
  rw [List.append_assoc] at h
  rcases List.append_eq_append_iff.mp h with ⟨r, rfl, hr⟩ | ⟨r, rfl, hr⟩
  · rcases List.append_eq_append_iff.mp hr with ⟨r', rfl, -⟩ | ⟨r', rfl, hr'⟩
    · exact .inl ⟨u, r', List.append_assoc u w r'⟩
    · cases r' with
      | nil =>
          rw [List.append_nil]
          exact .inl (List.suffix_append u r).isInfix
      | cons a r' =>
          obtain ⟨rfl, -⟩ := List.cons.inj hr'
          rw [hw c (by simp)] at hc
          cases hc
  · cases r with
    | nil =>
        rw [List.nil_append] at hr
        cases w with
        | nil => exact .inl List.nil_infix
        | cons a w =>
            obtain ⟨rfl, -⟩ := List.cons.inj hr
            rw [hw c List.mem_cons_self] at hc
            cases hc
    | cons a r =>
        obtain ⟨rfl, rfl⟩ := List.cons.inj hr
        exact .inr ⟨r, v, List.append_assoc r w v⟩

/-- Breaks at the start have no such part. -/
theorem isInfix_of_append (hne : w ≠ []) (hw : ∀ a ∈ w, sp a = false)
    (hg : ∀ c ∈ g, sp c = true) (h : w <:+: g ++ s) : w <:+: s := by
  induction g with
  | nil => exact h
  | cons c g ih =>
      obtain ⟨hc, hg⟩ := List.forall_mem_cons.mp hg
      rcases isInfix_append_cons (s := []) hw hc h with hnil | h
      · exact absurd (List.infix_nil.mp hnil) hne
      · exact ih hg h

/-- A part without a break is a part of a word. -/
theorem exists_isInfix_word (hne : w ≠ []) (hw : ∀ c ∈ w, sp c = false) (h : w <:+: s) :
    ∃ v ∈ words sp s, w <:+: v := by
  induction hws : words sp s generalizing s with
  | nil =>
      obtain ⟨c, w, rfl⟩ := List.exists_cons_of_ne_nil hne
      have hc := hw c List.mem_cons_self
      rw [words_eq_nil_iff.mp hws c (h.subset List.mem_cons_self)] at hc
      cases hc
  | cons v ws ih =>
      obtain ⟨g, t, rfl, hg, hv, hrun, hstop, ht⟩ := exists_of_words_cons hws
      have hword := isInfix_of_append hne hw hg h
      cases t with
      | nil => exact ⟨v, List.mem_cons_self, by rwa [List.append_nil] at hword⟩
      | cons c t =>
          rcases isInfix_append_cons hw (hstop c rfl) hword with hpart | hpart
          · exact ⟨v, List.mem_cons_self, hpart⟩
          · rw [words_cons (hstop c rfl)] at ht
            obtain ⟨v', hv', hpart⟩ := ih hpart ht
            exact ⟨v', List.mem_cons_of_mem v hv', hpart⟩

/-- What is no break is in a word. -/
theorem exists_mem_words (hc : sp c = false) (h : c ∈ s) : ∃ w ∈ words sp s, c ∈ w := by
  induction hws : words sp s generalizing s with
  | nil =>
      rw [words_eq_nil_iff.mp hws c h] at hc
      cases hc
  | cons v ws ih =>
      obtain ⟨g, t, rfl, hg, -, -, -, ht⟩ := exists_of_words_cons hws
      rcases List.mem_append.mp h with h | h
      · rw [hg c h] at hc
        cases hc
      rcases List.mem_append.mp h with h | h
      · exact ⟨v, List.mem_cons_self, h⟩
      · obtain ⟨w, hw, hmem⟩ := ih h ht
        exact ⟨w, List.mem_cons_of_mem v hw, hmem⟩

end Text
