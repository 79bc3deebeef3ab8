import Mathlib.Data.List.Infix

/-!
# Stripping texts

`stripStart ws` removes words of `ws` from the start of a text as long as one is
there, and `stripEnd ws` from its end.  A text may be made of any units, and a word
of several, as a character is of several bytes.

A text without a word of `ws` at the end in question stays as it is
(`stripStart_eq_self`, `stripEnd_eq_self`), and what is left is a part of the text
(`strip_isInfix`).  A unit that is only in the word it is by itself separates what is
before it from what is after it (`noStart_append`, `noEnd_append`).
-/

namespace Text

universe u

variable {α : Type u} {ws : List (List α)} {a : α} {s t : List α}

/-- No word of `ws` at the start. -/
def NoStart (ws : List (List α)) (s : List α) : Prop := ∀ w ∈ ws, ¬ w <+: s

/-- No word of `ws` at the end. -/
def NoEnd (ws : List (List α)) (s : List α) : Prop := ∀ w ∈ ws, ¬ w <:+ s

/-- No word of `ws` has the unit, except for the word it is by itself. -/
def Alone (ws : List (List α)) (a : α) : Prop := ∀ w ∈ ws, a ∈ w → w = [a]

section
variable [DecidableEq α]

/-- `stripStart` after `n` further units. -/
def stripAfter (ws : List (List α)) : ℕ → List α → List α
  | _, [] => []
  | n + 1, _ :: s => stripAfter ws n s
  | 0, a :: s =>
      match ws.find? (·.isPrefixOf (a :: s)) with
      | some w => stripAfter ws (w.length - 1) s
      | none => a :: s

/-- The text without the words at its start. -/
def stripStart (ws : List (List α)) (s : List α) : List α := stripAfter ws 0 s

/-- The text without the words at its end. -/
def stripEnd (ws : List (List α)) (s : List α) : List α :=
  (stripStart (ws.map List.reverse) s.reverse).reverse

instance : Decidable (NoStart ws s) := inferInstanceAs (Decidable (∀ w ∈ ws, ¬ w <+: s))

instance : Decidable (NoEnd ws s) := inferInstanceAs (Decidable (∀ w ∈ ws, ¬ w <:+ s))

instance : Decidable (Alone ws a) := inferInstanceAs (Decidable (∀ w ∈ ws, a ∈ w → w = [a]))

end

/-! ## Words at the ends -/

theorem noStart_reverse (h : NoEnd ws s) : NoStart (ws.map List.reverse) s.reverse := by
  intro w hw hpre
  obtain ⟨v, hv, rfl⟩ := List.mem_map.mp hw
  exact h v hv (List.reverse_prefix.mp hpre)

theorem Alone.reverse (h : Alone ws a) : Alone (ws.map List.reverse) a := by
  intro w hw ha
  obtain ⟨v, hv, rfl⟩ := List.mem_map.mp hw
  rw [h v hv (List.mem_reverse.mp ha), List.reverse_singleton]

/-- A word does not reach from the start over a unit that is not in it. -/
theorem noStart_append (hs : NoStart ws s) (ha : Alone ws a) (hword : [a] ∉ ws) :
    NoStart ws (s ++ a :: t) := by
  rintro w hw ⟨r, hr⟩
  rcases List.append_eq_append_iff.mp hr with ⟨v, rfl, -⟩ | ⟨v, rfl, hv⟩
  · exact hs w hw (List.prefix_append w v)
  · cases v with
    | nil => exact hs _ hw (by simp)
    | cons b v =>
        obtain ⟨rfl, -⟩ := List.cons.inj hv
        rw [ha _ hw (by simp)] at hw
        exact hword hw

/-- A word does not reach from the end over a unit, unless it is that unit at the
end. -/
theorem noEnd_append (ht : NoEnd ws t) (ha : Alone ws a) (h : t ≠ [] ∨ [a] ∉ ws) :
    NoEnd ws (s ++ a :: t) := by
  rintro w hw ⟨r, hr⟩
  rw [List.append_cons] at hr
  rcases List.append_eq_append_iff.mp hr with ⟨v, hv, rfl⟩ | ⟨v, -, rfl⟩
  · rcases List.eq_nil_or_concat v with rfl | ⟨u, b, rfl⟩
    · exact ht t hw List.suffix_rfl
    · rw [List.concat_eq_append, ← List.append_assoc] at hv
      obtain ⟨-, hab⟩ := List.append_inj' hv rfl
      obtain rfl := List.singleton_inj.mp hab
      have hone := ha _ hw (by simp)
      rcases h with h | h
      · have hlen := congrArg List.length hone
        have := List.length_pos_iff.mpr h
        simp only [List.length_append, List.length_concat, List.length_singleton] at hlen
        omega
      · exact h (hone ▸ hw)
  · exact ht w hw (List.suffix_append v w)

/-! ## Stripping -/

section
variable [DecidableEq α]

theorem stripAfter_isSuffix : ∀ (n : ℕ) (s : List α), stripAfter ws n s <:+ s
  | n, [] => by cases n <;> exact List.suffix_rfl
  | n + 1, a :: s => (stripAfter_isSuffix n s).trans (List.suffix_cons a s)
  | 0, a :: s => by
      rw [stripAfter]
      split
      · exact (stripAfter_isSuffix _ s).trans (List.suffix_cons a s)
      · exact List.suffix_rfl

theorem stripStart_isSuffix (s : List α) : stripStart ws s <:+ s := stripAfter_isSuffix 0 s

theorem stripEnd_isPrefix (s : List α) : stripEnd ws s <+: s := by
  have h : stripStart (ws.map List.reverse) s.reverse <:+ s.reverse := stripStart_isSuffix _
  rw [← List.reverse_prefix, List.reverse_reverse] at h
  exact h

/-- What is left after both ends are stripped is a part of the text. -/
theorem strip_isInfix (s : List α) : stripStart ws (stripEnd ws s) <:+: s :=
  (stripStart_isSuffix _).isInfix.trans (stripEnd_isPrefix s).isInfix

theorem stripStart_eq_self (h : NoStart ws s) : stripStart ws s = s := by
  cases s with
  | nil => rfl
  | cons a s =>
      have hnone : ws.find? (·.isPrefixOf (a :: s)) = none := by
        rw [List.find?_eq_none]
        intro w hw hpre
        exact h w hw (List.isPrefixOf_iff_prefix.mp hpre)
      rw [stripStart, stripAfter, hnone]

theorem stripEnd_eq_self (h : NoEnd ws s) : stripEnd ws s = s := by
  rw [stripEnd, stripStart_eq_self (noStart_reverse h), List.reverse_reverse]

/-- A word of one unit is removed by itself. -/
theorem stripStart_cons (hword : [a] ∈ ws) (ha : Alone ws a) (hne : [] ∉ ws) :
    stripStart ws (a :: s) = stripStart ws s := by
  obtain ⟨w, hw⟩ : ∃ w, ws.find? (·.isPrefixOf (a :: s)) = some w := by
    rw [← Option.isSome_iff_exists, List.find?_isSome]
    exact ⟨[a], hword, by simp⟩
  have hmem : w ∈ ws := List.mem_of_find?_eq_some hw
  have hpre : w.isPrefixOf (a :: s) = true := by simpa using List.find?_some hw
  obtain ⟨r, hr⟩ := List.isPrefixOf_iff_prefix.mp hpre
  have hone : w = [a] := by
    cases w with
    | nil => exact absurd hmem hne
    | cons b w =>
        obtain ⟨rfl, -⟩ := List.cons.inj hr
        exact ha _ hmem List.mem_cons_self
  rw [stripStart, stripAfter, hw, hone]
  rfl

theorem stripEnd_concat (hword : [a] ∈ ws) (ha : Alone ws a) (hne : [] ∉ ws) :
    stripEnd ws (s ++ [a]) = stripEnd ws s := by
  have hword' : [a] ∈ ws.map List.reverse := List.mem_map.mpr ⟨[a], hword, rfl⟩
  have hne' : [] ∉ ws.map List.reverse := by
    intro h
    obtain ⟨v, hv, hnil⟩ := List.mem_map.mp h
    rw [List.reverse_eq_nil_iff.mp hnil] at hv
    exact hne hv
  rw [stripEnd, stripEnd, List.reverse_append, List.reverse_singleton, List.singleton_append,
    stripStart_cons hword' ha.reverse hne']

end

end Text
