import Aicv.Go.Strings

/-!
# Go JSON

What `json.Encoder` writes.  A string is quoted character by character, and a
character of HTML takes six bytes.  An object is written on one line.

`length_quoted` is the length of a quoted string, and `newline_not_mem_quoted` keeps it
on its line.
-/

namespace Aicv.Go

open Text

/-! ## Bytes of characters -/

/-- A byte below 128 stands for itself. -/
theorem toNat_eq_of_mem_utf8EncodeChar {c : Char} {b : UInt8} (h : b ∈ String.utf8EncodeChar c)
    (hb : b < 128) : c.toNat = b.toNat := by
  have hlt : b.toNat < 128 := hb
  show c.val.toNat = _
  unfold String.utf8EncodeChar at h
  dsimp only at h
  split_ifs at h <;> simp only [List.mem_cons, List.not_mem_nil, or_false] at h
  · obtain rfl := h
    rw [UInt8.toNat_ofNat']
    omega
  all_goals
    rcases h with rfl | rfl | rfl | rfl <;> rw [UInt8.toNat_ofNat'] at hlt <;> omega

/-! ## Strings -/

/-- A hexadecimal digit. -/
def hexDigit (n : ℕ) : UInt8 := UInt8.ofNat (if n < 10 then 48 + n else 87 + n)

/-- The letter after the backslash, for a character that is escaped by two bytes. -/
def shortEscape : Char → Option UInt8
  | '"' => some 34
  | '\\' => some 92
  | '\x08' => some 98
  | '\x0c' => some 102
  | '\n' => some 110
  | '\r' => some 114
  | '\t' => some 116
  | _ => none

/-- The characters of HTML that are escaped. -/
def html : List Char := ['<', '>', '&']

/-- The separators of JavaScript. -/
def separators : List Char := ['\u2028', '\u2029']

/-- What a character of a string is written as. -/
def escape (c : Char) : Bytes :=
  match shortEscape c with
  | some b => [92, b]
  | none =>
      if c.toNat < 32 ∨ c ∈ html then
        [92, 117, 48, 48, hexDigit (c.toNat / 16), hexDigit (c.toNat % 16)]
      else if c ∈ separators then [92, 117, 50, 48, 50, hexDigit (c.toNat % 16)]
      else String.utf8EncodeChar c

/-- A string in quotes. -/
def quoted (s : String) : Bytes := 34 :: s.toList.flatMap escape ++ [34]

/-- How many bytes a character of a string takes. -/
def escapedSize (c : Char) : ℕ :=
  if (shortEscape c).isSome then 2
  else if c.toNat < 32 ∨ c ∈ html ++ separators then 6
  else c.utf8Size

/-- How many bytes the characters of a string take. -/
def textSize (s : String) : ℕ := (s.toList.map escapedSize).sum

theorem length_escape (c : Char) : (escape c).length = escapedSize c := by
  unfold escape escapedSize
  cases shortEscape c with
  | some b => rfl
  | none =>
      simp only [Option.isSome_none, Bool.false_eq_true, if_false, List.mem_append]
      by_cases hhtml : c.toNat < 32 ∨ c ∈ html
      · rw [if_pos hhtml, if_pos (or_assoc.mp (.inl hhtml))]
        rfl
      · by_cases hsep : c ∈ separators
        · rw [if_neg hhtml, if_pos hsep, if_pos (.inr (.inr hsep))]
          rfl
        · have hnone : ¬ (c.toNat < 32 ∨ c ∈ html ∨ c ∈ separators) := fun h =>
            (or_assoc.mpr h).elim hhtml hsep
          rw [if_neg hhtml, if_neg hsep, if_neg hnone, String.length_utf8EncodeChar]

theorem length_quoted (s : String) : (quoted s).length = textSize s + 2 := by
  simp [quoted, textSize, List.length_flatMap, length_escape]

theorem newline_not_mem_hexDigit {n : ℕ} (hn : n < 16) : 10 ≠ hexDigit n := by
  revert n
  decide

theorem shortEscape_ne_newline {c : Char} {b : UInt8} (h : shortEscape c = some b) : 10 ≠ b := by
  unfold shortEscape at h
  split at h <;> cases h <;> decide

/-- A character does not end the line. -/
theorem newline_not_mem_escape (c : Char) : 10 ∉ escape c := by
  have hlow : 10 ≠ hexDigit (c.toNat % 16) := newline_not_mem_hexDigit (Nat.mod_lt _ (by decide))
  unfold escape
  split
  next b hb => simp [shortEscape_ne_newline hb]
  next hnone =>
    split
    next hhtml =>
      have hhigh : c.toNat / 16 < 16 := by
        rcases hhtml with hc | hc
        · omega
        · have hall : (html.all fun c => c.toNat / 16 < 16) = true := by decide
          exact of_decide_eq_true (List.all_eq_true.mp hall c hc)
      simp [newline_not_mem_hexDigit hhigh, hlow]
    next hhtml =>
      split
      next => simp [hlow]
      next =>
        intro hmem
        have hc : c.toNat = 10 := toNat_eq_of_mem_utf8EncodeChar hmem (by decide)
        exact hhtml (.inl (by omega))

theorem newline_not_mem_quoted (s : String) : 10 ∉ quoted s := by
  simp [quoted, newline_not_mem_escape]

/-! ## Numbers -/

/-- An integer. -/
def integer (n : ℤ) : Bytes := if n < 0 then 45 :: decimal n.natAbs else decimal n.natAbs

theorem newline_not_mem_integer (n : ℤ) : 10 ∉ integer n := by
  have hdecimal : 10 ∉ decimal n.natAbs := fun hmem =>
    absurd (List.all_eq_true.mp (all_isDigit_decimal _) 10 hmem) (by decide)
  unfold integer
  split
  next => simp [hdecimal]
  next => exact hdecimal

/-! ## Objects -/

/-- A member of an object. -/
def member (m : String × Bytes) : Bytes := quoted m.1 ++ 58 :: m.2

/-- The members of an object, between commas. -/
def members : List (String × Bytes) → Bytes
  | [] => []
  | [m] => member m
  | m :: m' :: ms => member m ++ 44 :: members (m' :: ms)

/-- An object. -/
def object (ms : List (String × Bytes)) : Bytes := 123 :: members ms ++ [125]

/-- The bytes of a member, with the comma behind it or the brace that closes the object. -/
def memberSize (m : String × Bytes) : ℕ := textSize m.1 + m.2.length + 4

theorem length_member (m : String × Bytes) : (member m).length + 1 = memberSize m := by
  simp only [member, memberSize, List.length_append, List.length_cons, length_quoted]
  omega

theorem length_members_cons (m : String × Bytes) :
    ∀ ms, (members (m :: ms)).length + 1 = ((m :: ms).map memberSize).sum
  | [] => length_member m
  | m' :: ms => by
      have hm := length_member m
      have hms := length_members_cons m' ms
      show _ = memberSize m + ((m' :: ms).map memberSize).sum
      rw [members, List.length_append, List.length_cons, hms]
      omega

theorem length_object_cons (m : String × Bytes) (ms : List (String × Bytes)) :
    (object (m :: ms)).length = ((m :: ms).map memberSize).sum + 1 := by
  rw [← length_members_cons, object, List.length_append, List.length_cons, List.length_singleton]

theorem newline_not_mem_members : ∀ {ms : List (String × Bytes)},
    (∀ m ∈ ms, 10 ∉ m.2) → 10 ∉ members ms
  | [], _ => List.not_mem_nil
  | [m], h => by
      simp [members, member, newline_not_mem_quoted, h]
  | m :: m' :: ms, h => by
      obtain ⟨hm, hms⟩ := List.forall_mem_cons.mp h
      have hrest := newline_not_mem_members hms
      simp [members, member, newline_not_mem_quoted, hm, hrest]

theorem newline_not_mem_object {ms : List (String × Bytes)} (h : ∀ m ∈ ms, 10 ∉ m.2) :
    10 ∉ object ms := by
  simp [object, newline_not_mem_members h]

/-- There is no space around an object. -/
theorem trimSpace_object (ms : List (String × Bytes)) : trimSpace (object ms) = object ms := by
  have hnil : ∀ w ∈ spaces, ¬ w <+: [] ∧ ¬ w <:+ [] := by decide
  have hstart : NoStart spaces (object ms) :=
    noStart_append (s := []) (fun w hw => (hnil w hw).1) (alone_ascii (by decide)) (by decide)
  have hend : NoEnd spaces (object ms) :=
    noEnd_append (fun w hw => (hnil w hw).2) (alone_ascii (by decide)) (.inr (by decide))
  exact trimSpace_eq_self hstart hend

end Aicv.Go
