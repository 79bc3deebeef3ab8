import Mathlib.Data.List.TakeWhile
import Aicv.Python.Library

/-!
# Numbers and strings of JSON

How `json.dumps` writes a string and how `json.loads` reads a number and a string.  What comes
behind a number does not change what is read (`number_append`), and a string is read back from
its text, whether the other alphabets are escaped or not (`string_escaped`).
-/

namespace Aicv.Python.JsonText

/-! ## Numbers -/

/-- The characters of numbers. -/
def isNumberChar (c : Char) : Bool := c.isDigit || c ∈ ['-', '+', '.', 'e', 'E']

/-- No number goes on here. -/
def Ends (cs : List Char) : Prop := ∀ c ∈ cs.head?, isNumberChar c = false

/-- `0|[1-9]\d*`. -/
def natural : List Char → Option (List Char × List Char)
  | [] => none
  | c :: cs =>
      if c = '0' then some ([c], cs)
      else if c.isDigit then some (c :: cs.takeWhile Char.isDigit, cs.dropWhile Char.isDigit)
      else none

/-- `-?(?:0|[1-9]\d*)`. -/
def integer : List Char → Option (List Char × List Char)
  | [] => none
  | c :: cs =>
      if c = '-' then (natural cs).map fun p => (c :: p.1, p.2)
      else natural (c :: cs)

/-- `(\.\d+)?`. -/
def fraction : List Char → List Char × List Char
  | [] => ([], [])
  | c :: cs =>
      if c = '.' ∧ cs.takeWhile Char.isDigit ≠ [] then
        (c :: cs.takeWhile Char.isDigit, cs.dropWhile Char.isDigit)
      else ([], c :: cs)

/-- `[-+]?`. -/
def sign : List Char → List Char × List Char
  | [] => ([], [])
  | c :: cs => if c = '-' ∨ c = '+' then ([c], cs) else ([], c :: cs)

/-- `([eE][-+]?\d+)?`. -/
def exponent : List Char → List Char × List Char
  | [] => ([], [])
  | c :: cs =>
      if (c = 'e' ∨ c = 'E') ∧ (sign cs).2.takeWhile Char.isDigit ≠ [] then
        (c :: (sign cs).1 ++ (sign cs).2.takeWhile Char.isDigit,
          (sign cs).2.dropWhile Char.isDigit)
      else ([], c :: cs)

/-- `repr(int(s))`, of the text of an integer. -/
def reprInt (s : List Char) : List Char := if s = ['-', '0'] then ['0'] else s

/-- `match_number`, and what the number is written as.  The parameter is how `json.dumps` writes
the `float` of a text. -/
def number (float : List Char → List Char) (cs : List Char) : Option (List Char × List Char) :=
  (integer cs).map fun p =>
    let (part, r) := fraction p.2
    let (power, r) := exponent r
    if part = [] ∧ power = [] then (reprInt p.1, r) else (float (p.1 ++ part ++ power), r)

section
variable {float : List Char → List Char} {cs rest s r : List Char}

theorem ends_nil : Ends [] := nofun

theorem ends_cons {c : Char} (h : isNumberChar c = false) : Ends (c :: cs) := by
  rintro _ ⟨⟩
  exact h

theorem Ends.digit (h : Ends rest) : ∀ c ∈ rest.head?, c.isDigit = false := by
  intro c hc
  have hnot := h c hc
  rw [isNumberChar, Bool.or_eq_false_iff] at hnot
  exact hnot.1

/-- A run of digits stops where no number goes on. -/
theorem digits_append (h : Ends rest) (cs : List Char) :
    (cs ++ rest).takeWhile Char.isDigit = cs.takeWhile Char.isDigit ∧
      (cs ++ rest).dropWhile Char.isDigit = cs.dropWhile Char.isDigit ++ rest := by
  induction cs with
  | nil =>
      cases rest with
      | nil => exact ⟨rfl, rfl⟩
      | cons c rest =>
          have hc := h.digit c rfl
          simp [hc]
  | cons c cs ih =>
      cases hc : c.isDigit with
      | true => simp [hc, ih.1, ih.2]
      | false => simp [hc]

theorem natural_of_ends (h : Ends rest) : natural rest = none := by
  cases rest with
  | nil => rfl
  | cons c rest =>
      have hc := h.digit c rfl
      have hzero : c ≠ '0' := by
        rintro rfl
        cases hc
      rw [natural, if_neg hzero, hc]
      rfl

theorem natural_append (h : Ends rest) (cs : List Char) :
    natural (cs ++ rest) = (natural cs).map fun p => (p.1, p.2 ++ rest) := by
  cases cs with
  | nil => exact natural_of_ends h
  | cons c cs =>
      obtain ⟨htake, hdrop⟩ := digits_append h cs
      rw [List.cons_append, natural, natural, htake, hdrop]
      split_ifs <;> rfl

theorem integer_append (h : Ends rest) (cs : List Char) :
    integer (cs ++ rest) = (integer cs).map fun p => (p.1, p.2 ++ rest) := by
  cases cs with
  | nil =>
      cases rest with
      | nil => rfl
      | cons c rest =>
          have hminus : c ≠ '-' := by
            rintro rfl
            cases h '-' rfl
          show integer (c :: rest) = none
          rw [integer, if_neg hminus, natural_of_ends h]
  | cons c cs =>
      rw [List.cons_append, integer, integer]
      split
      next => rw [natural_append h, Option.map_map, Option.map_map]; rfl
      next => rw [← List.cons_append, natural_append h]

theorem fraction_append (h : Ends rest) (cs : List Char) :
    fraction (cs ++ rest) = ((fraction cs).1, (fraction cs).2 ++ rest) := by
  cases cs with
  | nil =>
      cases rest with
      | nil => rfl
      | cons c rest =>
          have hdot : c ≠ '.' := by
            rintro rfl
            cases h '.' rfl
          show fraction (c :: rest) = ([], c :: rest)
          rw [fraction, if_neg (mt And.left hdot)]
  | cons c cs =>
      obtain ⟨htake, hdrop⟩ := digits_append h cs
      rw [List.cons_append, fraction, fraction, htake, hdrop]
      split <;> rfl

theorem sign_append (h : Ends rest) (cs : List Char) :
    sign (cs ++ rest) = ((sign cs).1, (sign cs).2 ++ rest) := by
  cases cs with
  | nil =>
      cases rest with
      | nil => rfl
      | cons c rest =>
          have hsign : ¬ (c = '-' ∨ c = '+') := by
            rintro (rfl | rfl)
            · cases h '-' rfl
            · cases h '+' rfl
          show sign (c :: rest) = ([], c :: rest)
          rw [sign, if_neg hsign]
  | cons c cs =>
      rw [List.cons_append, sign, sign]
      split <;> rfl

theorem exponent_append (h : Ends rest) (cs : List Char) :
    exponent (cs ++ rest) = ((exponent cs).1, (exponent cs).2 ++ rest) := by
  cases cs with
  | nil =>
      cases rest with
      | nil => rfl
      | cons c rest =>
          have hletter : ¬ (c = 'e' ∨ c = 'E') := by
            rintro (rfl | rfl)
            · cases h 'e' rfl
            · cases h 'E' rfl
          show exponent (c :: rest) = ([], c :: rest)
          rw [exponent, if_neg (mt And.left hletter)]
  | cons c cs =>
      obtain ⟨htake, hdrop⟩ := digits_append h (sign cs).2
      rw [List.cons_append, exponent, exponent, sign_append h, htake, hdrop]
      split <;> rfl

/-- What comes behind a number does not change it. -/
theorem number_append (h : Ends rest) (cs : List Char) :
    number float (cs ++ rest) = (number float cs).map fun p => (p.1, p.2 ++ rest) := by
  rw [number, number, integer_append h, Option.map_map, Option.map_map]
  congr 1
  funext p
  simp only [Function.comp_apply, fraction_append h, exponent_append h]
  split <;> rfl

/-! ## What a number is read as -/

theorem natural_self (h : natural cs = some (s, r)) : natural s = some (s, []) := by
  cases cs with
  | nil => cases h
  | cons c cs =>
      rw [natural] at h
      split_ifs at h with hzero hdigit <;> cases h
      · rw [hzero]
        rfl
      · have hall : ∀ c ∈ cs.takeWhile Char.isDigit, c.isDigit = true := fun c hc =>
          List.mem_takeWhile_imp hc
        rw [natural, if_neg hzero, if_pos hdigit, List.takeWhile_eq_self_iff.mpr hall,
          List.dropWhile_eq_nil_iff.mpr hall]

theorem integer_self (h : integer cs = some (s, r)) : integer s = some (s, []) := by
  cases cs with
  | nil => cases h
  | cons c cs =>
      rw [integer] at h
      split at h
      next hminus =>
        obtain ⟨⟨t, r⟩, hnatural, heq⟩ := Option.map_eq_some_iff.mp h
        cases heq
        rw [integer, if_pos hminus, natural_self hnatural]
        rfl
      next hminus =>
        have hself := natural_self h
        cases s with
        | nil => cases hself
        | cons d s =>
            have hhead : d = c := by
              rw [natural] at h
              split_ifs at h <;> cases h <;> rfl
            rw [integer, hhead, if_neg hminus, ← hhead, hself]

/-- The scanner takes `s`, of characters of numbers, and leaves `r`. -/
def Takes (cs s r : List Char) : Prop := cs = s ++ r ∧ ∀ c ∈ s, isNumberChar c = true

theorem isNumberChar_of_isDigit {c : Char} (h : c.isDigit = true) : isNumberChar c = true := by
  rw [isNumberChar, h, Bool.true_or]

theorem takes_nil (cs : List Char) : Takes cs [] cs := ⟨rfl, List.forall_mem_nil _⟩

theorem Takes.cons {c : Char} (hc : isNumberChar c = true) (h : Takes cs s r) :
    Takes (c :: cs) (c :: s) r := ⟨congrArg (c :: ·) h.1, List.forall_mem_cons.mpr ⟨hc, h.2⟩⟩

theorem Takes.append {t q : List Char} (h : Takes cs s r) (h' : Takes r t q) :
    Takes cs (s ++ t) q :=
  ⟨by rw [h.1, h'.1, List.append_assoc], List.forall_mem_append.mpr ⟨h.2, h'.2⟩⟩

theorem takes_digits (cs : List Char) :
    Takes cs (cs.takeWhile Char.isDigit) (cs.dropWhile Char.isDigit) :=
  ⟨List.takeWhile_append_dropWhile.symm, fun _ hc =>
    isNumberChar_of_isDigit (List.mem_takeWhile_imp hc)⟩

theorem takes_natural (h : natural cs = some (s, r)) : Takes cs s r := by
  cases cs with
  | nil => cases h
  | cons c cs =>
      rw [natural] at h
      split_ifs at h with hzero hdigit <;> cases h
      · exact (takes_nil _).cons (hzero ▸ rfl)
      · exact (takes_digits cs).cons (isNumberChar_of_isDigit hdigit)

theorem takes_integer (h : integer cs = some (s, r)) : Takes cs s r := by
  cases cs with
  | nil => cases h
  | cons c cs =>
      rw [integer] at h
      split at h
      next hminus =>
        obtain ⟨p, hnatural, heq⟩ := Option.map_eq_some_iff.mp h
        cases heq
        exact (takes_natural hnatural).cons (hminus ▸ rfl)
      next => exact takes_natural h

theorem takes_fraction (cs : List Char) : Takes cs (fraction cs).1 (fraction cs).2 := by
  cases cs with
  | nil => exact takes_nil _
  | cons c cs =>
      rw [fraction]
      split
      next hdot => exact (takes_digits cs).cons (hdot.1 ▸ rfl)
      next => exact takes_nil _

theorem takes_sign (cs : List Char) : Takes cs (sign cs).1 (sign cs).2 := by
  cases cs with
  | nil => exact takes_nil _
  | cons c cs =>
      rw [sign]
      split
      next hsign => exact (takes_nil cs).cons (by rcases hsign with rfl | rfl <;> rfl)
      next => exact takes_nil _

theorem takes_exponent (cs : List Char) : Takes cs (exponent cs).1 (exponent cs).2 := by
  cases cs with
  | nil => exact takes_nil _
  | cons c cs =>
      rw [exponent]
      split
      next hletter =>
        exact ((takes_sign cs).append (takes_digits _)).cons
          (by rcases hletter.1 with rfl | rfl <;> rfl)
      next => exact takes_nil _

/-- A text of a number as `json.dumps` writes it. -/
def IsNumber (float : List Char → List Char) (s : List Char) : Prop :=
  number float s = some (s, [])

theorem isNumber_reprInt (h : integer cs = some (s, r)) : IsNumber float (reprInt s) := by
  rw [reprInt]
  split
  next => rfl
  next hzero =>
    rw [IsNumber, number, integer_self h]
    exact congrArg some (Prod.ext (if_neg hzero) rfl)

/-- A number is not empty, and has the characters of numbers. -/
theorem IsNumber.chars (h : IsNumber float s) : s ≠ [] ∧ ∀ c ∈ s, isNumberChar c = true := by
  obtain ⟨p, hinteger, heq⟩ := Option.map_eq_some_iff.mp h
  have htakes := ((takes_integer hinteger).append (takes_fraction p.2)).append
    (takes_exponent (fraction p.2).2)
  have hrest : (exponent (fraction p.2).2).2 = [] := by
    simp only at heq
    split at heq <;> exact congrArg Prod.snd heq
  rw [hrest] at htakes
  constructor
  · rintro rfl
    cases hinteger
  · rw [htakes.1, List.append_nil]
    exact htakes.2

/-- What is read as a number has been written as one, or is a `float`. -/
theorem isNumber_or_float (h : number float cs = some (s, r)) :
    IsNumber float s ∨ ∃ t, s = float t := by
  obtain ⟨p, hinteger, heq⟩ := Option.map_eq_some_iff.mp h
  simp only at heq
  split at heq <;> cases heq
  · exact .inl (isNumber_reprInt hinteger)
  · exact .inr ⟨_, rfl⟩

/-- A number greater than zero does not start with a zero. -/
theorem head_toDigits {n : ℕ} (h : 0 < n) : ∃ c cs, Nat.toDigits 10 n = c :: cs ∧ c ≠ '0' := by
  induction n using Nat.strongRecOn with
  | ind n ih =>
      rcases Nat.lt_or_ge n 10 with hlt | hge
      · exact ⟨n.digitChar, [], Nat.toDigits_of_lt_base hlt,
          mt Nat.digitChar_eq_zero.mp (Nat.ne_of_gt h)⟩
      · obtain ⟨c, cs, heq, hc⟩ := ih (n / 10) (by omega) (by omega)
        rw [Nat.toDigits_of_base_le (by decide) hge, heq]
        exact ⟨c, _, List.cons_append, hc⟩

theorem natural_toDigits (n : ℕ) :
    natural (Nat.toDigits 10 n) = some (Nat.toDigits 10 n, []) := by
  rcases Nat.eq_zero_or_pos n with rfl | hpos
  · rw [Nat.toDigits_zero]
    rfl
  · have hall : ∀ c ∈ Nat.toDigits 10 n, c.isDigit = true := fun c hc =>
      Nat.isDigit_of_mem_toDigits (by decide) (by decide) hc
    obtain ⟨c, cs, heq, hc⟩ := head_toDigits hpos
    rw [heq] at hall ⊢
    obtain ⟨hdigit, hdigits⟩ := List.forall_mem_cons.mp hall
    rw [natural, if_neg hc, if_pos hdigit, List.takeWhile_eq_self_iff.mpr hdigits,
      List.dropWhile_eq_nil_iff.mpr hdigits]

/-- An integer is written as a number. -/
theorem isNumber_toString (n : ℤ) : IsNumber float (toString n).toList := by
  have hself {s : List Char} (hs : integer s = some (s, [])) (hne : s ≠ ['-', '0']) :
      IsNumber float s := by
    have hnumber : IsNumber float (reprInt s) := isNumber_reprInt hs
    rwa [reprInt, if_neg hne] at hnumber
  cases n with
  | ofNat n =>
      show IsNumber float n.repr.toList
      rw [Nat.toList_repr]
      have hnatural := natural_toDigits n
      cases hdigits : Nat.toDigits 10 n with
      | nil => exact absurd hdigits Nat.toDigits_ne_nil
      | cons c cs =>
          have hdigit : c.isDigit = true := by
            refine Nat.isDigit_of_mem_toDigits (b := 10) (n := n) (by decide) (by decide) ?_
            rw [hdigits]
            exact List.mem_cons_self
          have hminus : c ≠ '-' := by
            rintro rfl
            cases hdigit
          rw [hdigits] at hnatural
          refine hself ?_ fun h => hminus (List.cons.inj h).1
          rw [integer, if_neg hminus, hnatural]
  | negSucc n =>
      show IsNumber float ("-" ++ (n + 1).repr).toList
      rw [String.toList_append, Nat.toList_repr]
      show IsNumber float ('-' :: Nat.toDigits 10 (n + 1))
      obtain ⟨c, cs, heq, hc⟩ := head_toDigits (Nat.succ_pos n)
      refine hself ?_ fun h => ?_
      · rw [integer, if_pos rfl, natural_toDigits]
        rfl
      · rw [heq] at h
        exact hc (List.cons.inj (List.cons.inj h).2).1

end

/-! ## Strings -/

/-- The letter after the backslash, for a character that has one. -/
def shortEscape (c : Char) : Option Char :=
  [('"', '"'), ('\\', '\\'), ('\n', 'n'), ('\r', 'r'), ('\t', 't'), ('\x08', 'b'),
    ('\x0c', 'f')].lookup c

/-- `{0:04x}`. -/
def hex4 (n : ℕ) : List Char :=
  [(n / 4096 % 16).digitChar, (n / 256 % 16).digitChar, (n / 16 % 16).digitChar,
    (n % 16).digitChar]

/-- The code units of a character. -/
def utf16 (c : Char) : List ℕ :=
  if c.toNat < 0x10000 then [c.toNat]
  else [0xd800 + (c.toNat - 0x10000) / 1024, 0xdc00 + (c.toNat - 0x10000) % 1024]

/-- What a character of a string is written as, with `ensure_ascii` or without. -/
def escape (ascii : Bool) (c : Char) : List Char :=
  match shortEscape c with
  | some e => ['\\', e]
  | none =>
      if c.toNat < 32 ∨ ascii = true ∧ 126 < c.toNat then
        (utf16 c).flatMap fun n => '\\' :: 'u' :: hex4 n
      else [c]

/-- A string behind its first quote. -/
def escaped (ascii : Bool) (s : List Char) : List Char := s.flatMap (escape ascii) ++ ['"']

/-- The value of a hexadecimal digit. -/
def hexValue (c : Char) : Option ℕ :=
  if c.isDigit then some (c.toNat - 48)
  else if 'a' ≤ c ∧ c ≤ 'f' then some (c.toNat - 87)
  else if 'A' ≤ c ∧ c ≤ 'F' then some (c.toNat - 55)
  else none

/-- `_decode_uXXXX`. -/
def readHex4 : List Char → Option (ℕ × List Char)
  | a :: b :: c :: d :: cs => do
      let a ← hexValue a
      let b ← hexValue b
      let c ← hexValue c
      let d ← hexValue d
      return (((a * 16 + b) * 16 + c) * 16 + d, cs)
  | _ => none

/-- The character of a code point. -/
def charOf (n : ℕ) : Option Char := if (Char.ofNat n).toNat = n then some (Char.ofNat n) else none

/-- The character of a `\u` escape.  Two surrogates are one character, and one alone is none. -/
def codePoint (cs : List Char) : Option (Char × List Char) := do
  let (n, r) ← readHex4 cs
  if 0xd800 ≤ n ∧ n ≤ 0xdbff then
    match r with
    | '\\' :: 'u' :: r =>
        let (m, r) ← readHex4 r
        if 0xdc00 ≤ m ∧ m ≤ 0xdfff then
          (charOf (0x10000 + (n - 0xd800) * 1024 + (m - 0xdc00))).map (·, r)
        else none
    | _ => none
  else (charOf n).map (·, r)

/-- `BACKSLASH`. -/
def backslash (c : Char) : Option Char :=
  [('"', '"'), ('\\', '\\'), ('/', '/'), ('b', '\x08'), ('f', '\x0c'), ('n', '\n'), ('r', '\r'),
    ('t', '\t')].lookup c

/-- The next character of a string. -/
def unit : List Char → Option (Char × List Char)
  | [] => none
  | c :: cs =>
      if c = '\\' then
        match cs with
        | [] => none
        | e :: cs => if e = 'u' then codePoint cs else (backslash e).map (·, cs)
      else if c.toNat < 32 then none
      else some (c, cs)

/-- `scanstring`, of fewer characters than the number. -/
def string : ℕ → List Char → Option (List Char × List Char)
  | 0, _ => none
  | n + 1, cs =>
      if cs.head? = some '"' then some ([], cs.tail)
      else (unit cs).bind fun p => (string n p.2).map fun q => (p.1 :: q.1, q.2)

theorem hexValue_digitChar {n : ℕ} (h : n < 16) : hexValue n.digitChar = some n := by
  revert n
  decide

theorem readHex4_hex4 {n : ℕ} (h : n < 0x10000) (cs : List Char) :
    readHex4 (hex4 n ++ cs) = some (n, cs) := by
  have hdigits : ((n / 4096 % 16 * 16 + n / 256 % 16) * 16 + n / 16 % 16) * 16 + n % 16 = n := by
    omega
  show readHex4 (_ :: _ :: _ :: _ :: cs) = some (n, cs)
  rw [readHex4, hexValue_digitChar (Nat.mod_lt _ (by decide)),
    hexValue_digitChar (Nat.mod_lt _ (by decide)), hexValue_digitChar (Nat.mod_lt _ (by decide)),
    hexValue_digitChar (Nat.mod_lt _ (by decide))]
  show some (((n / 4096 % 16 * 16 + n / 256 % 16) * 16 + n / 16 % 16) * 16 + n % 16, cs) = _
  rw [hdigits]

theorem charOf_toNat (c : Char) : charOf c.toNat = some c := by
  rw [charOf, Char.ofNat_toNat, if_pos rfl]

/-- The code points of characters. -/
theorem toNat_valid (c : Char) :
    c.toNat < 0xd800 ∨ 0xdfff < c.toNat ∧ c.toNat < 0x110000 := c.valid

theorem codePoint_utf16 (c : Char) (cs : List Char) :
    unit ((utf16 c).flatMap (fun n => '\\' :: 'u' :: hex4 n) ++ cs) = some (c, cs) := by
  have hvalid := toNat_valid c
  rw [utf16]
  split
  next hsmall =>
    show codePoint (hex4 c.toNat ++ [] ++ cs) = some (c, cs)
    have hsingle : ¬ (0xd800 ≤ c.toNat ∧ c.toNat ≤ 0xdbff) := by omega
    rw [List.append_nil, codePoint, readHex4_hex4 hsmall]
    show (if _ then _ else _) = _
    rw [if_neg hsingle, charOf_toNat]
    rfl
  next hlarge =>
    obtain ⟨high, hhigh_eq⟩ : ∃ n, n = 0xd800 + (c.toNat - 0x10000) / 1024 := ⟨_, rfl⟩
    obtain ⟨low, hlow_eq⟩ : ∃ n, n = 0xdc00 + (c.toNat - 0x10000) % 1024 := ⟨_, rfl⟩
    have hpair : 0x10000 + (high - 0xd800) * 1024 + (low - 0xdc00) = c.toNat := by omega
    have hhigh : 0xd800 ≤ high ∧ high ≤ 0xdbff := by omega
    have hlow : 0xdc00 ≤ low ∧ low ≤ 0xdfff := by omega
    rw [← hhigh_eq, ← hlow_eq]
    show codePoint (hex4 high ++ '\\' :: 'u' :: (hex4 low ++ cs)) = some (c, cs)
    rw [codePoint, readHex4_hex4 (by omega)]
    show (if _ then _ else _) = _
    rw [if_pos hhigh]
    show (readHex4 (hex4 low ++ cs)).bind _ = _
    rw [readHex4_hex4 (by omega)]
    show (if _ then _ else _) = _
    rw [if_pos hlow, hpair, charOf_toNat]
    rfl

/-- From the space to the tilde: what `json.dumps` writes with `ensure_ascii`. -/
def InAscii (c : Char) : Prop := 32 ≤ c.toNat ∧ c.toNat ≤ 126

instance (c : Char) : Decidable (InAscii c) := inferInstanceAs (Decidable (_ ∧ _))

/-- The letters are read as what they are written for. -/
theorem of_shortEscape {c e : Char} (h : shortEscape c = some e) :
    backslash e = some c ∧ e ≠ 'u' ∧ InAscii e := by
  have hall : [('"', '"'), ('\\', '\\'), ('\n', 'n'), ('\r', 'r'), ('\t', 't'), ('\x08', 'b'),
      ('\x0c', 'f')].all (fun p => decide (backslash p.2 = some p.1 ∧ p.2 ≠ 'u' ∧
        InAscii p.2)) = true := by decide
  obtain ⟨before, behind, heq, -⟩ := List.lookup_eq_some_iff.mp h
  refine of_decide_eq_true (List.all_eq_true.mp hall (c, e) ?_)
  rw [heq]
  exact List.mem_append_right _ List.mem_cons_self

/-- A character without a letter is no quote and no backslash. -/
theorem of_shortEscape_none {c : Char} (h : shortEscape c = none) : c ≠ '"' ∧ c ≠ '\\' := by
  constructor <;>
    · rintro rfl
      cases h

/-- A character is read back. -/
theorem unit_escape (ascii : Bool) (c : Char) (cs : List Char) :
    unit (escape ascii c ++ cs) = some (c, cs) := by
  rw [escape]
  split
  next e he =>
    obtain ⟨hback, hletter, -⟩ := of_shortEscape he
    show (if e = 'u' then codePoint cs else (backslash e).map (·, cs)) = _
    rw [if_neg hletter, hback]
    rfl
  next hnone =>
    split
    next => exact codePoint_utf16 c cs
    next hplain =>
      show (if c = '\\' then _ else if c.toNat < 32 then none else some (c, cs)) = _
      rw [if_neg (of_shortEscape_none hnone).2, if_neg (mt Or.inl hplain)]

theorem head_escape (ascii : Bool) (c : Char) (cs : List Char) :
    (escape ascii c ++ cs).head? ≠ some '"' := by
  rw [escape]
  split
  next => exact fun h => by cases h
  next hnone =>
    split
    next =>
      rw [utf16]
      split <;> exact fun h => by cases h
    next => exact fun h => (of_shortEscape_none hnone).1 (Option.some.inj h)

/-- A string is read back. -/
theorem string_escaped (ascii : Bool) {s : List Char} (rest : List Char) {n : ℕ}
    (h : s.length < n) : string n (escaped ascii s ++ rest) = some (s, rest) := by
  induction s generalizing n with
  | nil =>
      obtain ⟨n, rfl⟩ := Nat.exists_eq_add_one_of_ne_zero (Nat.ne_of_gt h)
      rfl
  | cons c s ih =>
      obtain ⟨n, rfl⟩ := Nat.exists_eq_add_one_of_ne_zero (Nat.ne_of_gt (Nat.zero_lt_of_lt h))
      have heq : escaped ascii (c :: s) ++ rest =
          escape ascii c ++ (escaped ascii s ++ rest) := by
        simp [escaped]
      rw [heq, string, if_neg (head_escape ascii c _), unit_escape, Option.bind_some,
        ih (Nat.lt_of_succ_lt_succ h)]
      rfl

theorem length_le_escaped (ascii : Bool) (s : List Char) :
    s.length < (escaped ascii s).length := by
  induction s with
  | nil => exact Nat.zero_lt_one
  | cons c s ih =>
      have hpos : 0 < (escape ascii c).length := by
        refine List.length_pos_iff.mpr fun hnil => ?_
        have hunit := unit_escape ascii c []
        rw [hnil] at hunit
        cases hunit
      simp only [escaped, List.flatMap_cons, List.length_append, List.length_cons] at ih ⊢
      omega

/-- No line ends in a string, and with `ensure_ascii` it has characters of ASCII only. -/
theorem of_mem_escaped {ascii : Bool} {s : List Char} {c : Char} (h : c ∈ escaped ascii s) :
    32 ≤ c.toNat ∧ (ascii = true → InAscii c) := by
  have hascii {d : Char} (hd : InAscii d) : 32 ≤ d.toNat ∧ (ascii = true → InAscii d) :=
    ⟨hd.1, fun _ => hd⟩
  have hdigit (n : ℕ) : InAscii (n % 16).digitChar := by
    have hall : ∀ n < 16, InAscii n.digitChar := by decide
    exact hall _ (Nat.mod_lt _ (by decide))
  rw [escaped, List.mem_append, List.mem_flatMap] at h
  rcases h with ⟨d, -, hd⟩ | hc
  · rw [escape] at hd
    split at hd
    next e he =>
      simp only [List.mem_cons, List.not_mem_nil, or_false] at hd
      rcases hd with rfl | rfl
      · exact hascii (by decide)
      · exact hascii (of_shortEscape he).2.2
    next =>
      split at hd
      next =>
        obtain ⟨n, -, hn⟩ := List.mem_flatMap.mp hd
        simp only [hex4, List.mem_cons, List.not_mem_nil, or_false] at hn
        rcases hn with rfl | rfl | rfl | rfl | rfl | rfl
        · exact hascii (by decide)
        · exact hascii (by decide)
        all_goals exact hascii (hdigit _)
      next hplain =>
        obtain rfl := List.mem_singleton.mp hd
        have hlow := Nat.le_of_not_lt (mt Or.inl hplain)
        refine ⟨hlow, fun htrue => ⟨hlow, ?_⟩⟩
        exact Nat.le_of_not_lt fun hhigh => hplain (.inr ⟨htrue, hhigh⟩)
  · obtain rfl := List.mem_singleton.mp hc
    exact hascii (by decide)

end Aicv.Python.JsonText
