import Mathlib.Data.Int.Notation
import Mathlib.Tactic.NormNum
import Aicv.Text.Strip

/-!
# Go strings

A Go string is a sequence of bytes, by convention UTF-8.  This file has the functions
of the `strings` and `strconv` packages that the parsers call on one.

`atoi_decimal` reads a number back from its decimal digits.
-/

namespace Aicv.Go

open Text

/-- A Go string. -/
abbrev Bytes := List UInt8

/-- The bytes of a text. -/
def utf8 (s : String) : Bytes := s.toList.flatMap String.utf8EncodeChar

/-! ## White space -/

/-- The characters with `unicode.IsSpace`. -/
def spaceRunes : List Char :=
  ['\t', '\n', '\x0b', '\x0c', '\r', ' ', '\u0085', '\u00a0', '\u1680', '\u2000', '\u2001',
   '\u2002', '\u2003', '\u2004', '\u2005', '\u2006', '\u2007', '\u2008', '\u2009', '\u200a',
   '\u2028', '\u2029', '\u202f', '\u205f', '\u3000']

/-- The bytes of each character of white space. -/
def spaces : List Bytes := spaceRunes.map String.utf8EncodeChar

/-- `strings.TrimSpace`. -/
def trimSpace (s : Bytes) : Bytes := stripStart spaces (stripEnd spaces s)

/-- A byte below 128 is a character by itself. -/
theorem alone_ascii {b : UInt8} (hb : b < 128) : Alone spaces b := by
  have hall : (spaces.all fun w => w.all fun b => b < 128 → w = [b]) = true := by decide
  intro w hw hmem
  have hword := List.all_eq_true.mp (List.all_eq_true.mp hall w hw) b hmem
  exact of_decide_eq_true hword hb

theorem trimSpace_isInfix (s : Bytes) : trimSpace s <:+: s := strip_isInfix s

theorem trimSpace_eq_self {s : Bytes} (hstart : NoStart spaces s) (hend : NoEnd spaces s) :
    trimSpace s = s := by
  rw [trimSpace, stripEnd_eq_self hend, stripStart_eq_self hstart]

/-- An ASCII space at the end is removed by itself. -/
theorem trimSpace_concat {b : UInt8} (s : Bytes) (hspace : [b] ∈ spaces) (hb : b < 128) :
    trimSpace (s ++ [b]) = trimSpace s := by
  rw [trimSpace, trimSpace, stripEnd_concat hspace (alone_ascii hb) (by decide)]

/-! ## Numbers -/

/-- The digits `0` to `9`. -/
def isDigit (b : UInt8) : Bool := 48 ≤ b && b ≤ 57

/-- The number with the given digits. -/
def digitsVal (ds : Bytes) : ℕ := ds.foldl (fun n b => 10 * n + (b.toNat - 48)) 0

/-- The digits of a number. -/
def decimal (n : ℕ) : Bytes := (Nat.toDigits 10 n).map fun c => UInt8.ofNat c.toNat

/-- The value `strconv.Atoi` returns, next to an error or without one.  Out of range
it is the closest `int`, and 0 where there is no number. -/
def atoi (s : Bytes) : ℤ :=
  let number (ds : Bytes) : ℤ := if ds ≠ [] ∧ ds.all isDigit then digitsVal ds else 0
  match s with
  | [] => 0
  | b :: ds =>
      if b = 45 then max (-2 ^ 63) (-number ds)
      else if b = 43 then min (2 ^ 63 - 1) (number ds)
      else min (2 ^ 63 - 1) (number (b :: ds))

theorem toNat_of_isDigit {c : Char} (hc : c.isDigit) :
    48 ≤ c.toNat ∧ c.toNat ≤ 57 := by
  simpa [Char.isDigit, UInt32.le_iff_toNat_le] using hc

theorem all_isDigit_decimal (n : ℕ) : (decimal n).all isDigit = true := by
  rw [List.all_eq_true]
  intro b hb
  obtain ⟨c, hc, rfl⟩ := List.mem_map.mp hb
  have hdigit := toNat_of_isDigit (Nat.isDigit_of_mem_toDigits (by decide) (by decide) hc)
  simp [isDigit, UInt8.le_iff_toNat_le]
  omega

theorem decimal_ne_nil (n : ℕ) : decimal n ≠ [] := by
  simp [decimal, Nat.toDigits_ne_nil]

theorem digitsVal_decimal (n : ℕ) : digitsVal (decimal n) = n := by
  rw [digitsVal, decimal, List.foldl_map]
  conv => rhs; rw [← Nat.ofDigitChars_ten_toDigits (n := n), Nat.ofDigitChars_eq_foldl]
  refine List.foldl_ext _ _ 0 fun k c hc => ?_
  have hdigit := toNat_of_isDigit (Nat.isDigit_of_mem_toDigits (by decide) (by decide) hc)
  rw [UInt8.toNat_ofNat', Nat.mod_eq_of_lt (by omega)]
  rfl

/-- A number that fits into an `int` is read back from its digits. -/
theorem atoi_decimal {n : ℕ} (hn : n < 2 ^ 63) : atoi (decimal n) = n := by
  have hall := all_isDigit_decimal n
  have hval := digitsVal_decimal n
  cases h : decimal n with
  | nil => exact absurd h (decimal_ne_nil n)
  | cons b ds =>
      rw [h] at hall hval
      have hb : isDigit b = true := by
        simp only [List.all_cons, Bool.and_eq_true] at hall
        exact hall.1
      have hminus : b ≠ 45 := by rintro rfl; exact absurd hb (by decide)
      have hplus : b ≠ 43 := by rintro rfl; exact absurd hb (by decide)
      simp only [atoi, hminus, hplus, if_false, ne_eq, reduceCtorEq, not_false_eq_true, hall,
        and_self, if_true, hval]
      omega

end Aicv.Go
