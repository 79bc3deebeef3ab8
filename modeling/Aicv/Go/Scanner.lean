import Mathlib.Data.List.TakeWhile
import Aicv.Go.Strings

/-!
# Go scanners

What a `bufio.Scanner` reads line by line.  A line that does not fit into the buffer
ends the scan with an error.

`scanLines_join` is the scan of lines that were written one after the other.
-/

namespace Aicv.Go

/-- The lines of an input.  There is none after the last newline. -/
def rawLines (input : Bytes) : List Bytes :=
  let lines := input.splitOn 10
  if lines.getLast? = some [] then lines.dropLast else lines

/-- `dropCR`. -/
def dropCR (line : Bytes) : Bytes := if line.getLast? = some 13 then line.dropLast else line

/-- The lines that `Scan` yields, and whether it stops at a line that is too long.  The buffer
has to hold a line and one byte more. -/
def scanLines (maxSize : ℕ) (input : Bytes) : List Bytes × Bool :=
  let lines := rawLines input
  ((lines.takeWhile (·.length < maxSize)).map dropCR, lines.any (maxSize ≤ ·.length))

/-- `bufio.ErrTooLong`. -/
def tooLong : String := "bufio.Scanner: token too long"

theorem splitOn_join {lines : List Bytes} (h : ∀ line ∈ lines, 10 ∉ line) :
    (lines.flatMap (· ++ [10])).splitOn 10 = lines ++ [[]] := by
  induction lines with
  | nil => rfl
  | cons line lines ih =>
      obtain ⟨hline, hlines⟩ := List.forall_mem_cons.mp h
      rw [List.flatMap_cons, List.append_assoc, List.singleton_append,
        List.splitOn_append_cons_self_of_not_mem hline, ih hlines, List.cons_append]

theorem rawLines_join {lines : List Bytes} (h : ∀ line ∈ lines, 10 ∉ line) :
    rawLines (lines.flatMap (· ++ [10])) = lines := by
  simp [rawLines, splitOn_join h]

/-- Lines that fit are read back. -/
theorem scanLines_join {maxSize : ℕ} {lines : List Bytes} (h : ∀ line ∈ lines, 10 ∉ line)
    (hcr : ∀ line ∈ lines, line.getLast? ≠ some 13) (hfit : ∀ line ∈ lines, line.length < maxSize) :
    scanLines maxSize (lines.flatMap (· ++ [10])) = (lines, false) := by
  have htake : lines.takeWhile (·.length < maxSize) = lines :=
    List.takeWhile_eq_self_iff.mpr fun line hline => decide_eq_true (hfit line hline)
  have hdrop : lines.map dropCR = lines :=
    (List.map_congr_left fun line hline => if_neg (hcr line hline)).trans (List.map_id lines)
  have hany : lines.any (maxSize ≤ ·.length) = false :=
    List.any_eq_false.mpr fun line hline => by simpa using hfit line hline
  rw [scanLines, rawLines_join h, htake, hdrop, hany]

/-- A line that does not fit stops the scan. -/
theorem scanLines_tooLong {maxSize : ℕ} {lines : List Bytes} (h : ∀ line ∈ lines, 10 ∉ line)
    {line : Bytes} (hline : line ∈ lines) (hlong : maxSize ≤ line.length) :
    (scanLines maxSize (lines.flatMap (· ++ [10]))).2 = true := by
  rw [scanLines, rawLines_join h]
  exact List.any_eq_true.mpr ⟨line, hline, decide_eq_true hlong⟩

end Aicv.Go
