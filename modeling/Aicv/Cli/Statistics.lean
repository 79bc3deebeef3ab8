import Mathlib.Algebra.BigOperators.Group.List.Basic
import Mathlib.Data.List.GetD
import Mathlib.Order.Bounds.Defs
import Aicv.Cli.Summary
import Aicv.Sequence.Rank

/-!
# The figures of a summary

`printSummary` sorts what it has measured and picks figures by their positions.
`printSummary_exact` says which figures these are, without the sort, and that the order of the
results does not matter.  The mean is right if and only if the sum behind it does not wrap
(`isMean_iff`).
-/

namespace Aicv.Cli

open Sequence

open scoped List

/-! ## What the figures are -/

/-- More than `q` percent of the members are not above `x`, and no more are below it. -/
structure IsPercentile (xs : List ℤ) (q : ℕ) (x : ℤ) : Prop where
  mem : x ∈ xs
  le : q * xs.length < 100 * xs.countP (· ≤ x)
  lt : 100 * xs.countP (· < x) ≤ q * xs.length

/-- A mean that is rounded, and is between the members. -/
structure IsMean (xs : List ℤ) (mean : ℤ) : Prop where
  near : (mean * xs.length - xs.sum).natAbs < xs.length
  lower : ∀ lo, (∀ x ∈ xs, lo ≤ x) → lo ≤ mean
  upper : ∀ hi, (∀ x ∈ xs, x ≤ hi) → mean ≤ hi

section
variable {xs : List ℤ} {q : ℕ} {x : ℤ}

theorem isPercentile_iff : IsPercentile xs q x ↔ IsRank xs (q * xs.length / 100) x := by
  constructor
  · rintro ⟨hmem, hle, hlt⟩
    exact ⟨hmem, by omega, by omega⟩
  · rintro ⟨hmem, hle, hlt⟩
    exact ⟨hmem, by omega, by omega⟩

theorem length_sortBy {α : Type} {key : α → ℤ} {as : List α} :
    (sortBy key as).length = as.length := sortBy_perm.length_eq

theorem sortBy_eq_nil {α : Type} {key : α → ℤ} {as : List α} : sortBy key as = [] ↔ as = [] := by
  rw [← List.length_eq_zero_iff, length_sortBy, List.length_eq_zero_iff]

/-- A position of the sorted list that is in the list. -/
theorem isRank_getD {i : ℕ} (hi : i < xs.length) : IsRank xs i ((sortBy id xs).getD i 0) := by
  have hi' : i < (sortBy id xs).length := length_sortBy.symm ▸ hi
  rw [List.getD_eq_getElem _ _ hi']
  exact isRank_sortBy hi'

/-- Truncation moves the mean by less than one. -/
theorem isMean_tdiv (hne : xs ≠ []) : IsMean xs (xs.sum.tdiv xs.length) := by
  have hpos : (0 : ℤ) < xs.length := Nat.cast_pos.mpr (List.length_pos_iff.mpr hne)
  have hsum : xs.sum.tdiv xs.length * xs.length + xs.sum.tmod xs.length = xs.sum :=
    Int.tdiv_mul_add_tmod _ _
  have hmod : (xs.sum.tmod xs.length).natAbs < xs.length := by
    rw [Int.natAbs_tmod, Int.natAbs_natCast]
    exact Nat.mod_lt _ (List.length_pos_iff.mpr hne)
  have hnear : (xs.sum.tdiv xs.length * xs.length - xs.sum).natAbs < xs.length := by omega
  refine ⟨hnear, fun lo hlo => ?_, fun hi hhi => ?_⟩
  · have hle : lo * xs.length ≤ xs.sum := by
      have hcard := List.card_nsmul_le_sum xs lo hlo
      rwa [nsmul_eq_mul, mul_comm] at hcard
    have hlt : lo * xs.length < (xs.sum.tdiv xs.length + 1) * xs.length := by
      rw [add_mul, one_mul]
      omega
    exact Int.lt_add_one_iff.mp (lt_of_mul_lt_mul_right hlt hpos.le)
  · have hle : xs.sum ≤ hi * xs.length := by
      have hcard := List.sum_le_card_nsmul xs hi hhi
      rwa [nsmul_eq_mul, mul_comm] at hcard
    have hlt : (xs.sum.tdiv xs.length - 1) * xs.length < hi * xs.length := by
      rw [sub_mul, one_mul]
      omega
    exact Int.sub_one_lt_iff.mp (lt_of_mul_lt_mul_right hlt hpos.le)

end

/-! ## Figures of 64 bits -/

section
variable {xs : List Int64}

/-- Sorting figures sorts their values. -/
theorem map_toInt_sortBy (xs : List Int64) :
    (sortBy Int64.toInt xs).map Int64.toInt = sortBy id (xs.map Int64.toInt) :=
  List.map_insertionSort _ _ _ _ fun _ _ _ _ => Iff.rfl

theorem toInt_getD (xs : List Int64) (i : ℕ) :
    (xs.getD i 0).toInt = (xs.map Int64.toInt).getD i 0 := by
  rw [List.getD_eq_getElem?_getD, List.getD_eq_getElem?_getD, List.getElem?_map]
  cases xs[i]? <;> rfl

/-- A position of the sorted figures. -/
theorem isRank_toInt_getD {i : ℕ} (hi : i < xs.length) :
    IsRank (xs.map Int64.toInt) i ((sortBy Int64.toInt xs).getD i 0).toInt := by
  rw [toInt_getD, map_toInt_sortBy]
  exact isRank_getD (by rwa [List.length_map])

theorem isPercentile_95 (hne : xs ≠ []) :
    IsPercentile (xs.map Int64.toInt) 95 (percentile95 (sortBy Int64.toInt xs)).toInt := by
  have hpos := List.length_pos_iff.mpr hne
  have hmin : min (95 * xs.length / 100) (xs.length - 1) = 95 * xs.length / 100 := by omega
  rw [isPercentile_iff, List.length_map, percentile95, length_sortBy, hmin]
  exact isRank_toInt_getD (by omega)

theorem isPercentile_50 (hne : xs ≠ []) :
    IsPercentile (xs.map Int64.toInt) 50
      ((sortBy Int64.toInt xs).getD ((sortBy Int64.toInt xs).length / 2) 0).toInt := by
  have hpos := List.length_pos_iff.mpr hne
  have hhalf : 50 * xs.length / 100 = xs.length / 2 := by omega
  rw [isPercentile_iff, List.length_map, length_sortBy, hhalf]
  exact isRank_toInt_getD (by omega)

theorem isGreatest_getLastD (hne : xs ≠ []) :
    IsGreatest {x | x ∈ xs.map Int64.toInt} ((sortBy Int64.toInt xs).getLastD 0).toInt := by
  have hpos := List.length_pos_iff.mpr hne
  have hlast : (sortBy Int64.toInt xs).getLastD 0 =
      (sortBy Int64.toInt xs).getD (xs.length - 1) 0 := by
    rw [List.getLastD_eq_getLast?, List.getLast?_eq_getElem?, length_sortBy,
      List.getD_eq_getElem?_getD]
  have hrank : IsRank (xs.map Int64.toInt) (xs.length - 1)
      ((sortBy Int64.toInt xs).getD (xs.length - 1) 0).toInt :=
    isRank_toInt_getD (by omega)
  rw [← hlast] at hrank
  refine ⟨hrank.mem, fun x hx => IsRank.le_last ?_ x hx⟩
  rwa [List.length_map]

/-- A sum of figures wraps. -/
theorem toInt_foldl_add (xs : List Int64) (x : Int64) :
    (xs.foldl (· + ·) x).toInt = (x.toInt + (xs.map Int64.toInt).sum).bmod (2 ^ 64) := by
  induction xs generalizing x with
  | nil =>
      have hlt := x.toInt_lt
      have hle := x.le_toInt
      rw [List.foldl_nil, List.map_nil, List.sum_nil, add_zero, Int.bmod_eq_of_le] <;> omega
  | cons y xs ih =>
      rw [List.foldl_cons, ih, Int64.toInt_add, Int.bmod_add_bmod, List.map_cons, List.sum_cons,
        add_assoc]

/-- The mean of figures is one if and only if their sum does not wrap. -/
theorem isMean_iff (hne : xs ≠ []) (hlen : xs.length < 2 ^ 63) :
    IsMean (xs.map Int64.toInt) (xs.foldl (· + ·) 0 / Int64.ofNat xs.length).toInt ↔
      -2 ^ 63 ≤ (xs.map Int64.toInt).sum ∧ (xs.map Int64.toInt).sum < 2 ^ 63 := by
  have hpos := List.length_pos_iff.mpr hne
  have hdivisor : (Int64.ofNat xs.length).toInt = xs.length := Int64.toInt_ofNat_of_lt hlen
  have hne' : Int64.ofNat xs.length ≠ -1 := by
    intro heq
    have hneg : (Int64.ofNat xs.length).toInt = -1 := by
      rw [heq]
      rfl
    omega
  rw [Int64.toInt_div_of_ne_right _ _ hne', hdivisor, toInt_foldl_add, Int64.toInt_zero, zero_add]
  have hlength : (xs.map Int64.toInt).length = xs.length := List.length_map _
  have hnonempty : xs.map Int64.toInt ≠ [] := mt List.map_eq_nil_iff.mp hne
  generalize xs.map Int64.toInt = ys at hlength hnonempty
  constructor
  · rintro ⟨hnear, -, -⟩
    obtain ⟨k, hk⟩ := Int.dvd_bmod_sub_self (x := ys.sum) (m := 2 ^ 64)
    have hle := Int.le_bmod (x := ys.sum) (m := 2 ^ 64) (by decide)
    have hlt := Int.bmod_lt (x := ys.sum) (m := 2 ^ 64) (by decide)
    have hdiv : (ys.sum.bmod (2 ^ 64)).tdiv xs.length * xs.length +
        (ys.sum.bmod (2 ^ 64)).tmod xs.length = ys.sum.bmod (2 ^ 64) :=
      Int.tdiv_mul_add_tmod _ _
    have hmod : ((ys.sum.bmod (2 ^ 64)).tmod xs.length).natAbs < xs.length := by
      rw [Int.natAbs_tmod, Int.natAbs_natCast]
      exact Nat.mod_lt _ hpos
    rw [hlength] at hnear
    generalize (ys.sum.bmod (2 ^ 64)).tdiv xs.length * xs.length = product at *
    omega
  · rintro ⟨hle, hlt⟩
    rw [Int.bmod_eq_of_le (by omega) (by omega), ← hlength]
    exact isMean_tdiv hnonempty

end

/-! ## The summary -/

section
variable {results results' : List BenchResult}

/-- The results that take part in the latencies. -/
def served (results : List BenchResult) : List BenchResult := results.filter (·.error = "")

/-- The milliseconds that the jobs took. -/
def durations (results : List BenchResult) : List Int64 := (served results).map (·.durationMs)

/-- The nanoseconds until the jobs had a container. -/
def assignments (results : List BenchResult) : List Int64 := (served results).map (·.assignmentNs)

theorem sortBy_congr_id {α : Type} [LinearOrder α] {as as' : List α} (h : as ~ as') :
    sortBy id as = sortBy id as' :=
  sortBy_congr h fun _ _ _ _ heq => heq

theorem sortBy_congr_toInt {xs xs' : List Int64} (h : xs ~ xs') :
    sortBy Int64.toInt xs = sortBy Int64.toInt xs' :=
  sortBy_congr h fun _ _ _ _ heq => Int64.toInt_inj.mp heq

/-- The totals are counts. -/
theorem totals_perm (h : results ~ results') : totals results = totals results' := by
  rw [totals, totals, foldl_add, foldl_add]
  simp only [h.countP_eq]

theorem printSummary_perm (h : results ~ results') :
    printSummary results = printSummary results' := by
  have houtcomes := h.map (·.outcome)
  have hserved := h.filter fun r => r.error = ""
  have hkeys := sortBy_congr_id houtcomes.dedup
  have hdurs := sortBy_congr_toInt (hserved.map (·.durationMs))
  have hasn := sortBy_congr_toInt (hserved.map (·.assignmentNs))
  unfold printSummary
  simp only [h.length_eq, hkeys, hdurs, hasn, totals_perm h, houtcomes.count_eq]

/-- Every outcome is counted, in the order of the outcomes. -/
theorem mem_counts {outcome : String} {n : ℕ} : (outcome, n) ∈ (printSummary results).counts ↔
    0 < n ∧ results.countP (·.outcome = outcome) = n := by
  have hcount : (results.map (·.outcome)).count outcome =
      results.countP (·.outcome = outcome) := by
    rw [List.count, List.countP_map]
    exact List.countP_congr fun r _ => by simp
  show (outcome, n) ∈ List.map _ _ ↔ _
  rw [List.mem_map, ← hcount]
  constructor
  · rintro ⟨o, ho, heq⟩
    obtain ⟨rfl, rfl⟩ := Prod.mk.inj heq
    have hmem := List.mem_dedup.mp (sortBy_perm.subset ho)
    exact ⟨List.count_pos_iff.mpr hmem, rfl⟩
  · rintro ⟨hpos, rfl⟩
    refine ⟨outcome, sortBy_perm.symm.subset (List.mem_dedup.mpr ?_), rfl⟩
    exact List.count_pos_iff.mp hpos

theorem pairwise_counts : ((printSummary results).counts.map Prod.fst).Pairwise (· < ·) := by
  have hkeys : (printSummary results).counts.map Prod.fst =
      sortBy id (results.map (·.outcome)).dedup := by
    show List.map _ (List.map _ _) = _
    rw [List.map_map]
    exact List.map_id _
  have hnodup : ((results.map (·.outcome)).dedup.map id).Nodup := by
    rw [List.map_id]
    exact List.nodup_dedup _
  rw [hkeys]
  exact pairwise_lt_sortBy hnodup

theorem sum_counts : ((printSummary results).counts.map Prod.snd).sum = results.length := by
  have hcounts : (printSummary results).counts.map Prod.snd =
      (sortBy id (results.map (·.outcome)).dedup).map fun o =>
        (results.map (·.outcome)).count o := by
    show List.map _ (List.map _ _) = _
    rw [List.map_map]
    rfl
  rw [hcounts, (sortBy_perm.map _).sum_eq, List.sum_map_count_dedup_eq_length, List.length_map]

/-- The sum does not depend on the order. -/
theorem foldl_add_sortBy (xs : List Int64) :
    (sortBy Int64.toInt xs).foldl (· + ·) 0 = xs.foldl (· + ·) 0 := by
  rw [← Int64.toInt_inj, toInt_foldl_add, toInt_foldl_add, (sortBy_perm.map _).sum_eq]

theorem latency_eq : (printSummary results).latency =
    if durations results = [] then none
    else some ((durations results).foldl (· + ·) 0 / Int64.ofNat (durations results).length,
      percentile95 (sortBy Int64.toInt (durations results)),
      (sortBy Int64.toInt (durations results)).getLastD 0) := by
  have hdef : (printSummary results).latency =
      if sortBy Int64.toInt (durations results) = [] then none
      else some ((sortBy Int64.toInt (durations results)).foldl (· + ·) 0 /
          Int64.ofNat (sortBy Int64.toInt (durations results)).length,
        percentile95 (sortBy Int64.toInt (durations results)),
        (sortBy Int64.toInt (durations results)).getLastD 0) := rfl
  rw [hdef, foldl_add_sortBy, length_sortBy]
  simp only [sortBy_eq_nil]

theorem assignment_eq : (printSummary results).assignment =
    if assignments results = [] then none
    else some ((sortBy Int64.toInt (assignments results)).getD
        ((sortBy Int64.toInt (assignments results)).length / 2) 0,
      percentile95 (sortBy Int64.toInt (assignments results)),
      (sortBy Int64.toInt (assignments results)).getLastD 0) := by
  have hdef : (printSummary results).assignment =
      if sortBy Int64.toInt (assignments results) = [] then none
      else some ((sortBy Int64.toInt (assignments results)).getD
          ((sortBy Int64.toInt (assignments results)).length / 2) 0,
        percentile95 (sortBy Int64.toInt (assignments results)),
        (sortBy Int64.toInt (assignments results)).getLastD 0) := rfl
  rw [hdef]
  simp only [sortBy_eq_nil]

theorem length_durations_le (results : List BenchResult) :
    (durations results).length ≤ results.length := by
  rw [durations, List.length_map]
  exact List.length_filter_le _ _

end

/-- Every outcome is counted once, and the counts add up to the jobs.  There are latencies if a
job was served.  The figures are the mean, the median, the 95th percentile and the maximum of the
served jobs, but a mean whose sum does not fit into 64 bits is none.  The order of the results
does not matter. -/
theorem printSummary_exact (results : List BenchResult) :
    let s := printSummary results
    let durs := (durations results).map Int64.toInt
    let asn := (assignments results).map Int64.toInt
    ((s.counts.map Prod.fst).Pairwise (· < ·) ∧
      (∀ outcome n, (outcome, n) ∈ s.counts ↔
        0 < n ∧ results.countP (·.outcome = outcome) = n) ∧
      (s.counts.map Prod.snd).sum = s.jobs) ∧
    ((s.latency = none ↔ served results = []) ∧ (s.assignment = none ↔ served results = [])) ∧
    (∀ mean p95 max, s.latency = some (mean, p95, max) →
      (results.length < 2 ^ 63 →
        (IsMean durs mean.toInt ↔ -2 ^ 63 ≤ durs.sum ∧ durs.sum < 2 ^ 63)) ∧
      IsPercentile durs 95 p95.toInt ∧ IsGreatest {x | x ∈ durs} max.toInt) ∧
    (∀ p50 p95 max, s.assignment = some (p50, p95, max) →
      IsPercentile asn 50 p50.toInt ∧ IsPercentile asn 95 p95.toInt ∧
        IsGreatest {x | x ∈ asn} max.toInt) ∧
    ∀ results', results ~ results' → printSummary results' = s := by
  intro s durs asn
  have hlatency : s.latency = _ := latency_eq
  have hassignment : s.assignment = _ := assignment_eq
  refine ⟨⟨pairwise_counts, fun _ _ => mem_counts, sum_counts⟩, ⟨?_, ?_⟩, ?_, ?_,
    fun results' h => (printSummary_perm h).symm⟩
  · rw [hlatency]
    split
    next hnil => simpa [durations] using hnil
    next hne => simpa [durations] using hne
  · rw [hassignment]
    split
    next hnil => simpa [assignments] using hnil
    next hne => simpa [assignments] using hne
  · intro mean p95 max h
    rw [hlatency] at h
    split at h
    next => cases h
    next hne =>
      cases h
      exact ⟨fun hlen => isMean_iff hne ((length_durations_le results).trans_lt hlen),
        isPercentile_95 hne, isGreatest_getLastD hne⟩
  · intro p50 p95 max h
    rw [hassignment] at h
    split at h
    next => cases h
    next hne =>
      cases h
      exact ⟨isPercentile_50 hne, isPercentile_95 hne, isGreatest_getLastD hne⟩

end Aicv.Cli
