import Mathlib.Algebra.Order.Field.Basic
import Mathlib.Data.Nat.Cast.Order.Ring
import Aicv.Mining.Prevalence

/-!
# Packages above a threshold

`find_k_at_threshold` goes down the curve and stops at the first package below the
threshold, and `build_threshold_report` selects the packages before it.

The curve falls (`pairwise_curve`), so that no package behind the first one below the
threshold is above it.  `selection_exact` says that the selected packages are those that
the fraction of the records lists, for every threshold above zero.
-/

namespace Aicv.Mining

open Python

/-- `THRESHOLDS`. -/
def thresholds : List ℚ := [5 / 100, 10 / 100, 15 / 100, 20 / 100]

section
variable (threshold : ℚ)

/-- The loop of `find_k_at_threshold`. -/
def scanCurve : ℕ → List CurveEntry → ℕ
  | k, [] => k
  | k, entry :: curve =>
      if threshold ≤ entry.prevalence then scanCurve entry.rank curve else k

end

/-- `find_k_at_threshold`. -/
def findKAtThreshold (curve : List CurveEntry) (threshold : ℚ) : ℕ := scanCurve threshold 0 curve

/-- A package of the report.  Its prevalence is rounded. -/
structure Package where
  rank : ℕ
  name : String
  version : Json
  reposCount : ℕ
  prevalence : String

/-- The report on a threshold. -/
structure Selection where
  threshold : ℚ
  k : ℕ
  minPrevalence : Option ℚ
  packages : List Package

/-- The body of the loop of `build_threshold_report`. -/
def select (round : ℚ → String) (curve : List CurveEntry) (t : ℚ) : Selection :=
  let k := findKAtThreshold curve t
  let selected := curve.take k
  { threshold := t
    k := k
    minPrevalence := selected.getLast?.map (·.prevalence)
    packages := selected.map fun e =>
      ⟨e.rank, e.name, e.mostCommonVersion, e.reposCount, round e.prevalence⟩ }

/-- The key of a threshold in the report. -/
def percent (t : ℚ) : String := toString (t * 100).floor

/-- `build_threshold_report`, over the digits of a rounded prevalence. -/
def buildThresholdReport (round : ℚ → String) (curve : List CurveEntry) : Dict String Selection :=
  thresholds.foldl (fun report t => report.alter (percent t) fun _ => select round curve t) []

/-! ## The records that list a package -/

/-- The record has a manifest that lists the package. -/
def Listing.lists (r : Listing) (p : String) : Bool :=
  r.hasManifest && r.directDeps.any (·.name = p)

/-- The fraction of the records with a manifest that list a package.  It is zero where there
is no manifest. -/
def share (repos : List Listing) (p : String) : ℚ :=
  repos.countP (·.lists p) / repos.countP (·.hasManifest)

theorem isSome_voted (r : Listing) (p : String) : (r.voted p).isSome = r.lists p := by
  rw [Listing.voted, Listing.lists]
  cases r.hasManifest with
  | false => rfl
  | true =>
      rw [if_pos rfl, Option.isSome_map, List.isSome_find?, Bool.true_and]

theorem length_voted_eq (repos : List Listing) (p : String) :
    (voted repos p).length = repos.countP (·.lists p) := by
  rw [voted, List.length_filterMap_eq_countP]
  exact List.countP_congr fun r _ => by rw [isSome_voted]

theorem countP_lists_le (repos : List Listing) (p : String) :
    repos.countP (·.lists p) ≤ repos.countP (·.hasManifest) :=
  List.countP_mono_left fun _ _ h => (Bool.and_eq_true_iff.mp h).1

theorem share_pos {repos : List Listing} {p : String} (h : 0 < repos.countP (·.lists p)) :
    0 < share repos p :=
  div_pos (Nat.cast_pos.mpr h) (Nat.cast_pos.mpr (h.trans_le (countP_lists_le repos p)))

theorem share_le_one (repos : List Listing) (p : String) : share repos p ≤ 1 :=
  div_le_one_of_le₀ (Nat.cast_le.mpr (countP_lists_le repos p)) (Nat.cast_nonneg _)

/-- A package that no record lists has no share. -/
theorem countP_lists_pos {repos : List Listing} {p : String} (h : 0 < share repos p) :
    0 < repos.countP (·.lists p) := by
  by_contra hzero
  rw [share, Nat.eq_zero_of_not_pos hzero, Nat.cast_zero, zero_div] at h
  exact lt_irrefl 0 h

/-- No division by zero: a counted package is listed in a record with a manifest. -/
theorem isSome_divide_count {n : Normalised}
    (hcount : n.reposWithManifest = n.repos.countP (·.hasManifest)) {e : String × ℕ}
    (he : e ∈ (votes n.repos).count) : (divide e.2 n.reposWithManifest).isSome := by
  obtain ⟨hvoted, hpos⟩ := mem_count.mp he
  rw [length_voted_eq] at hvoted
  rw [isSome_divide, hcount]
  exact (hpos.trans_le (hvoted ▸ countP_lists_le n.repos e.1)).ne'

/-! ## The curve -/

section
variable [BEq Json] {n : Normalised} {curve : List CurveEntry} {v : Votes}
  {pre : Dict String (Json × Distribution)} {e : (String × ℕ) × ℕ}

/-- An entry has the rank of its package and its share of the manifests. -/
theorem curveEntry_spec {c : CurveEntry} (h : curveEntry n v pre e = some c) :
    c.rank = e.2 ∧ c.prevalence = c.reposCount / n.reposWithManifest := by
  obtain ⟨counted, -, h⟩ := Option.bind_eq_some_iff.mp h
  obtain ⟨prevalence, hdiv, h⟩ := Option.bind_eq_some_iff.mp h
  cases h
  refine ⟨rfl, ?_⟩
  rw [divide] at hdiv
  split at hdiv
  next => cases hdiv
  next => exact (Option.some.inj hdiv).symm

theorem map_curve (h : computePrevalenceCurve n = some curve) :
    curve.map (fun c => (c.name, c.reposCount)) = (votes n.repos).count.mostCommon := by
  obtain ⟨pre, -, h⟩ := Option.bind_eq_some_iff.mp h
  rw [Sequence.map_of_mapM (h := Prod.fst) h fun _ _ => curveEntry_eq_some, List.zipIdx_map_fst]

/-- The packages are ranked from one on. -/
theorem rank_curve (h : computePrevalenceCurve n = some curve) :
    curve.map CurveEntry.rank = List.range' 1 curve.length := by
  have hlen := congrArg List.length (map_curve h)
  rw [List.length_map] at hlen
  obtain ⟨pre, -, h⟩ := Option.bind_eq_some_iff.mp h
  rw [Sequence.map_of_mapM (h := Prod.snd) h fun _ _ he => (curveEntry_spec he).1,
    List.zipIdx_map_snd, hlen]

theorem prevalence_curve (h : computePrevalenceCurve n = some curve) {c : CurveEntry}
    (hc : c ∈ curve) : c.prevalence = c.reposCount / n.reposWithManifest := by
  obtain ⟨pre, -, h⟩ := Option.bind_eq_some_iff.mp h
  have hmem : some c ∈ curve.map some := List.mem_map_of_mem hc
  rw [← Sequence.mapM_eq_some.mp h] at hmem
  obtain ⟨e, -, he⟩ := List.mem_map.mp hmem
  exact (curveEntry_spec he).2

/-- No package is on the curve twice. -/
theorem nodup_curve (h : computePrevalenceCurve n = some curve) :
    (curve.map CurveEntry.name).Nodup := by
  have hnames : curve.map CurveEntry.name = (votes n.repos).count.mostCommon.map Prod.fst := by
    rw [← map_curve h, List.map_map]
    rfl
  have hvalid : (votes n.repos).Valid := (foldl_visit n.repos _ valid_nil).1
  rw [hnames]
  exact (Sequence.sortBy_perm.map Prod.fst).nodup_iff.mpr hvalid.isCount.nodup

/-- The curve falls. -/
theorem pairwise_curve (h : computePrevalenceCurve n = some curve) :
    curve.Pairwise fun c d => d.prevalence ≤ c.prevalence := by
  have hsorted : (curve.map fun c => (c.name, c.reposCount)).Pairwise
      fun c d => -(c.2 : ℤ) ≤ -(d.2 : ℤ) := by
    rw [map_curve h]
    exact Sequence.pairwise_sortBy
  refine (List.pairwise_map.mp hsorted).imp_of_mem fun hc hd hle => ?_
  rw [prevalence_curve h hc, prevalence_curve h hd]
  have hcount := Nat.cast_le.mp (neg_le_neg_iff.mp hle)
  exact div_le_div_of_nonneg_right (Nat.cast_le.mpr hcount) (Nat.cast_nonneg _)

end

/-! ## The selection -/

/-- The loop takes the packages in front of the first one below the threshold. -/
theorem scanCurve_eq (t : ℚ) {curve : List CurveEntry} {k : ℕ}
    (hrank : curve.map CurveEntry.rank = List.range' (k + 1) curve.length) :
    scanCurve t k curve = k + (curve.takeWhile fun c => t ≤ c.prevalence).length := by
  induction curve generalizing k with
  | nil => rfl
  | cons c curve ih =>
      rw [List.map_cons, List.length_cons, List.range'_succ, List.cons.injEq] at hrank
      by_cases ht : t ≤ c.prevalence
      · rw [scanCurve, if_pos ht, hrank.1, ih hrank.2, List.takeWhile_cons,
          if_pos (by simpa using ht), List.length_cons]
        omega
      · rw [scanCurve, if_neg ht, List.takeWhile_cons, if_neg (by simpa using ht)]
        rfl

section
variable [BEq Json] {n : Normalised} {curve : List CurveEntry}

theorem take_findKAtThreshold (h : computePrevalenceCurve n = some curve) (t : ℚ) :
    curve.take (findKAtThreshold curve t) = curve.takeWhile fun c => t ≤ c.prevalence := by
  rw [findKAtThreshold, scanCurve_eq t (rank_curve h), Nat.zero_add]
  exact (List.prefix_iff_eq_take.mp (List.takeWhile_prefix _)).symm

/-- The selected packages are those whose prevalence is not below the threshold. -/
theorem mem_selected (h : computePrevalenceCurve n = some curve) {t : ℚ} {c : CurveEntry} :
    c ∈ curve.take (findKAtThreshold curve t) ↔ c ∈ curve ∧ t ≤ c.prevalence := by
  have hfalls : curve.Pairwise fun c d =>
      decide (t ≤ d.prevalence) = true → decide (t ≤ c.prevalence) = true :=
    (pairwise_curve h).imp fun hle ht => decide_eq_true ((of_decide_eq_true ht).trans hle)
  rw [take_findKAtThreshold h, Sequence.takeWhile_eq_filter hfalls, List.mem_filter,
    decide_eq_true_iff]

/-- A higher threshold selects fewer packages. -/
theorem selected_isPrefix (h : computePrevalenceCurve n = some curve) {t₁ t₂ : ℚ}
    (hle : t₁ ≤ t₂) :
    curve.take (findKAtThreshold curve t₂) <+: curve.take (findKAtThreshold curve t₁) := by
  rw [take_findKAtThreshold h, take_findKAtThreshold h]
  exact Sequence.takeWhile_isPrefix
    (fun c hc => decide_eq_true (hle.trans (of_decide_eq_true hc))) curve

/-- On a corpus that counts its manifests right, a prevalence is the share of the package. -/
theorem prevalence_eq_share (hcount : n.reposWithManifest = n.repos.countP (·.hasManifest))
    (h : computePrevalenceCurve n = some curve) {c : CurveEntry} (hc : c ∈ curve) :
    c.prevalence = share n.repos c.name ∧ 0 < share n.repos c.name := by
  have hmem : (c.name, c.reposCount) ∈ curve.map (fun c => (c.name, c.reposCount)) :=
    List.mem_map_of_mem hc
  obtain ⟨hvoted, hpos⟩ := (mem_curve h).mp hmem
  rw [length_voted_eq] at hvoted
  refine ⟨?_, share_pos (hvoted ▸ hpos)⟩
  rw [prevalence_curve h hc, share, hvoted, hcount]

/-- Every package with a share is on the curve. -/
theorem exists_entry (h : computePrevalenceCurve n = some curve) {p : String}
    (hpos : 0 < share n.repos p) : ∃ c ∈ curve, c.name = p := by
  have hlists := countP_lists_pos hpos
  have hmem := (mem_curve h).mpr ⟨length_voted_eq n.repos p, hlists⟩
  obtain ⟨c, hc, heq⟩ := List.mem_map.mp hmem
  exact ⟨c, hc, congrArg Prod.fst heq⟩

/-- The selected packages are those that the fraction of the records lists. -/
theorem mem_selected_name (hcount : n.reposWithManifest = n.repos.countP (·.hasManifest))
    (h : computePrevalenceCurve n = some curve) {t : ℚ} (ht : 0 < t) {p : String} :
    p ∈ (curve.take (findKAtThreshold curve t)).map CurveEntry.name ↔ t ≤ share n.repos p := by
  rw [List.mem_map]
  constructor
  · rintro ⟨c, hc, rfl⟩
    obtain ⟨hc, hle⟩ := (mem_selected h).mp hc
    exact (prevalence_eq_share hcount h hc).1 ▸ hle
  · intro hle
    obtain ⟨c, hc, rfl⟩ := exists_entry h (ht.trans_le hle)
    exact ⟨c, (mem_selected h).mpr ⟨hc, (prevalence_eq_share hcount h hc).1 ▸ hle⟩, rfl⟩

/-- The report has, under each threshold, the packages that the fraction of the records
lists. -/
theorem mem_report (hcount : n.reposWithManifest = n.repos.countP (·.hasManifest))
    (h : computePrevalenceCurve n = some curve) (round : ℚ → String) {t : ℚ}
    (ht : t ∈ thresholds) :
    ∃ s, (buildThresholdReport round curve).lookup (percent t) = some s ∧ s.threshold = t ∧
      ∀ p, p ∈ s.packages.map Package.name ↔ t ≤ share n.repos p := by
  have hpos : (thresholds.all fun t => 0 < t) = true := by decide +kernel
  have hkeys : (thresholds.map percent).Nodup := by decide +kernel
  refine ⟨select round curve t, Dict.lookup_foldl_alter hkeys ht, rfl, fun p => ?_⟩
  rw [← mem_selected_name hcount h (of_decide_eq_true (List.all_eq_true.mp hpos t ht)), select,
    List.map_map]
  rfl

/-- For every corpus that counts its manifests right: no division is one by zero, so that
the curve is there unless the aggregate of the miner or a version cannot be read.  Each
prevalence is the share of its package, above zero and not above one.  For every threshold
above zero the selected packages are those with at least this share, each once, and a higher
threshold selects a prefix of what a lower one selects. -/
theorem selection_exact (n : Normalised)
    (hcount : n.reposWithManifest = n.repos.countP (·.hasManifest)) :
    (∀ e ∈ (votes n.repos).count.mostCommon, (divide e.2 n.reposWithManifest).isSome) ∧
    ((∃ curve, computePrevalenceCurve n = some curve) ↔
      (preAgg n.packageCounts).isSome ∧ ∀ p, ∀ x ∈ voted n.repos p, x.isHashable = true) ∧
    ∀ curve, computePrevalenceCurve n = some curve →
      (∀ c ∈ curve, c.prevalence = share n.repos c.name ∧ 0 < c.prevalence ∧ c.prevalence ≤ 1) ∧
      (∀ t, 0 < t →
        ((curve.take (findKAtThreshold curve t)).map CurveEntry.name).Nodup ∧
        ∀ p, p ∈ (curve.take (findKAtThreshold curve t)).map CurveEntry.name ↔
          t ≤ share n.repos p) ∧
      ∀ t₁ t₂, t₁ ≤ t₂ →
        curve.take (findKAtThreshold curve t₂) <+: curve.take (findKAtThreshold curve t₁) := by
  have hdivide : ∀ e ∈ (votes n.repos).count.mostCommon,
      (divide e.2 n.reposWithManifest).isSome :=
    fun e he => isSome_divide_count hcount (Sequence.sortBy_perm.mem_iff.mp he)
  refine ⟨hdivide, ?_, fun curve h => ⟨fun c hc => ?_, fun t ht => ⟨?_, fun p => ?_⟩,
    fun t₁ t₂ hle => selected_isPrefix h hle⟩⟩
  · rw [exists_curve_iff]
    refine and_congr_right fun _ => forall_congr' fun p => ⟨fun h x hx => ?_, fun h hne => ⟨h, ?_⟩⟩
    · exact (h (List.ne_nil_of_mem hx)).1 x hx
    · have hmem : (p, (voted n.repos p).length) ∈ (votes n.repos).count :=
        mem_count.mpr ⟨rfl, List.length_pos_iff.mpr hne⟩
      exact isSome_divide.mp (isSome_divide_count hcount hmem)
  · obtain ⟨heq, hpos⟩ := prevalence_eq_share hcount h hc
    rw [heq]
    exact ⟨rfl, hpos, share_le_one n.repos c.name⟩
  · exact (nodup_curve h).sublist ((List.take_sublist _ curve).map _)
  · exact mem_selected_name hcount h ht

end

/-- Two manifests, one of which lists a crate twice. -/
theorem selection_exact_two : ∃ (_ : BEq Json) (n : Normalised) (curve : List CurveEntry),
    computePrevalenceCurve n = some curve ∧
      "serde" ∈ (curve.take (findKAtThreshold curve (3 / 5))).map CurveEntry.name ∧
      "tokio" ∉ (curve.take (findKAtThreshold curve (3 / 5))).map CurveEntry.name := by
  let _ : BEq Json := ⟨fun v w => v.text == w.text⟩
  let serde : Dep := ⟨"serde", .str "1"⟩
  let tokio : Dep := ⟨"tokio", .str "1.40"⟩
  let n : Normalised := ⟨3, 2, "2026-06-21T00:00:00+00:00",
    [⟨"a/b", true, [serde, tokio, tokio]⟩, ⟨"c/d", true, [serde]⟩, ⟨"e/f", false, []⟩], []⟩
  obtain ⟨-, -, hexact⟩ := selection_exact n rfl
  have hsome : (computePrevalenceCurve n).isSome = true := by decide +kernel
  obtain ⟨curve, hcurve⟩ := Option.isSome_iff_exists.mp hsome
  obtain ⟨-, hmem⟩ := (hexact curve hcurve).2.1 (3 / 5) (by decide +kernel)
  refine ⟨_, n, curve, hcurve, (hmem _).mpr ?_, fun h => absurd ((hmem _).mp h) ?_⟩
  · decide +kernel
  · decide +kernel

end Aicv.Mining
