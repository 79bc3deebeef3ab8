import Aicv.Mining.GoMiner
import Aicv.Number.Binary64
import Aicv.Python.Path

/-!
# Coverage

`analyze.py` adds up the counts of the packages from the most common one on, and selects the
first packages that cover a fraction of all mentions.  It divides in binary64.  It names the file
of the miner by its path below the repository, and raises where the mining directory is not given
below it (`isSome_sourcePath`).

The selection is the least one that covers the fraction (`coverage_exact`): below `2 ^ 46`
mentions the rounding of the two sides of a comparison does not change it (`reaches_iff`), and no
packages cover more than as many from the front.
-/

namespace Aicv.Mining.Coverage

open Python Number
open scoped List

/-- The binary64 value of a literal with two decimals. -/
def literal (hundredths : ℕ) : ℚ := Binary64.round (hundredths / 100)

/-- `THRESHOLDS`. -/
def thresholds : List ℚ := [70, 75, 80, 85, 90].map literal

/-- `a / b`, unless it raises. -/
def divide (a b : ℕ) : Option ℚ := if b = 0 then none else some (Binary64.round (a / b))

/-- An entry of the curve. -/
structure Entry where
  rank : ℕ
  name : String
  reposCount : ℕ
  occurrenceShare : ℚ
  cumulativeCoverage : ℚ
  mostCommonVersion : Json
  versionDistribution : Json
  exampleRepos : Json

/-- The loop of `compute_coverage_curve`, from a rank and a sum on. -/
def curveLoop (totalOccurrences : ℕ) : ℕ → ℕ → List PackageCount → Option (List Entry)
  | _, _, [] => some []
  | rank, cumulative, pkg :: pkgs => do
      let cumulative := cumulative + pkg.reposCount
      let share ← divide pkg.reposCount totalOccurrences
      let coverage ← divide cumulative totalOccurrences
      let rest ← curveLoop totalOccurrences (rank + 1) cumulative pkgs
      return ⟨rank, pkg.name, pkg.reposCount, share, coverage, pkg.mostCommonVersion,
        pkg.versionDistribution, pkg.exampleRepos⟩ :: rest

/-- `compute_coverage_curve`. -/
def computeCoverageCurve (pkgs : List PackageCount) (totalOccurrences : ℕ) :
    Option (List Entry) :=
  curveLoop totalOccurrences 1 0 pkgs

/-- `find_k_at_threshold`. -/
def findKAtThreshold (curve : List Entry) (threshold : ℚ) : ℕ :=
  match curve.find? fun entry => threshold ≤ entry.cumulativeCoverage with
  | some entry => entry.rank
  | none => curve.length

/-- A package of the report.  Its shares are rounded. -/
structure Package where
  rank : ℕ
  name : String
  version : Json
  reposCount : ℕ
  occurrenceShare : String
  cumulativeCoverage : String

/-- The report on a threshold. -/
structure Selection where
  threshold : ℚ
  k : ℕ
  actualCoverage : ℚ
  packages : List Package

/-- The body of the loop of `build_threshold_report`, which raises on no package. -/
def select (round : ℚ → String) (curve : List Entry) (t : ℚ) : Option Selection := do
  let k := findKAtThreshold curve t
  let selected := curve.take k
  let last ← selected.getLast?
  return ⟨t, k, last.cumulativeCoverage, selected.map fun e =>
    ⟨e.rank, e.name, e.mostCommonVersion, e.reposCount, round e.occurrenceShare,
      round e.cumulativeCoverage⟩⟩

/-- The key of a threshold in the report. -/
def percent (t : ℚ) : String := toString (Binary64.round (t * 100)).floor

/-- `build_threshold_report`, over the digits of a rounded share. -/
def buildThresholdReport (round : ℚ → String) (curve : List Entry) :
    Option (Dict String Selection) :=
  thresholds.foldlM
    (fun report t => (select round curve t).map fun s => report.alter (percent t) fun _ => s) []

/-! ## The mining directory -/

/-- The arguments of `analyze.py`. -/
structure Args where
  miningDir : Option String
  language : Language

/-- `DEFAULT_MINING_ROOT`. -/
def defaultMiningRoot (repoRoot : Path) : Path := (repoRoot.child "testdata").child "mining"

/-- `find_latest_mining_dir`, of the names of the directories under the root. -/
def findLatestMiningDir (root : Path) (dirs : List String) : Option Path :=
  let candidates := (dirs.filter (·.length = 10)).mergeSort fun a b => b ≤ a
  candidates.head?.map root.child

/-- The name of the file of a miner. -/
def rawName : Language → String
  | .go => "go-raw.json"
  | .rust => "rust-raw.json"

/-- The path of the file of the miner, `raw_path`. -/
def rawPath (repoRoot : Path) (dirs : List String) (args : Args) : Option Path := do
  let miningDir ← match args.miningDir with
    | some text => some (Path.parse text)
    | none => findLatestMiningDir (defaultMiningRoot repoRoot) dirs
  return miningDir.child (rawName args.language)

/-- `raw_path.relative_to(REPO_ROOT)`. -/
def sourcePath (repoRoot : Path) (dirs : List String) (args : Args) : Option Path := do
  let path ← rawPath repoRoot dirs args
  path.relativeTo repoRoot

/-- What `main` of `analyze.py` writes.  The file has the shares of the curve rounded. -/
structure Analysis where
  language : Language
  analyzedAt : String
  sourceFile : String
  sourceMinedAt : Json
  corpusSize : Json
  reposWithManifest : Json
  totalOccurrences : ℕ
  uniquePackages : Json
  thresholds : Dict String Selection
  coverageCurve : List Entry

/-- `main` of `analyze.py`, of the file of the miner. -/
def analyze (round : ℚ → String) (now : String) (repoRoot : Path) (dirs : List String)
    (args : Args) (raw : Json) : Option Analysis := do
  let total ← totalOccurrences raw
  let pkgs ← packageCounts raw
  let curve ← computeCoverageCurve pkgs total
  let report ← buildThresholdReport round curve
  let source ← sourcePath repoRoot dirs args
  let stats ← raw.item "stats"
  return ⟨args.language, now, source.str, ← raw.item "mined_at", ← stats.item "repos_attempted",
    ← stats.item "repos_with_gomod", total, ← stats.item "unique_packages", report, curve⟩

/-- The mining directory is given below the repository, or one is found there. -/
def Located (repoRoot : Path) (dirs : List String) (args : Args) : Prop :=
  match args.miningDir with
  | some text => (Path.parse text).root = repoRoot.root ∧
      repoRoot.parts <+: (Path.parse text).parts ++ [rawName args.language]
  | none => ∃ name ∈ dirs, name.length = 10

theorem isSome_sourcePath (repoRoot : Path) (dirs : List String) (args : Args) :
    (sourcePath repoRoot dirs args).isSome ↔ Located repoRoot dirs args := by
  obtain ⟨dir, language⟩ := args
  cases dir with
  | some text => exact Path.isSome_relativeTo
  | none =>
      let candidates := (dirs.filter (·.length = 10)).mergeSort fun a b => b ≤ a
      have hsource : (sourcePath repoRoot dirs ⟨none, language⟩).isSome ↔ candidates ≠ [] := by
        have hbelow (name : String) :=
          Path.relativeTo_descend repoRoot ["testdata", "mining", name, rawName language]
        cases hcandidates : candidates with
        | nil => simp [sourcePath, rawPath, findLatestMiningDir, candidates, hcandidates]
        | cons name names =>
            simp only [sourcePath, rawPath, findLatestMiningDir, defaultMiningRoot, candidates,
              hcandidates]
            simpa using Option.isSome_of_eq_some (hbelow name)
      rw [hsource, ne_eq, List.eq_nil_iff_forall_not_mem]
      simp [candidates, Located]

/-- A relative directory is not given below the repository, as in the usage of the script. -/
theorem not_located_of_relative {repoRoot : Path} {text : String} (hroot : repoRoot.root ≠ "")
    (hrelative : text.toList.head? ≠ some '/') (dirs : List String) (language : Language) :
    ¬ Located repoRoot dirs ⟨some text, language⟩ := by
  rintro ⟨heq, -⟩
  refine hroot (heq ▸ ?_)
  have hslashes : text.toList.takeWhile (· = '/') = [] := by
    cases hchars : text.toList with
    | nil => rfl
    | cons c cs =>
        have hc : c ≠ '/' := by simpa [hchars] using hrelative
        simp [hc]
  simp [Path.parse, hslashes]

/-! ## The curve -/

/-- The mentions of the first packages. -/
def mentions (pkgs : List PackageCount) (n : ℕ) : ℕ :=
  ((pkgs.take n).map PackageCount.reposCount).sum

section
variable {total rank cumulative : ℕ} {pkgs : List PackageCount} {curve : List Entry}

@[simp] theorem mentions_zero (pkgs : List PackageCount) : mentions pkgs 0 = 0 := rfl

@[simp] theorem mentions_cons (pkg : PackageCount) (pkgs : List PackageCount) (n : ℕ) :
    mentions (pkg :: pkgs) (n + 1) = pkg.reposCount + mentions pkgs n := rfl

theorem mentions_mono (pkgs : List PackageCount) {m n : ℕ} (h : m ≤ n) :
    mentions pkgs m ≤ mentions pkgs n := by
  induction pkgs generalizing m n with
  | nil => simp [mentions]
  | cons pkg pkgs ih =>
      cases m with
      | zero => exact Nat.zero_le _
      | succ m =>
          cases n with
          | zero => cases h
          | succ n => exact Nat.add_le_add_left (ih (Nat.le_of_succ_le_succ h)) _

/-- There is a curve where there are mentions. -/
theorem exists_curveLoop (htotal : total ≠ 0) (rank cumulative : ℕ) (pkgs : List PackageCount) :
    ∃ curve, curveLoop total rank cumulative pkgs = some curve := by
  induction pkgs generalizing rank cumulative with
  | nil => exact ⟨[], rfl⟩
  | cons pkg pkgs ih =>
      obtain ⟨rest, hrest⟩ := ih (rank + 1) (cumulative + pkg.reposCount)
      simp [curveLoop, divide, htotal, hrest]

/-- The entry at a position is that of the package there, with the mentions up to it. -/
theorem getElem?_curveLoop (h : curveLoop total rank cumulative pkgs = some curve) (i : ℕ) :
    (curve[i]?).map (fun e => (e.rank, e.name, e.reposCount, e.cumulativeCoverage)) =
      (pkgs[i]?).map fun pkg => (rank + i, pkg.name, pkg.reposCount,
        Binary64.round ((cumulative + mentions pkgs (i + 1) : ℕ) / total)) := by
  induction pkgs generalizing rank cumulative curve i with
  | nil =>
      cases h
      rfl
  | cons pkg pkgs ih =>
      obtain ⟨share, -, h⟩ := Option.bind_eq_some_iff.mp h
      obtain ⟨coverage, hcoverage, h⟩ := Option.bind_eq_some_iff.mp h
      obtain ⟨rest, hrest, h⟩ := Option.bind_eq_some_iff.mp h
      cases h
      cases i with
      | zero =>
          rw [divide] at hcoverage
          split at hcoverage
          next => cases hcoverage
          next =>
            cases hcoverage
            simp
      | succ i =>
          rw [List.getElem?_cons_succ, List.getElem?_cons_succ, ih hrest]
          simp only [mentions_cons]
          congr 1
          funext pkg'
          rw [Nat.add_assoc, Nat.add_assoc, Nat.add_comm 1 i]

theorem length_curveLoop (h : curveLoop total rank cumulative pkgs = some curve) :
    curve.length = pkgs.length := by
  have hnone : ∀ i, curve[i]? = none ↔ pkgs[i]? = none := fun i => by
    have hentry := congrArg Option.isNone (getElem?_curveLoop h i)
    rwa [Option.isNone_map, Option.isNone_map, Bool.eq_iff_iff, Option.isNone_iff_eq_none,
      Option.isNone_iff_eq_none] at hentry
  simp only [List.getElem?_eq_none_iff] at hnone
  exact le_antisymm ((hnone _).mpr le_rfl) ((hnone _).mp le_rfl)

theorem getElem_curve (h : computeCoverageCurve pkgs total = some curve) {i : ℕ}
    (hi : i < curve.length) : curve[i].rank = i + 1 ∧
      curve[i].cumulativeCoverage = Binary64.round ((mentions pkgs (i + 1) : ℕ) / total) := by
  have hi' : i < pkgs.length := length_curveLoop h ▸ hi
  have hentry := getElem?_curveLoop h i
  rw [List.getElem?_eq_getElem hi, List.getElem?_eq_getElem hi', Option.map_some, Option.map_some,
    Option.some.injEq, Prod.mk.injEq, Prod.mk.injEq, Prod.mk.injEq, Nat.zero_add] at hentry
  exact ⟨hentry.1.trans (Nat.add_comm 1 i), hentry.2.2.2⟩

/-! ## The selection -/

/-- The mentions of the first `n` packages reach a fraction of the total. -/
def Reaches (pkgs : List PackageCount) (total t n : ℕ) : Prop := t * total ≤ 100 * mentions pkgs n

instance (pkgs : List PackageCount) (total t n : ℕ) : Decidable (Reaches pkgs total t n) :=
  inferInstanceAs (Decidable (_ ≤ _))

/-- Rounding both sides of a comparison does not change it. -/
theorem literal_le_iff {t s : ℕ} (ht : t < 100) (htotal : 0 < total) (hbound : total < 2 ^ 46) :
    literal t ≤ Binary64.round (s / total) ↔ t * total ≤ 100 * s := by
  have hpos : (0 : ℚ) < total := Nat.cast_pos.mpr htotal
  have hcross : (t : ℚ) / 100 ≤ s / total ↔ t * total ≤ 100 * s := by
    rw [div_le_div_iff₀ (by norm_num) hpos, mul_comm (s : ℚ)]
    exact_mod_cast Iff.rfl
  constructor
  · intro hle
    by_contra hlt
    have hgap : 100 * s + 1 ≤ t * total := not_le.mp hlt
    have hlt' : (s : ℚ) / total < t / 100 := lt_of_not_ge (mt hcross.mp hlt)
    have ht1 : (t : ℚ) / 100 < 1 := by
      rw [div_lt_one (by norm_num)]
      exact_mod_cast ht
    have hs0 : (0 : ℚ) ≤ s / total := div_nonneg (Nat.cast_nonneg s) hpos.le
    have hfar : (s : ℚ) / total + 2 ^ (-53 : ℤ) < t / 100 := by
      have hsmall : (2 : ℚ) ^ (-53 : ℤ) < 1 / (100 * total) := by
        have hlt : (total : ℚ) < 2 ^ 46 := by exact_mod_cast hbound
        rw [lt_div_iff₀ (by positivity), zpow_neg, inv_mul_lt_iff₀ (by positivity)]
        calc 100 * (total : ℚ) < 100 * 2 ^ 46 := by linarith
          _ < 2 ^ (53 : ℤ) * 1 := by norm_num
      calc (s : ℚ) / total + 2 ^ (-53 : ℤ) < s / total + 1 / (100 * total) := by linarith
        _ = (100 * s + 1 : ℕ) / (100 * total) := by
            push_cast
            field_simp
        _ ≤ t / 100 := by
            rw [div_le_div_iff₀ (by positivity) (by norm_num)]
            have hcast : ((100 * s + 1 : ℕ) : ℚ) ≤ t * total := by exact_mod_cast hgap
            linarith
    have habs : |(s : ℚ) / total| < 2 ^ ((-53 : ℤ) + 53) := by
      rw [abs_of_nonneg hs0]
      norm_num
      exact hlt'.trans ht1
    have habs' : |(t : ℚ) / 100| < 2 ^ ((-53 : ℤ) + 53) := by
      rw [abs_of_nonneg (div_nonneg (Nat.cast_nonneg t) (by norm_num))]
      norm_num
      exact ht1
    exact not_lt_of_ge hle (Binary64.round_lt_round habs habs' (by decide) hfar)
  · intro hle
    exact Binary64.round_mono (div_nonneg (Nat.cast_nonneg t) (by norm_num)) (hcross.mpr hle)

section
variable {t : ℕ}

/-- An entry reaches a threshold if the mentions up to it do. -/
theorem getElem_reaches_iff (h : computeCoverageCurve pkgs total = some curve) (ht : t < 100)
    (htotal : 0 < total) (hbound : total < 2 ^ 46) {i : ℕ} (hi : i < curve.length) :
    literal t ≤ curve[i].cumulativeCoverage ↔ Reaches pkgs total t (i + 1) := by
  rw [(getElem_curve h hi).2, literal_le_iff ht htotal hbound]
  exact Iff.rfl

/-- The selection is the first one that reaches the threshold. -/
theorem findKAtThreshold_spec (h : computeCoverageCurve pkgs total = some curve) (hpos : 0 < t)
    (ht : t < 100) (htotal : 0 < total) (hbound : total < 2 ^ 46)
    (hall : Reaches pkgs total t pkgs.length) :
    Reaches pkgs total t (findKAtThreshold curve (literal t)) ∧
      findKAtThreshold curve (literal t) ≤ pkgs.length ∧
      ∀ n < findKAtThreshold curve (literal t), ¬ Reaches pkgs total t n := by
  have hlen : curve.length = pkgs.length := length_curveLoop h
  have hzero : ¬ Reaches pkgs total t 0 := not_le_of_gt (Nat.mul_pos hpos htotal)
  rw [findKAtThreshold]
  split
  next entry hfind =>
    obtain ⟨hreaches, i, hi, rfl, hbefore⟩ := List.find?_eq_some_iff_getElem.mp hfind
    have hiff := getElem_reaches_iff h ht htotal hbound hi
    rw [(getElem_curve h hi).1]
    refine ⟨hiff.mp (of_decide_eq_true hreaches), hlen ▸ hi, fun n hn => ?_⟩
    cases n with
    | zero => exact hzero
    | succ n =>
        have hn : n < i := Nat.lt_of_succ_lt_succ hn
        have hnot := hbefore n hn
        rw [Bool.not_eq_true', decide_eq_false_iff_not] at hnot
        exact mt (getElem_reaches_iff h ht htotal hbound (hn.trans hi)).mpr hnot
  next hnone =>
    exfalso
    obtain ⟨n, hn⟩ : ∃ n, pkgs.length = n + 1 :=
      Nat.exists_eq_succ_of_ne_zero fun hnil => hzero (hnil ▸ hall)
    have hi : n < curve.length := by omega
    refine List.find?_eq_none.mp hnone curve[n] (List.getElem_mem hi) (decide_eq_true ?_)
    exact (getElem_reaches_iff h ht htotal hbound hi).mpr (hn ▸ hall)

end

/-- The curve has the packages in their order. -/
theorem map_name_curve (h : computeCoverageCurve pkgs total = some curve) :
    curve.map Entry.name = pkgs.map PackageCount.name := by
  refine List.ext_getElem? fun i => ?_
  have hentry := congrArg (Option.map fun e => e.2.1) (getElem?_curveLoop h i)
  rw [Option.map_map, Option.map_map] at hentry
  rw [List.getElem?_map, List.getElem?_map]
  exact hentry

/-- The curve rises. -/
theorem pairwise_curve (h : computeCoverageCurve pkgs total = some curve) :
    curve.Pairwise fun e f => e.cumulativeCoverage ≤ f.cumulativeCoverage := by
  rw [List.pairwise_iff_getElem]
  intro i j hi hj hij
  rw [(getElem_curve h hi).2, (getElem_curve h hj).2]
  refine Binary64.round_mono (div_nonneg (Nat.cast_nonneg _) (Nat.cast_nonneg _)) ?_
  refine div_le_div_of_nonneg_right (Nat.cast_le.mpr ?_) (Nat.cast_nonneg _)
  exact mentions_mono pkgs (by omega)

/-- The curve ends at one. -/
theorem getLast?_curve (h : computeCoverageCurve pkgs total = some curve) (hne : curve ≠ [])
    (htotal : mentions pkgs pkgs.length = total) (hpos : 0 < total) :
    curve.getLast?.map Entry.cumulativeCoverage = some 1 := by
  have hlen : curve.length = pkgs.length := length_curveLoop h
  have hlast : curve.length - 1 < curve.length := by
    have := List.length_pos_iff.mpr hne
    omega
  have hone : Binary64.round 1 = 1 := by
    exact_mod_cast Binary64.round_intCast (n := 1) (by decide)
  rw [List.getLast?_eq_getElem?, List.getElem?_eq_getElem hlast, Option.map_some,
    (getElem_curve h hlast).2]
  have hall : mentions pkgs (curve.length - 1 + 1) = total := by
    rw [← htotal, hlen]
    congr 1
    omega
  rw [hall, div_self (Nat.cast_ne_zero.mpr hpos.ne'), hone]

/-- At least one package is selected, if there is one. -/
theorem findKAtThreshold_pos (h : computeCoverageCurve pkgs total = some curve) (hne : curve ≠ [])
    (threshold : ℚ) : 0 < findKAtThreshold curve threshold := by
  rw [findKAtThreshold]
  split
  next entry hfind =>
    obtain ⟨i, hi, rfl⟩ := List.getElem_of_mem (List.mem_of_find?_eq_some hfind)
    rw [(getElem_curve h hi).1]
    exact Nat.succ_pos i
  next => exact List.length_pos_iff.mpr hne

theorem isSome_select (h : computeCoverageCurve pkgs total = some curve) (round : ℚ → String)
    (t : ℚ) : (select round curve t).isSome ↔ curve ≠ [] := by
  have hlast : ∀ selected : List Entry, selected.getLast?.isSome ↔ selected ≠ [] := fun selected =>
    List.getLast?_isSome
  have hselect : (select round curve t).isSome =
      (curve.take (findKAtThreshold curve t)).getLast?.isSome := by
    rw [select]
    cases (curve.take (findKAtThreshold curve t)).getLast? <;> rfl
  rw [hselect, hlast, ne_eq, List.take_eq_nil_iff, not_or]
  exact and_iff_right_of_imp fun hne => (findKAtThreshold_pos h hne t).ne'

theorem of_select {round : ℚ → String} {t : ℚ} {s : Selection}
    (h : select round curve t = some s) : s.k = findKAtThreshold curve t ∧
      s.packages.map Package.name = (curve.take s.k).map Entry.name := by
  obtain ⟨last, -, h⟩ := Option.bind_eq_some_iff.mp h
  cases h
  refine ⟨rfl, ?_⟩
  rw [List.map_map]
  rfl

/-- There is a report if there is a package. -/
theorem isSome_buildThresholdReport (h : computeCoverageCurve pkgs total = some curve)
    (round : ℚ → String) : (buildThresholdReport round curve).isSome ↔ curve ≠ [] := by
  rw [buildThresholdReport, Sequence.isSome_foldlM (p := fun _ => curve ≠ []) fun report t => by
    rw [Option.isSome_map, isSome_select h]]
  exact ⟨fun hall => hall (literal 70) List.mem_cons_self, fun hne _ _ => hne⟩

/-- The report has each threshold under its percentage. -/
theorem lookup_buildThresholdReport {round : ℚ → String} {report : Dict String Selection}
    (h : buildThresholdReport round curve = some report) {t : ℕ} (ht : t ∈ [70, 75, 80, 85, 90]) :
    ∃ s, select round curve (literal t) = some s ∧ report.lookup (toString t) = some s := by
  have hkeys : (thresholds.map percent).Nodup := by decide +kernel
  have hkey : ∀ t ∈ [70, 75, 80, 85, 90], percent (literal t) = toString t := by decide +kernel
  rw [← hkey t ht]
  exact Dict.lookup_foldlM_alter hkeys (List.mem_map_of_mem ht) h

/-- There is a report of packages that are mentioned, if there is one. -/
theorem exists_report (round : ℚ → String) (hpos : pkgs ≠ [] → 0 < total) :
    (∃ curve report, computeCoverageCurve pkgs total = some curve ∧
      buildThresholdReport round curve = some report) ↔ pkgs ≠ [] := by
  have hne_iff {curve : List Entry} (hcurve : computeCoverageCurve pkgs total = some curve) :
      curve ≠ [] ↔ pkgs ≠ [] := by
    rw [← List.length_pos_iff, ← List.length_pos_iff, length_curveLoop hcurve]
  constructor
  · rintro ⟨curve, report, hcurve, hreport⟩
    have hsome := Option.isSome_of_eq_some hreport
    exact (hne_iff hcurve).mp ((isSome_buildThresholdReport hcurve round).mp hsome)
  · intro hne
    obtain ⟨curve, hcurve⟩ := exists_curveLoop (hpos hne).ne' 1 0 pkgs
    have hsome := (isSome_buildThresholdReport hcurve round).mpr ((hne_iff hcurve).mpr hne)
    obtain ⟨report, hreport⟩ := Option.isSome_iff_exists.mp hsome
    exact ⟨curve, report, hcurve, hreport⟩

end

/-! ## The file of the miner -/

section
variable {parse : String → List (String × String)} {gomods : ℕ → Option String}
  {repos : List Repo} {info : Dict String GoInfo} {counts : List PackageCount} {raw : Json}
  {total : ℕ} {curve : List Entry} {round : ℚ → String} {report : Dict String Selection}

/-- The other keys that are read are in the file of the miner. -/
theorem analyze_eq {mined : String} (round : ℚ → String) (now : String) (repoRoot : Path)
    (dirs : List String) (args : Args) (h : goMain mined parse repos gomods = some raw)
    (hcounts : packageCounts raw = some counts) (htotal : totalOccurrences raw = some total) :
    ∃ minedAt attempted withGomod unique, analyze round now repoRoot dirs args raw = do
      let curve ← computeCoverageCurve counts total
      let report ← buildThresholdReport round curve
      let source ← sourcePath repoRoot dirs args
      return ⟨args.language, now, source.str, minedAt, attempted, withGomod, total, unique, report,
        curve⟩ := by
  obtain ⟨pkgs, -, hraw⟩ := Option.bind_eq_some_iff.mp h
  have hkeys : ∃ stats minedAt attempted withGomod unique, raw.item "stats" = some stats ∧
      raw.item "mined_at" = some minedAt ∧ stats.item "repos_attempted" = some attempted ∧
      stats.item "repos_with_gomod" = some withGomod ∧
      stats.item "unique_packages" = some unique := by
    cases hraw
    simp [Json.item, List.lookup_cons]
  obtain ⟨stats, minedAt, attempted, withGomod, unique, hstats, hmined, hattempted, hwith,
    hunique⟩ := hkeys
  refine ⟨minedAt, attempted, withGomod, unique, ?_⟩
  rw [analyze, htotal, hcounts, hstats, hmined]
  simp [hattempted, hwith, hunique]

/-- No packages have more mentions than as many of the most common ones. -/
theorem sum_repoCount_le (htally : Tallies parse gomods repos info)
    (hcounts : (byCount info).mapM countOf = some counts) {ps : List String} (hps : ps.Nodup) :
    (ps.map (repoCount parse gomods repos)).sum ≤ mentions counts ps.length := by
  let chosen := counts.filter fun c => c.name ∈ ps
  have hchosen : chosen.map PackageCount.name ~ ps.filter (0 < repoCount parse gomods repos ·) := by
    refine (List.perm_ext_iff_of_nodup ?_ (hps.filter _)).mpr fun p => ?_
    · exact (htally.nodup_name hcounts).sublist (List.filter_sublist.map _)
    · rw [List.mem_filter, decide_eq_true_iff, ← htally.mem_name hcounts]
      simp only [chosen, List.mem_map, List.mem_filter, decide_eq_true_iff]
      constructor
      · rintro ⟨c, ⟨hc, hmem⟩, rfl⟩
        exact ⟨hmem, c, hc, rfl⟩
      · rintro ⟨hmem, c, hc, rfl⟩
        exact ⟨c, ⟨hc, hmem⟩, rfl⟩
  have hzero : ∀ qs : List String, (qs.map (repoCount parse gomods repos)).sum =
      ((qs.filter (0 < repoCount parse gomods repos ·)).map
        (repoCount parse gomods repos)).sum := by
    intro qs
    induction qs with
    | nil => rfl
    | cons q qs ih =>
        rw [List.map_cons, List.sum_cons, ih, List.filter_cons]
        split
        next => rfl
        next hq => simp_all
  have hsum : (ps.map (repoCount parse gomods repos)).sum =
      (chosen.map PackageCount.reposCount).sum := by
    rw [hzero, ← (hchosen.map _).sum_nat, List.map_map]
    refine congrArg List.sum (List.map_congr_left fun c hc => ?_)
    exact (htally.reposCount_eq hcounts (List.mem_filter.mp hc).1).symm
  have hlen : chosen.length ≤ ps.length := by
    rw [← List.length_map PackageCount.name, hchosen.length_eq]
    exact List.length_filter_le _ _
  rw [hsum]
  exact (Sequence.sum_le_sum_take List.filter_sublist (pairwise_counts hcounts)).trans
    (mentions_mono counts hlen)

/-- The packages of a threshold cover it, and no fewer packages do. -/
theorem covers_of_report (htally : Tallies parse gomods repos info)
    (hcounts : (byCount info).mapM countOf = some counts)
    (hcurve : computeCoverageCurve counts total = some curve)
    (hreport : buildThresholdReport round curve = some report)
    (hall : mentions counts counts.length = total) (hpos : 0 < total) (hbound : total < 2 ^ 46)
    {t : ℕ} (ht : t ∈ [70, 75, 80, 85, 90]) :
    ∃ s, report.lookup (toString t) = some s ∧
      (s.packages.map Package.name).Nodup ∧ s.packages.length = s.k ∧
      t * total ≤ 100 * ((s.packages.map Package.name).map (repoCount parse gomods repos)).sum ∧
      ∀ ps : List String, ps.Nodup → ps.length < s.k →
        100 * (ps.map (repoCount parse gomods repos)).sum < t * total := by
  have hrange : ∀ t ∈ [70, 75, 80, 85, 90], 0 < t ∧ t < 100 := by decide
  obtain ⟨hpos_t, hlt_t⟩ := hrange t ht
  obtain ⟨s, hselect, hlookup⟩ := lookup_buildThresholdReport hreport ht
  obtain ⟨hk, hnames⟩ := of_select hselect
  have hreaches : Reaches counts total t counts.length := by
    rw [Reaches, hall]
    exact Nat.mul_le_mul_right _ hlt_t.le
  obtain ⟨hcover, hle, hmin⟩ := findKAtThreshold_spec hcurve hpos_t hlt_t hpos hbound hreaches
  rw [← hk] at hcover hle hmin
  have hnames : s.packages.map Package.name = (counts.take s.k).map PackageCount.name := by
    rw [hnames, List.map_take, map_name_curve hcurve, List.map_take]
  have hmentions : ((counts.take s.k).map PackageCount.name).map (repoCount parse gomods repos) =
      (counts.take s.k).map PackageCount.reposCount := by
    rw [List.map_map]
    exact List.map_congr_left fun c hc =>
      (htally.reposCount_eq hcounts (List.mem_of_mem_take hc)).symm
  refine ⟨s, hlookup, ?_, ?_, ?_, fun ps hps hlen => ?_⟩
  · rw [hnames]
    exact (htally.nodup_name hcounts).sublist ((List.take_sublist _ counts).map _)
  · rw [← List.length_map Package.name, hnames, List.length_map, List.length_take,
      Nat.min_eq_left hle]
  · rw [hnames, hmentions]
    exact hcover
  · have hfew := sum_repoCount_le htally hcounts hps
    exact lt_of_le_of_lt (Nat.mul_le_mul_left 100 hfew) (not_le.mp (hmin ps.length hlen))

end

end Aicv.Mining.Coverage
