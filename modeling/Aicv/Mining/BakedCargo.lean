import Mathlib.Data.List.Forall2
import Mathlib.Order.Bounds.Defs
import Aicv.Mining.Agreement
import Aicv.Mining.Baked

/-!
# The baked `Cargo.toml`

`generate_cargo_toml.py` writes the crates of a threshold into the `Cargo.toml` of the image.
A crate whose most common version is no version number is skipped, and a version that is no
text ends the script.

`crates_exact` says, for every run of the miner, how the generator ends and which lines are in
the file.  A version in the file is what a repository has behind the operators `~`, `^` and `=`
(`IsVersion`).
-/

namespace Aicv.Mining.CargoToml

open Python Text

/-! ## The generator -/

/-- What the generator knows of characters and numbers. -/
structure Chars where
  /-- `\d` of a pattern. -/
  isDecimal : Char → Bool
  /-- A number that does not count as true, by its digits. -/
  isZero : String → Bool
  not_decimal : ∀ c ∈ ['<', '~', '^', '=', '*'], isDecimal c = false

/-- `bool(v)`. -/
def Chars.truthy (py : Chars) : Json → Bool
  | .null => false
  | .bool b => b
  | .num digits => !py.isZero digits
  | .str s => s ≠ ""
  | .arr items => !items.isEmpty
  | .obj fields => !fields.isEmpty

/-- The start of `^\d+(\.\d+)*`.  The rest of the pattern matches the empty text, too. -/
def Chars.number (py : Chars) : Pattern Char := .seq .start (.plus py.isDecimal)

/-- `normalise_version`. -/
def normaliseVersion (py : Chars) (version : Json) : Except Failure String :=
  if !py.truthy version then .ok "*"
  else
    match version with
    | .str s =>
        if ['<'].isPrefixOf s.toList then .ok "*"
        else
          let cleaned := s.toList.dropWhile (· ∈ ['~', '^', '='])
          if (reMatch py.number cleaned).isSome then .ok (String.ofList cleaned) else .ok "*"
    | _ => .error .attribute

/-- A member of `valid_packages`. -/
structure Crate where
  name : String
  version : String
  prevalence : String
  reposCount : ℕ

/-- The loop that fills `valid_packages`. -/
def validPackages (py : Chars) : List Package → Except Failure (List Crate)
  | [] => .ok []
  | pkg :: packages => do
      let ver ← normaliseVersion py pkg.version
      let valid ← validPackages py packages
      if ver = "*" then return valid
      else return ⟨pkg.name, ver, pkg.prevalence, pkg.reposCount⟩ :: valid

/-- The lines in front of the crates. -/
def preamble (now sourceFile sourceMinedAt : String) (threshold k : ℕ) : List String :=
  ["# Baked dependency manifest for the Rust sandbox image.",
    "#",
    "# This file is GENERATED — do not edit by hand.",
    "# Source: " ++ sourceFile,
    "# Mined:  " ++ sourceMinedAt,
    "# Methodology: repo-prevalence ≥ " ++ toString threshold ++ "% (see ADR-001)",
    "# K = " ++ toString k ++ " crates, generated " ++ now,
    "",
    "[package]",
    "name = \"sandbox-baked\"",
    "version = \"0.0.1\"",
    "edition = \"2021\"",
    "",
    "[dependencies]"]

/-- The line of a crate, over the digits of a percentage. -/
def crateLine (percentage : String → String) (width : ℕ) (crate : Crate) : String :=
  String.ofList (ljust width crate.name.toList) ++ " = \"" ++ crate.version ++ "\"" ++
    "  # " ++ percentage crate.prevalence ++ "% (" ++ toString crate.reposCount ++ " repos)"

/-- The text of the file, of crates in their order. -/
def manifest (percentage : String → String) (now : String) (analysis : Analysis)
    (threshold width : ℕ) (crates : List Crate) : String :=
  "\n".intercalate (preamble now (analysis.sourceFile.getD "unknown")
      (analysis.sourceMinedAt.getD "unknown") threshold crates.length ++
    crates.map (crateLine percentage width) ++ [""])

/-- `name_width`, unless there is no crate. -/
def nameWidth (crates : List Crate) : Option ℕ := (crates.map (·.name.length)).max?

/-- The message of `sys.exit` where no package is selected. -/
def noPackages (threshold : ℕ) : String :=
  "error: no packages meet the ≥" ++ toString threshold ++ "% threshold."

/-- The end of `main`, from the sort on. -/
def write (percentage : String → String) (now : String) (analysis : Analysis) (threshold : ℕ)
    (valid : List Crate) : Except Failure String :=
  let sorted := Sequence.sortBy Crate.name valid
  match nameWidth sorted with
  | none => .error .empty
  | some width => .ok (manifest percentage now analysis threshold width sorted)

/-- The text that `main` of `generate_cargo_toml.py` writes. -/
def generate (py : Chars) (percentage : String → String) (now : String) (analysis : Analysis)
    (threshold : ℕ) : Except Failure String := do
  let selection ← analysis.selection threshold
  if selection.k = 0 then throw (.exit (noPackages threshold))
  let valid ← validPackages py selection.packages
  write percentage now analysis threshold valid

/-! ## The versions -/

/-- A value that is no text and counts as true.  It has none of the methods of a text. -/
def NoMethod (py : Chars) (v : Json) : Prop := v.text = none ∧ py.truthy v = true

/-- The value is a text that has a version number behind operators. -/
def IsVersion (py : Chars) (v : Json) (ver : String) : Prop :=
  ∃ operators d rest, v = .str (String.ofList (operators ++ d :: rest)) ∧
    (∀ c ∈ operators, c ∈ ['~', '^', '=']) ∧ py.isDecimal d = true ∧
    ver = String.ofList (d :: rest)

section
variable {py : Chars} {v : Json} {ver : String} {e : Failure}

/-- The pattern asks for no more than a digit in front. -/
theorem reMatch_number {cs : List Char} :
    (reMatch py.number cs).isSome ↔ ∃ d rest, cs = d :: rest ∧ py.isDecimal d = true := by
  rw [reMatch, Option.isSome_map, Option.isSome_iff_exists]
  constructor
  · rintro ⟨c, hrun⟩
    obtain ⟨_, hmatch, -⟩ := Pattern.exists_of_run hrun
    obtain ⟨_, hstart, hplus⟩ := hmatch.of_seq
    obtain ⟨digits, hne, hdigits, hrest⟩ := hplus.of_plus
    obtain ⟨d, digits, rfl⟩ := List.exists_cons_of_ne_nil hne
    rw [← hstart.of_look] at hrest
    exact ⟨d, _, hrest, hdigits d List.mem_cons_self⟩
  · rintro ⟨d, rest, rfl, hd⟩
    have hleads : Pattern.Leads (.plus py.isDecimal)
        ⟨none, (d :: rest.takeWhile py.isDecimal) ++ rest.dropWhile py.isDecimal, []⟩ _ :=
      .plus (List.cons_ne_nil _ _)
        (List.forall_mem_cons.mpr ⟨hd, fun _ hc => List.mem_takeWhile_imp hc⟩) fun c hc => by
          have hnot := List.head?_dropWhile_not py.isDecimal rest
          rw [Option.mem_def.mp hc] at hnot
          simpa using hnot
    rw [List.cons_append, List.takeWhile_append_dropWhile] at hleads
    exact ⟨_, (Pattern.Leads.seq .start hleads).run⟩

/-- The only error is a missing method. -/
theorem eq_attribute_of_error (h : normaliseVersion py v = .error e) : e = .attribute := by
  unfold normaliseVersion at h
  split at h
  next => cases h
  next =>
    split at h
    next s =>
      split at h
      next => cases h
      next =>
        dsimp only at h
        split at h <;> cases h
    next => exact (Except.error.inj h).symm

theorem normaliseVersion_eq_error :
    normaliseVersion py v = .error .attribute ↔ NoMethod py v := by
  unfold normaliseVersion NoMethod
  cases htruthy : py.truthy v with
  | false => simp
  | true =>
      cases v with
      | str s =>
          simp only [Json.text, reduceCtorEq, false_and, iff_false, Bool.not_true,
            Bool.false_eq_true, if_false]
          intro herror
          split at herror
          next => cases herror
          next => split at herror <;> cases herror
      | _ => simp [Json.text]

/-- A version number has a digit in front. -/
theorem IsVersion.ne_star (h : IsVersion py v ver) : ver ≠ "*" := by
  obtain ⟨operators, d, rest, -, -, hd, rfl⟩ := h
  intro hstar
  have hchars : d :: rest = ['*'] := by
    rw [← String.toList_ofList (l := d :: rest), hstar]
    rfl
  rw [(List.cons.inj hchars).1, py.not_decimal '*' (by decide)] at hd
  cases hd

/-- The text of a version number is kept, and its operators are not. -/
theorem normaliseVersion_of_isVersion (h : IsVersion py v ver) :
    normaliseVersion py v = .ok ver := by
  obtain ⟨operators, d, rest, rfl, hoperators, hd, rfl⟩ := h
  have hnot {c : Char} (hc : c ∈ ['<', '~', '^', '=', '*']) : d ≠ c := by
    rintro rfl
    rw [py.not_decimal _ hc] at hd
    cases hd
  have htruthy : py.truthy (.str (String.ofList (operators ++ d :: rest))) = true := by
    simp [Chars.truthy]
  have hless : ['<'].isPrefixOf (operators ++ d :: rest) = false := by
    cases operators with
    | nil => simp [List.isPrefixOf, (hnot (c := '<') (by decide)).symm]
    | cons c operators =>
        have hc := hoperators c List.mem_cons_self
        have hne : c ≠ '<' := by
          rintro rfl
          exact absurd hc (by decide)
        simp [List.isPrefixOf, hne.symm]
  have hdrop : (operators ++ d :: rest).dropWhile (· ∈ ['~', '^', '=']) = d :: rest := by
    rw [List.dropWhile_append_of_pos (by simpa using hoperators), List.dropWhile_cons_of_neg]
    simp [hnot (c := '~') (by decide), hnot (c := '^') (by decide), hnot (c := '=') (by decide)]
  rw [normaliseVersion, htruthy]
  simp only [String.toList_ofList, hless, hdrop, reMatch_number.mpr ⟨d, rest, rfl, hd⟩,
    Bool.not_true, Bool.false_eq_true, if_false, if_true]

theorem normaliseVersion_eq_ok :
    normaliseVersion py v = .ok ver ∧ ver ≠ "*" ↔ IsVersion py v ver := by
  refine ⟨?_, fun h => ⟨normaliseVersion_of_isVersion h, h.ne_star⟩⟩
  rintro ⟨h, hne⟩
  have hstar : (.ok "*" : Except Failure String) ≠ .ok ver :=
    fun heq => hne (Except.ok.inj heq).symm
  unfold normaliseVersion at h
  split at h
  next => exact absurd h hstar
  next =>
    cases v with
    | str s =>
        dsimp only at h
        split at h
        next => exact absurd h hstar
        next =>
          split at h
          next hmatch =>
            obtain ⟨d, rest, hrest, hd⟩ := reMatch_number.mp hmatch
            rw [hrest] at h
            refine ⟨s.toList.takeWhile (· ∈ ['~', '^', '=']), d, rest, ?_, fun c hc => ?_, hd,
              (Except.ok.inj h).symm⟩
            · rw [← hrest, List.takeWhile_append_dropWhile, String.ofList_toList]
            · have hoperator := List.mem_takeWhile_imp hc
              exact of_decide_eq_true hoperator
          next => exact absurd h hstar
    | _ => cases h

end

/-! ## The crates of a selection -/

section
variable {py : Chars} {pkg : Package} {pkgs : List Package} {crate : Crate}

/-- The crate of a package that is not skipped. -/
def crateOf (py : Chars) (pkg : Package) : Option Crate :=
  match normaliseVersion py pkg.version with
  | .ok ver => if ver = "*" then none else some ⟨pkg.name, ver, pkg.prevalence, pkg.reposCount⟩
  | .error _ => none

theorem crateOf_eq_some : crateOf py pkg = some crate ↔
    IsVersion py pkg.version crate.version ∧ crate.name = pkg.name ∧
      crate.prevalence = pkg.prevalence ∧ crate.reposCount = pkg.reposCount := by
  obtain ⟨name, version, prevalence, reposCount⟩ := crate
  rw [crateOf, ← normaliseVersion_eq_ok, and_assoc]
  cases normaliseVersion py pkg.version with
  | error e => simp
  | ok ver =>
      by_cases hver : ver = "*"
      · simp only [hver, if_true, reduceCtorEq, Except.ok.injEq, false_iff]
        rintro ⟨rfl, hne, -⟩
        exact hne rfl
      · simp only [if_neg hver, Option.some.injEq, Crate.mk.injEq, Except.ok.injEq]
        constructor
        · rintro ⟨rfl, rfl, rfl, rfl⟩
          exact ⟨rfl, hver, rfl, rfl, rfl⟩
        · rintro ⟨rfl, -, rfl, rfl, rfl⟩
          exact ⟨rfl, rfl, rfl, rfl⟩

/-- Where every version can be read, the crates are those that are not skipped. -/
theorem validPackages_ok (h : ∀ pkg ∈ pkgs, ∃ ver, normaliseVersion py pkg.version = .ok ver) :
    validPackages py pkgs = .ok (pkgs.filterMap (crateOf py)) := by
  induction pkgs with
  | nil => rfl
  | cons pkg pkgs ih =>
      obtain ⟨⟨ver, hver⟩, hrest⟩ := List.forall_mem_cons.mp h
      rw [validPackages, hver, ih hrest, List.filterMap_cons, crateOf, hver]
      by_cases hstar : ver = "*"
      · simp [bind, Except.bind, pure, Except.pure, hstar]
      · simp [bind, Except.bind, pure, Except.pure, hstar]

/-- The first version without the method ends the loop. -/
theorem validPackages_error
    (h : ∃ pkg ∈ pkgs, normaliseVersion py pkg.version = .error .attribute) :
    validPackages py pkgs = .error .attribute := by
  induction pkgs with
  | nil =>
      obtain ⟨pkg, hpkg, -⟩ := h
      cases hpkg
  | cons pkg pkgs ih =>
      rw [validPackages]
      cases hver : normaliseVersion py pkg.version with
      | error e =>
          rw [eq_attribute_of_error hver]
          rfl
      | ok ver =>
          have hrest : ∃ pkg ∈ pkgs, normaliseVersion py pkg.version = .error .attribute := by
            obtain ⟨pkg', hpkg', herror⟩ := h
            rcases List.mem_cons.mp hpkg' with rfl | hpkg'
            · rw [hver] at herror
              cases herror
            · exact ⟨pkg', hpkg', herror⟩
          rw [ih hrest]
          rfl

/-- No crate comes twice from packages that differ in their names. -/
theorem nodup_crates (h : (pkgs.map Package.name).Nodup) :
    ((pkgs.filterMap (crateOf py)).map Crate.name).Nodup := by
  refine h.sublist ?_
  clear h
  induction pkgs with
  | nil => exact .slnil
  | cons pkg pkgs ih =>
      rw [List.filterMap_cons]
      cases hcrate : crateOf py pkg with
      | none => exact .cons _ ih
      | some crate =>
          rw [List.map_cons, (crateOf_eq_some.mp hcrate).2.1]
          exact .cons_cons _ ih

end

/-! ## How the generator ends -/

section
variable {py : Chars} {percentage : String → String} {now : String} {analysis : Analysis}
  {threshold : ℕ} {selection : Selection}

/-- The generator on a selection that is not empty. -/
theorem generate_of_ne (hselection : analysis.selection threshold = .ok selection)
    (hk : selection.k ≠ 0) :
    generate py percentage now analysis threshold =
      (validPackages py selection.packages).bind (write percentage now analysis threshold) := by
  rw [generate, hselection]
  show (if selection.k = 0 then _ else _) = _
  rw [if_neg hk]
  rfl

theorem generate_of_zero (hselection : analysis.selection threshold = .ok selection)
    (hk : selection.k = 0) :
    generate py percentage now analysis threshold = .error (.exit (noPackages threshold)) := by
  rw [generate, hselection]
  show (if selection.k = 0 then _ else _) = _
  rw [if_pos hk]
  rfl

theorem nameWidth_eq_none {crates : List Crate} : nameWidth crates = none ↔ crates = [] := by
  rw [nameWidth, List.max?_eq_none_iff, List.map_eq_nil_iff]

theorem sortBy_eq_nil {crates : List Crate} :
    Sequence.sortBy Crate.name crates = [] ↔ crates = [] := by
  rw [← List.length_eq_zero_iff, Sequence.sortBy_perm.length_eq, List.length_eq_zero_iff]

/-- There is a file if there is a crate. -/
theorem write_eq (percentage : String → String) (now : String) (analysis : Analysis)
    (threshold : ℕ) (valid : List Crate) :
    (valid = [] → write percentage now analysis threshold valid = .error .empty) ∧
      (valid ≠ [] → ∃ width, nameWidth (Sequence.sortBy Crate.name valid) = some width ∧
        write percentage now analysis threshold valid =
          .ok (manifest percentage now analysis threshold width
            (Sequence.sortBy Crate.name valid))) := by
  have hnone : nameWidth (Sequence.sortBy Crate.name valid) = none ↔ valid = [] :=
    nameWidth_eq_none.trans sortBy_eq_nil
  rw [write]
  constructor
  · intro hnil
    rw [hnone.mpr hnil]
  · intro hne
    obtain ⟨width, hwidth⟩ := Option.ne_none_iff_exists'.mp (mt hnone.mp hne)
    exact ⟨width, hwidth, by rw [hwidth]⟩

end

/-! ## The report on a run of the miner -/

section
variable (parser : CargoParser) (sources : List Source)

/-- The fraction of the repositories with a manifest that list a crate. -/
def crateShare (p : String) : ℚ :=
  sources.countP (parser.lists p) / sources.countP (·.2.cargo.isSome)

/-- The most common of the versions that the repositories have for a crate. -/
def commonVersion [BEq Json] (p : String) : Json :=
  ((Dict.counter (voted (sources.map parser.listing) p)).mostCommon.head?.map Prod.fst).getD
    (.str "unknown")

/-- The packages are the crates with a share, as they were counted. -/
structure Holds [BEq Json] (round : ℚ → String) (t : ℚ) (pkgs : List Package) : Prop where
  nodup : (pkgs.map Package.name).Nodup
  of_mem : ∀ pkg ∈ pkgs, t ≤ crateShare parser sources pkg.name ∧
    pkg.version = commonVersion parser sources pkg.name ∧
    pkg.prevalence = round (crateShare parser sources pkg.name) ∧
    pkg.reposCount = sources.countP (parser.lists pkg.name)
  exists_mem : ∀ p, t ≤ crateShare parser sources p → ∃ pkg ∈ pkgs, pkg.name = p

end

section
variable {parser : CargoParser} {sources : List Source}

theorem countP_listing (p : String) :
    (sources.map parser.listing).countP (·.lists p) = sources.countP (parser.lists p) := by
  rw [List.countP_map]
  refine List.countP_congr fun e _ => ?_
  show (parser.listing e).lists p = true ↔ _
  rw [← isSome_voted, ← lists_eq]

theorem share_listing (p : String) :
    share (sources.map parser.listing) p = crateShare parser sources p := by
  rw [share, crateShare, countP_listing, List.countP_map]
  rfl

end

section
variable [BEq Json] {parser : CargoParser} {sources : List Source} {n : Normalised}
  {curve : List CurveEntry} {t : ℚ}

/-- Without an aggregate of the miner the most common version is counted from the records. -/
theorem mostCommonVersion_eq (hpre : n.packageCounts = [])
    (hcurve : computePrevalenceCurve n = some curve) {c : CurveEntry} (hc : c ∈ curve) :
    c.mostCommonVersion =
      ((Dict.counter (voted n.repos c.name)).mostCommon.head?.map Prod.fst).getD
        (.str "unknown") := by
  obtain ⟨pre, hagg, hcurve⟩ := Option.bind_eq_some_iff.mp hcurve
  rw [hpre] at hagg
  cases hagg
  have hmem : some c ∈ curve.map some := List.mem_map_of_mem hc
  rw [← Sequence.mapM_eq_some.mp hcurve] at hmem
  obtain ⟨e, -, hentry⟩ := List.mem_map.mp hmem
  obtain ⟨counted, hcounted, hentry⟩ := Option.bind_eq_some_iff.mp hentry
  obtain ⟨prevalence, -, hentry⟩ := Option.bind_eq_some_iff.mp hentry
  cases hentry
  rw [versions_votes, countVersions] at hcounted
  split at hcounted
  next =>
    cases hcounted
    rfl
  next => cases hcounted

/-- As many packages as the threshold counts. -/
theorem k_select (hcurve : computePrevalenceCurve n = some curve) (round : ℚ → String) (t : ℚ) :
    (select round curve t).k = (select round curve t).packages.length := by
  show findKAtThreshold curve t = (List.map _ (curve.take (findKAtThreshold curve t))).length
  rw [List.length_map, take_findKAtThreshold hcurve, findKAtThreshold,
    scanCurve_eq t (rank_curve hcurve), Nat.zero_add]

theorem holds_select (hrepos : n.repos = sources.map parser.listing)
    (hmanifest : n.reposWithManifest = sources.countP (·.2.cargo.isSome))
    (hpre : n.packageCounts = []) (hcurve : computePrevalenceCurve n = some curve)
    (round : ℚ → String) (ht : 0 < t) :
    Holds parser sources round t (select round curve t).packages := by
  have hcount : n.reposWithManifest = n.repos.countP (·.hasManifest) := by
    rw [hmanifest, hrepos, List.countP_map]
    rfl
  have hshare (p : String) : share n.repos p = crateShare parser sources p := by
    rw [hrepos, share_listing]
  refine ⟨nodup_select hcurve round t, fun pkg hpkg => ?_, fun p hp => ?_⟩
  · obtain ⟨c, hc, rfl⟩ := List.mem_map.mp hpkg
    obtain ⟨hc, hle⟩ := (mem_selected hcurve).mp hc
    have hprev := (prevalence_eq_share hcount hcurve hc).1
    rw [hshare] at hprev
    have hnumber : (c.name, c.reposCount) ∈ curve.map (fun e => (e.name, e.reposCount)) :=
      List.mem_map_of_mem hc
    have hvoted := ((mem_curve hcurve).mp hnumber).1
    rw [length_voted_eq, hrepos, countP_listing] at hvoted
    refine ⟨hprev ▸ hle, ?_, congrArg round hprev, hvoted.symm⟩
    rw [commonVersion, ← hrepos]
    exact mostCommonVersion_eq hpre hcurve hc
  · have hname := (mem_selected_name hcount hcurve ht).mpr ((hshare p).symm ▸ hp)
    rw [← map_name_select round] at hname
    exact List.mem_map.mp hname

end

/-! ## From the replies to the image -/

/-- The crate has the share of the threshold, and its most common version is a version number,
which the file has without its operators. -/
structure IsBaked [BEq Json] (py : Chars) (parser : CargoParser) (sources : List Source)
    (round : ℚ → String) (t : ℚ) (crate : Crate) : Prop where
  share : t ≤ crateShare parser sources crate.name
  version : IsVersion py (commonVersion parser sources crate.name) crate.version
  prevalence : crate.prevalence = round (crateShare parser sources crate.name)
  reposCount : crate.reposCount = sources.countP (parser.lists crate.name)

/-- The line of a crate: its name up to a width, its version, and a comment. -/
def IsLineOf (percentage : String → String) (width : ℕ) (crate : Crate) (line : String) : Prop :=
  ∃ padding, crate.name.length + padding = width ∧
    line = crate.name ++ String.ofList (List.replicate padding ' ') ++ " = \"" ++ crate.version ++
      "\"  # " ++ percentage crate.prevalence ++ "% (" ++ toString crate.reposCount ++ " repos)"

/-- The text is a comment, a package without code, and its dependencies, which are the lines of
the crates, with the versions of all crates behind the longest name. -/
def IsManifest (percentage : String → String) (crates : List Crate) (text : String) : Prop :=
  ∃ (header lines : List String) (width : ℕ),
    text = "\n".intercalate (header ++ ["", "[package]", "name = \"sandbox-baked\"",
      "version = \"0.0.1\"", "edition = \"2021\"", "", "[dependencies]"] ++ lines ++ [""]) ∧
    (∀ line ∈ header, line.toList.head? = some '#') ∧
    IsGreatest {n | ∃ crate ∈ crates, crate.name.length = n} width ∧
    List.Forall₂ (IsLineOf percentage width) crates lines

section
variable {crates : List Crate} {width : ℕ}

theorem isGreatest_nameWidth (h : nameWidth crates = some width) :
    IsGreatest {n | ∃ crate ∈ crates, crate.name.length = n} width := by
  obtain ⟨hmem, hmax⟩ := List.max?_eq_some_iff.mp h
  refine ⟨List.mem_map.mp hmem, ?_⟩
  rintro _ ⟨crate, hcrate, rfl⟩
  exact hmax _ (List.mem_map_of_mem hcrate)

theorem isLineOf_crateLine (percentage : String → String) {crate : Crate}
    (h : crate.name.length ≤ width) :
    IsLineOf percentage width crate (crateLine percentage width crate) := by
  refine ⟨width - crate.name.length, Nat.add_sub_of_le h, ?_⟩
  have hname : String.ofList (ljust width crate.name.toList) =
      crate.name ++ String.ofList (List.replicate (width - crate.name.length) ' ') := by
    rw [ljust, String.ofList_append, String.ofList_toList, String.length_toList]
  rw [crateLine, hname]
  simp only [String.append_assoc]
  rfl

theorem isManifest_manifest (percentage : String → String) (now : String) (analysis : Analysis)
    (threshold : ℕ) (h : nameWidth crates = some width) :
    IsManifest percentage crates (manifest percentage now analysis threshold width crates) := by
  have hgreatest := isGreatest_nameWidth h
  refine ⟨(preamble now (analysis.sourceFile.getD "unknown")
    (analysis.sourceMinedAt.getD "unknown") threshold crates.length).take 7,
    crates.map (crateLine percentage width), width, rfl, fun line hline => ?_, hgreatest, ?_⟩
  · simp only [preamble, List.take_succ_cons, List.take_zero, List.mem_cons, List.not_mem_nil,
      or_false] at hline
    rcases hline with rfl | rfl | rfl | rfl | rfl | rfl | rfl <;> simp
  · rw [List.forall₂_map_right_iff]
    exact List.forall₂_same.mpr fun crate hcrate =>
      isLineOf_crateLine percentage (hgreatest.2 ⟨crate, hcrate, rfl⟩)

end

section
variable [BEq Json]

section
variable {py : Chars} {parser : CargoParser} {sources : List Source} {round : ℚ → String} {t : ℚ}
  {pkgs : List Package}

/-- The crates of the packages are those that belong in the file. -/
theorem Holds.mem_crates (h : Holds parser sources round t pkgs) {crate : Crate} :
    crate ∈ pkgs.filterMap (crateOf py) ↔ IsBaked py parser sources round t crate := by
  rw [List.mem_filterMap]
  constructor
  · rintro ⟨pkg, hpkg, hcrate⟩
    obtain ⟨hver, hname, hprev, hcount⟩ := crateOf_eq_some.mp hcrate
    obtain ⟨hshare, hversion, hprev', hcount'⟩ := h.of_mem pkg hpkg
    rw [← hname] at hshare hversion hprev' hcount'
    exact ⟨hshare, hversion ▸ hver, hprev.trans hprev', hcount.trans hcount'⟩
  · rintro ⟨hshare, hver, hprev, hcount⟩
    obtain ⟨pkg, hpkg, hname⟩ := h.exists_mem crate.name hshare
    obtain ⟨-, hversion, hprev', hcount'⟩ := h.of_mem pkg hpkg
    rw [hname] at hversion hprev' hcount'
    refine ⟨pkg, hpkg, crateOf_eq_some.mpr ⟨?_, hname.symm, ?_, ?_⟩⟩
    · rw [hversion]
      exact hver
    · rw [hprev, hprev']
    · rw [hcount, hcount']

/-- Where every version is a text or counts as false, the crates are those that belong in the
file. -/
theorem Holds.validPackages (h : Holds parser sources round t pkgs)
    (hall : ∀ p, t ≤ crateShare parser sources p → ¬ NoMethod py (commonVersion parser sources p)) :
    validPackages py pkgs = .ok (pkgs.filterMap (crateOf py)) := by
  refine validPackages_ok fun pkg hpkg => ?_
  obtain ⟨hshare, hversion, -⟩ := h.of_mem pkg hpkg
  cases hver : normaliseVersion py pkg.version with
  | ok ver => exact ⟨ver, rfl⟩
  | error e =>
      rw [eq_attribute_of_error hver, normaliseVersion_eq_error, hversion] at hver
      exact absurd hver (hall pkg.name hshare)

end

/-! ## The runs on a selection -/

section
variable {py : Chars} {parser : CargoParser} {sources : List Source} {round : ℚ → String} {t : ℚ}
  {percentage : String → String} {now : String} {analysis : Analysis} {threshold : ℕ}
  {selection : Selection}

/-- A crate that reaches the threshold is selected. -/
theorem Holds.k_ne_zero (h : Holds parser sources round t selection.packages)
    (hk : selection.k = selection.packages.length) {p : String}
    (hp : t ≤ crateShare parser sources p) : selection.k ≠ 0 := by
  obtain ⟨pkg, hpkg, -⟩ := h.exists_mem p hp
  rw [hk]
  exact (List.length_pos_of_mem hpkg).ne'

theorem Holds.generate_exit (h : Holds parser sources round t selection.packages)
    (hselection : analysis.selection threshold = .ok selection)
    (hk : selection.k = selection.packages.length)
    (hnone : ∀ p, crateShare parser sources p < t) :
    generate py percentage now analysis threshold = .error (.exit (noPackages threshold)) := by
  refine generate_of_zero hselection ?_
  rw [hk, List.length_eq_zero_iff, List.eq_nil_iff_forall_not_mem]
  exact fun pkg hpkg => not_le_of_gt (hnone pkg.name) (h.of_mem pkg hpkg).1

theorem Holds.generate_attribute (h : Holds parser sources round t selection.packages)
    (hselection : analysis.selection threshold = .ok selection)
    (hk : selection.k = selection.packages.length) {p : String}
    (hp : t ≤ crateShare parser sources p)
    (hmethod : NoMethod py (commonVersion parser sources p)) :
    generate py percentage now analysis threshold = .error .attribute := by
  rw [generate_of_ne hselection (h.k_ne_zero hk hp)]
  obtain ⟨pkg, hpkg, rfl⟩ := h.exists_mem p hp
  have herror : normaliseVersion py pkg.version = .error .attribute := by
    rw [normaliseVersion_eq_error, (h.of_mem pkg hpkg).2.1]
    exact hmethod
  rw [validPackages_error ⟨pkg, hpkg, herror⟩]
  rfl

theorem Holds.generate_empty (h : Holds parser sources round t selection.packages)
    (hselection : analysis.selection threshold = .ok selection)
    (hk : selection.k = selection.packages.length) {p : String}
    (hp : t ≤ crateShare parser sources p)
    (hstar : ∀ p, t ≤ crateShare parser sources p →
      ¬ NoMethod py (commonVersion parser sources p) ∧
        ∀ ver, ¬ IsVersion py (commonVersion parser sources p) ver) :
    generate py percentage now analysis threshold = .error .empty := by
  rw [generate_of_ne hselection (h.k_ne_zero hk hp), h.validPackages fun q hq => (hstar q hq).1]
  refine (write_eq percentage now analysis threshold _).1
    (List.eq_nil_iff_forall_not_mem.mpr fun crate hcrate => ?_)
  have hbaked := h.mem_crates.mp hcrate
  exact (hstar crate.name hbaked.share).2 crate.version hbaked.version

theorem Holds.generate_ok (h : Holds parser sources round t selection.packages)
    (hselection : analysis.selection threshold = .ok selection)
    (hk : selection.k = selection.packages.length)
    (hall : ∀ p, t ≤ crateShare parser sources p → ¬ NoMethod py (commonVersion parser sources p))
    {p ver : String} (hp : t ≤ crateShare parser sources p)
    (hver : IsVersion py (commonVersion parser sources p) ver) :
    ∃ crates text, generate py percentage now analysis threshold = .ok text ∧
      IsManifest percentage crates text ∧ (crates.map Crate.name).Pairwise (· < ·) ∧
      ∀ crate, crate ∈ crates ↔ IsBaked py parser sources round t crate := by
  let crates : List Crate := selection.packages.filterMap (crateOf py)
  have hcrates : crates ≠ [] := by
    have hbaked : IsBaked py parser sources round t ⟨p, ver,
        round (crateShare parser sources p), sources.countP (parser.lists p)⟩ :=
      ⟨hp, hver, rfl, rfl⟩
    exact List.ne_nil_of_mem (h.mem_crates.mpr hbaked)
  obtain ⟨width, hwidth, hwrite⟩ := (write_eq percentage now analysis threshold crates).2 hcrates
  refine ⟨_, _, ?_, isManifest_manifest percentage now analysis threshold hwidth, ?_,
    fun crate => ?_⟩
  · rw [generate_of_ne hselection (h.k_ne_zero hk hp), h.validPackages hall]
    exact hwrite
  · exact List.pairwise_map.mpr (Sequence.pairwise_lt_sortBy (nodup_crates h.nodup))
  · rw [Sequence.sortBy_perm.mem_iff, h.mem_crates]

end

/-- The file of a threshold, for every run of the miner.  There is a report unless a version
that counts for a crate cannot be a key.  The generator exits where no crate is listed often
enough, raises where the version of a crate is no text, and raises where no version is a version
number.  Else the file has the crates with a version number, each on one line and sorted by its
name. -/
theorem crates_exact (py : Chars) (percentage : String → String) (digits round : ℚ → String)
    (minedAt rawPath now : String) (parser : CargoParser) (repos : List Repo)
    (replies : ℕ → CargoReply) (raw : Json) (threshold : ℕ) (hthreshold : threshold ∈ choices)
    (h : rustMain minedAt digits parser repos replies = some raw) :
    let sources := sourcesOf repos replies
    let t : ℚ := threshold / 100
    let version := commonVersion parser sources
    ∃ n, normalise raw .rust = some n ∧
      ((∃ analysis, prevalenceAnalysis round rawPath n = some analysis) ↔
        ∀ e ∈ sources, ∀ direct, parser.found e = some direct →
          ∀ p v, direct.lookup p = some v → v.isHashable = true) ∧
      ∀ analysis, prevalenceAnalysis round rawPath n = some analysis →
        let run := generate py percentage now analysis threshold
        ((∀ p, crateShare parser sources p < t) → run = .error (.exit (noPackages threshold))) ∧
        ((∃ p, t ≤ crateShare parser sources p ∧ NoMethod py (version p)) →
          run = .error .attribute) ∧
        ((∃ p, t ≤ crateShare parser sources p) →
          (∀ p, t ≤ crateShare parser sources p →
            ¬ NoMethod py (version p) ∧ ∀ ver, ¬ IsVersion py (version p) ver) →
          run = .error .empty) ∧
        ((∀ p, t ≤ crateShare parser sources p → ¬ NoMethod py (version p)) →
          (∃ p ver, t ≤ crateShare parser sources p ∧ IsVersion py (version p) ver) →
          ∃ crates text, run = .ok text ∧ IsManifest percentage crates text ∧
            (crates.map Crate.name).Pairwise (· < ·) ∧
            ∀ crate, crate ∈ crates ↔ IsBaked py parser sources round t crate) := by
  intro sources t version
  obtain ⟨n, hn, hrepos, hmanifest, hpre⟩ := (read_of_rustMain h).normalise_eq
  have hreport : (∃ analysis, prevalenceAnalysis round rawPath n = some analysis) ↔
      ∃ curve, computePrevalenceCurve n = some curve := by
    rw [prevalenceAnalysis]
    cases computePrevalenceCurve n <;> simp
  refine ⟨n, hn, hreport.trans (exists_curve_listing hrepos hmanifest hpre), ?_⟩
  intro analysis hanalysis run
  obtain ⟨curve, hcurve, hanalysis⟩ := Option.bind_eq_some_iff.mp hanalysis
  cases hanalysis
  have ht : 0 < t := by
    have hall : ∀ m ∈ choices, (0 : ℚ) < m / 100 := by decide +kernel
    exact hall threshold hthreshold
  let analysis : Analysis := ⟨some rawPath, some n.minedAt, buildThresholdReport round curve⟩
  let selection : Selection := select round curve t
  have hselection : analysis.selection threshold = .ok selection := by
    rw [Analysis.selection, lookup_report round curve hthreshold]
  have hk : selection.k = selection.packages.length := k_select hcurve round t
  have hholds : Holds parser sources round t selection.packages :=
    holds_select hrepos hmanifest hpre hcurve round ht
  refine ⟨hholds.generate_exit hselection hk, ?_, ?_, ?_⟩
  · rintro ⟨p, hp, hmethod⟩
    exact hholds.generate_attribute hselection hk hp hmethod
  · rintro ⟨p, hp⟩ hstar
    exact hholds.generate_empty hselection hk hp hstar
  · rintro hall ⟨p, ver, hp, hver⟩
    exact hholds.generate_ok hselection hk hall hp hver

end

namespace Sample

def parser : CargoParser := ⟨fun _ => some ([("serde", .str "=1.0")], false), fun _ => some []⟩

def reply : CargoReply := ⟨some "[dependencies]\nserde = \"=1.0\"\n", none⟩

def py : Chars := ⟨Char.isDigit, fun digits => digits == "0", by simp⟩

theorem sources_eq : sourcesOf [octocat] (fun _ => reply) = [(octocat, reply)] := by
  have hlower : "Rust".toLower = "rust" := by decide +kernel
  simp [sourcesOf, rustRepos, octocat, hlower]

theorem found_eq : parser.found (octocat, reply) = some [("serde", .str "=1.0")] := rfl

end Sample

/-- One repository with one crate. -/
theorem crates_exact_one : ∃ (_ : BEq Json) (raw : Json) (n : Normalised) (analysis : Analysis)
    (crates : List Crate) (text : String),
    rustMain "2026-06-21T00:00:00+00:00" (fun _ => "1.0") Sample.parser [octocat]
      (fun _ => Sample.reply) = some raw ∧
    normalise raw .rust = some n ∧
    prevalenceAnalysis (fun _ => "1.0") "rust-raw.json" n = some analysis ∧
    generate Sample.py (fun _ => "100.0") "2026-06-22T00:00:00+00:00" analysis 10 = .ok text ∧
    IsManifest (fun _ => "100.0") crates text ∧ ⟨"serde", "1.0", "1.0", 1⟩ ∈ crates := by
  let _ : BEq Json := ⟨fun v w => v.text == w.text⟩
  have hmine : (rustMain "2026-06-21T00:00:00+00:00" (fun _ => "1.0") Sample.parser [octocat]
      (fun _ => Sample.reply)).isSome := by decide +kernel
  obtain ⟨raw, hraw⟩ := Option.isSome_iff_exists.mp hmine
  obtain ⟨n, hn, hreport, hends⟩ := crates_exact Sample.py (fun _ => "100.0") (fun _ => "1.0")
    (fun _ => "1.0") "2026-06-21T00:00:00+00:00" "rust-raw.json" "2026-06-22T00:00:00+00:00"
    Sample.parser [octocat] (fun _ => Sample.reply) raw 10 (by decide) hraw
  rw [Sample.sources_eq] at hreport hends
  have hshare : (10 : ℕ) / 100 ≤ crateShare Sample.parser [(octocat, Sample.reply)] "serde" := by
    decide +kernel
  have hcommon : commonVersion Sample.parser [(octocat, Sample.reply)] "serde" = .str "=1.0" := rfl
  have hserde : IsVersion Sample.py
      (commonVersion Sample.parser [(octocat, Sample.reply)] "serde") "1.0" :=
    ⟨['='], '1', ['.', '0'], hcommon, by simp, rfl, rfl⟩
  have hname {p : String}
      (hp : (10 : ℕ) / 100 ≤ crateShare Sample.parser [(octocat, Sample.reply)] p) :
      p = "serde" := by
    by_contra hne
    have hzero : crateShare Sample.parser [(octocat, Sample.reply)] p = 0 := by
      simp [crateShare, CargoParser.lists, Sample.found_eq, Ne.symm hne]
    rw [hzero] at hp
    exact absurd hp (by decide +kernel)
  obtain ⟨analysis, hanalysis⟩ := hreport.mpr fun e he direct hdirect p v hv => by
    obtain rfl := List.mem_singleton.mp he
    cases hdirect
    obtain ⟨-, rfl⟩ : p = "serde" ∧ v = .str "=1.0" := by
      by_cases hp : p = "serde"
      · subst hp
        cases hv
        exact ⟨rfl, rfl⟩
      · rw [Dict.lookup_cons_of_ne hp] at hv
        cases hv
    rfl
  obtain ⟨-, -, -, hfile⟩ := hends analysis hanalysis
  obtain ⟨crates, text, hrun, hmanifest, -, hmem⟩ := hfile
    (fun p hp hmethod => by
      obtain rfl := hname hp
      have hnone := hmethod.1
      rw [hcommon] at hnone
      cases hnone)
    ⟨"serde", "1.0", hshare, hserde⟩
  exact ⟨_, raw, n, analysis, crates, text, hraw, hn, hanalysis, hrun, hmanifest,
    (hmem _).mpr ⟨hshare, hserde, rfl, rfl⟩⟩

end Aicv.Mining.CargoToml
