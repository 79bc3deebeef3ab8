import Aicv.Mining.Miners
import Aicv.Sequence.Fold

/-!
# The analysis of a mining run

`normalise` reads the file of a miner into a uniform schema, and
`compute_prevalence_curve` counts the repositories of each package in it.  Within one
repository only the first mention of a package counts.

`mem_curve` says which packages are on the curve with which counts, and
`exists_curve_iff` when there is one.
-/

namespace Aicv.Mining

open Python

inductive Language where
  | go
  | rust
deriving DecidableEq, Repr

/-- An entry of `direct_deps`. -/
structure Dep where
  name : String
  version : Json

/-- A normalised record of a repository. -/
structure Listing where
  repo : String
  hasManifest : Bool
  directDeps : List Dep

/-- What `normalise` returns, with the types its docstring gives.  A version is what the
miner wrote. -/
structure Normalised where
  reposAttempted : ℕ
  reposWithManifest : ℕ
  minedAt : String
  repos : List Listing
  packageCounts : List Json

/-! ## `normalise` -/

/-- A dependency whose name stands under the given key. -/
def readDep (nameKey : String) (d : Json) : Option Dep := do
  let name ← (← d.item nameKey).text
  let version ← d.item "version"
  return ⟨name, version⟩

/-- A record, by the keys of its two parts that differ between the languages. -/
def readListing (manifestKey nameKey : String) (r : Json) : Option Listing := do
  let repo ← (← r.item "repo").text
  let hasManifest ← (← r.item manifestKey).truth
  let directDeps ← (← (← r.item "direct_deps").items).mapM (readDep nameKey)
  return ⟨repo, hasManifest, directDeps⟩

/-- `normalise`.  The scripts know no other language. -/
def normalise (raw : Json) : Language → Option Normalised
  | .go => do
      let stats ← raw.item "stats"
      let reposAttempted ← (← stats.item "repos_attempted").natural
      let reposWithManifest ← (← stats.item "repos_with_gomod").natural
      let minedAt ← (← raw.item "mined_at").text
      let repos ← (← (← raw.item "repos").items).mapM (readListing "has_gomod" "name")
      let packageCounts ← ((raw.item "package_counts").getD (.arr [])).items
      return ⟨reposAttempted, reposWithManifest, minedAt, repos, packageCounts⟩
  | .rust => do
      let metadata ← raw.item "metadata"
      let reposAttempted ← (← metadata.item "corpus_size").natural
      let reposWithManifest ← (← metadata.item "repos_with_cargo_toml").natural
      let minedAt ← (← metadata.item "mined_at").text
      let repos ← (← (← raw.item "raw").items).mapM (readListing "cargo_toml_found" "crate")
      return ⟨reposAttempted, reposWithManifest, minedAt, repos, []⟩

/-! ## `compute_prevalence_curve` -/

/-- The counts of the packages, and the versions that were counted. -/
structure Votes where
  count : Dict String ℕ
  versions : Dict String (List Json)

/-- A vote for a package. -/
def Votes.add (v : Votes) (d : Dep) : Votes :=
  ⟨v.count.bump d.name, v.versions.push d.name d.version⟩

/-- The loop over the dependencies of a repository, with the names seen in it. -/
def voteLoop : List String → Votes → List Dep → Votes
  | _, v, [] => v
  | seen, v, d :: deps =>
      if d.name ∈ seen then voteLoop seen v deps else voteLoop (d.name :: seen) (v.add d) deps

/-- The votes of a repository. -/
def Votes.visit (v : Votes) (r : Listing) : Votes :=
  if r.hasManifest then voteLoop [] v r.directDeps else v

/-- The votes of all repositories. -/
def votes (repos : List Listing) : Votes := repos.foldl Votes.visit ⟨[], []⟩

/-- The versions of a package in an entry of the curve. -/
inductive Distribution where
  /-- Counted from the records. -/
  | counted (d : Dict Json ℕ)
  /-- From the aggregate of the miner. -/
  | given (d : Json)

/-- The aggregate of the miner, by package. -/
def preAgg (packageCounts : List Json) : Option (Dict String (Json × Distribution)) :=
  packageCounts.foldlM
    (fun d entry => do
      let name ← (← entry.item "name").text
      let common ← entry.item "most_common_version"
      let distribution ← entry.item "version_distribution"
      return d.alter name fun _ => (common, .given distribution))
    []

/-- An entry of the curve. -/
structure CurveEntry where
  rank : ℕ
  name : String
  reposCount : ℕ
  prevalence : ℚ
  mostCommonVersion : Json
  versionDistribution : Distribution

section
variable [BEq Json]

/-- The most common version and the distribution of versions, unless one cannot be a key.
`==` is that of Python. -/
def countVersions (versions : List Json) : Option (Json × Distribution) :=
  if versions.all Json.isHashable then
    let counted := (Dict.counter versions).mostCommon
    some ((counted.head?.map Prod.fst).getD (.str "unknown"), .counted counted)
  else none

/-- The entry of a package, from its rank, its name and its count. -/
def curveEntry (n : Normalised) (v : Votes) (pre : Dict String (Json × Distribution))
    (e : (String × ℕ) × ℕ) : Option CurveEntry := do
  let counted ← countVersions ((v.versions.lookup e.1.1).getD [])
  let (common, distribution) := (pre.lookup e.1.1).getD counted
  let prevalence ← divide e.1.2 n.reposWithManifest
  return ⟨e.2, e.1.1, e.1.2, prevalence, common, distribution⟩

/-- `compute_prevalence_curve`. -/
def computePrevalenceCurve (n : Normalised) : Option (List CurveEntry) := do
  let v := votes n.repos
  let pre ← preAgg n.packageCounts
  (v.count.mostCommon.zipIdx 1).mapM (curveEntry n v pre)

end

/-! ## What is counted -/

/-- The version that a record counts for a package. -/
def Listing.voted (r : Listing) (p : String) : Option Json :=
  if r.hasManifest then (r.directDeps.find? (·.name = p)).map Dep.version else none

/-- The versions that the records count for a package, in their order. -/
def voted (repos : List Listing) (p : String) : List Json := repos.filterMap (·.voted p)

/-- What votes are made of: a version for each time a package was counted. -/
structure Votes.Valid (v : Votes) : Prop where
  isCount : v.count.IsCount
  number_eq : ∀ p, v.count.number p = ((v.versions.lookup p).getD []).length

theorem Votes.Valid.add {v : Votes} (hv : v.Valid) (d : Dep) : (v.add d).Valid := by
  refine ⟨hv.isCount.bump, fun p => ?_⟩
  by_cases hp : p = d.name
  · subst hp
    rw [Votes.add, Dict.number_bump_self, Dict.lookup_push_self, hv.number_eq, List.length_append]
    rfl
  · rw [Votes.add, Dict.number_bump_of_ne hp, Dict.lookup_push_of_ne hp, hv.number_eq]

theorem Votes.Valid.voteLoop {seen : List String} {deps : List Dep} {v : Votes} (hv : v.Valid) :
    (voteLoop seen v deps).Valid := by
  induction deps generalizing seen v with
  | nil => exact hv
  | cons d deps ih =>
      rw [Mining.voteLoop]
      split
      next => exact ih hv
      next => exact ih (hv.add d)

/-- A record adds the version of the first mention, unless the name was seen before. -/
theorem voteLoop_versions (p : String) (deps : List Dep) (seen : List String) (v : Votes) :
    ((voteLoop seen v deps).versions.lookup p).getD [] =
      (v.versions.lookup p).getD [] ++
        if p ∈ seen then [] else ((deps.find? (·.name = p)).map Dep.version).toList := by
  induction deps generalizing seen v with
  | nil => simp [voteLoop]
  | cons d deps ih =>
      rw [voteLoop]
      by_cases hp : p = d.name
      · subst hp
        by_cases hseen : d.name ∈ seen
        · simp [hseen, ih]
        · simp [hseen, ih, Votes.add, Dict.lookup_push_self]
      · have hne : ¬ d.name = p := fun h => hp h.symm
        split
        next => simp [ih, hne]
        next => simp [ih, hp, hne, Votes.add, Dict.lookup_push_of_ne hp]

theorem visit_versions (v : Votes) (r : Listing) (p : String) :
    ((v.visit r).versions.lookup p).getD [] =
      (v.versions.lookup p).getD [] ++ (r.voted p).toList := by
  unfold Votes.visit Listing.voted
  split
  next => rw [voteLoop_versions, if_neg List.not_mem_nil]
  next => simp

theorem Votes.Valid.visit {v : Votes} (hv : v.Valid) (r : Listing) : (v.visit r).Valid := by
  unfold Votes.visit
  split
  next => exact hv.voteLoop
  next => exact hv

theorem foldl_visit (repos : List Listing) (v : Votes) (hv : v.Valid) :
    (repos.foldl Votes.visit v).Valid ∧ ∀ p,
      ((repos.foldl Votes.visit v).versions.lookup p).getD [] =
        (v.versions.lookup p).getD [] ++ voted repos p := by
  induction repos generalizing v with
  | nil => exact ⟨hv, fun p => (List.append_nil _).symm⟩
  | cons r repos ih =>
      obtain ⟨hvalid, hversions⟩ := ih (v.visit r) (hv.visit r)
      refine ⟨hvalid, fun p => ?_⟩
      have hvoted : voted (r :: repos) p = (r.voted p).toList ++ voted repos p := by
        rw [voted, List.filterMap_cons]
        cases r.voted p <;> rfl
      rw [List.foldl_cons, hversions, visit_versions, List.append_assoc, hvoted]

theorem valid_nil : Votes.Valid ⟨[], []⟩ :=
  ⟨⟨List.nodup_nil, List.forall_mem_nil _⟩, fun _ => rfl⟩

/-- The votes are the versions that the records count. -/
theorem versions_votes (repos : List Listing) (p : String) :
    ((votes repos).versions.lookup p).getD [] = voted repos p :=
  (foldl_visit repos _ valid_nil).2 p

/-- A package is counted once for each record that lists it. -/
theorem mem_count {repos : List Listing} {p : String} {c : ℕ} :
    (p, c) ∈ (votes repos).count ↔ (voted repos p).length = c ∧ 0 < c := by
  have hvalid : (votes repos).Valid := (foldl_visit repos _ valid_nil).1
  rw [← versions_votes, ← hvalid.number_eq p]
  exact hvalid.isCount.mem_iff

/-! ## The curve -/

theorem isSome_divide {a b : ℕ} : (divide a b).isSome ↔ b ≠ 0 := by
  unfold divide
  split <;> simp [*]

section
variable [BEq Json] {n : Normalised} {curve : List CurveEntry} {v : Votes}
  {pre : Dict String (Json × Distribution)} {e : (String × ℕ) × ℕ}

theorem isSome_countVersions {versions : List Json} :
    (countVersions versions).isSome ↔ ∀ x ∈ versions, x.isHashable = true := by
  unfold countVersions
  rw [← List.all_eq_true]
  split <;> simp [*]

theorem curveEntry_eq_some {c : CurveEntry} (h : curveEntry n v pre e = some c) :
    (c.name, c.reposCount) = e.1 := by
  obtain ⟨counted, -, h⟩ := Option.bind_eq_some_iff.mp h
  obtain ⟨prevalence, -, h⟩ := Option.bind_eq_some_iff.mp h
  cases h
  rfl

theorem isSome_curveEntry : (curveEntry n v pre e).isSome ↔
    (∀ x ∈ (v.versions.lookup e.1.1).getD [], x.isHashable = true) ∧ n.reposWithManifest ≠ 0 := by
  rw [← isSome_countVersions, ← isSome_divide (a := e.1.2)]
  unfold curveEntry
  cases countVersions ((v.versions.lookup e.1.1).getD []) <;>
    cases divide e.1.2 n.reposWithManifest <;> simp

/-- The curve has each counted package with its count. -/
theorem mem_curve (h : computePrevalenceCurve n = some curve) {p : String} {c : ℕ} :
    (p, c) ∈ curve.map (fun e => (e.name, e.reposCount)) ↔
      (voted n.repos p).length = c ∧ 0 < c := by
  obtain ⟨pre, -, h⟩ := Option.bind_eq_some_iff.mp h
  have hpairs : curve.map (fun e => (e.name, e.reposCount)) = (votes n.repos).count.mostCommon := by
    rw [Sequence.map_of_mapM (h := Prod.fst) h fun _ _ => curveEntry_eq_some, List.zipIdx_map_fst]
  rw [hpairs, Dict.mostCommon, Sequence.sortBy_perm.mem_iff, mem_count]

/-- There is a curve if the aggregate of the miner can be read, every counted version can be
a key, and there is a manifest where a package is counted. -/
theorem exists_curve_iff :
    (∃ curve, computePrevalenceCurve n = some curve) ↔ (preAgg n.packageCounts).isSome ∧
      ∀ p, voted n.repos p ≠ [] →
        (∀ x ∈ voted n.repos p, x.isHashable = true) ∧ n.reposWithManifest ≠ 0 := by
  have hloop (pre : Dict String (Json × Distribution)) :
      (((votes n.repos).count.mostCommon.zipIdx 1).mapM (curveEntry n (votes n.repos) pre)).isSome ↔
        ∀ p, voted n.repos p ≠ [] →
          (∀ x ∈ voted n.repos p, x.isHashable = true) ∧ n.reposWithManifest ≠ 0 := by
    rw [Sequence.isSome_mapM]
    simp only [isSome_curveEntry, versions_votes]
    constructor
    · intro hall p hp
      have hmem : (p, (voted n.repos p).length) ∈ (votes n.repos).count.mostCommon :=
        Sequence.sortBy_perm.mem_iff.mpr (mem_count.mpr ⟨rfl, List.length_pos_iff.mpr hp⟩)
      rw [← List.zipIdx_map_fst 1 (Dict.mostCommon _)] at hmem
      obtain ⟨e, he, heq⟩ := List.mem_map.mp hmem
      have hentry := hall e he
      rw [heq] at hentry
      exact hentry
    · intro hall e he
      have hmem : e.1 ∈ (votes n.repos).count :=
        Sequence.sortBy_perm.mem_iff.mp (List.fst_mem_of_mem_zipIdx he)
      obtain ⟨hlen, hpos⟩ := mem_count.mp hmem
      exact hall e.1.1 (List.ne_nil_of_length_pos (hlen ▸ hpos))
  rw [← Option.isSome_iff_exists]
  unfold computePrevalenceCurve
  cases preAgg n.packageCounts with
  | none => simp
  | some pre => simpa using hloop pre

end

end Aicv.Mining
