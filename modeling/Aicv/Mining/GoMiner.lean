import Aicv.Mining.Agreement

/-!
# The aggregate of the Go miner

A repository votes for a package with the version of its first mention (`goVersion`).  The loop
of `main` keeps an account of all votes (`GoAccounted`), so that `goMain_exact` can say what the
aggregate of every run is.
-/

namespace Aicv.Mining

open Python

section
variable (parse : String → List (String × String)) (gomods : ℕ → Option String)

/-! ## Votes -/

/-- The version that the repository at a position has for a package. -/
def goVersion (p : String) (i : ℕ) : Option String := do
  let text ← gomods i
  (parse text).lookup p

/-- The names of the repositories that list a package, with their versions. -/
def goVotes (p : String) (es : List (Repo × ℕ)) : List (String × String) :=
  es.filterMap fun e => (goVersion parse gomods p e.2).map (e.1.fullName, ·)

/-- What the miner knows of a package after votes. -/
def goInfo : List (String × String) → Option GoInfo
  | [] => none
  | vote :: votes =>
      some ⟨(vote :: votes).map Prod.fst, Dict.counter ((vote :: votes).map Prod.snd)⟩

/-- The packages of the repository at a position. -/
def goUnique (i : ℕ) : Option (Dict String String) :=
  (gomods i).map fun text => uniquePkgs (parse text)

end

section
variable {parse : String → List (String × String)} {gomods : ℕ → Option String}
  {es : List (Repo × ℕ)} {p : String}

theorem lookup_uniquePkgs (deps : List (String × String)) (p : String) :
    (uniquePkgs deps).lookup p = deps.lookup p := by
  have hloop : ∀ d : Dict String String,
      (deps.foldl (fun d e => d.alter e.1 fun v => v.getD e.2) d).lookup p =
        (d.lookup p).or (deps.lookup p) := by
    induction deps with
    | nil => intro d; simp
    | cons e deps ih =>
        intro d
        obtain ⟨q, v⟩ := e
        rw [List.foldl_cons, ih]
        by_cases hp : p = q
        · subst hp
          rw [Dict.lookup_alter_self, List.lookup_cons_self]
          cases d.lookup p <;> rfl
        · rw [Dict.lookup_alter_of_ne hp, Dict.lookup_cons_of_ne hp]
  exact hloop []

theorem nodup_uniquePkgs (deps : List (String × String)) :
    ((uniquePkgs deps).map Prod.fst).Nodup :=
  Dict.nodup_foldl_alter List.nodup_nil

theorem lookup_goUnique (parse : String → List (String × String)) (gomods : ℕ → Option String)
    (i : ℕ) (p : String) :
    (goUnique parse gomods i).bind (·.lookup p) = goVersion parse gomods p i := by
  rw [goUnique, goVersion]
  cases gomods i with
  | none => rfl
  | some text => exact lookup_uniquePkgs (parse text) p

/-- One more vote. -/
theorem goInfo_concat (votes : List (String × String)) (name version : String) :
    goInfo (votes ++ [(name, version)]) =
      some ⟨((goInfo votes).getD ⟨[], []⟩).repos ++ [name],
        ((goInfo votes).getD ⟨[], []⟩).versions.bump version⟩ := by
  cases votes with
  | nil => rfl
  | cons vote votes =>
      rw [List.cons_append, goInfo, goInfo, Option.getD_some, ← List.cons_append, List.map_append,
        List.map_append]
      exact congrArg (fun c => some (GoInfo.mk _ c)) (Dict.counter_concat _ version)

theorem goVotes_concat (e : Repo × ℕ) : goVotes parse gomods p (es ++ [e]) =
    goVotes parse gomods p es ++
      ((goVersion parse gomods p e.2).map (e.1.fullName, ·)).toList := by
  rw [goVotes, List.filterMap_append]
  cases h : goVersion parse gomods p e.2 <;> simp [goVotes, h]

/-! ## The loop -/

/-- What the loop of `main` has counted. -/
structure GoAccounted (parse : String → List (String × String)) (gomods : ℕ → Option String)
    (es : List (Repo × ℕ)) (s : GoState) : Prop where
  records_eq : s.records = es.map fun e => goRecord e.1 (goUnique parse gomods e.2)
  nodup : (s.packageInfo.map Prod.fst).Nodup
  lookup_eq : ∀ p, s.packageInfo.lookup p = goInfo (goVotes parse gomods p es)
  sum_eq : (s.packageInfo.map fun e => e.2.repos.length).sum =
    (es.map fun e => ((goUnique parse gomods e.2).getD []).length).sum

theorem goAccounted_nil : GoAccounted parse gomods [] ⟨[], []⟩ :=
  ⟨rfl, List.nodup_nil, fun _ => rfl, rfl⟩

/-- The votes of a repository. -/
theorem foldl_goVote {unique : Dict String String} (h : (unique.map Prod.fst).Nodup)
    (fullName : String) (info : Dict String GoInfo) (hinfo : (info.map Prod.fst).Nodup) :
    ((unique.foldl (goVote fullName) info).map Prod.fst).Nodup ∧
      (∀ p, (unique.foldl (goVote fullName) info).lookup p =
        (unique.lookup p).elim (info.lookup p) fun v =>
          some ⟨((info.lookup p).getD ⟨[], []⟩).repos ++ [fullName],
            ((info.lookup p).getD ⟨[], []⟩).versions.bump v⟩) ∧
      ((unique.foldl (goVote fullName) info).map fun e => e.2.repos.length).sum =
        (info.map fun e => e.2.repos.length).sum + unique.length := by
  refine ⟨Dict.nodup_foldl_alter hinfo, Dict.lookup_foldl_items h, ?_⟩
  clear h hinfo
  induction unique generalizing info with
  | nil => rfl
  | cons e unique ih =>
      have hone : ((goVote fullName info e).map fun e => e.2.repos.length).sum =
          (info.map fun e => e.2.repos.length).sum + 1 :=
        Dict.sum_alter (fun i => i.repos.length) rfl (fun i => by simp) info
      rw [List.foldl_cons, ih, hone, List.length_cons]
      omega

theorem GoAccounted.visit {s : GoState} (h : GoAccounted parse gomods es s) (e : Repo × ℕ) :
    GoAccounted parse gomods (es ++ [e]) (s.visit parse e.1 (gomods e.2)) := by
  have hunique := lookup_goUnique parse gomods e.2
  cases hgomod : gomods e.2 with
  | none =>
      have hnone : goUnique parse gomods e.2 = none := by rw [goUnique, hgomod]; rfl
      refine ⟨?_, h.nodup, fun p => ?_, ?_⟩
      · rw [GoState.visit, h.records_eq, List.map_append, List.map_singleton, hnone]
      · rw [GoState.visit, goVotes_concat, ← hunique p, hnone]
        simpa using h.lookup_eq p
      · rw [GoState.visit, List.map_append, List.sum_append, List.map_singleton, hnone]
        simpa using h.sum_eq
  | some text =>
      have hsome : goUnique parse gomods e.2 = some (uniquePkgs (parse text)) := by
        rw [goUnique, hgomod]; rfl
      obtain ⟨hnodup, hlookup, hsum⟩ :=
        foldl_goVote (nodup_uniquePkgs (parse text)) e.1.fullName s.packageInfo h.nodup
      refine ⟨?_, hnodup, fun p => ?_, ?_⟩
      · rw [GoState.visit, h.records_eq, List.map_append, List.map_singleton, hsome]
      · have hversion := hunique p
        rw [hsome, Option.bind_some] at hversion
        rw [GoState.visit, hlookup p, goVotes_concat, ← hversion, h.lookup_eq p]
        cases (uniquePkgs (parse text)).lookup p with
        | none => simp
        | some v => exact (goInfo_concat _ e.1.fullName v).symm
      · rw [GoState.visit, hsum, h.sum_eq, List.map_append, List.sum_append, List.map_singleton,
          hsome]
        simp

theorem GoAccounted.loop {s : GoState} (h : GoAccounted parse gomods es s)
    (rest : List (Repo × ℕ)) : GoAccounted parse gomods (es ++ rest)
      (rest.foldl (fun (s : GoState) e => s.visit parse e.1 (gomods e.2)) s) := by
  induction rest generalizing es s with
  | nil => rwa [List.append_nil]
  | cons e rest ih =>
      rw [List.append_cons]
      exact ih (h.visit e)

theorem goAccounted_main (parse : String → List (String × String)) (gomods : ℕ → Option String)
    (repos : List Repo) : GoAccounted parse gomods repos.zipIdx
      (repos.zipIdx.foldl (fun (s : GoState) e => s.visit parse e.1 (gomods e.2)) ⟨[], []⟩) :=
  goAccounted_nil.loop repos.zipIdx

/-! ## The aggregate -/

/-- An entry of `package_counts`. -/
structure PackageCount where
  name : String
  reposCount : ℕ
  mostCommonVersion : Json
  versionDistribution : Json
  exampleRepos : Json

/-- An entry, by its keys. -/
def readPackageCount (pkg : Json) : Option PackageCount := do
  let count ← (← pkg.item "repos_count").natural
  let name ← (← pkg.item "name").text
  return ⟨name, count, ← pkg.item "most_common_version", ← pkg.item "version_distribution",
    ← pkg.item "example_repos"⟩

/-- `raw["package_counts"]`. -/
def packageCounts (raw : Json) : Option (List PackageCount) := do
  (← (← raw.item "package_counts").items).mapM readPackageCount

/-- `raw["stats"]["total_direct_dep_occurrences"]`. -/
def totalOccurrences (raw : Json) : Option ℕ := do
  (← (← raw.item "stats").item "total_direct_dep_occurrences").natural

/-- The positions with a condition among the first `n`. -/
def countBelow (n : ℕ) (f : ℕ → Bool) : ℕ := (List.range n).countP f

/-- The votes are those of the positions. -/
theorem map_snd_goVotes (repos : List Repo) (p : String) :
    (goVotes parse gomods p repos.zipIdx).map Prod.snd =
      (List.range repos.length).filterMap (goVersion parse gomods p) := by
  have hsnd : (goVotes parse gomods p repos.zipIdx).map Prod.snd =
      (repos.zipIdx.map Prod.snd).filterMap (goVersion parse gomods p) := by
    rw [goVotes, List.map_filterMap, List.filterMap_map]
    refine List.filterMap_congr fun e _ => ?_
    cases h : goVersion parse gomods p e.2 <;> simp [h]
  rw [hsnd, List.zipIdx_map_snd, List.range_eq_range']

/-- The number of the repositories that list a package. -/
def repoCount (parse : String → List (String × String)) (gomods : ℕ → Option String)
    (repos : List Repo) (p : String) : ℕ :=
  countBelow repos.length fun i => (goVersion parse gomods p i).isSome

theorem length_goVotes (repos : List Repo) (p : String) :
    (goVotes parse gomods p repos.zipIdx).length = repoCount parse gomods repos p := by
  rw [← List.length_map Prod.snd, map_snd_goVotes, List.length_filterMap_eq_countP]
  rfl

theorem goInfo_eq_some {votes : List (String × String)} {info : GoInfo}
    (h : goInfo votes = some info) : votes ≠ [] ∧ info.repos = votes.map Prod.fst ∧
      info.versions = Dict.counter (votes.map Prod.snd) := by
  cases votes with
  | nil => cases h
  | cons vote votes =>
      obtain rfl := Option.some.inj h
      exact ⟨List.cons_ne_nil _ _, rfl, rfl⟩

/-- The entry of a package. -/
def countOf (e : String × GoInfo) : Option PackageCount :=
  e.2.versions.mostCommon.head?.map fun common =>
    ⟨e.1, e.2.repos.length, .str common.1,
      .obj ((e.2.versions.mostCommon.take 5).map fun v => (v.1, .ofNat v.2)),
      .arr ((e.2.repos.take 5).map .str)⟩

theorem readPackageCount_goPackage (e : String × GoInfo) :
    (goPackage e).bind readPackageCount = countOf e := by
  rw [goPackage, countOf]
  cases e.2.versions.mostCommon.head? with
  | none => rfl
  | some common => simp [readPackageCount, Json.item, Json.text, List.lookup_cons]

theorem foldl_directDeps (es : List (Repo × Option (Dict String String))) (n : ℕ) :
    (es.map fun e => goRecord e.1 e.2).foldl
      (fun n r => n + (((r.item "direct_deps").bind Json.items).getD []).length) n =
        n + (es.map fun e => (e.2.getD []).length).sum := by
  induction es generalizing n with
  | nil => rfl
  | cons e es ih =>
      have hone : (((goRecord e.1 e.2).item "direct_deps").bind Json.items).getD [] =
          (Sequence.sortBy Prod.fst (e.2.getD [])).map fun d =>
            Json.obj [("name", .str d.1), ("version", .str d.2)] := by
        simp [goRecord, Json.item, Json.items, List.lookup_cons]
      rw [List.map_cons, List.foldl_cons, ih, hone, List.length_map,
        Sequence.sortBy_perm.length_eq, List.map_cons, List.sum_cons, Nat.add_assoc]

theorem countOf_eq_some {e : String × GoInfo} {c : PackageCount} (h : countOf e = some c) :
    c.name = e.1 ∧ c.reposCount = e.2.repos.length ∧
      ∃ common, e.2.versions.mostCommon.head? = some common ∧
        c.mostCommonVersion = .str common.1 := by
  obtain ⟨common, hcommon, rfl⟩ := Option.map_eq_some_iff.mp h
  exact ⟨rfl, rfl, common, hcommon, rfl⟩

section
variable {info : Dict String GoInfo} {counts : List PackageCount}

/-- The packages by falling numbers. -/
def byCount (info : Dict String GoInfo) : Dict String GoInfo :=
  Sequence.sortBy (fun e => -(e.2.repos.length : ℤ)) info

theorem byCount_perm : (byCount info).Perm info := Sequence.sortBy_perm

theorem map_reposCount (h : (byCount info).mapM countOf = some counts) :
    counts.map PackageCount.reposCount = (byCount info).map (·.2.repos.length) :=
  Sequence.map_of_mapM h fun _ _ hc => (countOf_eq_some hc).2.1

/-- The numbers fall. -/
theorem pairwise_counts (h : (byCount info).mapM countOf = some counts) :
    counts.Pairwise fun c d => d.reposCount ≤ c.reposCount := by
  have hsorted : (counts.map PackageCount.reposCount).Pairwise fun m n => n ≤ m := by
    rw [map_reposCount h]
    refine List.pairwise_map.mpr (Sequence.pairwise_sortBy.imp fun hle => ?_)
    omega
  exact List.pairwise_map.mp hsorted

theorem sum_counts (h : (byCount info).mapM countOf = some counts) :
    (counts.map PackageCount.reposCount).sum = (info.map fun e => e.2.repos.length).sum := by
  rw [map_reposCount h, (byCount_perm.map _).sum_nat]

/-- Every entry is that of a package. -/
theorem exists_of_mem_counts (h : (byCount info).mapM countOf = some counts) {c : PackageCount}
    (hc : c ∈ counts) : ∃ e ∈ info, countOf e = some c := by
  have hentry : some c ∈ (byCount info).map countOf :=
    Sequence.mapM_eq_some.mp h ▸ List.mem_map_of_mem hc
  obtain ⟨e, he, hcount⟩ := List.mem_map.mp hentry
  exact ⟨e, byCount_perm.subset he, hcount⟩

end

/-- The most common version has the most votes. -/
theorem head?_goVotes {repos : List Repo} {common : String × ℕ}
    (h : (Dict.counter ((goVotes parse gomods p repos.zipIdx).map Prod.snd)).mostCommon.head? =
      some common) :
    (∃ i < repos.length, goVersion parse gomods p i = some common.1) ∧
      ∀ w, countBelow repos.length (goVersion parse gomods p · == some w) ≤
        countBelow repos.length (goVersion parse gomods p · == some common.1) := by
  rw [map_snd_goVotes] at h
  obtain ⟨hmem, hmax⟩ := Dict.head?_mostCommon h
  obtain ⟨i, hi, hversion⟩ := List.mem_filterMap.mp hmem
  refine ⟨⟨i, List.mem_range.mp hi, hversion⟩, fun w => ?_⟩
  have hcount := hmax w
  rw [List.count_filterMap, List.count_filterMap] at hcount
  exact hcount

/-- What the miner knows of the packages are their votes. -/
structure Tallies (parse : String → List (String × String)) (gomods : ℕ → Option String)
    (repos : List Repo) (info : Dict String GoInfo) : Prop where
  nodup : (info.map Prod.fst).Nodup
  lookup_eq : ∀ p, info.lookup p = goInfo (goVotes parse gomods p repos.zipIdx)

namespace Tallies

variable {repos : List Repo} {info : Dict String GoInfo} {counts : List PackageCount}

theorem map_name (hcounts : (byCount info).mapM countOf = some counts) :
    counts.map PackageCount.name = (byCount info).map Prod.fst :=
  Sequence.map_of_mapM hcounts fun _ _ h => (countOf_eq_some h).1

theorem nodup_name (h : Tallies parse gomods repos info)
    (hcounts : (byCount info).mapM countOf = some counts) :
    (counts.map PackageCount.name).Nodup := by
  rw [map_name hcounts]
  exact (byCount_perm.map Prod.fst).nodup_iff.mpr h.nodup

/-- The packages are those that a repository lists. -/
theorem mem_name (h : Tallies parse gomods repos info)
    (hcounts : (byCount info).mapM countOf = some counts) :
    p ∈ counts.map PackageCount.name ↔ 0 < repoCount parse gomods repos p := by
  rw [map_name hcounts, (byCount_perm.map Prod.fst).mem_iff, Dict.mem_keys_iff, h.lookup_eq,
    ← length_goVotes, List.length_pos_iff]
  cases goVotes parse gomods p repos.zipIdx <;> simp [goInfo]

theorem repos_eq (h : Tallies parse gomods repos info) {e : String × GoInfo} (he : e ∈ info) :
    goVotes parse gomods e.1 repos.zipIdx ≠ [] ∧
      e.2.repos.length = repoCount parse gomods repos e.1 ∧
      e.2.versions = Dict.counter ((goVotes parse gomods e.1 repos.zipIdx).map Prod.snd) := by
  have hinfo := (Dict.mem_iff_lookup h.nodup).mp he
  rw [h.lookup_eq] at hinfo
  obtain ⟨hne, hrepos, hversions⟩ := goInfo_eq_some hinfo
  rw [hrepos, List.length_map, length_goVotes]
  exact ⟨hne, rfl, hversions⟩

/-- Each package has a most common version. -/
theorem exists_common (h : Tallies parse gomods repos info) {e : String × GoInfo} (he : e ∈ info) :
    ∃ common, e.2.versions.mostCommon.head? = some common := by
  obtain ⟨hne, -, hversions⟩ := h.repos_eq he
  have hcommon : e.2.versions.mostCommon ≠ [] :=
    hversions ▸ Dict.mostCommon_ne_nil (by simpa using hne)
  obtain ⟨common, rest, hcommon⟩ := List.exists_cons_of_ne_nil hcommon
  exact ⟨common, by rw [hcommon, List.head?_cons]⟩

/-- The number of a package is that of the repositories that list it. -/
theorem reposCount_eq (h : Tallies parse gomods repos info)
    (hcounts : (byCount info).mapM countOf = some counts) {c : PackageCount} (hc : c ∈ counts) :
    c.reposCount = repoCount parse gomods repos c.name := by
  obtain ⟨e, he, hcount⟩ := exists_of_mem_counts hcounts hc
  obtain ⟨hname, hnumber, -⟩ := countOf_eq_some hcount
  rw [hnumber, hname, (h.repos_eq he).2.1]

/-- A package is mentioned. -/
theorem sum_pos (h : Tallies parse gomods repos info)
    (hcounts : (byCount info).mapM countOf = some counts) (hne : counts ≠ []) :
    0 < (counts.map PackageCount.reposCount).sum := by
  obtain ⟨c, rest, rfl⟩ := List.exists_cons_of_ne_nil hne
  have hc := h.reposCount_eq hcounts List.mem_cons_self
  have hpos := (h.mem_name hcounts).mp (List.mem_cons_self (a := c.name))
  rw [List.map_cons, List.sum_cons, hc]
  exact Nat.add_pos_left hpos _

theorem mostCommonVersion_eq (h : Tallies parse gomods repos info)
    (hcounts : (byCount info).mapM countOf = some counts) {c : PackageCount} (hc : c ∈ counts) :
    ∃ v, c.mostCommonVersion = .str v ∧
      (∃ i < repos.length, goVersion parse gomods c.name i = some v) ∧
      ∀ w, countBelow repos.length (goVersion parse gomods c.name · == some w) ≤
        countBelow repos.length (goVersion parse gomods c.name · == some v) := by
  obtain ⟨e, he, hcount⟩ := exists_of_mem_counts hcounts hc
  obtain ⟨hname, -, common, hcommon, hversion⟩ := countOf_eq_some hcount
  rw [(h.repos_eq he).2.2] at hcommon
  exact ⟨common.1, hversion, hname ▸ head?_goVotes hcommon⟩

end Tallies

/-- The file of the miner has the aggregate of its votes. -/
theorem goMain_eq (now : String) (parse : String → List (String × String))
    (gomods : ℕ → Option String) (repos : List Repo) : ∃ info : Dict String GoInfo,
      Tallies parse gomods repos info ∧ ∃ raw counts, goMain now parse repos gomods = some raw ∧
        (byCount info).mapM countOf = some counts ∧
        packageCounts raw = some counts ∧
        totalOccurrences raw = some (info.map fun e => e.2.repos.length).sum := by
  have hacc := goAccounted_main parse gomods repos
  let s : GoState :=
    repos.zipIdx.foldl (fun (s : GoState) e => s.visit parse e.1 (gomods e.2)) ⟨[], []⟩
  let sorted := byCount s.packageInfo
  have htally : Tallies parse gomods repos s.packageInfo := ⟨hacc.nodup, hacc.lookup_eq⟩
  have hpackages : (sorted.mapM goPackage).isSome := Sequence.isSome_mapM.mpr fun e he => by
    obtain ⟨common, hcommon⟩ := htally.exists_common (byCount_perm.subset he)
    rw [goPackage, hcommon]
    rfl
  have hcounts : (sorted.mapM countOf).isSome := Sequence.isSome_mapM.mpr fun e he => by
    obtain ⟨common, hcommon⟩ := htally.exists_common (byCount_perm.subset he)
    rw [countOf, hcommon]
    rfl
  obtain ⟨pkgs, hpkgs⟩ := Option.isSome_iff_exists.mp hpackages
  obtain ⟨counts, hcounts⟩ := Option.isSome_iff_exists.mp hcounts
  have hread : pkgs.mapM readPackageCount = some counts := by
    rw [← hcounts, ← funext readPackageCount_goPackage, ← Sequence.mapM_bind, hpkgs,
      Option.bind_some]
  have htotal : s.records.foldl
      (fun n r => n + (((r.item "direct_deps").bind Json.items).getD []).length) 0 =
        (s.packageInfo.map fun e => e.2.repos.length).sum := by
    have hfold := foldl_directDeps
      (repos.zipIdx.map fun e => (e.1, goUnique parse gomods e.2)) 0
    rw [List.map_map, List.map_map, Nat.zero_add] at hfold
    rw [hacc.sum_eq, hacc.records_eq]
    exact hfold
  refine ⟨s.packageInfo, htally, _, counts,
    Option.bind_eq_some_iff.mpr ⟨pkgs, hpkgs, rfl⟩, hcounts, ?_, ?_⟩
  · simp [packageCounts, Json.item, Json.items, List.lookup_cons, hread]
  · simp only [totalOccurrences, Json.item, List.lookup_cons]
    simp [Json.item, List.lookup_cons, ← htotal, s]

/-- For every corpus the Go miner writes a file.  Its aggregate has each package that a
repository lists, once, with the number of the repositories that list it and a version that
most of them have, by falling numbers, and the total is the sum of the numbers. -/
theorem goMain_exact (now : String) (parse : String → List (String × String))
    (gomods : ℕ → Option String) (repos : List Repo) :
    ∃ raw counts, goMain now parse repos gomods = some raw ∧ packageCounts raw = some counts ∧
      (counts.map PackageCount.name).Nodup ∧
      counts.Pairwise (fun c d => d.reposCount ≤ c.reposCount) ∧
      (∀ p, p ∈ counts.map PackageCount.name ↔ 0 < repoCount parse gomods repos p) ∧
      (∀ c ∈ counts, c.reposCount = repoCount parse gomods repos c.name ∧
        ∃ v, c.mostCommonVersion = .str v ∧
          (∃ i < repos.length, goVersion parse gomods c.name i = some v) ∧
          ∀ w, countBelow repos.length (goVersion parse gomods c.name · == some w) ≤
            countBelow repos.length (goVersion parse gomods c.name · == some v)) ∧
      totalOccurrences raw = some (counts.map PackageCount.reposCount).sum := by
  obtain ⟨info, htally, raw, counts, hraw, hcounts, hread, htotal⟩ :=
    goMain_eq now parse gomods repos
  exact ⟨raw, counts, hraw, hread, htally.nodup_name hcounts, pairwise_counts hcounts,
    fun p => htally.mem_name hcounts,
    fun c hc => ⟨htally.reposCount_eq hcounts hc, htally.mostCommonVersion_eq hcounts hc⟩,
    htotal.trans (congrArg some (sum_counts hcounts).symm)⟩

end

end Aicv.Mining
