import Aicv.Mining.Cargo
import Aicv.Mining.GoMiner
import Aicv.Python.JsonText
import Aicv.Python.Text

/-!
# From the miners to the analyses

A miner writes one file, and an analysis loads it, each in the encoding of the machine it runs on.
`handoff_exact` says that the analysis gets what the miner has computed.  All of the file is in
ASCII, so the encodings do not matter.
-/

namespace Aicv.Mining

open Python JsonText

/-! ## The file -/

/-- `json.dump(output, f, indent=2)`. -/
def indented : Layout := ⟨true, some 2⟩

/-- The file of a miner. -/
def mineFile (x : Scripts) (c : Corpus) (lang : Language) : Option String :=
  (mine x c lang).map (dumps indented)

/-- `load_raw`. -/
def loadRaw (float : List Char → List Char) (file : String) : Option Json :=
  loads float (String.ofList (universalFrom false file.toList))

section
variable (float : List Char → List Char)

/-- The stars of the repositories are values of JSON. -/
def HoldsStars (repos : List Repo) : Prop :=
  ∀ repo ∈ repos, ∀ stars ∈ repo.stars, WellFormed float stars

/-- The versions that are parsed are values of JSON. -/
def HoldsVersions (parser : CargoParser) : Prop :=
  ∀ text parsed, parser.parseDirectDeps text = some parsed →
    ∀ e ∈ parsed.1, WellFormed float e.2

/-- What a miner takes over into its file are values of JSON. -/
def Holds (x : Scripts) (c : Corpus) : Language → Prop
  | .go => HoldsStars float c.repos
  | .rust => HoldsStars float c.repos ∧ HoldsVersions float x.cargoParser ∧
      ∀ q, IsWritten float (x.round q).toList

end

section
variable {float : List Char → List Char} {v : Json}

/-- What is written is read back. -/
theorem loadRaw_dumps (h : WellFormed float v) : loadRaw float (dumps indented v) = some v := by
  have hreturn : '\r' ∉ text indented 0 v := fun hmem => by
    rcases prints_text h _ hmem with ⟨hle, -⟩ | ⟨heq, -⟩
    · exact absurd hle (by decide)
    · exact absurd heq (by decide)
  have hread := loads_dumps h indented (List.forall_mem_nil _)
  rw [String.ofList_nil, String.append_empty] at hread
  rw [loadRaw, dumps, String.toList_ofList, universalFrom_eq hreturn]
  exact hread

/-- The layout has no other characters than those of ASCII. -/
theorem inAscii_dumps (h : WellFormed float v) :
    ∀ c ∈ (dumps indented v).toList, InAscii c ∨ c = '\n' := by
  intro c hc
  rw [dumps, String.toList_ofList] at hc
  exact (prints_text h c hc).imp (fun hin => hin.2 rfl) And.left

theorem wellFormed_ofNat (n : ℕ) : WellFormed float (.ofNat n) :=
  .num (.inl (isNumber_toString n))

theorem wellFormed_arr_map {α : Type} {as : List α} {f : α → Json}
    (h : ∀ a ∈ as, WellFormed float (f a)) : WellFormed float (.arr (as.map f)) :=
  .arr (List.forall_mem_map.mpr h)

/-! ## Go -/

section
variable {repo : Repo} {parse : String → List (String × String)} {gomods : ℕ → Option String}
  {repos : List Repo} {now : String} {raw : Json}

theorem wellFormed_goRecord (h : ∀ stars ∈ repo.stars, WellFormed float stars)
    (deps : Option (Dict String String)) : WellFormed float (goRecord repo deps) := by
  have hkeys : (["full_name", "stars", "default_branch", "has_gomod", "direct_deps"] :
      List String).Nodup := by decide
  have hdep : (["name", "version"] : List String).Nodup := by decide
  have hstars : WellFormed float (repo.stars.getD (.ofNat 0)) := by
    cases hsome : repo.stars with
    | none => exact wellFormed_ofNat 0
    | some stars => exact h stars hsome
  refine .obj hkeys fun e he => ?_
  simp only [List.mem_cons, List.not_mem_nil, or_false] at he
  rcases he with rfl | rfl | rfl | rfl | rfl
  · exact .str _
  · exact hstars
  · exact .str _
  · exact .bool _
  · refine wellFormed_arr_map fun dep _ => .obj hdep fun e he => ?_
    simp only [List.mem_cons, List.not_mem_nil, or_false] at he
    rcases he with rfl | rfl <;> exact .str _

/-- A package has each of its versions once. -/
theorem wellFormed_goPackage {e : String × GoInfo} (h : (e.2.versions.map Prod.fst).Nodup)
    {package : Json} (hpackage : goPackage e = some package) : WellFormed float package := by
  obtain ⟨common, -, hpackage⟩ := Option.bind_eq_some_iff.mp hpackage
  obtain rfl := Option.some.inj hpackage
  have hkeys : (["name", "repos_count", "example_repos", "most_common_version",
      "version_distribution"] : List String).Nodup := by decide
  have hversions : ((e.2.versions.mostCommon.take 5).map fun v =>
      ((v.1, .ofNat v.2) : String × Json)).map Prod.fst =
        (e.2.versions.mostCommon.take 5).map Prod.fst := List.map_map
  have hnodup : ((e.2.versions.mostCommon.take 5).map Prod.fst).Nodup :=
    ((Sequence.sortBy_perm.map Prod.fst).nodup_iff.mpr h).sublist
      ((List.take_sublist 5 _).map Prod.fst)
  refine .obj hkeys fun e he => ?_
  simp only [List.mem_cons, List.not_mem_nil, or_false] at he
  rcases he with rfl | rfl | rfl | rfl | rfl
  · exact .str _
  · exact wellFormed_ofNat _
  · exact wellFormed_arr_map fun _ _ => .str _
  · exact .str _
  · exact .obj (hversions ▸ hnodup) (List.forall_mem_map.mpr fun v _ => wellFormed_ofNat v.2)

/-- The file of the Go miner is a value, if the stars are. -/
theorem wellFormed_goMain (h : HoldsStars float repos)
    (hraw : goMain now parse repos gomods = some raw) : WellFormed float raw := by
  have hacc := goAccounted_main parse gomods repos
  obtain ⟨counts, hcounts, hraw⟩ := Option.bind_eq_some_iff.mp hraw
  obtain rfl := Option.some.inj hraw
  have hkeys : (["language", "mined_at", "corpus_source", "query", "stats", "package_counts",
      "repos"] : List String).Nodup := by decide
  have hstats : (["repos_attempted", "repos_with_gomod", "repos_without_gomod",
      "total_direct_dep_occurrences", "unique_packages"] : List String).Nodup := by decide
  have hpackages : ∀ package ∈ counts, WellFormed float package := by
    intro package hmem
    have hentry : some package ∈ counts.map some := List.mem_map_of_mem hmem
    rw [← Sequence.mapM_eq_some.mp hcounts] at hentry
    obtain ⟨e, he, hpackage⟩ := List.mem_map.mp hentry
    have htally : Tallies parse gomods repos _ := ⟨hacc.nodup, hacc.lookup_eq⟩
    have hversions := (htally.repos_eq (Sequence.sortBy_perm.mem_iff.mp he)).2.2
    exact wellFormed_goPackage (hversions ▸ (Dict.isCount_counter _).nodup) hpackage
  refine .obj hkeys fun e he => ?_
  simp only [List.mem_cons, List.not_mem_nil, or_false] at he
  rcases he with rfl | rfl | rfl | rfl | rfl | rfl | rfl
  · exact .str _
  · exact .str _
  · exact .str _
  · exact .str _
  · refine .obj hstats fun e he => ?_
    simp only [List.mem_cons, List.not_mem_nil, or_false] at he
    rcases he with rfl | rfl | rfl | rfl | rfl <;> exact wellFormed_ofNat _
  · exact .arr hpackages
  · refine .arr ?_
    rw [hacc.records_eq]
    refine List.forall_mem_map.mpr fun e he => wellFormed_goRecord ?_ _
    exact h e.1 (List.fst_mem_of_mem_zipIdx he)

end

/-! ## Rust -/

section
variable {parser : CargoParser} {repo : Repo} {sources : List Source} {s t : RustState}
  {repos : List Repo} {replies : ℕ → CargoReply} {now : String} {digits : ℚ → String} {raw : Json}

/-- The versions are those of one of the two manifests. -/
theorem wellFormed_direct (h : HoldsVersions float parser) {text : String}
    {sub : Option String} {found : List (String × Json) × String}
    (hfound : parser.direct repo text sub = some found) :
    ∀ e ∈ found.1, WellFormed float e.2 := by
  obtain ⟨⟨direct, needsSubcrate⟩, hroot, hfound⟩ := Option.bind_eq_some_iff.mp hfound
  have hdirect := h text _ hroot
  dsimp only at hfound
  split at hfound
  next =>
    obtain ⟨members, -, hfound⟩ := Option.bind_eq_some_iff.mp hfound
    obtain ⟨primary?, -, hfound⟩ := Option.bind_eq_some_iff.mp hfound
    split at hfound
    next =>
      split at hfound
      next =>
        obtain rfl := Option.some.inj hfound
        exact hdirect
      next =>
        obtain ⟨⟨subDirect, needs⟩, hsub, hfound⟩ := Option.bind_eq_some_iff.mp hfound
        dsimp only at hfound
        split at hfound
        next =>
          obtain rfl := Option.some.inj hfound
          exact hdirect
        next =>
          obtain rfl := Option.some.inj hfound
          exact h _ _ hsub
    next =>
      obtain rfl := Option.some.inj hfound
      exact hdirect
  next =>
    obtain rfl := Option.some.inj hfound
    exact hdirect

theorem wellFormed_rustRecord {fullName source : String} {stars : Json} {found : Bool}
    {direct : List (String × Json)} (hstars : WellFormed float stars)
    (hdirect : ∀ e ∈ direct, WellFormed float e.2) :
    WellFormed float (rustRecord fullName stars found source direct) := by
  have hkeys : (["repo", "stars", "cargo_toml_found", "source", "direct_deps"] :
      List String).Nodup := by decide
  have hdep : (["crate", "version"] : List String).Nodup := by decide
  refine .obj hkeys fun e he => ?_
  simp only [List.mem_cons, List.not_mem_nil, or_false] at he
  rcases he with rfl | rfl | rfl | rfl | rfl
  · exact .str _
  · exact hstars
  · exact .bool _
  · exact .str _
  · refine wellFormed_arr_map fun dep hmem => .obj hdep fun e he => ?_
    simp only [List.mem_cons, List.not_mem_nil, or_false] at he
    rcases he with rfl | rfl
    · exact .str _
    · exact hdirect dep hmem

/-- The record of one more repository is a value. -/
theorem wellFormed_visit (h : HoldsVersions float parser) {e : Source}
    (hstars : ∀ stars ∈ e.1.stars, WellFormed float stars)
    (hs : ∀ r ∈ s.records, WellFormed float r) (hvisit : s.visit parser e.1 e.2 = some t) :
    ∀ r ∈ t.records, WellFormed float r := by
  obtain ⟨stars, hsome, hvisit⟩ := Option.bind_eq_some_iff.mp hvisit
  split at hvisit
  next =>
    obtain rfl := Option.some.inj hvisit
    exact List.forall_mem_append.mpr ⟨hs, List.forall_mem_singleton.mpr
      (wellFormed_rustRecord (hstars stars hsome) (List.forall_mem_nil _))⟩
  next text =>
    obtain ⟨⟨direct, source⟩, hdirect, hvisit⟩ := Option.bind_eq_some_iff.mp hvisit
    obtain rfl := Option.some.inj hvisit
    have hrecords := (rustVotes_fields e.1.fullName direct []
      { s with withCargo := s.withCargo + 1 }).1
    refine List.forall_mem_append.mpr ⟨?_, List.forall_mem_singleton.mpr
      (wellFormed_rustRecord (hstars stars hsome) (wellFormed_direct h hdirect))⟩
    rw [hrecords]
    exact hs

theorem wellFormed_loop (h : HoldsVersions float parser) (hstars : HoldsStars float repos)
    (hloop : repos.zipIdx.foldlM
      (fun (s : RustState) e => s.visit parser e.1 (replies e.2)) ⟨[], [], [], 0, 0⟩ = some s) :
    ∀ r ∈ s.records, WellFormed float r := by
  have hprefix : (∀ e ∈ [] ++ repos.zipIdx, ∀ stars ∈ e.1.stars, WellFormed float stars) →
      ∀ r ∈ s.records, WellFormed float r := by
    refine Sequence.foldlM_prefix (I := fun (done : List (Repo × ℕ)) (s : RustState) =>
      (∀ e ∈ done, ∀ stars ∈ e.1.stars, WellFormed float stars) →
        ∀ r ∈ s.records, WellFormed float r) (fun done s e t hs hvisit hdone => ?_) hloop
      fun _ => List.forall_mem_nil _
    obtain ⟨hdone, he⟩ := List.forall_mem_append.mp hdone
    exact wellFormed_visit (e := (e.1, replies e.2)) h (List.forall_mem_singleton.mp he)
      (hs hdone) hvisit
  exact hprefix fun e he => hstars e.1 (List.fst_mem_of_mem_zipIdx he)

/-- The file of the Rust miner is a value, if what it takes over is. -/
theorem wellFormed_rustMain (h : HoldsVersions float parser) (hstars : HoldsStars float repos)
    (hdigits : ∀ q, IsWritten float (digits q).toList)
    (hraw : rustMain now digits parser repos replies = some raw) : WellFormed float raw := by
  obtain ⟨s, hloop, hraw⟩ := Option.bind_eq_some_iff.mp hraw
  obtain ⟨ps, -, hraw⟩ := Option.bind_eq_some_iff.mp hraw
  obtain rfl := Option.some.inj hraw
  have hkeys : (["metadata", "prevalence", "raw"] : List String).Nodup := by decide
  have hmetadata : (["language", "corpus_size", "repos_with_cargo_toml",
      "repos_without_cargo_toml", "unique_crates", "mined_at", "search_query"] :
        List String).Nodup := by decide
  have hcrate : (["crate", "prevalence", "repo_count"] : List String).Nodup := by decide
  refine .obj hkeys fun e he => ?_
  simp only [List.mem_cons, List.not_mem_nil, or_false] at he
  rcases he with rfl | rfl | rfl
  · refine .obj hmetadata fun e he => ?_
    simp only [List.mem_cons, List.not_mem_nil, or_false] at he
    rcases he with rfl | rfl | rfl | rfl | rfl | rfl | rfl
    · exact .str _
    · exact wellFormed_ofNat _
    · exact wellFormed_ofNat _
    · exact wellFormed_ofNat _
    · exact wellFormed_ofNat _
    · exact .str _
    · exact .str _
  · refine wellFormed_arr_map fun p _ => .obj hcrate fun e he => ?_
    simp only [List.mem_cons, List.not_mem_nil, or_false] at he
    rcases he with rfl | rfl | rfl
    · exact .str _
    · exact .num (hdigits p.2)
    · exact wellFormed_ofNat _
  · exact .arr (wellFormed_loop h (fun repo hrepo => hstars repo (List.mem_of_mem_filter hrepo))
      hloop)

end

/-! ## Both languages -/

/-- The file of a run is a value. -/
theorem wellFormed_mine {x : Scripts} {c : Corpus} {lang : Language} {raw : Json}
    (h : Holds float x c lang) (hraw : mine x c lang = some raw) : WellFormed float raw := by
  cases lang with
  | go => exact wellFormed_goMain h hraw
  | rust =>
      obtain ⟨hstars, hversion, hround⟩ := h
      exact wellFormed_rustMain hversion hstars hround hraw

/-- The analyses load what the miner has computed, from a file in ASCII. -/
theorem handoff_exact (x : Scripts) (c : Corpus) (lang : Language) (h : Holds float x c lang) :
    (mineFile x c lang).bind (loadRaw float) = mine x c lang ∧
      ∀ file ∈ mineFile x c lang, ∀ ch ∈ file.toList, InAscii ch ∨ ch = '\n' := by
  rw [mineFile]
  cases hraw : mine x c lang with
  | none => exact ⟨rfl, nofun⟩
  | some raw =>
      have hvalue := wellFormed_mine h hraw
      rw [Option.map_some, Option.bind_some]
      refine ⟨loadRaw_dumps hvalue, fun file hfile => ?_⟩
      obtain rfl := Option.mem_some_iff.mp hfile
      exact inAscii_dumps hvalue

end

/-- One repository with a `Cargo.toml`. -/
theorem handoff_exact_one : ∃ (x : Scripts) (c : Corpus) (file : String),
    mineFile x c .rust = some file ∧
      (loadRaw id file).bind (aggregate · .rust) = some [("serde", 1)] := by
  let loads (_ : String) : Option (Table Toml) :=
    some (.single "dependencies" (.table (.single "serde" (.str "1"))))
  let x : Scripts :=
    ⟨"2026-06-21T00:00:00+00:00", fun _ => "1.0", fun _ => [], Cargo.cargoParser loads⟩
  let c : Corpus := ⟨fun _ => [octocat], 1, fun _ => none,
    fun _ => ⟨some "[dependencies]\nserde = \"1\"\n", none⟩⟩
  have hmine : (mine x c .rust).bind (aggregate · .rust) = some [("serde", 1)] := by
    decide +kernel
  obtain ⟨raw, hraw, hown⟩ := Option.bind_eq_some_iff.mp hmine
  have hholds : Holds id x c .rust := by
    refine ⟨fun repo hrepo stars hstars => ?_, fun text parsed hparsed e he => ?_, fun q => ?_⟩
    · obtain rfl : repo = octocat := List.mem_singleton.mp hrepo
      obtain rfl := Option.mem_some_iff.mp hstars
      exact wellFormed_ofNat 7
    · obtain rfl := Option.some.inj hparsed
      obtain rfl := List.mem_singleton.mp he
      exact .str "1"
    · have hnumber : number id "1.0".toList = some ("1.0".toList, []) := by decide
      exact .inl hnumber
  have hload := (handoff_exact x c .rust hholds).1
  have hfile : mineFile x c .rust = some (dumps indented raw) := by
    rw [mineFile, hraw, Option.map_some]
  rw [hfile, hraw, Option.bind_some] at hload
  exact ⟨x, c, _, hfile, by rw [hload, Option.bind_some, hown]⟩

end Aicv.Mining
