import Aicv.Mining.Prevalence

/-!
# The miners and the analysis

The analysis counts the repositories of a package in the records of a miner, and the miner
has counted them for its own aggregate in the same file.

The Go miner writes the name of a repository under `full_name`, and `normalise` reads it
under `repo`.  The Rust miner counts the names of the repositories of a crate and the
analysis their records.  `agree_iff` says for which corpora the two counts are the same.
-/

namespace Aicv.Mining

open Python

/-! ## The sets of the Rust miner -/

/-- The sets of a dictionary have the members that `L` says, and none is empty. -/
structure Sets (d : Dict String (List String)) (L : String → String → Prop) : Prop where
  nodup : (d.map Prod.fst).Nodup
  ne_nil : ∀ e ∈ d, e.2 ≠ []
  nodup_set : ∀ p, ((d.lookup p).getD []).Nodup
  mem_iff : ∀ p x, x ∈ (d.lookup p).getD [] ↔ L p x

section
variable {d : Dict String (List String)} {L : String → String → Prop} {fullName : String}

theorem mem_setAdd {x y : String} {s : List String} : x ∈ setAdd y s ↔ x ∈ s ∨ x = y := by
  unfold setAdd
  split
  next hy =>
    exact ⟨.inl, fun h => h.elim id fun h => h ▸ hy⟩
  next => simp

theorem nodup_setAdd {y : String} {s : List String} (h : s.Nodup) : (setAdd y s).Nodup := by
  unfold setAdd
  split
  next => exact h
  next hy =>
    rw [← List.concat_eq_append, List.nodup_concat]
    exact ⟨hy, h⟩

/-- The set of one crate gets one more member. -/
theorem Sets.alter (h : Sets d L) (crate : String) :
    Sets (d.alter crate fun set => setAdd fullName (set.getD []))
      fun p x => L p x ∨ p = crate ∧ x = fullName := by
  refine ⟨Dict.nodup_alter h.nodup, fun e he => ?_, fun p => ?_, fun p x => ?_⟩
  · have hlookup := (Dict.mem_iff_lookup (Dict.nodup_alter h.nodup)).mp he
    by_cases hp : e.1 = crate
    · rw [hp, Dict.lookup_alter_self] at hlookup
      rw [← Option.some.inj hlookup]
      exact List.ne_nil_of_mem (mem_setAdd.mpr (.inr rfl))
    · rw [Dict.lookup_alter_of_ne hp] at hlookup
      exact h.ne_nil e ((Dict.mem_iff_lookup h.nodup).mpr hlookup)
  · by_cases hp : p = crate
    · subst hp
      rw [Dict.lookup_alter_self]
      exact nodup_setAdd (h.nodup_set p)
    · rw [Dict.lookup_alter_of_ne hp]
      exact h.nodup_set p
  · by_cases hp : p = crate
    · subst hp
      rw [Dict.lookup_alter_self, Option.getD_some, mem_setAdd, h.mem_iff]
      simp
    · rw [Dict.lookup_alter_of_ne hp, h.mem_iff]
      simp [hp]

theorem Sets.congr {L' : String → String → Prop} (h : Sets d L) (hL : ∀ p x, L p x ↔ L' p x) :
    Sets d L' :=
  ⟨h.nodup, h.ne_nil, h.nodup_set, fun p x => (h.mem_iff p x).trans (hL p x)⟩

/-- The keys are those with a member. -/
theorem Sets.mem_keys_iff (h : Sets d L) {p : String} : p ∈ d.map Prod.fst ↔ ∃ x, L p x := by
  simp only [← h.mem_iff, Dict.mem_keys_iff]
  cases hlookup : d.lookup p with
  | none => simp
  | some set =>
      have hne : set ≠ [] := h.ne_nil (p, set) ((Dict.mem_iff_lookup h.nodup).mpr hlookup)
      simpa using List.exists_mem_of_ne_nil set hne

/-- The votes of a repository change nothing but the counts and the sets. -/
theorem rustVotes_fields (fullName : String) (direct : List (String × Json))
    (seen : List String) (s : RustState) :
    (rustVotes fullName seen s direct).records = s.records ∧
      (rustVotes fullName seen s direct).withCargo = s.withCargo := by
  induction direct generalizing seen s with
  | nil => exact ⟨rfl, rfl⟩
  | cons e direct ih =>
      rw [rustVotes]
      split
      next => exact ih _ _
      next => exact ih _ _

/-- The repository is put into the set of each of its crates. -/
theorem Sets.rustVotes {direct : List (String × Json)} {seen : List String} {s : RustState}
    (h : Sets s.repoHasCrate L) :
    Sets (rustVotes fullName seen s direct).repoHasCrate
      fun p x => L p x ∨ (p ∉ seen ∧ p ∈ direct.map Prod.fst) ∧ x = fullName := by
  induction direct generalizing seen s L with
  | nil => exact h.congr (by simp)
  | cons e direct ih =>
      rw [Mining.rustVotes]
      split
      next hseen =>
        have hs : Sets ({ s with allDeps := s.allDeps.bump e.1 } : RustState).repoHasCrate L := h
        refine (ih hs).congr fun p x => ?_
        by_cases hp : p = e.1
        · simp [hp, hseen]
        · simp [hp]
      next hseen =>
        refine (ih (h.alter e.1)).congr fun p x => ?_
        by_cases hp : p = e.1
        · simp [hp, hseen]
        · simp [hp]

end

/-! ## The run of the Rust miner -/

/-- A repository with what is fetched for it. -/
abbrev Source := Repo × CargoReply

section
variable (parser : CargoParser)

/-- The dependencies of a repository, if it has a manifest. -/
def CargoParser.found (e : Source) : Option (List (String × Json)) := do
  let text ← e.2.cargo
  let direct ← parser.direct e.1 text e.2.sub
  return direct.1

/-- Whether a repository lists a crate. -/
def CargoParser.lists (p : String) (e : Source) : Bool :=
  ((parser.found e).getD []).any (·.1 = p)

/-- The names of the repositories that list a crate. -/
def CargoParser.listers (sources : List Source) (p : String) : List String :=
  (sources.filter (parser.lists p)).map (·.1.fullName)

/-- The normalised record of a repository. -/
def CargoParser.listing (e : Source) : Listing :=
  ⟨e.1.fullName, e.2.cargo.isSome, ((parser.found e).getD []).map fun d => ⟨d.1, d.2⟩⟩

/-- What the loop of the Rust miner has done. -/
structure Accounted (sources : List Source) (s : RustState) : Prop where
  records_eq : s.records.mapM (readListing "cargo_toml_found" "crate") =
    some (sources.map parser.listing)
  withCargo_eq : s.withCargo = sources.countP (·.2.cargo.isSome)
  sets : Sets s.repoHasCrate fun p x => x ∈ parser.listers sources p

variable {parser}

theorem readListing_rustRecord (fullName : String) (stars : Json) (found : Bool) (source : String)
    (direct : List (String × Json)) :
    readListing "cargo_toml_found" "crate" (rustRecord fullName stars found source direct) =
      some ⟨fullName, found, direct.map fun d => ⟨d.1, d.2⟩⟩ := by
  have hdeps : (direct.map fun e => Json.obj [("crate", .str e.1), ("version", e.2)]).mapM
      (readDep "crate") = some (direct.map fun d => ⟨d.1, d.2⟩) := by
    rw [Sequence.mapM_eq_some, List.map_map, List.map_map]
    rfl
  simp [readListing, rustRecord, Json.item, Json.text, Json.truth, Json.items, List.lookup_cons,
    hdeps]

theorem mem_listers_append {sources : List Source} {e : Source} {p x : String} :
    x ∈ parser.listers (sources ++ [e]) p ↔
      x ∈ parser.listers sources p ∨ parser.lists p e = true ∧ x = e.1.fullName := by
  simp only [CargoParser.listers, List.filter_append, List.map_append, List.mem_append]
  cases h : parser.lists p e <;> simp [h]

theorem records_append {records : List Json} {sources : List Source} {e : Source} {r : Json}
    (h : records.mapM (readListing "cargo_toml_found" "crate") = some (sources.map parser.listing))
    (hr : readListing "cargo_toml_found" "crate" r = some (parser.listing e)) :
    (records ++ [r]).mapM (readListing "cargo_toml_found" "crate") =
      some ((sources ++ [e]).map parser.listing) := by
  rw [Sequence.mapM_eq_some] at h ⊢
  rw [List.map_append, h, List.map_append, List.map_append]
  exact congrArg (_ ++ ·) (congrArg ([·]) hr)

theorem Accounted.visit {sources : List Source} {s t : RustState} {e : Source}
    (h : Accounted parser sources s) (hvisit : s.visit parser e.1 e.2 = some t) :
    Accounted parser (sources ++ [e]) t := by
  obtain ⟨stars, hstars, hvisit⟩ := Option.bind_eq_some_iff.mp hvisit
  cases hcargo : e.2.cargo with
  | none =>
      rw [hcargo] at hvisit
      cases hvisit
      have hlisting : parser.listing e = ⟨e.1.fullName, false, []⟩ := by
        simp [CargoParser.listing, CargoParser.found, hcargo]
      refine ⟨records_append h.records_eq ?_, ?_, h.sets.congr fun p x => ?_⟩
      · rw [readListing_rustRecord, hlisting]
        rfl
      · rw [List.countP_append, ← h.withCargo_eq]
        simp [hcargo]
      · rw [mem_listers_append]
        simp [CargoParser.lists, CargoParser.found, hcargo]
  | some text =>
      rw [hcargo] at hvisit
      obtain ⟨⟨direct, source⟩, hdirect, hvisit⟩ := Option.bind_eq_some_iff.mp hvisit
      cases hvisit
      have hfound : parser.found e = some direct := by simp [CargoParser.found, hcargo, hdirect]
      obtain ⟨hrecords, hcount⟩ := rustVotes_fields e.1.fullName direct []
        { s with withCargo := s.withCargo + 1 }
      refine ⟨?_, ?_, (h.sets.rustVotes (s := { s with withCargo := s.withCargo + 1 })).congr
        fun p x => ?_⟩
      · simp only [hrecords]
        refine records_append h.records_eq ?_
        rw [readListing_rustRecord, CargoParser.listing, hfound, hcargo]
        rfl
      · simp only [hcount]
        rw [List.countP_append, ← h.withCargo_eq]
        simp [hcargo]
      · rw [mem_listers_append]
        simp [CargoParser.lists, hfound]

end

/-! ## What is compared -/

/-- The counts of the aggregate of a miner. -/
def aggregate (raw : Json) : Language → Option (List (String × ℕ))
  | .go => do
      (← (← raw.item "package_counts").items).mapM fun e => do
        return (← (← e.item "name").text, ← (← e.item "repos_count").natural)
  | .rust => do
      (← (← raw.item "prevalence").items).mapM fun e => do
        return (← (← e.item "crate").text, ← (← e.item "repo_count").natural)

/-- The analysis reads the file and gives each package the count of the aggregate. -/
def Agree [BEq Json] (raw : Json) (lang : Language) : Prop :=
  ∃ n curve own, normalise raw lang = some n ∧ computePrevalenceCurve n = some curve ∧
    aggregate raw lang = some own ∧
    ∀ e, e ∈ curve.map (fun c => (c.name, c.reposCount)) ↔ e ∈ own

/-! ## Go -/

/-- The records of the Go miner are those of the repositories. -/
theorem goRecords (parse : String → List (String × String)) (gomods : ℕ → Option String)
    (es : List (Repo × ℕ)) (s : GoState) :
    ∃ rs, (es.foldl (fun (s : GoState) e => s.visit parse e.1 (gomods e.2)) s).records =
      s.records ++ rs ∧ rs.length = es.length ∧ ∀ r ∈ rs, ∃ repo deps, r = goRecord repo deps := by
  induction es generalizing s with
  | nil => exact ⟨[], (List.append_nil _).symm, rfl, List.forall_mem_nil _⟩
  | cons e es ih =>
      obtain ⟨rs, hrs, hlen, hall⟩ := ih (s.visit parse e.1 (gomods e.2))
      have hone : ∃ deps, (s.visit parse e.1 (gomods e.2)).records =
          s.records ++ [goRecord e.1 deps] := by
        unfold GoState.visit
        split
        next => exact ⟨_, rfl⟩
        next => exact ⟨_, rfl⟩
      obtain ⟨deps, hdeps⟩ := hone
      refine ⟨goRecord e.1 deps :: rs, ?_, congrArg (· + 1) hlen,
        List.forall_mem_cons.mpr ⟨⟨e.1, deps, rfl⟩, hall⟩⟩
      rw [List.foldl_cons, hrs, hdeps, List.append_assoc, List.singleton_append]

/-- `normalise` finds no name in a record of the Go miner. -/
theorem readListing_goRecord (repo : Repo) (deps : Option (Dict String String)) :
    readListing "has_gomod" "name" (goRecord repo deps) = none := by
  simp [readListing, goRecord, Json.item, List.lookup_cons]

/-- The analysis reads the file of the Go miner if and only if it has no repositories. -/
theorem agree_go_iff [BEq Json] {now : String} {parse : String → List (String × String)}
    {repos : List Repo} {gomods : ℕ → Option String} {raw : Json}
    (h : goMain now parse repos gomods = some raw) : Agree raw .go ↔ repos = [] := by
  constructor
  · rintro ⟨n, -, -, hn, -⟩
    obtain ⟨counts, -, h⟩ := Option.bind_eq_some_iff.mp h
    obtain ⟨rs, hrs, hlen, hall⟩ := goRecords parse gomods repos.zipIdx ⟨[], []⟩
    rw [List.nil_append] at hrs
    rw [List.length_zipIdx] at hlen
    cases h
    simp only [hrs] at hn
    by_contra hne
    have hnone : rs.mapM (readListing "has_gomod" "name") = none := by
      rw [← Option.not_isSome_iff_eq_none, Sequence.isSome_mapM]
      intro hsome
      obtain ⟨r, hr⟩ := List.exists_mem_of_length_pos (hlen ▸ List.length_pos_iff.mpr hne)
      obtain ⟨repo, deps, rfl⟩ := hall r hr
      have hread := hsome _ hr
      rw [readListing_goRecord] at hread
      cases hread
    simp [normalise, Json.item, Json.text, Json.items, List.lookup_cons, hnone] at hn
  · rintro rfl
    cases h
    refine ⟨⟨0, 0, now, [], []⟩, [], [], ?_, rfl, ?_, fun e => Iff.rfl⟩
    · simp [normalise, Json.item, Json.text, Json.items, List.lookup_cons]
    · simp [aggregate, Json.item, Json.items, List.lookup_cons]

/-! ## Rust -/

section
variable {parser : CargoParser} {sources : List Source}

theorem find?_version (direct : List (String × Json)) (p : String) :
    ((direct.map fun d => (⟨d.1, d.2⟩ : Dep)).find? (·.name = p)).map Dep.version =
      direct.lookup p := by
  induction direct with
  | nil => rfl
  | cons d direct ih =>
      obtain ⟨crate, version⟩ := d
      by_cases hp : p = crate
      · subst hp
        simp
      · have hne : ¬ crate = p := fun h => hp h.symm
        rw [Dict.lookup_cons_of_ne hp, ← ih]
        simp [hne]

theorem voted_listing (e : Source) (p : String) :
    (parser.listing e).voted p = ((parser.found e).getD []).lookup p := by
  unfold Listing.voted CargoParser.listing
  cases hcargo : e.2.cargo with
  | none => simp [CargoParser.found, hcargo]
  | some text => exact find?_version _ p

theorem lists_eq (e : Source) (p : String) :
    parser.lists p e = ((parser.listing e).voted p).isSome := by
  rw [voted_listing, Bool.eq_iff_iff, ← Dict.mem_keys_iff]
  simp [CargoParser.lists]

theorem length_voted (p : String) :
    (voted (sources.map parser.listing) p).length = (parser.listers sources p).length := by
  rw [voted, List.filterMap_map, List.length_filterMap_eq_countP, CargoParser.listers,
    List.length_map, ← List.countP_eq_length_filter]
  exact List.countP_congr fun e _ => by rw [lists_eq]; rfl

theorem mem_voted {p : String} {x : Json} :
    x ∈ voted (sources.map parser.listing) p ↔
      ∃ e ∈ sources, ∃ direct, parser.found e = some direct ∧ direct.lookup p = some x := by
  rw [voted, List.filterMap_map, List.mem_filterMap]
  refine exists_congr fun e => and_congr_right fun _ => ?_
  show (parser.listing e).voted p = some x ↔ _
  rw [voted_listing]
  cases parser.found e <;> simp

theorem isSome_cargo {e : Source} {direct : List (String × Json)}
    (h : parser.found e = some direct) : e.2.cargo.isSome := by
  obtain ⟨text, htext, -⟩ := Option.bind_eq_some_iff.mp h
  exact Option.isSome_of_eq_some htext

/-- As many members as a list without repetitions of the same members: none is repeated. -/
theorem length_eq_iff_nodup {s l : List String} (hs : s.Nodup) (h : ∀ x, x ∈ s ↔ x ∈ l) :
    s.length = l.length ↔ l.Nodup := by
  constructor
  · intro hlen
    have hsub : s.Subperm l := List.subperm_of_subset hs fun x hx => (h x).mp hx
    exact (hsub.perm_of_length_le hlen.ge).nodup_iff.mp hs
  · intro hl
    exact ((List.perm_ext_iff_of_nodup hs hl).mpr h).length_eq

/-- What is fetched for the repositories of a search. -/
def sourcesOf (repos : List Repo) (replies : ℕ → CargoReply) : List Source :=
  (rustRepos repos).zipIdx.map fun e => (e.1, replies e.2)

/-- No two repositories with one name list the same crate, and the version that counts for a
crate can be a key. -/
structure Comparable (parser : CargoParser) (sources : List Source) : Prop where
  nodup : ∀ p, (parser.listers sources p).Nodup
  hashable : ∀ e ∈ sources, ∀ direct, parser.found e = some direct →
    ∀ p v, direct.lookup p = some v → v.isHashable = true

/-- The counts of the aggregate are the sizes of the sets. -/
structure Read (parser : CargoParser) (sources : List Source) (raw : Json) : Prop where
  normalise_eq : ∃ n, normalise raw .rust = some n ∧ n.repos = sources.map parser.listing ∧
    n.reposWithManifest = sources.countP (·.2.cargo.isSome) ∧ n.packageCounts = []
  aggregate_eq : ∃ own sets, aggregate raw .rust = some own ∧
    Sets sets (fun p x => x ∈ parser.listers sources p) ∧
    ∀ p c, (p, c) ∈ own ↔ p ∈ sets.map Prod.fst ∧ ((sets.lookup p).getD []).length = c

theorem accounted_of_loop {repos : List Repo} {replies : ℕ → CargoReply} {s : RustState}
    (h : (rustRepos repos).zipIdx.foldlM
      (fun (s : RustState) e => s.visit parser e.1 (replies e.2)) ⟨[], [], [], 0, 0⟩ = some s) :
    Accounted parser (sourcesOf repos replies) s := by
  have hsources : (sourcesOf repos replies).foldlM
      (fun (s : RustState) e => s.visit parser e.1 e.2) ⟨[], [], [], 0, 0⟩ = some s := by
    rw [sourcesOf, List.foldlM_map]
    exact h
  have hinit : Accounted parser [] ⟨[], [], [], 0, 0⟩ :=
    ⟨rfl, rfl, List.nodup_nil, List.forall_mem_nil _, fun _ => List.nodup_nil, fun _ _ => Iff.rfl⟩
  exact Sequence.foldlM_prefix (fun _ _ _ _ hacc hvisit => hacc.visit hvisit) hsources hinit

/-- The counts of an aggregate are read as they were written. -/
theorem mapM_aggregate (digits : ℚ → String) (size : String → ℕ) (ranked : List (String × ℚ)) :
    ((ranked.map fun e => Json.obj [("crate", .str e.1), ("prevalence", .num (digits e.2)),
      ("repo_count", .ofNat (size e.1))]).mapM fun e => do
        return (← (← e.item "crate").text, ← (← e.item "repo_count").natural)) =
      some (ranked.map fun e => (e.1, size e.1)) := by
  rw [Sequence.mapM_eq_some, List.map_map, List.map_map]
  refine List.map_congr_left fun e _ => ?_
  simp [Json.item, Json.text, List.lookup_cons]

theorem read_of_rustMain {now : String} {round : ℚ → String} {repos : List Repo}
    {replies : ℕ → CargoReply} {raw : Json}
    (h : rustMain now round parser repos replies = some raw) :
    Read parser (sourcesOf repos replies) raw := by
  obtain ⟨s, hloop, h⟩ := Option.bind_eq_some_iff.mp h
  obtain ⟨prevalence, hprev, h⟩ := Option.bind_eq_some_iff.mp h
  have hacc := accounted_of_loop hloop
  cases h
  constructor
  · refine ⟨⟨(rustRepos repos).length, s.withCargo, now, _, []⟩, ?_, rfl, hacc.withCargo_eq, rfl⟩
    simp [normalise, Json.item, Json.text, Json.items, List.lookup_cons, hacc.records_eq]
  · let ranked := Sequence.sortBy (fun e => -e.2) prevalence
    let size (p : String) : ℕ := ((s.repoHasCrate.lookup p).getD []).length
    have hmap := mapM_aggregate round size ranked
    refine ⟨ranked.map fun e => (e.1, size e.1), s.repoHasCrate, ?_, hacc.sets, fun p c => ?_⟩
    · simpa [aggregate, Json.item, Json.items, List.lookup_cons] using hmap
    · have hkeys : prevalence.map Prod.fst = s.repoHasCrate.map Prod.fst :=
        Sequence.map_of_mapM hprev fun e b hb => by
          obtain ⟨q, -, rfl⟩ := Option.map_eq_some_iff.mp hb
          rfl
      have hranked : ranked.Perm prevalence := Sequence.sortBy_perm
      rw [← hkeys, ← (hranked.map Prod.fst).mem_iff, List.mem_map, List.mem_map]
      constructor
      · rintro ⟨e, he, heq⟩
        obtain ⟨rfl, rfl⟩ := Prod.mk.inj heq
        exact ⟨⟨e, he, rfl⟩, rfl⟩
      · rintro ⟨⟨e, he, rfl⟩, rfl⟩
        exact ⟨e, he, rfl⟩

/-- There is a curve if the version that counts for a crate can be a key. -/
theorem exists_curve_listing [BEq Json] {n : Normalised}
    (hrepos : n.repos = sources.map parser.listing)
    (hmanifest : n.reposWithManifest = sources.countP (·.2.cargo.isSome))
    (hpre : n.packageCounts = []) :
    (∃ curve, computePrevalenceCurve n = some curve) ↔
      ∀ e ∈ sources, ∀ direct, parser.found e = some direct →
        ∀ p v, direct.lookup p = some v → v.isHashable = true := by
  rw [exists_curve_iff, hrepos]
  constructor
  · rintro ⟨-, h⟩ e he direct hdirect p v hv
    have hmem : v ∈ voted (sources.map parser.listing) p :=
      mem_voted.mpr ⟨e, he, direct, hdirect, hv⟩
    exact (h p (List.ne_nil_of_mem hmem)).1 v hmem
  · intro h
    refine ⟨by rw [hpre]; rfl, fun p hne => ⟨fun x hx => ?_, ?_⟩⟩
    · obtain ⟨e, he, direct, hdirect, hx⟩ := mem_voted.mp hx
      exact h e he direct hdirect p x hx
    · obtain ⟨x, hx⟩ := List.exists_mem_of_ne_nil _ hne
      obtain ⟨e, he, direct, hdirect, -⟩ := mem_voted.mp hx
      rw [hmanifest]
      exact (List.countP_pos_iff.mpr ⟨e, he, isSome_cargo hdirect⟩).ne'

/-- The set of a crate has as many members as there are records that list it if and only if
no name is repeated in these. -/
theorem Sets.length_eq_iff {sets : Dict String (List String)}
    (h : Sets sets fun p x => x ∈ parser.listers sources p) (p : String) :
    ((sets.lookup p).getD []).length = (parser.listers sources p).length ↔
      (parser.listers sources p).Nodup :=
  length_eq_iff_nodup (h.nodup_set p) (h.mem_iff p)

theorem Sets.mem_keys_iff_listers {sets : Dict String (List String)}
    (h : Sets sets fun p x => x ∈ parser.listers sources p) {p : String} :
    p ∈ sets.map Prod.fst ↔ parser.listers sources p ≠ [] := by
  rw [h.mem_keys_iff, ne_eq, List.eq_nil_iff_forall_not_mem, not_forall_not]

/-- The analysis agrees with a file that was read so. -/
theorem agree_rust_iff [BEq Json] {raw : Json} (h : Read parser sources raw) :
    Agree raw .rust ↔ Comparable parser sources := by
  obtain ⟨⟨n, hn, hrepos, hmanifest, hpre⟩, ⟨own, sets, hown, hsets, hmem⟩⟩ := h
  have hcurve_iff := exists_curve_listing hrepos hmanifest hpre
  have hvoted (p : String) : (voted n.repos p).length = (parser.listers sources p).length := by
    rw [hrepos, length_voted]
  constructor
  · rintro ⟨n', curve, own', hn', hcurve, hown', hsame⟩
    cases hn.symm.trans hn'
    cases hown.symm.trans hown'
    refine ⟨fun p => ?_, hcurve_iff.mp ⟨curve, hcurve⟩⟩
    by_cases hnil : parser.listers sources p = []
    · rw [hnil]
      exact List.nodup_nil
    · have hcurve_mem := (mem_curve hcurve).mpr ⟨hvoted p, List.length_pos_iff.mpr hnil⟩
      exact (hsets.length_eq_iff p).mp ((hmem _ _).mp ((hsame _).mp hcurve_mem)).2
  · intro hcomp
    obtain ⟨curve, hcurve⟩ := hcurve_iff.mpr hcomp.hashable
    refine ⟨n, curve, own, hn, hcurve, hown, fun ⟨p, c⟩ => ?_⟩
    rw [mem_curve hcurve, hvoted, hmem, hsets.mem_keys_iff_listers,
      (hsets.length_eq_iff p).mpr (hcomp.nodup p)]
    constructor
    · rintro ⟨rfl, hpos⟩
      exact ⟨List.length_pos_iff.mp hpos, rfl⟩
    · rintro ⟨hne, rfl⟩
      exact ⟨rfl, List.length_pos_iff.mpr hne⟩

end

/-! ## Both languages -/

/-- What the miners run with. -/
structure Scripts where
  now : String
  round : ℚ → String
  goParser : String → List (String × String)
  cargoParser : CargoParser

/-- What the network returns to a miner. -/
structure Corpus where
  pages : ℕ → List Repo
  corpusSize : ℤ
  gomods : ℕ → Option String
  cargos : ℕ → CargoReply

/-- The repositories of a search. -/
def Corpus.repos (c : Corpus) : List Repo := searchTopRepos c.pages c.corpusSize

/-- The file of a miner, unless it raises. -/
def mine (x : Scripts) (c : Corpus) : Language → Option Json
  | .go => goMain x.now x.goParser c.repos c.gomods
  | .rust => rustMain x.now x.round x.cargoParser c.repos c.cargos

/-- The analysis agrees with the Go miner on the empty corpus only, and with the Rust miner
if and only if no two repositories with one name list the same crate and the version that
counts for a crate can be a key. -/
theorem agree_iff [BEq Json] (x : Scripts) (c : Corpus) (lang : Language) (raw : Json)
    (h : mine x c lang = some raw) :
    Agree raw lang ↔
      match lang with
      | .go => c.repos = []
      | .rust => Comparable x.cargoParser (sourcesOf c.repos c.cargos) :=
  match lang with
  | .go => agree_go_iff h
  | .rust => agree_rust_iff (read_of_rustMain h)

/-- A repository of the search. -/
def octocat : Repo := ⟨"octocat/hello", some "main", some (.ofNat 7), some "Rust"⟩

/-- One repository with a `Cargo.toml`. -/
theorem agree_one : ∃ (_ : BEq Json) (x : Scripts) (c : Corpus) (raw : Json),
    mine x c .rust = some raw ∧ Agree raw .rust ∧ aggregate raw .rust = some [("serde", 1)] := by
  let _ : BEq Json := ⟨fun v w => v.text == w.text⟩
  let parser : CargoParser := ⟨fun _ => some ([("serde", .str "1")], false), fun _ => some []⟩
  let x : Scripts := ⟨"2026-06-21T00:00:00+00:00", fun _ => "1.0", fun _ => [], parser⟩
  let c : Corpus := ⟨fun _ => [octocat], 1, fun _ => none,
    fun _ => ⟨some "[dependencies]\nserde = \"1\"\n", none⟩⟩
  have hmine : (mine x c .rust).bind (aggregate · .rust) = some [("serde", 1)] := by
    decide +kernel
  obtain ⟨raw, hraw, hown⟩ := Option.bind_eq_some_iff.mp hmine
  have hsources : sourcesOf c.repos c.cargos = [(octocat, c.cargos 0)] := by
    have hlower : "Rust".toLower = "rust" := by decide +kernel
    have hrepos : c.repos = [octocat] := rfl
    simp [sourcesOf, rustRepos, hrepos, octocat, hlower]
  have hcomp : Comparable parser (sourcesOf c.repos c.cargos) := by
    rw [hsources]
    refine ⟨fun p => ?_, fun e he direct hdirect p v hv => ?_⟩
    · have hlen : (parser.listers [(octocat, c.cargos 0)] p).length ≤ 1 :=
        (List.length_map _).trans_le (List.length_filter_le _ _)
      exact List.nodup_iff_count_le_one.mpr fun a => List.count_le_length.trans hlen
    · obtain rfl := List.mem_singleton.mp he
      cases hdirect
      change [("serde", Json.str "1")].lookup p = some v at hv
      by_cases hp : p = "serde"
      · subst hp
        cases hv
        rfl
      · rw [Dict.lookup_cons_of_ne hp] at hv
        cases hv
  exact ⟨_, x, c, raw, hraw, (agree_iff x c .rust raw hraw).mpr hcomp, hown⟩

/-- One repository without a `go.mod`. -/
theorem not_agree : ¬ ∃ (_ : BEq Json) (x : Scripts), ∀ (c : Corpus) (lang : Language)
    (raw : Json), mine x c lang = some raw → Agree raw lang := by
  rintro ⟨_, x, h⟩
  let c : Corpus := ⟨fun _ => [octocat], 1, fun _ => none, fun _ => ⟨none, none⟩⟩
  have hrepos : c.repos = [octocat] := rfl
  have hmine : (mine x c .go).isSome := rfl
  obtain ⟨raw, hraw⟩ := Option.isSome_iff_exists.mp hmine
  have hnil := (agree_go_iff hraw).mp (h c .go raw hraw)
  cases hnil

end Aicv.Mining
