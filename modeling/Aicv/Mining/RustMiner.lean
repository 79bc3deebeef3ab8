import Mathlib.Algebra.Order.Field.Basic
import Mathlib.Data.Finset.Card
import Mathlib.Data.Nat.Cast.Order.Ring
import Aicv.Mining.Cargo

/-!
# The aggregate of the Rust miner

The loop of `main` counts repositories with and without a manifest and keeps two dictionaries
with the same crates (`Tallied`).  `rustMain_exact` says when the miner writes a file, and what
the aggregate in it is, for every run.  A version that JSON does not have, such as a date, ends
the run at the dump.
-/

namespace Aicv.Mining

open Python

section
variable {parser : CargoParser} {sources : List Source}

/-! ## The loop -/

/-- The numbers that the loop of `main` counts beside the sets. -/
structure Tallied (sources : List Source) (s : RustState) : Prop where
  withoutCargo_eq : s.withoutCargo = sources.countP (·.2.cargo.isNone)
  keys_eq : s.allDeps.map Prod.fst = s.repoHasCrate.map Prod.fst

theorem keys_rustVotes (fullName : String) (direct : List (String × Json)) {seen : List String}
    {s : RustState} (hseen : ∀ crate ∈ seen, crate ∈ s.repoHasCrate.map Prod.fst)
    (h : s.allDeps.map Prod.fst = s.repoHasCrate.map Prod.fst) :
    (rustVotes fullName seen s direct).allDeps.map Prod.fst =
      (rustVotes fullName seen s direct).repoHasCrate.map Prod.fst ∧
    (rustVotes fullName seen s direct).withoutCargo = s.withoutCargo := by
  induction direct generalizing seen s with
  | nil => exact ⟨h, rfl⟩
  | cons e direct ih =>
      have hbump : (s.allDeps.bump e.1).map Prod.fst =
          if e.1 ∈ s.repoHasCrate.map Prod.fst then s.repoHasCrate.map Prod.fst
          else s.repoHasCrate.map Prod.fst ++ [e.1] := by
        rw [Dict.bump, Dict.keys_alter, h]
      rw [rustVotes]
      split
      next hmem =>
        refine ih (s := { s with allDeps := s.allDeps.bump e.1 }) hseen ?_
        rw [hbump, if_pos (hseen e.1 hmem)]
      next =>
        refine ih (s := { s with
          allDeps := s.allDeps.bump e.1
          repoHasCrate := s.repoHasCrate.alter e.1 fun set => setAdd fullName (set.getD []) })
          (fun crate hcrate => ?_) ?_
        · rw [Dict.mem_keys_alter]
          rcases List.mem_cons.mp hcrate with rfl | hcrate
          · exact .inr rfl
          · exact .inl (hseen crate hcrate)
        · rw [hbump, Dict.keys_alter]

theorem Tallied.visit {s t : RustState} {e : Source} (h : Tallied sources s)
    (hvisit : s.visit parser e.1 e.2 = some t) : Tallied (sources ++ [e]) t := by
  obtain ⟨stars, -, hvisit⟩ := Option.bind_eq_some_iff.mp hvisit
  cases hcargo : e.2.cargo with
  | none =>
      rw [hcargo] at hvisit
      cases hvisit
      refine ⟨?_, h.keys_eq⟩
      rw [List.countP_append, ← h.withoutCargo_eq]
      simp [hcargo]
  | some text =>
      rw [hcargo] at hvisit
      obtain ⟨⟨direct, source⟩, -, hvisit⟩ := Option.bind_eq_some_iff.mp hvisit
      cases hvisit
      obtain ⟨hkeys, hwithout⟩ := keys_rustVotes e.1.fullName direct
        (s := { s with withCargo := s.withCargo + 1 }) (List.forall_mem_nil _) h.keys_eq
      refine ⟨?_, hkeys⟩
      simp only [hwithout]
      rw [List.countP_append, ← h.withoutCargo_eq]
      simp [hcargo]

theorem tallied_of_loop {repos : List Repo} {replies : ℕ → CargoReply} {s : RustState}
    (h : (rustRepos repos).zipIdx.foldlM
      (fun (s : RustState) e => s.visit parser e.1 (replies e.2)) ⟨[], [], [], 0, 0⟩ = some s) :
    Tallied (sourcesOf repos replies) s := by
  have hsources : (sourcesOf repos replies).foldlM
      (fun (s : RustState) e => s.visit parser e.1 e.2) ⟨[], [], [], 0, 0⟩ = some s := by
    rw [sourcesOf, List.foldlM_map]
    exact h
  have hinit : Tallied [] ⟨[], [], [], 0, 0⟩ := ⟨rfl, rfl⟩
  exact Sequence.foldlM_prefix (fun _ _ _ _ hacc hvisit => hacc.visit hvisit) hsources hinit

/-! ## The end of the run -/

/-- The miner can read what is fetched for a repository. -/
def CargoParser.reads (parser : CargoParser) (e : Source) : Prop :=
  e.1.stars.isSome ∧ ∀ text, e.2.cargo = some text → (parser.direct e.1 text e.2.sub).isSome

theorem isSome_visit (s : RustState) (e : Source) :
    (s.visit parser e.1 e.2).isSome ↔ parser.reads e := by
  rw [RustState.visit, CargoParser.reads]
  cases e.1.stars with
  | none => simp
  | some stars =>
      cases e.2.cargo with
      | none => simp
      | some text => cases hdirect : parser.direct e.1 text e.2.sub <;> simp [hdirect]

theorem isSome_loop (parser : CargoParser) (repos : List Repo) (replies : ℕ → CargoReply) :
    ((rustRepos repos).zipIdx.foldlM
      (fun (s : RustState) e => s.visit parser e.1 (replies e.2)) ⟨[], [], [], 0, 0⟩).isSome ↔
        ∀ e ∈ sourcesOf repos replies, parser.reads e := by
  have hloop : ((sourcesOf repos replies).foldlM
      (fun (s : RustState) e => s.visit parser e.1 e.2) ⟨[], [], [], 0, 0⟩).isSome ↔
        ∀ e ∈ sourcesOf repos replies, parser.reads e :=
    Sequence.isSome_foldlM isSome_visit _
  rw [← hloop, sourcesOf, List.foldlM_map]

/-! ## The aggregate -/

/-- An entry of `prevalence`. -/
structure CrateCount where
  name : String
  repoCount : ℕ
  prevalence : Json

/-- An entry, by its keys. -/
def readCrateCount (entry : Json) : Option CrateCount := do
  let name ← (← entry.item "crate").text
  let repoCount ← (← entry.item "repo_count").natural
  return ⟨name, repoCount, ← entry.item "prevalence"⟩

/-- `raw["prevalence"]`. -/
def crateCounts (raw : Json) : Option (List CrateCount) := do
  (← (← raw.item "prevalence").items).mapM readCrateCount

/-- A number of `raw["metadata"]`. -/
def metadata (raw : Json) (key : String) : Option ℕ := do
  (← (← raw.item "metadata").item key).natural

/-- The number of the names of the repositories that list a crate. -/
def CargoParser.nameCount (parser : CargoParser) (sources : List Source) (p : String) : ℕ :=
  (parser.listers sources p).toFinset.card

/-- The sizes of the sets are numbers of names. -/
theorem Sets.size_eq {sets : Dict String (List String)}
    (h : Sets sets fun p x => x ∈ parser.listers sources p) (p : String) :
    ((sets.lookup p).getD []).length = parser.nameCount sources p := by
  rw [CargoParser.nameCount, ← List.toFinset_card_of_nodup (h.nodup_set p)]
  congr 1
  ext x
  rw [List.mem_toFinset, List.mem_toFinset, h.mem_iff]

/-- A repository that lists a crate has a manifest. -/
theorem countP_cargo_pos {p : String} (h : parser.listers sources p ≠ []) :
    0 < sources.countP (·.2.cargo.isSome) := by
  obtain ⟨x, hx⟩ := List.exists_mem_of_ne_nil _ h
  obtain ⟨e, he, -⟩ := List.mem_map.mp hx
  obtain ⟨he, hlists⟩ := List.mem_filter.mp he
  refine List.countP_pos_iff.mpr ⟨e, he, ?_⟩
  cases hfound : parser.found e with
  | none => simp [CargoParser.lists, hfound] at hlists
  | some direct => exact isSome_cargo hfound

/-- The prevalences by crate. -/
def prevalences (sets : Dict String (List String)) (withCargo : ℕ) : Option (List (String × ℚ)) :=
  sets.mapM fun e => (divide e.2.length withCargo).map fun prev => (e.1, prev)

section
variable {s : RustState} {ps : List (String × ℚ)}

theorem isSome_prevalences (h : Accounted parser sources s) :
    (prevalences s.repoHasCrate s.withCargo).isSome := by
  refine Sequence.isSome_mapM.mpr fun e he => ?_
  have hkey : e.1 ∈ s.repoHasCrate.map Prod.fst := List.mem_map_of_mem he
  have hpos := countP_cargo_pos (h.sets.mem_keys_iff_listers.mp hkey)
  rw [Option.isSome_map, isSome_divide, h.withCargo_eq]
  exact hpos.ne'

theorem fst_prevalences (hps : prevalences s.repoHasCrate s.withCargo = some ps) :
    ps.map Prod.fst = s.repoHasCrate.map Prod.fst :=
  Sequence.map_of_mapM hps fun _ _ hb => by
    obtain ⟨q, -, rfl⟩ := Option.map_eq_some_iff.mp hb
    rfl

/-- The prevalence of a crate is the number of names over the number of manifests. -/
theorem snd_prevalences (h : Accounted parser sources s)
    (hps : prevalences s.repoHasCrate s.withCargo = some ps) {e : String × ℚ} (he : e ∈ ps) :
    e.2 = parser.nameCount sources e.1 / sources.countP (·.2.cargo.isSome) ∧
      parser.listers sources e.1 ≠ [] := by
  have hmem : some e ∈ ps.map some := List.mem_map_of_mem he
  rw [← Sequence.mapM_eq_some.mp hps] at hmem
  obtain ⟨d, hd, hdiv⟩ := List.mem_map.mp hmem
  obtain ⟨q, hq, rfl⟩ := Option.map_eq_some_iff.mp hdiv
  have hsize := h.sets.size_eq d.1
  rw [(Dict.mem_iff_lookup h.sets.nodup).mp hd, Option.getD_some] at hsize
  have hkey : d.1 ∈ s.repoHasCrate.map Prod.fst := List.mem_map_of_mem hd
  refine ⟨?_, h.sets.mem_keys_iff_listers.mp hkey⟩
  rw [divide] at hq
  split at hq
  next => cases hq
  next => rw [← Option.some.inj hq, hsize, h.withCargo_eq]

end

/-- The entries of the aggregate, from the ranked crates. -/
theorem mapM_readCrateCount (digits : ℚ → String) (size : String → ℕ)
    (ranked : List (String × ℚ)) :
    (ranked.map fun e => Json.obj [("crate", .str e.1), ("prevalence", .num (digits e.2)),
      ("repo_count", .ofNat (size e.1))]).mapM readCrateCount =
      some (ranked.map fun e => ⟨e.1, size e.1, .num (digits e.2)⟩) := by
  rw [Sequence.mapM_eq_some, List.map_map, List.map_map]
  refine List.map_congr_left fun e _ => ?_
  simp [readCrateCount, Json.item, Json.text, List.lookup_cons]

/-- What the file of the miner says. -/
structure Aggregate (parser : CargoParser) (sources : List Source) (digits : ℚ → String)
    (raw : Json) (counts : List CrateCount) : Prop where
  read : crateCounts raw = some counts
  nodup : (counts.map CrateCount.name).Nodup
  mem_iff : ∀ p, p ∈ counts.map CrateCount.name ↔ ∃ e ∈ sources, parser.lists p e = true
  count_eq : ∀ c ∈ counts, c.repoCount = parser.nameCount sources c.name ∧
    c.prevalence = .num (digits (c.repoCount / sources.countP (·.2.cargo.isSome)))
  falls : counts.Pairwise fun c d => d.repoCount ≤ c.repoCount
  corpus : metadata raw "corpus_size" = some sources.length
  withCargo : metadata raw "repos_with_cargo_toml" = some (sources.countP (·.2.cargo.isSome))
  withoutCargo : metadata raw "repos_without_cargo_toml" =
    some (sources.countP (·.2.cargo.isNone))
  unique : metadata raw "unique_crates" = some counts.length

theorem listers_ne_nil_iff {p : String} :
    parser.listers sources p ≠ [] ↔ ∃ e ∈ sources, parser.lists p e = true := by
  rw [CargoParser.listers, ne_eq, List.map_eq_nil_iff, List.filter_eq_nil_iff]
  simp

/-- The crates by falling prevalence. -/
def byPrevalence (ps : List (String × ℚ)) : List (String × ℚ) :=
  Sequence.sortBy (fun e => -e.2) ps

theorem byPrevalence_perm {ps : List (String × ℚ)} : (byPrevalence ps).Perm ps :=
  Sequence.sortBy_perm

/-- A larger number of names has a larger prevalence. -/
theorem pairwise_byPrevalence {s : RustState} {ps : List (String × ℚ)}
    (h : Accounted parser sources s)
    (hps : prevalences s.repoHasCrate s.withCargo = some ps) :
    (byPrevalence ps).Pairwise fun c d =>
      parser.nameCount sources d.1 ≤ parser.nameCount sources c.1 := by
  have hsorted : (byPrevalence ps).Pairwise fun c d => -c.2 ≤ -d.2 := Sequence.pairwise_sortBy
  refine hsorted.imp_of_mem fun {c d} hc hd hle => ?_
  obtain ⟨hc, hne⟩ := snd_prevalences h hps (byPrevalence_perm.subset hc)
  obtain ⟨hd, -⟩ := snd_prevalences h hps (byPrevalence_perm.subset hd)
  have hpos : (0 : ℚ) < sources.countP (·.2.cargo.isSome) :=
    Nat.cast_pos.mpr (countP_cargo_pos hne)
  rw [neg_le_neg_iff, hc, hd] at hle
  exact Nat.cast_le.mp ((div_le_div_iff_of_pos_right hpos).mp hle)

theorem isSome_rustMain (now : String) (digits : ℚ → String) (parser : CargoParser)
    (repos : List Repo) (replies : ℕ → CargoReply) :
    (rustMain now digits parser repos replies).isSome ↔
      ∀ e ∈ sourcesOf repos replies, parser.reads e := by
  have hends := isSome_loop parser repos replies
  constructor
  · intro hsome
    obtain ⟨raw, h⟩ := Option.isSome_iff_exists.mp hsome
    obtain ⟨s, hloop, -⟩ := Option.bind_eq_some_iff.mp h
    exact hends.mp (Option.isSome_of_eq_some hloop)
  · intro hreads
    obtain ⟨s, hloop⟩ := Option.isSome_iff_exists.mp (hends.mpr hreads)
    obtain ⟨ps, hps⟩ := Option.isSome_iff_exists.mp (isSome_prevalences (accounted_of_loop hloop))
    exact Option.isSome_of_eq_some
      (Option.bind_eq_some_iff.mpr ⟨s, hloop, Option.bind_eq_some_iff.mpr ⟨ps, hps, rfl⟩⟩)

/-- A file of the miner has the aggregate in it. -/
theorem exists_aggregate {now : String} {digits : ℚ → String} {repos : List Repo}
    {replies : ℕ → CargoReply} {raw : Json}
    (h : rustMain now digits parser repos replies = some raw) :
    ∃ counts, Aggregate parser (sourcesOf repos replies) digits raw counts := by
  obtain ⟨s, hloop, h⟩ := Option.bind_eq_some_iff.mp h
  obtain ⟨ps, hps, h⟩ := Option.bind_eq_some_iff.mp h
  have hacc := accounted_of_loop hloop
  have htally := tallied_of_loop hloop
  cases h
  let size (p : String) : ℕ := ((s.repoHasCrate.lookup p).getD []).length
  let counts : List CrateCount :=
    (byPrevalence ps).map fun e => ⟨e.1, size e.1, .num (digits e.2)⟩
  have hread := mapM_readCrateCount digits size (byPrevalence ps)
  have hsize (p : String) : size p = parser.nameCount (sourcesOf repos replies) p :=
    hacc.sets.size_eq p
  have hnames : counts.map CrateCount.name = (byPrevalence ps).map Prod.fst := by
    rw [List.map_map]
    rfl
  have hkeys : ((byPrevalence ps).map Prod.fst).Perm (s.repoHasCrate.map Prod.fst) :=
    (byPrevalence_perm.map Prod.fst).trans (.of_eq (fst_prevalences hps))
  refine ⟨counts, ?_, ?_, fun p => ?_, fun c hc => ?_, ?_, ?_, ?_, ?_, ?_⟩
  · simp only [crateCounts, Json.item, Json.items, List.lookup_cons]
    exact hread
  · rw [hnames]
    exact hkeys.nodup_iff.mpr hacc.sets.nodup
  · rw [hnames, hkeys.mem_iff, hacc.sets.mem_keys_iff_listers, listers_ne_nil_iff]
  · obtain ⟨e, he, rfl⟩ := List.mem_map.mp hc
    obtain ⟨hprev, -⟩ := snd_prevalences hacc hps (byPrevalence_perm.subset he)
    refine ⟨hsize e.1, ?_⟩
    rw [hprev, ← hsize]
  · refine List.pairwise_map.mpr ((pairwise_byPrevalence hacc hps).imp fun hle => ?_)
    rw [hsize, hsize]
    exact hle
  · have hlen : (rustRepos repos).length = (sourcesOf repos replies).length := by
      rw [sourcesOf, List.length_map, List.length_zipIdx]
    simp [metadata, Json.item, List.lookup_cons, hlen]
  · simp [metadata, Json.item, List.lookup_cons, hacc.withCargo_eq]
  · simp [metadata, Json.item, List.lookup_cons, htally.withoutCargo_eq]
  · have hlen : s.allDeps.length = counts.length := by
      rw [← List.length_map Prod.fst, htally.keys_eq, ← hkeys.length_eq, ← hnames,
        List.length_map]
    simp [metadata, Json.item, List.lookup_cons, hlen]

/-- The miner writes its file if and only if it can read what is fetched for every repository:
`parse_direct_deps` has a result, and no version in it has a date, a time or too long an integer.
The aggregate has each crate that a repository lists, once, with the number of the names of these
repositories and its fraction of the manifests, by falling numbers. -/
theorem rustMain_exact (now : String) (digits : ℚ → String) (loads : String → Option (Table Toml))
    (repos : List Repo) (replies : ℕ → CargoReply) :
    let parser := Cargo.cargoParser loads
    let sources := sourcesOf repos replies
    ((rustMain now digits parser repos replies).isSome ↔ ∀ e ∈ sources, parser.reads e) ∧
      (∀ text, (parser.parseDirectDeps text).isSome ↔
        ∃ deps needsSubcrate, Cargo.parseDirectDeps loads text = some (deps, needsSubcrate) ∧
          ∀ e ∈ deps, e.2.Dumps) ∧
      ∀ raw, rustMain now digits parser repos replies = some raw →
        ∃ counts, Aggregate parser sources digits raw counts := by
  intro parser sources
  exact ⟨isSome_rustMain now digits parser repos replies, Cargo.isSome_cargoParser loads,
    fun _ h => exists_aggregate h⟩

end

end Aicv.Mining
