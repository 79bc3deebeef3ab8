import Aicv.Mining.Agreement
import Aicv.Python.Toml

/-!
# The dependencies of a Cargo manifest

`parse_direct_deps` of `mine_rust.py` selects a table of a manifest and classifies its
entries.  `tomllib.loads` is a parameter.  A version is whatever is under the key, and one
that cannot be dumped ends the run without a file (`isSome_cargoParser`).

An entry that is neither a text nor a table with a version, a `git` or a `path` is dropped
(`map_extractDeps`).  `keeps_keys_iff` says that the crates of a manifest are the keys of
its table if and only if it has no such entry.
-/

namespace Aicv.Mining.Cargo

open Python

/-- The key is given, and its value counts as true. -/
def given (spec : Table Toml) (key : String) : Bool := (spec.get? key).any Toml.truthy

/-- The loop body of `_extract_deps_from_table`. -/
def extractDep (crateName : String) : Toml → List (String × Toml)
  | .str spec => [(crateName, .str spec)]
  | .table spec =>
      let version := (spec.get? "version").getD (.str "")
      if version.truthy then [(crateName, version)]
      else if given spec "git" || given spec "path" then
        let source := if given spec "git" then "git" else "path"
        [(crateName, .str ("<" ++ source ++ ">"))]
      else []
  | _ => []

/-- `_extract_deps_from_table`. -/
def extractDepsFromTable (rawDeps : Table Toml) : List (String × Toml) :=
  rawDeps.items.flatMap fun e => extractDep e.1 e.2

section
variable (loads : String → Option (Table Toml))

/-- `parse_direct_deps`.  The dependencies are those of the root, or of the workspace. -/
def parseDirectDeps (cargoText : String) : Option (List (String × Toml) × Bool) :=
  match loads cargoText with
  | none => some ([], false)
  | some parsed => do
      let isWorkspace := "workspace" ∈ parsed.keys
      let rawDeps := (parsed.get? "dependencies").getD (.table .empty)
      if rawDeps.truthy then return (extractDepsFromTable (← rawDeps.asTable), false)
      else if ¬ isWorkspace then return ([], false)
      else
        let workspace ← ((parsed.get? "workspace").getD (.table .empty)).asTable
        let wsDeps := (workspace.get? "dependencies").getD (.table .empty)
        if wsDeps.truthy then return (extractDepsFromTable (← wsDeps.asTable), false)
        else return ([], true)

/-- `get_workspace_members`. -/
def getWorkspaceMembers (cargoText : String) : Option (List Toml) :=
  match loads cargoText with
  | none => some []
  | some parsed => do
      let workspace ← ((parsed.get? "workspace").getD (.table .empty)).asTable
      let members ← ((workspace.get? "members").getD (.arr [])).iter
      members.filterM fun m => do return !(← m.hasChar '*') && !(← m.hasChar '?')

/-- The dependencies as they are dumped.  All that are parsed are part of a record. -/
def dumpDeps (deps : List (String × Toml)) : Option (List (String × Json)) :=
  deps.mapM fun e => e.2.json.map fun version => (e.1, version)

/-- A member of a workspace.  The miner tells no two members apart that are no texts. -/
def memberJson : Toml → Json
  | .str s => .str s
  | _ => .null

/-- The parser of the miner, of a run that ends with its file. -/
def cargoParser : CargoParser where
  parseDirectDeps text := do
    let (deps, needsSubcrate) ← parseDirectDeps loads text
    return (← dumpDeps deps, needsSubcrate)
  getWorkspaceMembers text := (getWorkspaceMembers loads text).map (·.map memberJson)

/-- The parser has a result where the code has one and its versions can be dumped. -/
theorem isSome_cargoParser (text : String) :
    ((cargoParser loads).parseDirectDeps text).isSome ↔
      ∃ deps needsSubcrate, parseDirectDeps loads text = some (deps, needsSubcrate) ∧
        ∀ e ∈ deps, e.2.Dumps := by
  have hdump (deps : List (String × Toml)) :
      (dumpDeps deps).isSome ↔ ∀ e ∈ deps, e.2.Dumps := by
    rw [dumpDeps, Sequence.isSome_mapM]
    simp only [Option.isSome_map, Toml.isSome_json]
  simp only [cargoParser, Option.bind_eq_bind, Option.pure_def]
  cases parseDirectDeps loads text with
  | none => simp
  | some r =>
      obtain ⟨deps, needsSubcrate⟩ := r
      have hbind : ((dumpDeps deps).bind fun deps => some (deps, needsSubcrate)).isSome =
          (dumpDeps deps).isSome := by
        cases dumpDeps deps <;> rfl
      rw [Option.bind_some, hbind, hdump]
      constructor
      · exact fun h => ⟨deps, needsSubcrate, rfl, h⟩
      · rintro ⟨_, _, heq, h⟩
        cases heq
        exact h

end

/-! ## The manifests -/

/-- The table that the dependencies of a manifest are read from: the one of the root, or the
one of the workspace where the root has none. -/
inductive Selects (doc : Table Toml) : Table Toml → Prop where
  | root {deps : Table Toml} :
    doc.get? "dependencies" = some (.table deps) →
    deps.keys ≠ [] →
    Selects doc deps
  | workspace {ws deps : Table Toml} :
    (∀ v, doc.get? "dependencies" = some v → ∃ t, v = .table t ∧ t.keys = []) →
    doc.get? "workspace" = some (.table ws) →
    ws.get? "dependencies" = some (.table deps) →
    deps.keys ≠ [] →
    Selects doc deps

/-- The forms of an entry: a version, or a table. -/
inductive IsSpec : Toml → Prop where
  | version (s : String) : IsSpec (.str s)
  | table (t : Table Toml) : IsSpec (.table t)

/-- A manifest with dependencies. -/
structure Manifest where
  doc : Table Toml
  deps : Table Toml
  selects : Selects doc deps
  isSpec : ∀ e ∈ deps.items, IsSpec e.2

/-- The entry says where the crate is from: it is a version, or a table with a version, a
`git` or a `path`. -/
def sourced : Toml → Bool
  | .str _ => true
  | .table spec => given spec "version" || given spec "git" || given spec "path"
  | _ => false

/-! ## The entries -/

/-- An entry is kept once, or dropped. -/
theorem map_extractDep (crate : String) (v : Toml) :
    (extractDep crate v).map Prod.fst = if sourced v then [crate] else [] := by
  cases v with
  | str s => rfl
  | table spec =>
      have hversion : ((spec.get? "version").getD (.str "")).truthy = given spec "version" := by
        rw [given]
        cases spec.get? "version" <;> rfl
      simp only [extractDep, sourced, hversion, Bool.or_assoc]
      by_cases hv : given spec "version" = true
      · rw [if_pos hv, hv]
        rfl
      · by_cases hsource : (given spec "git" || given spec "path") = true
        · rw [if_neg hv, if_pos hsource, hsource, Bool.or_true]
          rfl
        · rw [if_neg hv, if_neg hsource, if_neg (by simp [hv, hsource])]
          rfl
  | _ => rfl

theorem map_extractDeps (t : Table Toml) :
    (extractDepsFromTable t).map Prod.fst =
      (t.items.filter fun e => sourced e.2).map Prod.fst := by
  rw [extractDepsFromTable]
  induction t.items with
  | nil => rfl
  | cons e items ih =>
      rw [List.flatMap_cons, List.map_append, map_extractDep, ih, List.filter_cons]
      split <;> rfl

/-- No key is lost if and only if no entry is dropped. -/
theorem map_extractDeps_eq_keys {t : Table Toml} :
    (extractDepsFromTable t).map Prod.fst = t.keys ↔ ∀ e ∈ t.items, sourced e.2 := by
  rw [map_extractDeps, ← t.keys_items]
  constructor
  · intro h
    have hlen := congrArg List.length h
    rw [List.length_map, List.length_map, List.length_filter_eq_length_iff] at hlen
    exact hlen
  · intro h
    rw [List.filter_eq_self.mpr h]

theorem truthy_table {t : Table Toml} : (Toml.table t).truthy = true ↔ t.keys ≠ [] := by
  cases h : t.keys <;> simp [Toml.truthy, h]

/-- The table that is read is the one that the manifest selects. -/
theorem parseDirectDeps_eq {loads : String → Option (Table Toml)} {text : String}
    {doc deps : Table Toml} (h : Selects doc deps) (hloads : loads text = some doc) :
    parseDirectDeps loads text = some (extractDepsFromTable deps, false) := by
  cases h with
  | root hdeps hne =>
      simp [parseDirectDeps, hloads, hdeps, truthy_table.mpr hne, Toml.asTable]
  | workspace hroot hws hdeps hne =>
      have hraw : ((doc.get? "dependencies").getD (.table .empty)).truthy = false := by
        cases hget : doc.get? "dependencies" with
        | none => rfl
        | some v =>
            obtain ⟨t, rfl, ht⟩ := hroot v hget
            exact eq_false_of_ne_true fun h => truthy_table.mp h ht
      have hmem : "workspace" ∈ doc.keys := by
        by_contra hnot
        rw [Table.get?, dif_neg hnot] at hws
        cases hws
      simp [parseDirectDeps, hloads, hraw, hmem, hws, hdeps, truthy_table.mpr hne, Toml.asTable]

/-- The crates of a manifest are the keys of its table, each once and in their order, if and
only if every entry says where its crate is from. -/
theorem keeps_keys_iff (loads : String → Option (Table Toml)) (text : String) (m : Manifest)
    (hloads : loads text = some m.doc) :
    (∃ deps needsSubcrate, parseDirectDeps loads text = some (deps, needsSubcrate) ∧
      deps.map Prod.fst = m.deps.keys ∧ (deps.map Prod.fst).Nodup) ↔
      ∀ e ∈ m.deps.items, sourced e.2 := by
  rw [← map_extractDeps_eq_keys, parseDirectDeps_eq m.selects hloads]
  constructor
  · rintro ⟨deps, needs, heq, hkeys, -⟩
    cases heq
    exact hkeys
  · intro hkeys
    exact ⟨_, _, rfl, hkeys, hkeys ▸ m.deps.distinct⟩

/-- A version and a `git`. -/
theorem keeps_keys_iff_two :
    ∃ (loads : String → Option (Table Toml)) (text : String),
      (parseDirectDeps loads text).map (fun r => r.1.map Prod.fst) = some ["serde", "local"] := by
  let spec : Toml := .table (.single "git" (.str "https://example.com/local"))
  let deps : Table Toml :=
    ⟨["serde", "local"], by decide, fun k => if k.1 = "serde" then .str "1.0" else spec⟩
  let doc : Table Toml := .single "dependencies" (.table deps)
  let text := "[dependencies]\nserde = \"1.0\"\nlocal.git = \"https://example.com/local\"\n"
  let m : Manifest := ⟨doc, deps, .root rfl (List.cons_ne_nil _ _), by
    intro e he
    rcases List.mem_pair.mp he with rfl | rfl
    · exact .version "1.0"
    · exact .table _⟩
  let loads (s : String) : Option (Table Toml) := if s = text then some doc else none
  have hsourced : ∀ e ∈ m.deps.items, sourced e.2 := by
    intro e he
    rcases List.mem_pair.mp he with rfl | rfl
    · rfl
    · rfl
  obtain ⟨deps, _, hparse, hkeys, -⟩ := (keeps_keys_iff loads text m (if_pos rfl)).mpr hsourced
  exact ⟨loads, text, by rw [hparse, Option.map_some, hkeys]⟩

/-- A crate whose version is the one of the workspace is lost. -/
theorem not_keeps_keys : ¬ ∀ (loads : String → Option (Table Toml)) (text : String) (m : Manifest),
    loads text = some m.doc →
      ∃ deps needsSubcrate, parseDirectDeps loads text = some (deps, needsSubcrate) ∧
        deps.map Prod.fst = m.deps.keys ∧ (deps.map Prod.fst).Nodup := by
  intro h
  let serde : Toml := .table (.single "workspace" (.bool true))
  let deps : Table Toml := .single "serde" serde
  let ws : Table Toml := .single "dependencies" (.table (.single "serde" (.str "1.0")))
  let doc : Table Toml := ⟨["workspace", "dependencies"], by decide, fun k =>
    if k.1 = "workspace" then .table ws else .table deps⟩
  let text := "[workspace.dependencies]\nserde = \"1.0\"\n\n" ++
    "[dependencies]\nserde.workspace = true\n"
  let m : Manifest := ⟨doc, deps, .root rfl (List.cons_ne_nil _ _), by
    intro e he
    obtain rfl := List.mem_singleton.mp he
    exact .table _⟩
  let loads (s : String) : Option (Table Toml) := if s = text then some doc else none
  have hloads : loads text = some doc := if_pos rfl
  obtain ⟨kept, _, hparse, hkeys, -⟩ := h loads text m hloads
  rw [parseDirectDeps_eq m.selects hloads] at hparse
  cases hparse
  exact List.cons_ne_nil _ _ hkeys.symm

end Aicv.Mining.Cargo
