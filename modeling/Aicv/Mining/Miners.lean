import Mathlib.Data.Rat.Defs
import Mathlib.Algebra.Order.Ring.Rat
import Mathlib.Data.String.Basic
import Aicv.Python.Dict
import Aicv.Python.Library

/-!
# The miners

`mine_go.py` and `mine_rust.py` search for repositories, fetch the manifest of each and
write one file with a record of each repository and an aggregate of the packages.  The two
files have different schemas.

What the network returns is given by the position of the request.  The functions that
parse a manifest are parameters of the two main functions.
-/

namespace Aicv.Mining

open Python

/-! ## The search -/

/-- A repository of the search, by the fields that the miners read. -/
structure Repo where
  fullName : String
  defaultBranch : Option String
  stars : Option Json
  language : Option String

/-- `repos[:n]`. -/
def sliceTo (n : ℤ) (repos : List Repo) : List Repo :=
  if 0 ≤ n then repos.take n.toNat else repos.take (repos.length + n).toNat

section
variable (pages : ℕ → List Repo) (corpusSize : ℤ)

/-- The loop of `search_top_repos` over as many pages as are left. -/
def searchLoop : ℕ → ℕ → List Repo → List Repo
  | 0, _, repos => repos
  | left + 1, page, repos =>
      let repos := repos ++ pages page
      if corpusSize ≤ repos.length then repos else searchLoop left (page + 1) repos

/-- `search_top_repos`, over the items of each page. -/
def searchTopRepos : List Repo :=
  let pagesNeeded := min 10 ((corpusSize + 99) / 100)
  sliceTo corpusSize (searchLoop pages corpusSize pagesNeeded.toNat 1 [])

end

/-- A division, unless it raises. -/
def divide (a b : ℕ) : Option ℚ := if b = 0 then none else some (a / b)

/-! ## `mine_go.py` -/

/-- What the Go miner knows of a package. -/
structure GoInfo where
  repos : List String
  versions : Dict String ℕ

/-- The variables of the loop of `main`. -/
structure GoState where
  records : List Json
  packageInfo : Dict String GoInfo

/-- One version for each package, the first one. -/
def uniquePkgs (rawDeps : List (String × String)) : Dict String String :=
  rawDeps.foldl (fun d e => d.alter e.1 fun v => v.getD e.2) []

/-- The record of a repository, with its packages where it has a `go.mod`. -/
def goRecord (repo : Repo) (deps : Option (Dict String String)) : Json :=
  .obj [("full_name", .str repo.fullName),
    ("stars", repo.stars.getD (.ofNat 0)),
    ("default_branch", .str (repo.defaultBranch.getD "main")),
    ("has_gomod", .bool deps.isSome),
    ("direct_deps", .arr ((Sequence.sortBy Prod.fst (deps.getD [])).map fun e =>
      .obj [("name", .str e.1), ("version", .str e.2)]))]

/-- The vote of a repository for a package. -/
def goVote (fullName : String) (info : Dict String GoInfo) (e : String × String) :
    Dict String GoInfo :=
  info.alter e.1 fun i =>
    let i := i.getD ⟨[], []⟩
    ⟨i.repos ++ [fullName], i.versions.bump e.2⟩

/-- The body of the loop of `main`, with the `go.mod` that was fetched. -/
def GoState.visit (parseDirectDeps : String → List (String × String)) (s : GoState) (repo : Repo)
    (gomod : Option String) : GoState :=
  match gomod with
  | none => { s with records := s.records ++ [goRecord repo none] }
  | some text =>
      let unique := uniquePkgs (parseDirectDeps text)
      { records := s.records ++ [goRecord repo (some unique)]
        packageInfo := unique.foldl (goVote repo.fullName) s.packageInfo }

/-- The aggregate of a package. -/
def goPackage (e : String × GoInfo) : Option Json := do
  let common ← e.2.versions.mostCommon.head?
  return .obj [("name", .str e.1),
    ("repos_count", .ofNat e.2.repos.length),
    ("example_repos", .arr ((e.2.repos.take 5).map .str)),
    ("most_common_version", .str common.1),
    ("version_distribution",
      .obj ((e.2.versions.mostCommon.take 5).map fun v => (v.1, .ofNat v.2)))]

/-- The file that `main` of `mine_go.py` writes. -/
def goMain (now : String) (parseDirectDeps : String → List (String × String))
    (repos : List Repo) (gomods : ℕ → Option String) : Option Json := do
  let s := repos.zipIdx.foldl (fun (s : GoState) e => s.visit parseDirectDeps e.1 (gomods e.2))
    ⟨[], []⟩
  let counts ← (Sequence.sortBy (fun e => -(e.2.repos.length : ℤ)) s.packageInfo).mapM goPackage
  let withGomod := s.records.countP fun r => (r.item "has_gomod").bind Json.truth == some true
  let occurrences := s.records.foldl
    (fun n r => n + (((r.item "direct_deps").bind Json.items).getD []).length) 0
  return .obj [("language", .str "go"),
    ("mined_at", .str now),
    ("corpus_source", .str "github.com top-starred Go repos via Search API"),
    ("query", .str "language:Go fork:false archived:false"),
    ("stats", .obj [("repos_attempted", .ofNat s.records.length),
      ("repos_with_gomod", .ofNat withGomod),
      ("repos_without_gomod", .ofNat (s.records.length - withGomod)),
      ("total_direct_dep_occurrences", .ofNat occurrences),
      ("unique_packages", .ofNat counts.length)]),
    ("package_counts", .arr counts),
    ("repos", .arr s.records)]

/-! ## `mine_rust.py` -/

/-- The loop of `guess_primary_subcrate`, which raises on a member that is no text. -/
def guessLoop (repoName : String) : List Json → Option (Option String)
  | [] => some none
  | m :: members => do
      let member ← m.text
      if member = repoName ∨ member.toList <:+ repoName.toList then return some member
      else guessLoop repoName members

/-- `guess_primary_subcrate`. -/
def guessPrimarySubcrate (repoName : String) (members : List Json) : Option (Option String) :=
  if members.any fun m => m.text == some repoName then some (some repoName)
  else do
    match ← guessLoop repoName members with
    | some member => return some member
    | none => return members.head?.bind Json.text

/-- The functions of `mine_rust.py` that parse a `Cargo.toml`, where they do not raise. -/
structure CargoParser where
  /-- `parse_direct_deps`.  A version is what `json.dump` writes for it at the end of the run,
  where it does not raise. -/
  parseDirectDeps : String → Option (List (String × Json) × Bool)
  /-- `get_workspace_members`. -/
  getWorkspaceMembers : String → Option (List Json)

/-- What is fetched for a repository. -/
structure CargoReply where
  /-- `fetch_cargo_toml`, of the root. -/
  cargo : Option String
  /-- The text of the manifest of the primary sub-crate, of a response with status 200. -/
  sub : Option String

/-- The dependencies of a repository with a `Cargo.toml`, and where they are from. -/
def CargoParser.direct (parser : CargoParser) (repo : Repo) (text : String) (sub : Option String) :
    Option (List (String × Json) × String) := do
  let (direct, needsSubcrate) ← parser.parseDirectDeps text
  if needsSubcrate then
    let members ← parser.getWorkspaceMembers text
    let short := String.ofList ((repo.fullName.toList.splitOn '/').getLastD [])
    match ← guessPrimarySubcrate short members, sub with
    | some primary, some subText =>
        if primary = "" then return (direct, "root")
        else
          let (subDirect, _) ← parser.parseDirectDeps subText
          if subDirect = [] then return (direct, "root")
          else return (subDirect, "subcrate:" ++ primary)
    | _, _ => return (direct, "root")
  else return (direct, "root")

/-- The variables of the loop of `main`. -/
structure RustState where
  records : List Json
  allDeps : Dict String ℕ
  /-- The repositories of each crate, a set. -/
  repoHasCrate : Dict String (List String)
  withCargo : ℕ
  withoutCargo : ℕ

/-- The record of a repository. -/
def rustRecord (fullName : String) (stars : Json) (found : Bool) (source : String)
    (direct : List (String × Json)) : Json :=
  .obj [("repo", .str fullName),
    ("stars", stars),
    ("cargo_toml_found", .bool found),
    ("source", .str source),
    ("direct_deps", .arr (direct.map fun e => .obj [("crate", .str e.1), ("version", e.2)]))]

/-- `s.add(x)`, of a set. -/
def setAdd (x : String) (s : List String) : List String := if x ∈ s then s else s ++ [x]

/-- The votes of a repository, with the crates seen in it. -/
def rustVotes (fullName : String) : List String → RustState → List (String × Json) → RustState
  | _, s, [] => s
  | seen, s, (crate, _) :: direct =>
      let s := { s with allDeps := s.allDeps.bump crate }
      if crate ∈ seen then rustVotes fullName seen s direct
      else
        let repoHasCrate := s.repoHasCrate.alter crate fun set => setAdd fullName (set.getD [])
        rustVotes fullName (crate :: seen) { s with repoHasCrate := repoHasCrate } direct

/-- The body of the loop of `main`. -/
def RustState.visit (parser : CargoParser) (s : RustState) (repo : Repo) (reply : CargoReply) :
    Option RustState := do
  let stars ← repo.stars
  match reply.cargo with
  | none =>
      return { s with
        withoutCargo := s.withoutCargo + 1
        records := s.records ++ [rustRecord repo.fullName stars false "none" []] }
  | some text =>
      let (direct, source) ← parser.direct repo text reply.sub
      let s := rustVotes repo.fullName [] { s with withCargo := s.withCargo + 1 } direct
      return { s with
        records := s.records ++ [rustRecord repo.fullName stars true source direct] }

/-- The repositories whose primary language is Rust.  Outside of ASCII no letter has one of
`rust` as its lower case. -/
def rustRepos (repos : List Repo) : List Repo :=
  repos.filter fun r => (r.language.getD "").toLower = "rust"

/-- The file that `main` of `mine_rust.py` writes, over the digits of a rounded prevalence. -/
def rustMain (now : String) (round : ℚ → String) (parser : CargoParser) (repos : List Repo)
    (replies : ℕ → CargoReply) : Option Json := do
  let repos := rustRepos repos
  let s ← repos.zipIdx.foldlM (fun (s : RustState) e => s.visit parser e.1 (replies e.2))
    ⟨[], [], [], 0, 0⟩
  let prevalence ← s.repoHasCrate.mapM fun e =>
    (divide e.2.length s.withCargo).map fun prev => (e.1, prev)
  let ranked := Sequence.sortBy (fun e => -e.2) prevalence
  return .obj [("metadata", .obj [("language", .str "rust"),
      ("corpus_size", .ofNat repos.length),
      ("repos_with_cargo_toml", .ofNat s.withCargo),
      ("repos_without_cargo_toml", .ofNat s.withoutCargo),
      ("unique_crates", .ofNat s.allDeps.length),
      ("mined_at", .str now),
      ("search_query", .str "language:Rust fork:false archived:false")]),
    ("prevalence", .arr (ranked.map fun e => .obj [("crate", .str e.1),
      ("prevalence", .num (round e.2)),
      ("repo_count", .ofNat ((s.repoHasCrate.lookup e.1).getD []).length)])),
    ("raw", .arr s.records)]

end Aicv.Mining
