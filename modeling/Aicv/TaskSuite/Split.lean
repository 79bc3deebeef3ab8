import Mathlib.Data.Finset.Sort
import Mathlib.Data.String.Basic
import Mathlib.Logic.Equiv.Defs
import Aicv.Number.Binary64
import Aicv.Python.Library
import Aicv.Sequence.Collect

/-!
# The builder of the task suite

`main` of `scripts/task_suite/02_build_split.py` reads three source datasets, splits
the problem ids of each family into `train` and `heldout`, and routes every source
record by its id.  HumanEval problems come in two renderings, which share one split.
The MultiPL-E rendering of a held-out problem is dropped.

The shuffle of the seeded generator is a parameter, a permutation for each call and
each length of the list.  A step that raises is `none`: the script then ends before
it writes anything.
-/

namespace Aicv.TaskSuite

open Number Python Sequence

/-! ## Combined records -/

inductive Split where
  | train
  | heldout
deriving DecidableEq, Repr

/-- `source` of a combined record. -/
inductive Source where
  | multiplEMbpp
  | multiplEHumaneval
  | humanevalX
deriving DecidableEq, Repr

def Source.text : Source → String
  | .multiplEMbpp => "multipl-e-mbpp"
  | .multiplEHumaneval => "multipl-e-humaneval"
  | .humanevalX => "humaneval-x"

inductive Family where
  | mbpp
  | humaneval
deriving DecidableEq, Repr

inductive Harness where
  | multiplE
  | humanevalpack
deriving DecidableEq, Repr

/-- A record of a combined file. -/
structure Record where
  id : String
  source : Source
  family : Family
  underlyingId : ℤ
  split : Split
  harness : Harness
  prompt : Json
  tests : Json
  stopTokens : Json
  entryPoint : Json
  raw : Json

/-- The lists `train` and `heldout`. -/
structure Suite where
  train : List Record
  heldout : List Record

/-- `(train if split == "train" else heldout).append(rec)`. -/
def Suite.emit (out : Suite) (r : Record) : Suite :=
  match r.split with
  | .train => { out with train := out.train ++ [r] }
  | .heldout => { out with heldout := out.heldout ++ [r] }

/-! ## Reading the sources -/

section
variable (py : Library)

/-- `read_jsonl`, on the lines of the file. -/
def readJsonl (lines : List String) : Option (List Json) :=
  collect (fun line => if py.nonBlank line then (py.loads line).map some else some none) lines

/-- `he_id_from_multiple`. -/
def heIdFromMultiple (name : String) : Option ℤ := py.intAfter '_' name

/-- `he_id_from_x`. -/
def heIdFromX (taskId : String) : Option ℤ := py.intAfter '/' taskId

/-- `mbpp_id_from_multiple`. -/
def mbppIdFromMultiple (name : String) : Option ℤ := py.intAfter '_' name

/-! ## The entry point of a prompt -/

/-- `[A-Za-z_]`. -/
def isIdentStart (c : Char) : Bool := c.isAlpha || c == '_'

/-- `[A-Za-z0-9_]`. -/
def isIdentRest (c : Char) : Bool := c.isAlphanum || c == '_'

/-- `(?:<[^>]*>)?\s*\(`.  A generic list ends at the first `>`. -/
def opensParams : List Char → Bool
  | '<' :: cs => ((cs.dropWhile (· != '>')).tail.dropWhile py.isSpace).head? == some '('
  | cs => (cs.dropWhile py.isSpace).head? == some '('

/-- `FN_RE` at a word boundary, with the name it captures.  Each part of the pattern
ends where the next begins, so there is nothing to try again. -/
def matchFn : List Char → Option String
  | 'f' :: 'n' :: c :: cs =>
      let rest := cs.dropWhile py.isSpace
      let name := rest.takeWhile isIdentRest
      let tail := (rest.dropWhile isIdentRest).dropWhile py.isSpace
      if py.isSpace c && name.head?.any isIdentStart && opensParams py tail then
        some (String.ofList name)
      else none
  | _ => none

/-- `FN_RE.search`, after the character `prev`. -/
def searchFn (prev : Option Char) : List Char → Option String
  | [] => none
  | c :: cs =>
      let here := if prev.any py.isWord then none else matchFn py (c :: cs)
      here <|> searchFn (some c) cs

/-- `entry_point_from_prompt`. -/
def entryPointFromPrompt (prompt : String) : Json :=
  ((searchFn py none prompt.toList).map Json.str).getD .null

/-! ## From source records to combined records -/

/-- The text under a key, for what raises on every other value. -/
def textAt (key : String) (r : Json) : Option String := (r.item key).bind Json.text

/-- `json.loads(r["stop_tokens"])` if that is a string, and else the value itself. -/
def stopTokens (r : Json) : Option Json := do
  match ← r.item "stop_tokens" with
  | .str s => py.loads s
  | v => some v

/-- The combined record of a MultiPL-E record. -/
def multiplERecord (source : Source) (family : Family) (name : String) (uid : ℤ)
    (split : Split) (r : Json) : Option Record := do
  let prompt ← r.item "prompt"
  let tests ← r.item "tests"
  let stop ← stopTokens py r
  let text ← prompt.text
  return {
    id := source.text ++ "/" ++ name
    source := source
    family := family
    underlyingId := uid
    split := split
    harness := .multiplE
    prompt := prompt
    tests := tests
    stopTokens := stop
    entryPoint := entryPointFromPrompt py text
    raw := r }

/-- `HUMANEVALPACK_STOP`. -/
def humanevalpackStop : Json :=
  .arr [.str "\n\x7d\n", .str "\nfn main", .str "\n#[cfg(test)]", .str "\nmod tests"]

/-- The id sets of a family. -/
structure IdSplit where
  trainIds : Finset ℤ
  heldoutIds : Finset ℤ

/-- `"train" if uid in train_ids else "heldout"`. -/
def IdSplit.side (ids : IdSplit) (uid : ℤ) : Split :=
  if uid ∈ ids.trainIds then .train else .heldout

/-- The body of the loop over `multiple_mbpp`: both splits. -/
def emitMbpp (ids : IdSplit) (r : Json) : Option (Option Record) := do
  let name ← textAt "name" r
  let uid ← mbppIdFromMultiple py name
  let record ← multiplERecord py .multiplEMbpp .mbpp name uid (ids.side uid) r
  return some record

/-- The body of the loop over `multiple_he`: train ids only. -/
def emitHumaneval (ids : IdSplit) (r : Json) : Option (Option Record) := do
  let name ← textAt "name" r
  let uid ← heIdFromMultiple py name
  if uid ∉ ids.trainIds then return none
  let record ← multiplERecord py .multiplEHumaneval .humaneval name uid .train r
  return some record

/-- The body of the loop over `humaneval_x`: both splits. -/
def emitHumanevalX (ids : IdSplit) (r : Json) : Option (Option Record) := do
  let taskId ← textAt "task_id" r
  let uid ← heIdFromX py taskId
  let prompt ← r.item "prompt"
  let tests ← r.item "test"
  let entryPoint ← r.get "entry_point"
  return some {
    id := Source.humanevalX.text ++ "/" ++ taskId
    source := .humanevalX
    family := .humaneval
    underlyingId := uid
    split := ids.side uid
    harness := .humanevalpack
    prompt := prompt
    tests := tests
    stopTokens := humanevalpackStop
    entryPoint := entryPoint
    raw := r }

/-- A loop that appends what its body yields to the lists. -/
def emitLoop (body : Json → Option (Option Record)) (rs : List Json) (out : Suite) :
    Option Suite :=
  rs.foldlM (fun out r => (body r).map fun record? => record?.elim out out.emit) out

/-! ## The split of the ids -/

/-- `int(n * (1 - HELD_RATIO))`, with `HELD_RATIO` the binary64 number `0.20`. -/
def cut (n : ℕ) : ℕ :=
  ⌊Binary64.round (Binary64.round n * Binary64.round (1 - Binary64.round (1 / 5)))⌋.toNat

/-- What the seeded generator does on its `k`-th call of `shuffle`, with a list of
length `n`. -/
abbrev Rng := (k : ℕ) → (n : ℕ) → Equiv.Perm (Fin n)

/-- `rng.shuffle(ids)`. -/
def Rng.shuffle (rng : Rng) (k : ℕ) (ids : List ℤ) : List ℤ :=
  List.ofFn fun i => ids.get (rng k ids.length i)

/-- The sets of the ids before and after the cut. -/
def IdSplit.ofShuffled (ids : List ℤ) : IdSplit where
  trainIds := (ids.take (cut ids.length)).toFinset
  heldoutIds := (ids.drop (cut ids.length)).toFinset

/-- `he_train_ids` and `he_heldout_ids`. -/
def humanevalSplit (rng : Rng) : IdSplit :=
  .ofShuffled (rng.shuffle 0 ((List.range 164).map fun i => (i : ℤ)))

/-- `mbpp_train_ids` and `mbpp_heldout_ids`. -/
def mbppSplit (rng : Rng) (ids : List ℤ) : IdSplit :=
  .ofShuffled (rng.shuffle 1 (sortBy id ids))

/-! ## The manifest -/

/-- A split in the manifest. -/
structure IdLists where
  trainIds : List ℤ
  heldoutIds : List ℤ
  nTrainIds : ℕ
  nHeldoutIds : ℕ
deriving DecidableEq

def IdSplit.lists (ids : IdSplit) : IdLists where
  trainIds := ids.trainIds.sort (· ≤ ·)
  heldoutIds := ids.heldoutIds.sort (· ≤ ·)
  nTrainIds := ids.trainIds.card
  nHeldoutIds := ids.heldoutIds.card

/-- The counts of an output in the manifest. -/
structure Counts where
  bySource : List (Source × ℕ)
  total : ℕ
deriving DecidableEq

def count (records : List Record) (source : Source) : ℕ :=
  records.countP fun r => r.source = source

def Counts.of (sources : List Source) (records : List Record) : Counts where
  bySource := sources.map fun source => (source, count records source)
  total := records.length

/-- The manifest, with what it says about ids and counts. -/
structure Manifest where
  sources : List (Source × ℕ)
  humanevalSplit : IdLists
  mbppSplit : IdLists
  train : Counts
  heldout : Counts
deriving DecidableEq

/-! ## The builder -/

/-- What the script writes. -/
structure Output where
  suite : Suite
  manifest : Manifest

/-- The end of `main`: the lists are sorted and the manifest is filled in. -/
def Output.of (he mbpp : IdSplit) (sources : List (Source × ℕ)) (out : Suite) : Output :=
  let train := sortBy Record.id out.train
  let heldout := sortBy Record.id out.heldout
  { suite := ⟨train, heldout⟩
    manifest := {
      sources := sources
      humanevalSplit := he.lists
      mbppSplit := mbpp.lists
      train := .of [.multiplEMbpp, .multiplEHumaneval, .humanevalX] train
      heldout := .of [.multiplEMbpp, .humanevalX] heldout } }

/-- `main`, after the sources are read. -/
def build (rng : Rng) (multipleHe multipleMbpp humanevalX : List Json) : Option Output := do
  let he := humanevalSplit rng
  let mbppIds ← collect
    (fun r => ((textAt "name" r).bind (mbppIdFromMultiple py)).map some) multipleMbpp
  let mbpp := mbppSplit rng mbppIds
  let out ← emitLoop (emitMbpp py mbpp) multipleMbpp ⟨[], []⟩
  let out ← emitLoop (emitHumaneval py he) multipleHe out
  let out ← emitLoop (emitHumanevalX py he) humanevalX out
  return .of he mbpp
    [(.multiplEHumaneval, multipleHe.length), (.multiplEMbpp, multipleMbpp.length),
      (.humanevalX, humanevalX.length)] out

/-- The lines of the source files. -/
structure Files where
  multipleHe : List String
  multipleMbpp : List String
  humanevalX : List String

/-- `main`, up to its last assertions. -/
def main (rng : Rng) (files : Files) : Option Output := do
  let multipleHe ← readJsonl py files.multipleHe
  let multipleMbpp ← readJsonl py files.multipleMbpp
  let humanevalX ← readJsonl py files.humanevalX
  build py rng multipleHe multipleMbpp humanevalX

/-- The set that an assertion at the end of `main` wants empty: the ids of a family in
both outputs. -/
def Suite.leak (out : Suite) (family : Family) : Finset ℤ :=
  let ids (records : List Record) : Finset ℤ :=
    ((records.filter fun r => r.family = family).map Record.underlyingId).toFinset
  ids out.train ∩ ids out.heldout

end

/-! ## Samples

Records to build datasets from, their lines, and a library that reads these. -/

namespace Sample

def multiplE (name : String) : Json :=
  .obj [("name", .str name), ("prompt", .str "fn f("), ("tests", .str ""), ("stop_tokens", .arr [])]

def humanevalX (taskId : String) : Json :=
  .obj [("task_id", .str taskId), ("prompt", .str "fn f("), ("test", .str "")]

def multiplELine (name : String) : String :=
  "\x7b\"name\": \"" ++ name ++
    "\", \"prompt\": \"fn f(\", \"tests\": \"\", \"stop_tokens\": []\x7d\n"

def humanevalXLine (taskId : String) : String :=
  "\x7b\"task_id\": \"" ++ taskId ++ "\", \"prompt\": \"fn f(\", \"test\": \"\"\x7d\n"

def library : Library where
  loads s :=
    (["HumanEval_0_a", "HumanEval_163_b", "mbpp_3_c", "mbpp_3_d"].map
        (fun name => (multiplELine name, multiplE name)) ++
      ["Rust/0", "Rust/163", "Rust/200"].map
        (fun taskId => (humanevalXLine taskId, humanevalX taskId))).lookup s
  int s := [("0", 0), ("3", 3), ("163", 163), ("200", 200)].lookup s
  isSpace := Char.isWhitespace
  isAlnum := Char.isAlphanum

/-- No shuffle. -/
def rng : Rng := fun _ n => Equiv.refl (Fin n)

end Sample

/-! ## What the loops do -/

section
variable {py : Library} {rng : Rng} {multipleHe multipleMbpp humanevalX : List Json}
  {body : Json → Option (Option Record)} {rs : List Json} {out out' : Suite} {o : Output}

/-- The records of a split, in their order. -/
def ofSplit (split : Split) (records : List Record) : List Record :=
  records.filter fun r => r.split = split

theorem ofSplit_perm (records : List Record) :
    (ofSplit .train records ++ ofSplit .heldout records).Perm records := by
  have hneg : ofSplit .heldout records = records.filter fun r => !decide (r.split = .train) := by
    refine List.filter_congr fun r _ => ?_
    cases r.split <;> rfl
  rw [hneg]
  exact List.filter_append_perm _ _

theorem foldl_emit (records : List Record) :
    records.foldl Suite.emit out =
      ⟨out.train ++ ofSplit .train records, out.heldout ++ ofSplit .heldout records⟩ := by
  induction records generalizing out with
  | nil => simp [ofSplit]
  | cons r records ih =>
      rw [List.foldl_cons, ih, Suite.emit]
      cases hsplit : r.split <;> simp [ofSplit, hsplit]

/-- The three loops one after the other. -/
theorem foldl_emit_loops (ms hs xs : List Record) :
    xs.foldl Suite.emit (hs.foldl Suite.emit (ms.foldl Suite.emit ⟨[], []⟩)) =
      ⟨ofSplit .train (ms ++ hs ++ xs), ofSplit .heldout (ms ++ hs ++ xs)⟩ := by
  rw [← List.foldl_append, ← List.foldl_append, ← List.append_assoc, foldl_emit]
  rfl

theorem emitLoop_eq_some :
    emitLoop body rs out = some out' ↔
      ∃ records, collect body rs = some records ∧ records.foldl Suite.emit out = out' := by
  rw [emitLoop, foldlM_collect, Option.map_eq_some_iff]

/-- The records the three loops yield. -/
structure Yields (py : Library) (rng : Rng) (multipleHe multipleMbpp humanevalX : List Json)
    (ids : List ℤ) (ms hs xs : List Record) : Prop where
  mbppIds : collect (fun r => ((textAt "name" r).bind (mbppIdFromMultiple py)).map some)
    multipleMbpp = some ids
  mbpp : collect (emitMbpp py (mbppSplit rng ids)) multipleMbpp = some ms
  humaneval : collect (emitHumaneval py (humanevalSplit rng)) multipleHe = some hs
  humanevalX : collect (emitHumanevalX py (humanevalSplit rng)) humanevalX = some xs

/-- The outputs hold what the loops yield, in the order of the loops before the
sort. -/
theorem build_eq_some :
    build py rng multipleHe multipleMbpp humanevalX = some o ↔
      ∃ ids ms hs xs, Yields py rng multipleHe multipleMbpp humanevalX ids ms hs xs ∧
        o = .of (humanevalSplit rng) (mbppSplit rng ids)
          [(.multiplEHumaneval, multipleHe.length), (.multiplEMbpp, multipleMbpp.length),
            (.humanevalX, humanevalX.length)]
          ⟨ofSplit .train (ms ++ hs ++ xs), ofSplit .heldout (ms ++ hs ++ xs)⟩ := by
  constructor
  · intro h
    obtain ⟨ids, hids, h⟩ := Option.bind_eq_some_iff.mp h
    obtain ⟨o₁, h₁, h⟩ := Option.bind_eq_some_iff.mp h
    obtain ⟨o₂, h₂, h⟩ := Option.bind_eq_some_iff.mp h
    obtain ⟨o₃, h₃, h⟩ := Option.bind_eq_some_iff.mp h
    obtain ⟨ms, hms, rfl⟩ := emitLoop_eq_some.mp h₁
    obtain ⟨hs, hhs, rfl⟩ := emitLoop_eq_some.mp h₂
    obtain ⟨xs, hxs, rfl⟩ := emitLoop_eq_some.mp h₃
    rw [foldl_emit_loops] at h
    exact ⟨ids, ms, hs, xs, ⟨hids, hms, hhs, hxs⟩, (Option.some.inj h).symm⟩
  · rintro ⟨ids, ms, hs, xs, ⟨hids, hms, hhs, hxs⟩, rfl⟩
    have hloop {body rs records} (hc : collect body rs = some records) (out : Suite) :
        emitLoop body rs out = some (records.foldl Suite.emit out) :=
      emitLoop_eq_some.mpr ⟨records, hc, rfl⟩
    refine Option.bind_eq_some_iff.mpr ⟨ids, hids,
      Option.bind_eq_some_iff.mpr ⟨_, hloop hms _,
      Option.bind_eq_some_iff.mpr ⟨_, hloop hhs _,
      Option.bind_eq_some_iff.mpr ⟨_, hloop hxs _, ?_⟩⟩⟩⟩
    rw [foldl_emit_loops]
    rfl

end

end Aicv.TaskSuite
