import Aicv.Python.Dict
import Aicv.Python.Text
import Aicv.Sequence.Fold
import Aicv.TaskSuite.Contamination

/-!
# The guard of the task suite

`main` of `scripts/task_suite/03_verify.py` reads the sources and the two outputs of the builder
and looks for problems: a function name that MBPP and HumanEval-X share, HumanEval-X problems with
one docstring, and ids on the held-out side that are known to be buggy.  Names and pairs that have
been looked at are listed.

`passes_iff` says on which sources the guard passes what the builder has made of them.
-/

namespace Aicv.TaskSuite

open Python Sequence

/-! ## Records in a file -/

def Split.text : Split → String
  | .train => "train"
  | .heldout => "heldout"

def Family.text : Family → String
  | .mbpp => "mbpp"
  | .humaneval => "humaneval"

def Harness.text : Harness → String
  | .multiplE => "multipl-e"
  | .humanevalpack => "humanevalpack"

/-- A record in its file. -/
def Record.json (r : Record) : Json :=
  .obj [("id", .str r.id), ("source", .str r.source.text), ("family", .str r.family.text),
    ("underlying_id", .num (toString r.underlyingId)), ("split", .str r.split.text),
    ("harness", .str r.harness.text), ("prompt", r.prompt), ("tests", r.tests),
    ("stop_tokens", r.stopTokens), ("entry_point", r.entryPoint), ("raw", r.raw)]

@[simp] theorem Record.textAt_json (r : Record) : textAt "id" r.json = some r.id := rfl

namespace Verify

/-- `KNOWN_NAME_COLLISIONS`. -/
def knownNameCollisions : Finset String :=
  {"maximum", "search", "triangle_area", "decimal_to_binary"}

/-- `KNOWN_DOCSTRING_PAIRS`. -/
def knownDocstringPairs : Finset (Finset String) :=
  {{"Rust/45", "Rust/71"}, {"Rust/88", "Rust/116"}, {"Rust/133", "Rust/142"}}

/-- `KNOWN_BUGGY`. -/
def knownBuggy : List String := ["Rust/45", "Rust/88", "Rust/116", "Rust/133", "Rust/142"]

/-! ## The checks -/

/-- `split_of`. -/
def splitOf (train heldout : List Json) : Option (Dict String Split) := do
  let trainIds ← train.mapM (textAt "id")
  let heldoutIds ← heldout.mapM (textAt "id")
  let ofTrain : Dict String Split := trainIds.foldl (fun d id => d.alter id fun _ => .train) []
  return heldoutIds.foldl (fun d id => d.alter id fun _ => .heldout) ofTrain

/-- The split of a HumanEval-X problem is `heldout`. -/
def isHeldout (splits : Dict String Split) (taskId : String) : Bool :=
  splits.lookup ("humaneval-x/" ++ taskId) == some .heldout

/-- A key of `he_names`. -/
def heName (r : Json) : Option Json := do
  let name ← r.item "entry_point"
  let _ ← textAt "task_id" r
  if name.isHashable then return name else none

/-- `mbpp_fn`, of the name of a record: `name.split("_", 2)[2]`. -/
def mbppFn (name : String) : Option String := do
  let rest ← (splitOnce ['_'] name.toList).2
  let fn ← (splitOnce ['_'] rest).2
  return String.ofList fn

/-- A key of `mbpp_names`. -/
def mbppName (r : Json) : Option String := (textAt "name" r).bind mbppFn

/-- A problem with its docstring. -/
def docstringId (r : Json) : Option (String × String) := do
  let docstring ← textAt "docstring" r
  let taskId ← textAt "task_id" r
  return (String.ofList (strip docstring.toList), taskId)

/-- `docstring_to_ids`. -/
def docstringToIds (es : List (String × String)) : Dict String (List String) :=
  es.foldl (fun d e => d.push e.1 e.2) []

/-- As many of the ids are held out, each counted once, as there are ids. -/
def allHeldout (splits : Dict String Split) (ids : List String) : Bool :=
  ids.length == (ids.dedup.filter (isHeldout splits)).length

/-- `problems` at the end of `main`. -/
def problems (heX mbpp train heldout : List Json) : Option ℕ := do
  let splits ← splitOf train heldout
  let heNames ← heX.mapM heName
  let mbppNames ← mbpp.mapM mbppName
  -- a key that is no text is no name of MBPP
  let collisions := (heNames.filterMap Json.text).toFinset ∩ mbppNames.toFinset
  let unexpected := collisions \ knownNameCollisions
  let suspects := (docstringToIds (← heX.mapM docstringId)).filter fun e => 1 < e.2.length
  let foundPairs := (suspects.map fun e => e.2.toFinset).toFinset
  let newPairs := foundPairs \ knownDocstringPairs
  let leaked := knownBuggy.filter (isHeldout splits)
  return (if unexpected = ∅ then 0 else 1) + suspects.countP (fun e => allHeldout splits e.2) +
    (if newPairs = ∅ then 0 else 1) + if leaked = [] then 0 else 1

/-- The exit code of `main`. -/
def main (heX mbpp train heldout : List Json) : Option ℕ :=
  (problems heX mbpp train heldout).map fun n => if n = 0 then 0 else 1

/-! ## What the checks look at -/

/-- The ids of the problems with a docstring, in their order. -/
def sharing (heX : List Json) (docstring : String) : List String :=
  ((heX.filterMap docstringId).filter fun e => e.1 == docstring).map Prod.snd

/-- The guard can read the sources. -/
structure Readable (heX mbpp : List Json) : Prop where
  name : ∀ r ∈ heX, (heName r).isSome
  docstring : ∀ r ∈ heX, (docstringId r).isSome
  mbpp : ∀ r ∈ mbpp, (mbppName r).isSome

section
variable {splits : Dict String Split} {train heldout heX mbpp : List Json} {taskId : String}
  {ids : List String}

/-- A problem is held out if its id is an id of the held-out records. -/
theorem isHeldout_iff (h : splitOf train heldout = some splits) :
    isHeldout splits taskId = true ↔
      some ("humaneval-x/" ++ taskId) ∈ heldout.map (textAt "id") := by
  obtain ⟨trainIds, -, h⟩ := Option.bind_eq_some_iff.mp h
  obtain ⟨heldoutIds, hids, h⟩ := Option.bind_eq_some_iff.mp h
  cases h
  rw [isHeldout, Dict.lookup_foldl_const, Dict.lookup_foldl_const, mapM_eq_some.mp hids,
    List.mem_map_of_injective (Option.some_injective _)]
  split
  next hmem => simp [hmem]
  next hmem =>
    split <;> simp [hmem]

/-- All ids are held out and none is repeated. -/
theorem allHeldout_iff : allHeldout splits ids = true ↔
    ids.Nodup ∧ ∀ id ∈ ids, isHeldout splits id = true := by
  rw [allHeldout, beq_iff_eq]
  constructor
  · intro hlen
    have hfilter := List.length_filter_le (isHeldout splits) ids.dedup
    have hdedup := ids.dedup_sublist.length_le
    have hnodup : ids.dedup = ids := ids.dedup_sublist.eq_of_length (by omega)
    rw [hnodup] at hlen
    refine ⟨List.dedup_eq_self.mp hnodup, ?_⟩
    exact List.filter_eq_self.mp ((List.filter_sublist).eq_of_length hlen.symm)
  · rintro ⟨hnodup, hall⟩
    rw [hnodup.dedup, List.filter_eq_self.mpr hall]

theorem nodup_docstringToIds (es : List (String × String)) :
    ((docstringToIds es).map Prod.fst).Nodup :=
  Dict.nodup_foldl_alter (d := []) List.nodup_nil

/-- The groups are the ids that share a docstring. -/
theorem mem_docstringToIds {es : List (String × String)} {docstring : String} :
    (docstring, ids) ∈ docstringToIds es ∧ 1 < ids.length ↔
      (es.filter fun e => e.1 == docstring).map Prod.snd = ids ∧ 1 < ids.length := by
  refine and_congr_left fun hlen => ?_
  have hget : ((docstringToIds es).lookup docstring).getD [] =
      (es.filter fun e => e.1 == docstring).map Prod.snd :=
    Dict.lookup_foldl_push
  rw [Dict.mem_iff_lookup (nodup_docstringToIds es), ← hget]
  cases hlookup : (docstringToIds es).lookup docstring with
  | none =>
      constructor
      · nofun
      · rintro rfl
        cases hlen
  | some ids' => simp

/-! ## What the guard finds -/

/-- No check finds a problem. -/
structure Passes (heX mbpp : List Json) (held : String → Prop) : Prop where
  names : ∀ name, (∃ r ∈ heX, r.item "entry_point" = some (.str name)) →
    (∃ r ∈ mbpp, mbppName r = some name) → name ∈ knownNameCollisions
  pairs : ∀ docstring, 1 < (sharing heX docstring).length →
    (sharing heX docstring).toFinset ∈ knownDocstringPairs
  split : ∀ docstring, 1 < (sharing heX docstring).length →
    ¬ ((sharing heX docstring).Nodup ∧ ∀ id ∈ sharing heX docstring, held id)
  buggy : ∀ id ∈ knownBuggy, ¬ held id

theorem item_of_heName {r v : Json} (h : heName r = some v) : r.item "entry_point" = some v := by
  obtain ⟨name, hname, h⟩ := Option.bind_eq_some_iff.mp h
  obtain ⟨taskId, -, h⟩ := Option.bind_eq_some_iff.mp h
  split at h
  next => rwa [← Option.some.inj h]
  next => cases h

/-- The text keys of `he_names`. -/
theorem mem_heNames {names : List Json} (h : heX.mapM heName = some names) {name : String} :
    name ∈ names.filterMap Json.text ↔ ∃ r ∈ heX, r.item "entry_point" = some (.str name) := by
  rw [← filterMap_of_mapM h, List.mem_filterMap]
  constructor
  · rintro ⟨v, hv, htext⟩
    obtain ⟨r, hr, hname⟩ := List.mem_filterMap.mp hv
    cases v with
    | str s =>
        cases htext
        exact ⟨r, hr, item_of_heName hname⟩
    | _ => cases htext
  · rintro ⟨r, hr, hitem⟩
    have hsome := isSome_mapM.mp (Option.isSome_of_eq_some h) r hr
    obtain ⟨v, hv⟩ := Option.isSome_iff_exists.mp hsome
    obtain rfl := Option.some.inj (hitem.symm.trans (item_of_heName hv))
    exact ⟨_, List.mem_filterMap.mpr ⟨r, hr, hv⟩, rfl⟩

theorem mem_mbppNames {names : List String} (h : mbpp.mapM mbppName = some names) {name : String} :
    name ∈ names ↔ ∃ r ∈ mbpp, mbppName r = some name := by
  rw [← filterMap_of_mapM h, List.mem_filterMap]

/-- Check (a) is quiet. -/
theorem unexpected_eq_empty_iff {heNames : List Json} {mbppNames : List String}
    (hhe : heX.mapM heName = some heNames) (hmbpp : mbpp.mapM mbppName = some mbppNames) :
    ((heNames.filterMap Json.text).toFinset ∩ mbppNames.toFinset) \ knownNameCollisions = ∅ ↔
      ∀ name, (∃ r ∈ heX, r.item "entry_point" = some (.str name)) →
        (∃ r ∈ mbpp, mbppName r = some name) → name ∈ knownNameCollisions := by
  rw [Finset.sdiff_eq_empty_iff_subset]
  constructor
  · intro hsub name hleft hright
    refine hsub (Finset.mem_inter.mpr ⟨List.mem_toFinset.mpr ?_, List.mem_toFinset.mpr ?_⟩)
    · exact (mem_heNames hhe).mpr hleft
    · exact (mem_mbppNames hmbpp).mpr hright
  · intro hall name hname
    obtain ⟨hleft, hright⟩ := Finset.mem_inter.mp hname
    refine hall name ?_ ?_
    · exact (mem_heNames hhe).mp (List.mem_toFinset.mp hleft)
    · exact (mem_mbppNames hmbpp).mp (List.mem_toFinset.mp hright)

/-- The suspects of check (b). -/
theorem mem_suspects {es : List (String × String)} (h : heX.mapM docstringId = some es)
    {e : String × List String} :
    e ∈ (docstringToIds es).filter (fun e => decide (1 < e.2.length)) ↔
      sharing heX e.1 = e.2 ∧ 1 < e.2.length := by
  rw [List.mem_filter, decide_eq_true_iff, sharing, filterMap_of_mapM h]
  exact mem_docstringToIds

/-- A statement about the suspects is one about the docstrings that are shared. -/
theorem forall_suspects_iff {es : List (String × String)} (h : heX.mapM docstringId = some es)
    {p : List String → Prop} :
    (∀ e ∈ (docstringToIds es).filter (fun e => decide (1 < e.2.length)), p e.2) ↔
      ∀ docstring, 1 < (sharing heX docstring).length → p (sharing heX docstring) := by
  constructor
  · intro hall docstring hlen
    exact hall (docstring, sharing heX docstring) ((mem_suspects h).mpr ⟨rfl, hlen⟩)
  · intro hall e he
    obtain ⟨heq, hlen⟩ := (mem_suspects h).mp he
    rw [← heq] at hlen ⊢
    exact hall e.1 hlen

/-- The guard counts no problem exactly on the sources that pass. -/
theorem problems_eq_zero_iff {n : ℕ} (hsplits : splitOf train heldout = some splits)
    (h : problems heX mbpp train heldout = some n) :
    n = 0 ↔ Passes heX mbpp (fun id => isHeldout splits id = true) := by
  obtain ⟨splits', hsplits', h⟩ := Option.bind_eq_some_iff.mp h
  obtain ⟨heNames, hhe, h⟩ := Option.bind_eq_some_iff.mp h
  obtain ⟨mbppNames, hmbpp, h⟩ := Option.bind_eq_some_iff.mp h
  obtain ⟨es, hes, h⟩ := Option.bind_eq_some_iff.mp h
  cases hsplits.symm.trans hsplits'
  cases h
  rw [Nat.add_eq_zero_iff, Nat.add_eq_zero_iff, Nat.add_eq_zero_iff]
  simp only [ite_eq_left_iff, one_ne_zero, imp_false, not_not]
  rw [unexpected_eq_empty_iff hhe hmbpp, List.countP_eq_zero, Finset.sdiff_eq_empty_iff_subset,
    List.filter_eq_nil_iff]
  have hsplit := forall_suspects_iff hes (p := fun ids => ¬ allHeldout splits ids = true)
  have hpairs := forall_suspects_iff hes (p := fun ids => ids.toFinset ∈ knownDocstringPairs)
  constructor
  · rintro ⟨⟨⟨hnames, hheld⟩, hknown⟩, hbuggy⟩
    refine ⟨hnames, hpairs.mp fun e he => ?_, fun docstring hlen => ?_, hbuggy⟩
    · exact hknown (List.mem_toFinset.mpr (List.mem_map.mpr ⟨e, he, rfl⟩))
    · rw [← allHeldout_iff]
      exact hsplit.mp hheld docstring hlen
  · rintro ⟨hnames, hknown, hheld, hbuggy⟩
    refine ⟨⟨⟨hnames, hsplit.mpr fun docstring hlen => ?_⟩, fun ids hids => ?_⟩, hbuggy⟩
    · rw [allHeldout_iff]
      exact hheld docstring hlen
    · obtain ⟨e, he, rfl⟩ := List.mem_map.mp (List.mem_toFinset.mp hids)
      exact hpairs.mpr hknown e he

end

/-! ## What the builder has written -/

/-- The problem is one of HumanEval-X, and its id is no train id. -/
def HeldOut (py : Library) (rng : Rng) (heX : List Json) (taskId : String) : Prop :=
  (∃ r ∈ heX, textAt "task_id" r = some taskId) ∧
    ∃ uid, heIdFromX py taskId = some uid ∧ uid ∉ (humanevalSplit rng).trainIds

section
variable {py : Library} {rng : Rng} {multipleHe multipleMbpp humanevalX : List Json}
  {ids : IdSplit} {o : Output} {r : Json} {record : Record} {taskId name : String}

theorem textAt_map_json (records : List Record) :
    (records.map Record.json).map (textAt "id") = (records.map Record.id).map some := by
  rw [List.map_map, List.map_map]
  exact List.map_congr_left fun r _ => r.textAt_json

theorem splitOf_json (train heldout : List Record) :
    ∃ splits, splitOf (train.map Record.json) (heldout.map Record.json) = some splits := by
  have hids (records : List Record) :
      (records.map Record.json).mapM (textAt "id") = some (records.map Record.id) :=
    mapM_eq_some.mpr (textAt_map_json records)
  rw [splitOf, hids, hids]
  exact ⟨_, rfl⟩

/-! ## The ids of the records -/

theorem emitMbpp_id (h : emitMbpp py ids r = some (some record)) :
    ∃ name, record.id = "multipl-e-mbpp" ++ "/" ++ name := by
  obtain ⟨name, -, h⟩ := Option.bind_eq_some_iff.mp h
  obtain ⟨uid, -, h⟩ := Option.bind_eq_some_iff.mp h
  obtain ⟨record', hrecord, h⟩ := Option.bind_eq_some_iff.mp h
  cases h
  obtain ⟨prompt, -, h⟩ := Option.bind_eq_some_iff.mp hrecord
  obtain ⟨tests, -, h⟩ := Option.bind_eq_some_iff.mp h
  obtain ⟨stop, -, h⟩ := Option.bind_eq_some_iff.mp h
  obtain ⟨text, -, h⟩ := Option.bind_eq_some_iff.mp h
  cases h
  exact ⟨name, rfl⟩

theorem emitHumanevalX_id (h : emitHumanevalX py ids r = some (some record)) :
    ∃ taskId uid, textAt "task_id" r = some taskId ∧ heIdFromX py taskId = some uid ∧
      record.id = "humaneval-x/" ++ taskId ∧ record.split = ids.side uid := by
  obtain ⟨taskId, htask, h⟩ := Option.bind_eq_some_iff.mp h
  obtain ⟨uid, huid, h⟩ := Option.bind_eq_some_iff.mp h
  obtain ⟨prompt, -, h⟩ := Option.bind_eq_some_iff.mp h
  obtain ⟨tests, -, h⟩ := Option.bind_eq_some_iff.mp h
  obtain ⟨entryPoint, -, h⟩ := Option.bind_eq_some_iff.mp h
  cases h
  exact ⟨taskId, uid, htask, huid, rfl, rfl⟩

/-- No record of MBPP has the id of a HumanEval-X problem. -/
theorem ne_of_mbpp (taskId name : String) :
    "multipl-e-mbpp" ++ "/" ++ name ≠ "humaneval-x/" ++ taskId := by
  intro h
  have hlist := congrArg String.toList h
  simp at hlist

theorem taskId_inj {taskId' : String} (h : "humaneval-x/" ++ taskId = "humaneval-x/" ++ taskId') :
    taskId = taskId' := by
  have hlist := congrArg String.toList h
  rw [String.toList_append, String.toList_append] at hlist
  exact String.toList_injective (List.append_cancel_left hlist)

/-- The held-out records are those of the held-out problems, and of MBPP. -/
theorem mem_heldout_iff (h : build py rng multipleHe multipleMbpp humanevalX = some o) :
    "humaneval-x/" ++ taskId ∈ o.suite.heldout.map Record.id ↔
      HeldOut py rng humanevalX taskId := by
  obtain ⟨ids, ms, hs, xs, hy, rfl⟩ := build_eq_some.mp h
  have hmem {record : Record} : record ∈ sortBy Record.id (ofSplit .heldout (ms ++ hs ++ xs)) ↔
      record ∈ ms ++ hs ++ xs ∧ record.split = .heldout := by
    rw [sortBy_perm.mem_iff, mem_ofSplit]
  constructor
  · intro hid
    obtain ⟨record, hrecord, hid⟩ := List.mem_map.mp hid
    obtain ⟨hrecord, hsplit⟩ := hmem.mp hrecord
    rw [List.mem_append, List.mem_append] at hrecord
    rcases hrecord with (hrecord | hrecord) | hrecord
    · obtain ⟨r, -, hr⟩ := of_mem_collect hy.mbpp record hrecord
      obtain ⟨name, hname⟩ := emitMbpp_id hr
      exact absurd (hname.symm.trans hid) (ne_of_mbpp taskId name)
    · have htrain : record.split = .train := by
        refine hy.humaneval_train record ?_ ?_
        · simp [hrecord]
        · exact ((routes_humaneval (TaskSuite.splitOf rng ids)).routed hy.humaneval _ hrecord).1
      rw [htrain] at hsplit
      cases hsplit
    · obtain ⟨r, hr, hemit⟩ := of_mem_collect hy.humanevalX record hrecord
      obtain ⟨taskId', uid, htask, huid, hid', hside⟩ := emitHumanevalX_id hemit
      obtain rfl := taskId_inj (hid'.symm.trans hid)
      refine ⟨⟨r, hr, htask⟩, uid, huid, fun hin => ?_⟩
      rw [hside, IdSplit.side, if_pos hin] at hsplit
      cases hsplit
  · rintro ⟨⟨r, hr, htask⟩, uid, huid, hout⟩
    have hraw : r ∈ xs.map Record.raw := hy.humanevalX_raw.symm ▸ hr
    obtain ⟨record, hrecord, rfl⟩ := List.mem_map.mp hraw
    obtain ⟨r, -, hemit⟩ := of_mem_collect hy.humanevalX record hrecord
    obtain ⟨hkeep, heq⟩ | ⟨-, record', heq, hraw, -⟩ :=
      routes_humanevalX (TaskSuite.splitOf rng ids) r _ hemit
    · cases heq
    · cases heq
      cases hraw
      obtain ⟨taskId', uid', htask', huid', hid, hside⟩ := emitHumanevalX_id hemit
      obtain rfl := Option.some.inj (htask.symm.trans htask')
      obtain rfl := Option.some.inj (huid.symm.trans huid')
      rw [IdSplit.side, if_neg hout] at hside
      exact List.mem_map.mpr ⟨record, hmem.mpr ⟨by simp [hrecord], hside⟩, hid⟩

/-! ## The run of the guard -/

/-- The guard runs to its end on sources it can read. -/
theorem isSome_problems {heX mbpp train heldout : List Json} {splits : Dict String Split}
    (h : splitOf train heldout = some splits) :
    (problems heX mbpp train heldout).isSome ↔ Readable heX mbpp := by
  constructor
  · intro hsome
    obtain ⟨n, hn⟩ := Option.isSome_iff_exists.mp hsome
    obtain ⟨splits', -, hn⟩ := Option.bind_eq_some_iff.mp hn
    obtain ⟨heNames, hhe, hn⟩ := Option.bind_eq_some_iff.mp hn
    obtain ⟨mbppNames, hmbpp, hn⟩ := Option.bind_eq_some_iff.mp hn
    obtain ⟨es, hes, -⟩ := Option.bind_eq_some_iff.mp hn
    exact ⟨isSome_mapM.mp (Option.isSome_of_eq_some hhe),
      isSome_mapM.mp (Option.isSome_of_eq_some hes),
      isSome_mapM.mp (Option.isSome_of_eq_some hmbpp)⟩
  · rintro ⟨hname, hdocstring, hmbpp⟩
    obtain ⟨heNames, hhe⟩ := Option.isSome_iff_exists.mp (isSome_mapM.mpr hname)
    obtain ⟨mbppNames, hmbpp⟩ := Option.isSome_iff_exists.mp (isSome_mapM.mpr hmbpp)
    obtain ⟨es, hes⟩ := Option.isSome_iff_exists.mp (isSome_mapM.mpr hdocstring)
    simp [problems, h, hhe, hmbpp, hes]

/-- On the outputs of a build the guard runs to its end exactly if it can read the sources, and it
returns `0` exactly if no check finds a problem.  A problem of HumanEval-X counts as held out if
its id is no train id, whatever the shuffle. -/
theorem passes_iff (h : build py rng multipleHe multipleMbpp humanevalX = some o) :
    let run := main humanevalX multipleMbpp (o.suite.train.map Record.json)
      (o.suite.heldout.map Record.json)
    (run.isSome ↔ Readable humanevalX multipleMbpp) ∧
      ∀ code, run = some code →
        (code = 0 ∧ Passes humanevalX multipleMbpp (HeldOut py rng humanevalX)) ∨
        (code = 1 ∧ ¬ Passes humanevalX multipleMbpp (HeldOut py rng humanevalX)) := by
  intro run
  obtain ⟨splits, hsplits⟩ := splitOf_json o.suite.train o.suite.heldout
  have hheld : (fun taskId => isHeldout splits taskId = true) = HeldOut py rng humanevalX := by
    funext taskId
    rw [isHeldout_iff hsplits, textAt_map_json, List.mem_map_of_injective
      (Option.some_injective _), mem_heldout_iff h]
  constructor
  · rw [← isSome_problems hsplits]
    show (Option.map _ _).isSome ↔ _
    rw [Option.isSome_map]
  · intro code hcode
    obtain ⟨n, hn, rfl⟩ := Option.map_eq_some_iff.mp hcode
    have hzero := problems_eq_zero_iff hsplits hn
    rw [hheld] at hzero
    rw [← hzero]
    split
    next h => exact .inl ⟨rfl, h⟩
    next h => exact .inr ⟨rfl, h⟩

namespace Sample

def problem (taskId docstring : String) : Json :=
  .obj [("task_id", .str taskId), ("prompt", .str "fn f("), ("test", .str ""),
    ("entry_point", .str "f"), ("docstring", .str docstring)]

/-- Without a shuffle the first problem is for training, and the others are held out. -/
def problems (docstring : String) : List Json :=
  [problem "Rust/0" "Zero.", problem "Rust/163" " One.", problem "Rust/200" docstring]

def mbpp : List Json := ["mbpp_3_g", "mbpp_3_search"].map TaskSuite.Sample.multiplE

/-- The guard on what the builder makes of the problems. -/
def run (docstring : String) : Option ℕ :=
  (build TaskSuite.Sample.library TaskSuite.Sample.rng [] mbpp (problems docstring)).bind fun o =>
    main (problems docstring) mbpp (o.suite.train.map Record.json)
      (o.suite.heldout.map Record.json)

end Sample

/-- Two held-out problems may not share a docstring. -/
theorem passes_iff_samples :
    Passes (Sample.problems "Two.") Sample.mbpp
        (HeldOut TaskSuite.Sample.library TaskSuite.Sample.rng (Sample.problems "Two.")) ∧
      ¬ Passes (Sample.problems "One.\n") Sample.mbpp
        (HeldOut TaskSuite.Sample.library TaskSuite.Sample.rng (Sample.problems "One.\n")) := by
  constructor
  · have hrun : Sample.run "Two." = some 0 := by decide +kernel
    obtain ⟨o, ho, hrun⟩ := Option.bind_eq_some_iff.mp hrun
    obtain ⟨-, hpass⟩ | ⟨hcode, -⟩ := (passes_iff ho).2 0 hrun
    · exact hpass
    · cases hcode
  · have hrun : Sample.run "One.\n" = some 1 := by decide +kernel
    obtain ⟨o, ho, hrun⟩ := Option.bind_eq_some_iff.mp hrun
    obtain ⟨hcode, -⟩ | ⟨-, hfail⟩ := (passes_iff ho).2 1 hrun
    · cases hcode
    · exact hfail

end

end Verify

end Aicv.TaskSuite
