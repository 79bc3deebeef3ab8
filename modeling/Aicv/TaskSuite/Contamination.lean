import Aicv.TaskSuite.Split

/-!
# No contamination

Three renderings go through three loops with their own rules.  What they share is that
the side of a record is decided by its problem id and the split of its family alone
(`Routed`), and that a record keeps its source record.  So two records of one problem
never come to different sides, and the outputs together hold each source record as
often as its loop yields it (`contamination_free`).

The id sets need not be disjoint for that.  An MBPP id that occurs twice may be on both
sides of the cut, and all its records are then train records.
-/

namespace Aicv.TaskSuite

open Python Sequence

/-! ## Ids and families -/

def Source.family : Source → Family
  | .multiplEMbpp => .mbpp
  | .multiplEHumaneval | .humanevalX => .humaneval

/-- The problem id in the name of a source record. -/
def idOf (py : Library) : Source → Json → Option ℤ
  | .multiplEMbpp, r => (textAt "name" r).bind (mbppIdFromMultiple py)
  | .multiplEHumaneval, r => (textAt "name" r).bind (heIdFromMultiple py)
  | .humanevalX, r => (textAt "task_id" r).bind (heIdFromX py)

/-- The record is on the side of its problem id. -/
structure Routed (py : Library) (splits : Family → IdSplit) (r : Record) : Prop where
  family : r.family = r.source.family
  id : idOf py r.source r.raw = some r.underlyingId
  side : r.split = (splits r.family).side r.underlyingId

/-- The body of a loop skips what `keep` rejects, and yields a record for the rest. -/
def Routes (py : Library) (splits : Family → IdSplit) (source : Source) (keep : Json → Bool)
    (body : Json → Option (Option Record)) : Prop :=
  ∀ r record?, body r = some record? →
    (keep r = false ∧ record? = none) ∨
      (keep r = true ∧ ∃ record, record? = some record ∧ record.raw = r ∧
        record.source = source ∧ Routed py splits record)

/-- The id of the source record is a train id. -/
def IdSplit.keeps (ids : IdSplit) (py : Library) (r : Json) : Bool :=
  (idOf py .multiplEHumaneval r).any fun uid => uid ∈ ids.trainIds

/-- The records of a source, in their order. -/
def ofSource (source : Source) (records : List Record) : List Record :=
  records.filter fun r => r.source = source

/-- What the outputs of a build are, seen from the source datasets. -/
structure Clean (py : Library) (multipleHe multipleMbpp humanevalX : List Json) (o : Output) :
    Prop where
  tags : (∀ r ∈ o.suite.train, r.split = .train) ∧ ∀ r ∈ o.suite.heldout, r.split = .heldout
  ids : ∀ r ∈ o.suite.train ++ o.suite.heldout,
    r.family = r.source.family ∧ idOf py r.source r.raw = some r.underlyingId
  disjoint : ∀ r ∈ o.suite.train, ∀ r' ∈ o.suite.heldout,
    r.family = r'.family → r.underlyingId ≠ r'.underlyingId
  mbpp : ((ofSource .multiplEMbpp (o.suite.train ++ o.suite.heldout)).map Record.raw).Perm
    multipleMbpp
  humanevalX : ((ofSource .humanevalX (o.suite.train ++ o.suite.heldout)).map Record.raw).Perm
    humanevalX
  humaneval : ((ofSource .multiplEHumaneval o.suite.train).map Record.raw).Perm
    (multipleHe.filter fun r => (idOf py .multiplEHumaneval r).any fun uid =>
      uid ∈ o.manifest.humanevalSplit.trainIds)
  dropped : ∀ r ∈ o.suite.heldout, r.source ≠ .multiplEHumaneval

section
variable {py : Library} {rng : Rng} {multipleHe multipleMbpp humanevalX : List Json}
  {splits : Family → IdSplit} {source : Source} {family : Family} {name : String} {uid : ℤ}
  {split : Split} {r : Json} {record : Record} {keep : Json → Bool}
  {body : Json → Option (Option Record)} {rs : List Json} {records : List Record}

/-! ## The three loops -/

theorem multiplERecord_some
    (h : multiplERecord py source family name uid split r = some record) :
    record.source = source ∧ record.family = family ∧ record.underlyingId = uid ∧
      record.split = split ∧ record.raw = r := by
  obtain ⟨prompt, -, h⟩ := Option.bind_eq_some_iff.mp h
  obtain ⟨tests, -, h⟩ := Option.bind_eq_some_iff.mp h
  obtain ⟨stop, -, h⟩ := Option.bind_eq_some_iff.mp h
  obtain ⟨text, -, h⟩ := Option.bind_eq_some_iff.mp h
  obtain rfl := Option.some.inj h
  exact ⟨rfl, rfl, rfl, rfl, rfl⟩

theorem routes_mbpp (splits : Family → IdSplit) :
    Routes py splits .multiplEMbpp (fun _ => true) (emitMbpp py (splits .mbpp)) := by
  intro r record? h
  obtain ⟨name, hname, h⟩ := Option.bind_eq_some_iff.mp h
  obtain ⟨uid, huid, h⟩ := Option.bind_eq_some_iff.mp h
  obtain ⟨record, hrecord, h⟩ := Option.bind_eq_some_iff.mp h
  obtain rfl := Option.some.inj h
  obtain ⟨hsource, hfamily, rfl, hsplit, rfl⟩ := multiplERecord_some hrecord
  have hid : idOf py record.source record.raw = some record.underlyingId := by
    rw [hsource]
    exact Option.bind_eq_some_iff.mpr ⟨name, hname, huid⟩
  refine .inr ⟨rfl, record, rfl, rfl, hsource, ?_, hid, ?_⟩
  · rw [hfamily, hsource]
    rfl
  · rw [hsplit, hfamily]

theorem routes_humaneval (splits : Family → IdSplit) :
    Routes py splits .multiplEHumaneval ((splits .humaneval).keeps py)
      (emitHumaneval py (splits .humaneval)) := by
  intro r record? h
  obtain ⟨name, hname, h⟩ := Option.bind_eq_some_iff.mp h
  obtain ⟨uid, huid, h⟩ := Option.bind_eq_some_iff.mp h
  have hid : idOf py .multiplEHumaneval r = some uid :=
    Option.bind_eq_some_iff.mpr ⟨name, hname, huid⟩
  by_cases htrain : uid ∈ (splits .humaneval).trainIds
  · rw [if_neg (not_not.mpr htrain)] at h
    obtain ⟨record, hrecord, h⟩ := Option.bind_eq_some_iff.mp h
    obtain rfl := Option.some.inj h
    obtain ⟨hsource, hfamily, rfl, hsplit, rfl⟩ := multiplERecord_some hrecord
    refine .inr ⟨by simp [IdSplit.keeps, hid, htrain], record, rfl, rfl, hsource, ?_, ?_, ?_⟩
    · rw [hfamily, hsource]
      rfl
    · rwa [hsource]
    · rw [hsplit, hfamily, IdSplit.side, if_pos htrain]
  · rw [if_pos htrain] at h
    exact .inl ⟨by simp [IdSplit.keeps, hid, htrain], (Option.some.inj h).symm⟩

theorem routes_humanevalX (splits : Family → IdSplit) :
    Routes py splits .humanevalX (fun _ => true) (emitHumanevalX py (splits .humaneval)) := by
  intro r record? h
  obtain ⟨taskId, hname, h⟩ := Option.bind_eq_some_iff.mp h
  obtain ⟨uid, huid, h⟩ := Option.bind_eq_some_iff.mp h
  obtain ⟨prompt, -, h⟩ := Option.bind_eq_some_iff.mp h
  obtain ⟨tests, -, h⟩ := Option.bind_eq_some_iff.mp h
  obtain ⟨entryPoint, -, h⟩ := Option.bind_eq_some_iff.mp h
  obtain rfl := Option.some.inj h
  exact .inr ⟨rfl, _, rfl, rfl, rfl, rfl, Option.bind_eq_some_iff.mpr ⟨taskId, hname, huid⟩, rfl⟩

/-- What a loop has emitted are the source records it keeps. -/
theorem Routes.raw_eq (hbody : Routes py splits source keep body)
    (hc : collect body rs = some records) : records.map Record.raw = rs.filter keep := by
  refine map_collect (fun r record? h => ?_) hc
  rcases hbody r record? h with ⟨hkeep, rfl⟩ | ⟨hkeep, record, rfl, hraw, -, -⟩
  · simp [hkeep]
  · simp [hkeep, hraw]

theorem Routes.routed (hbody : Routes py splits source keep body)
    (hc : collect body rs = some records) :
    ∀ record ∈ records, record.source = source ∧ Routed py splits record := by
  intro record hmem
  obtain ⟨r, -, h⟩ := of_mem_collect hc record hmem
  rcases hbody r _ h with ⟨-, heq⟩ | ⟨-, record', heq, -, hsource, hrouted⟩
  · cases heq
  · obtain rfl := Option.some.inj heq
    exact ⟨hsource, hrouted⟩

/-! ## The outputs -/

/-- The splits of the two families. -/
def splitOf (rng : Rng) (ids : List ℤ) : Family → IdSplit
  | .mbpp => mbppSplit rng ids
  | .humaneval => humanevalSplit rng

theorem ofSource_perm {records records' : List Record} (h : records.Perm records')
    (source : Source) : (ofSource source records).Perm (ofSource source records') :=
  h.filter _

theorem ofSource_append (source : Source) (records records' : List Record) :
    ofSource source (records ++ records') = ofSource source records ++ ofSource source records' :=
  List.filter_append ..

/-- The records of one loop come from one source. -/
theorem ofSource_loop (hbody : Routes py splits source keep body)
    (hc : collect body rs = some records) (source' : Source) :
    ofSource source' records = if source' = source then records else [] := by
  split
  next heq =>
    exact List.filter_eq_self.mpr fun r hr => decide_eq_true (heq ▸ (hbody.routed hc r hr).1)
  next hne =>
    refine List.filter_eq_nil_iff.mpr fun r hr hsource => hne ?_
    rw [← of_decide_eq_true hsource, (hbody.routed hc r hr).1]

/-- The records of the loop over a source. -/
def ofLoop (ms hs xs : List Record) : Source → List Record
  | .multiplEMbpp => ms
  | .multiplEHumaneval => hs
  | .humanevalX => xs

section
variable {ids : List ℤ} {ms hs xs : List Record} {o : Output}
  (hy : Yields py rng multipleHe multipleMbpp humanevalX ids ms hs xs)
include hy

theorem Yields.routed : ∀ r ∈ ms ++ hs ++ xs, Routed py (splitOf rng ids) r := by
  intro r hr
  rw [List.mem_append, List.mem_append] at hr
  rcases hr with (hr | hr) | hr
  · exact ((routes_mbpp (splitOf rng ids)).routed hy.mbpp r hr).2
  · exact ((routes_humaneval (splitOf rng ids)).routed hy.humaneval r hr).2
  · exact ((routes_humanevalX (splitOf rng ids)).routed hy.humanevalX r hr).2

/-- The records of a source are those of its loop. -/
theorem Yields.ofSource (source : Source) :
    ofSource source (ms ++ hs ++ xs) = ofLoop ms hs xs source := by
  rw [ofSource_append, ofSource_append,
    ofSource_loop (routes_mbpp (splitOf rng ids)) hy.mbpp,
    ofSource_loop (routes_humaneval (splitOf rng ids)) hy.humaneval,
    ofSource_loop (routes_humanevalX (splitOf rng ids)) hy.humanevalX]
  cases source <;> simp [ofLoop]

/-- A record is for training exactly if its id is a train id of its family. -/
theorem Yields.train_iff : ∀ r ∈ ms ++ hs ++ xs, (r.split = .train ↔
    r.underlyingId ∈ (splitOf rng ids r.family).trainIds) := by
  intro r hr
  rw [(hy.routed r hr).side, IdSplit.side]
  split <;> simp [*]

/-- Records of one family on different sides have different ids. -/
theorem Yields.disjoint {r r' : Record} (hr : r ∈ ms ++ hs ++ xs) (hr' : r' ∈ ms ++ hs ++ xs)
    (htrain : r.split = .train) (hheldout : r'.split = .heldout) (hfamily : r.family = r'.family) :
    r.underlyingId ≠ r'.underlyingId := by
  intro heq
  have hin := (hy.train_iff r hr).mp htrain
  rw [hfamily, heq] at hin
  rw [(hy.train_iff r' hr').mpr hin] at hheldout
  cases hheldout

theorem Yields.mbpp_raw : (ofLoop ms hs xs .multiplEMbpp).map Record.raw = multipleMbpp :=
  ((routes_mbpp (splitOf rng ids)).raw_eq hy.mbpp).trans (List.filter_true _)

theorem Yields.humanevalX_raw : (ofLoop ms hs xs .humanevalX).map Record.raw = humanevalX :=
  ((routes_humanevalX (splitOf rng ids)).raw_eq hy.humanevalX).trans (List.filter_true _)

theorem Yields.humaneval_raw : (ofLoop ms hs xs .multiplEHumaneval).map Record.raw =
    multipleHe.filter ((humanevalSplit rng).keeps py) :=
  (routes_humaneval (splitOf rng ids)).raw_eq hy.humaneval

/-- What is left of the MultiPL-E rendering of HumanEval is for training. -/
theorem Yields.humaneval_train :
    ∀ r ∈ ms ++ hs ++ xs, r.source = .multiplEHumaneval → r.split = .train := by
  intro r hr hsource
  have hmem : r ∈ ofLoop ms hs xs .multiplEHumaneval := by
    rw [← hy.ofSource]
    exact List.mem_filter.mpr ⟨hr, decide_eq_true hsource⟩
  have hkept : r.raw ∈ multipleHe.filter ((humanevalSplit rng).keeps py) :=
    hy.humaneval_raw ▸ List.mem_map_of_mem hmem
  obtain ⟨hfamily, hid, -⟩ := hy.routed r hr
  rw [hsource] at hfamily hid
  have hkeep := (List.mem_filter.mp hkept).2
  rw [IdSplit.keeps, hid, Option.any_some, decide_eq_true_eq] at hkeep
  rw [hy.train_iff r hr, hfamily]
  exact hkeep

end

theorem mem_ofSplit {r : Record} : r ∈ ofSplit split records ↔ r ∈ records ∧ r.split = split := by
  simp [ofSplit]

theorem clean {o : Output} (h : build py rng multipleHe multipleMbpp humanevalX = some o) :
    Clean py multipleHe multipleMbpp humanevalX o := by
  obtain ⟨ids, ms, hs, xs, hy, rfl⟩ := build_eq_some.mp h
  have htrain : (sortBy Record.id (ofSplit .train (ms ++ hs ++ xs))).Perm
    (ofSplit .train (ms ++ hs ++ xs)) := sortBy_perm
  have hheldout : (sortBy Record.id (ofSplit .heldout (ms ++ hs ++ xs))).Perm
    (ofSplit .heldout (ms ++ hs ++ xs)) := sortBy_perm
  have hall := (htrain.append hheldout).trans (ofSplit_perm _)
  have hsource (source : Source) := (ofSource_perm hall source).trans (.of_eq (hy.ofSource source))
  have hdropped : ∀ r ∈ sortBy Record.id (ofSplit .heldout (ms ++ hs ++ xs)),
      r.source ≠ .multiplEHumaneval := by
    intro r hr hsrc
    obtain ⟨hr, hheld⟩ := mem_ofSplit.mp (hheldout.subset hr)
    rw [hy.humaneval_train r hr hsrc] at hheld
    cases hheld
  refine ⟨⟨fun r hr => (mem_ofSplit.mp (htrain.subset hr)).2,
    fun r hr => (mem_ofSplit.mp (hheldout.subset hr)).2⟩, fun r hr => ?_,
    fun r hr r' hr' hfamily => ?_, ?_, ?_, ?_, hdropped⟩
  · have hr' := hy.routed r (hall.subset hr)
    exact ⟨hr'.family, hr'.id⟩
  · obtain ⟨hr, htr⟩ := mem_ofSplit.mp (htrain.subset hr)
    obtain ⟨hr', hhe⟩ := mem_ofSplit.mp (hheldout.subset hr')
    exact hy.disjoint hr hr' htr hhe hfamily
  · exact ((hsource .multiplEMbpp).map _).trans (.of_eq hy.mbpp_raw)
  · exact ((hsource .humanevalX).map _).trans (.of_eq hy.humanevalX_raw)
  · have hnone : ofSource .multiplEHumaneval
        (sortBy Record.id (ofSplit .heldout (ms ++ hs ++ xs))) = [] :=
      List.filter_eq_nil_iff.mpr fun r hr hsrc => hdropped r hr (of_decide_eq_true hsrc)
    have hperm := hsource .multiplEHumaneval
    rw [ofSource_append, hnone, List.append_nil] at hperm
    refine (hperm.map _).trans (.of_eq ?_)
    rw [hy.humaneval_raw]
    refine List.filter_congr fun r _ => ?_
    simp [IdSplit.keeps, Output.of, IdSplit.lists]

/-- The assertions at the end of `main` hold. -/
theorem leak_eq_empty {o : Output} (h : build py rng multipleHe multipleMbpp humanevalX = some o)
    (family : Family) : o.suite.leak family = ∅ := by
  refine Finset.eq_empty_of_forall_notMem fun uid huid => ?_
  have hmem (records : List Record)
      (hin : uid ∈ ((records.filter fun r => r.family = family).map
        Record.underlyingId).toFinset) :
      ∃ r ∈ records, r.family = family ∧ r.underlyingId = uid := by
    obtain ⟨r, hr, heq⟩ := List.mem_map.mp (List.mem_toFinset.mp hin)
    obtain ⟨hr, hfamily⟩ := List.mem_filter.mp hr
    exact ⟨r, hr, of_decide_eq_true hfamily, heq⟩
  obtain ⟨htrain, hheldout⟩ := Finset.mem_inter.mp huid
  obtain ⟨r, hr, hfamily, hid⟩ := hmem _ htrain
  obtain ⟨r', hr', hfamily', hid'⟩ := hmem _ hheldout
  exact (clean h).disjoint r hr r' hr' (hfamily.trans hfamily'.symm) (hid.trans hid'.symm)

/-! ## The build succeeds -/

/-- A MultiPL-E record the script can read. -/
structure MultiplEReadable (py : Library) (r : Json) : Prop where
  id : ∃ name uid, textAt "name" r = some name ∧ py.intAfter '_' name = some uid
  prompt : ∃ prompt, r.item "prompt" = some (.str prompt)
  tests : ∃ tests, r.item "tests" = some tests
  stopTokens : ∃ stop, stopTokens py r = some stop

/-- A HumanEval-X record the script can read. -/
structure HumanevalXReadable (py : Library) (r : Json) : Prop where
  id : ∃ taskId uid, textAt "task_id" r = some taskId ∧ py.intAfter '/' taskId = some uid
  prompt : ∃ prompt, r.item "prompt" = some prompt
  test : ∃ test, r.item "test" = some test

theorem MultiplEReadable.exists_record (h : MultiplEReadable py r) (source : Source)
    (family : Family) (name : String) (uid : ℤ) (split : Split) :
    ∃ record, multiplERecord py source family name uid split r = some record := by
  obtain ⟨prompt, hprompt⟩ := h.prompt
  obtain ⟨tests, htests⟩ := h.tests
  obtain ⟨stop, hstop⟩ := h.stopTokens
  simp [multiplERecord, hprompt, htests, hstop, Json.text]

theorem MultiplEReadable.emitMbpp (h : MultiplEReadable py r) (ids : IdSplit) :
    ∃ record?, emitMbpp py ids r = some record? := by
  obtain ⟨name, uid, hname, huid⟩ := h.id
  obtain ⟨record, hrecord⟩ := h.exists_record .multiplEMbpp .mbpp name uid (ids.side uid)
  exact ⟨some record, by simp [TaskSuite.emitMbpp, mbppIdFromMultiple, hname, huid, hrecord]⟩

theorem MultiplEReadable.emitHumaneval (h : MultiplEReadable py r) (ids : IdSplit) :
    ∃ record?, emitHumaneval py ids r = some record? := by
  obtain ⟨name, uid, hname, huid⟩ := h.id
  obtain ⟨record, hrecord⟩ := h.exists_record .multiplEHumaneval .humaneval name uid .train
  by_cases htrain : uid ∈ ids.trainIds
  · exact ⟨some record, by
      simp [TaskSuite.emitHumaneval, heIdFromMultiple, hname, huid, hrecord, htrain]⟩
  · exact ⟨none, by simp [TaskSuite.emitHumaneval, heIdFromMultiple, hname, huid, htrain]⟩

theorem HumanevalXReadable.emitHumanevalX (h : HumanevalXReadable py r) (ids : IdSplit) :
    ∃ record?, emitHumanevalX py ids r = some record? := by
  obtain ⟨taskId, uid, hname, huid⟩ := h.id
  obtain ⟨prompt, hprompt⟩ := h.prompt
  obtain ⟨test, htest⟩ := h.test
  obtain ⟨entryPoint, hentry⟩ : ∃ v, r.get "entry_point" = some v := by
    cases r with
    | obj fields => exact ⟨_, rfl⟩
    | _ => cases hprompt
  simp [TaskSuite.emitHumanevalX, heIdFromX, hname, huid, hprompt, htest, hentry]

/-- On records it can read the script runs to its end. -/
theorem exists_build (rng : Rng) (hhe : ∀ r ∈ multipleHe, MultiplEReadable py r)
    (hmbpp : ∀ r ∈ multipleMbpp, MultiplEReadable py r)
    (hx : ∀ r ∈ humanevalX, HumanevalXReadable py r) :
    ∃ o, build py rng multipleHe multipleMbpp humanevalX = some o := by
  have hid : ∀ r ∈ multipleMbpp, ∃ uid?,
      ((textAt "name" r).bind (mbppIdFromMultiple py)).map some = some uid? := by
    intro r hr
    obtain ⟨name, uid, hname, huid⟩ := (hmbpp r hr).id
    exact ⟨some uid, by simp [hname, mbppIdFromMultiple, huid]⟩
  obtain ⟨ids, hids⟩ := exists_collect hid
  obtain ⟨ms, hms⟩ := exists_collect fun r hr => (hmbpp r hr).emitMbpp (mbppSplit rng ids)
  obtain ⟨hs, hhs⟩ := exists_collect fun r hr => (hhe r hr).emitHumaneval (humanevalSplit rng)
  obtain ⟨xs, hxs⟩ := exists_collect fun r hr => (hx r hr).emitHumanevalX (humanevalSplit rng)
  exact ⟨_, build_eq_some.mpr ⟨ids, ms, hs, xs, ⟨hids, hms, hhs, hxs⟩, rfl⟩⟩

/-- Whatever the shuffles do and whatever ids the records have, no problem of a family is
on both sides, every MBPP and every HumanEval-X record is emitted once, and a MultiPL-E
HumanEval record is emitted, for training, if its id is a train id. -/
theorem contamination_free (py : Library) (rng : Rng)
    (multipleHe multipleMbpp humanevalX : List Json) :
    (∀ o, build py rng multipleHe multipleMbpp humanevalX = some o →
      Clean py multipleHe multipleMbpp humanevalX o) ∧
    ((∀ r ∈ multipleHe, MultiplEReadable py r) → (∀ r ∈ multipleMbpp, MultiplEReadable py r) →
      (∀ r ∈ humanevalX, HumanevalXReadable py r) →
      ∃ o, build py rng multipleHe multipleMbpp humanevalX = some o) :=
  ⟨fun _ => clean, exists_build rng⟩

namespace Sample

theorem multiplE_readable {names : List String}
    (h : names.all (fun name => (library.intAfter '_' name).isSome) = true) :
    ∀ r ∈ names.map multiplE, MultiplEReadable library r := by
  intro r hr
  obtain ⟨name, hname, rfl⟩ := List.mem_map.mp hr
  obtain ⟨uid, huid⟩ := Option.isSome_iff_exists.mp (List.all_eq_true.mp h name hname)
  exact ⟨⟨name, uid, rfl, huid⟩, ⟨_, rfl⟩, ⟨_, rfl⟩, ⟨_, rfl⟩⟩

theorem humanevalX_readable {taskIds : List String}
    (h : taskIds.all (fun taskId => (library.intAfter '/' taskId).isSome) = true) :
    ∀ r ∈ taskIds.map Sample.humanevalX, HumanevalXReadable library r := by
  intro r hr
  obtain ⟨taskId, hname, rfl⟩ := List.mem_map.mp hr
  obtain ⟨uid, huid⟩ := Option.isSome_iff_exists.mp (List.all_eq_true.mp h taskId hname)
  exact ⟨⟨taskId, uid, rfl, huid⟩, ⟨_, rfl⟩, ⟨_, rfl⟩⟩

end Sample

/-- Both MBPP records have the id `3`, which is on both sides of the cut.  Without a
shuffle `0` is a train id of HumanEval, and `163` and `200` are not. -/
theorem contamination_free_samples : ∃ o,
    Clean Sample.library (["HumanEval_0_a", "HumanEval_163_b"].map Sample.multiplE)
      (["mbpp_3_c", "mbpp_3_d"].map Sample.multiplE)
      (["Rust/0", "Rust/163", "Rust/200"].map Sample.humanevalX) o ∧
    o.suite.train.map Record.id = ["humaneval-x/Rust/0", "multipl-e-humaneval/HumanEval_0_a",
      "multipl-e-mbpp/mbpp_3_c", "multipl-e-mbpp/mbpp_3_d"] ∧
    o.suite.heldout.map Record.id = ["humaneval-x/Rust/163", "humaneval-x/Rust/200"] := by
  have hfree := contamination_free Sample.library Sample.rng
    (["HumanEval_0_a", "HumanEval_163_b"].map Sample.multiplE)
    (["mbpp_3_c", "mbpp_3_d"].map Sample.multiplE)
    (["Rust/0", "Rust/163", "Rust/200"].map Sample.humanevalX)
  obtain ⟨o, ho⟩ := hfree.2 (Sample.multiplE_readable (by decide +kernel))
    (Sample.multiplE_readable (by decide +kernel)) (Sample.humanevalX_readable (by decide +kernel))
  have hids : (build Sample.library Sample.rng
      (["HumanEval_0_a", "HumanEval_163_b"].map Sample.multiplE)
      (["mbpp_3_c", "mbpp_3_d"].map Sample.multiplE)
      (["Rust/0", "Rust/163", "Rust/200"].map Sample.humanevalX)).any (fun o => decide (
        o.suite.train.map Record.id = ["humaneval-x/Rust/0", "multipl-e-humaneval/HumanEval_0_a",
          "multipl-e-mbpp/mbpp_3_c", "multipl-e-mbpp/mbpp_3_d"] ∧
        o.suite.heldout.map Record.id = ["humaneval-x/Rust/163", "humaneval-x/Rust/200"])) =
          true := by
    decide +kernel
  rw [ho] at hids
  exact ⟨o, hfree.1 o ho, of_decide_eq_true hids⟩

end

end Aicv.TaskSuite
