import Aicv.Python.JsonText
import Aicv.TaskSuite.Verify

/-!
# The files of the task suite

The builder writes its records, and copies of its sources, as lines of JSON, and the guard reads
all that it looks at from there.  `files_exact` says that nothing is lost on the way: the guard
sees the records of the builder, and a build from the copies writes the same files again.
-/

namespace Aicv.TaskSuite

open Python JsonText Sequence

/-! ## Lines of a file -/

/-- The lines of a text, each with its line feed, behind the start of the first. -/
def linesFrom (line : List Char) : List Char → List (List Char)
  | [] => if line = [] then [] else [line]
  | c :: cs => if c = '\n' then (line ++ [c]) :: linesFrom [] cs else linesFrom (line ++ [c]) cs

/-- `for line in f`. -/
def fileLines (s : String) : List String :=
  (linesFrom [] (universalFrom false s.toList)).map String.ofList

/-- `json.dumps(r, ensure_ascii=False)`. -/
def line : Layout := ⟨false, none⟩

/-- A record on its line. -/
def recordLine (r : Json) : List Char := text line 0 r ++ ['\n']

/-- `write_jsonl`. -/
def writeJsonl (records : List Json) : String := String.ofList (records.flatMap recordLine)

/-! ## The scripts on files -/

/-- The files that the builder writes and the guard reads. -/
structure Written where
  multipleHe : String
  multipleMbpp : String
  humanevalX : String
  train : String
  heldout : String

/-- The end of `main`. -/
def Written.of (multipleHe multipleMbpp humanevalX : List Json) (out : Suite) : Written where
  multipleHe := writeJsonl multipleHe
  multipleMbpp := writeJsonl multipleMbpp
  humanevalX := writeJsonl humanevalX
  train := writeJsonl (out.train.map Record.json)
  heldout := writeJsonl (out.heldout.map Record.json)

/-- `main` of the builder, on the texts of its sources. -/
def buildFiles (py : Library) (rng : Rng) (multipleHe multipleMbpp humanevalX : String) :
    Option Written := do
  let he ← readJsonl py (fileLines multipleHe)
  let mbpp ← readJsonl py (fileLines multipleMbpp)
  let heX ← readJsonl py (fileLines humanevalX)
  let o ← build py rng he mbpp heX
  return .of he mbpp heX o.suite

/-- `main` of the guard, on the files of the builder. -/
def guardFiles (py : Library) (w : Written) : Option ℕ := do
  let heX ← readJsonl py (fileLines w.humanevalX)
  let mbpp ← readJsonl py (fileLines w.multipleMbpp)
  let train ← readJsonl py (fileLines w.train)
  let heldout ← readJsonl py (fileLines w.heldout)
  Verify.main heX mbpp train heldout

/-! ## Reading back -/

section
variable {float : List Char → List Char} {py : Library} {rng : Rng} {cs : List Char} {r v : Json}
  {records : List Json} {multipleHe multipleMbpp humanevalX : List Json} {o : Output}

theorem linesFrom_append {start s : List Char} (hs : '\n' ∉ s) (cs : List Char) :
    linesFrom start (s ++ '\n' :: cs) = (start ++ s ++ ['\n']) :: linesFrom [] cs := by
  induction s generalizing start with
  | nil =>
      rw [List.nil_append, linesFrom, if_pos rfl, List.append_nil]
  | cons c s ih =>
      obtain ⟨hc, hs⟩ := not_or.mp (mt List.mem_cons.mpr hs)
      rw [List.cons_append, linesFrom, if_neg (Ne.symm hc), ih hs, List.append_assoc start]
      rfl

/-- A record is on one line. -/
theorem not_mem_text (h : WellFormed float r) : '\n' ∉ text line 0 r ∧ '\r' ∉ text line 0 r := by
  have hprints {c : Char} (hc : c ∈ text line 0 r) : 32 ≤ c.toNat :=
    ((prints_text h c hc).resolve_right fun h => h.2 rfl).1
  exact ⟨fun hc => absurd (hprints hc) (by decide), fun hc => absurd (hprints hc) (by decide)⟩

theorem linesFrom_records (h : ∀ r ∈ records, WellFormed float r) :
    linesFrom [] (records.flatMap recordLine) = records.map recordLine := by
  induction records with
  | nil => rfl
  | cons r records ih =>
      obtain ⟨hr, hrecords⟩ := List.forall_mem_cons.mp h
      have heq : (r :: records).flatMap recordLine =
          text line 0 r ++ '\n' :: records.flatMap recordLine := by
        simp [recordLine]
      rw [heq, linesFrom_append (not_mem_text hr).1, ih hrecords]
      rfl

theorem fileLines_writeJsonl (h : ∀ r ∈ records, WellFormed float r) :
    fileLines (writeJsonl records) = records.map fun r => String.ofList (recordLine r) := by
  have hreturn : '\r' ∉ records.flatMap recordLine := by
    intro hmem
    obtain ⟨r, hr, hc⟩ := List.mem_flatMap.mp hmem
    rcases List.mem_append.mp hc with hc | hc
    · exact (not_mem_text (h r hr)).2 hc
    · exact absurd hc (by decide)
  rw [fileLines, writeJsonl, String.toList_ofList, universalFrom_eq hreturn, linesFrom_records h,
    List.map_map]
  rfl

/-- An object that Python can hold. -/
def IsRecord (float : List Char → List Char) (r : Json) : Prop :=
  WellFormed float r ∧ ∃ fields, r = .obj fields

/-- The library is Python's own, where it reads files. -/
structure ReadsFiles (float : List Char → List Char) (py : Library) : Prop where
  loads : py.loads = JsonText.loads float
  isSpace : py.isSpace '\x7b' = false
  float : ∀ t, IsWritten float (float t)

/-- A record is read back from its line. -/
theorem loads_recordLine (hpy : ReadsFiles float py) (h : IsRecord float r) :
    (if py.nonBlank (String.ofList (recordLine r)) then
      (py.loads (String.ofList (recordLine r))).map some else some none) = some (some r) := by
  obtain ⟨hr, fields, rfl⟩ := h
  have hblank : py.nonBlank (String.ofList (recordLine (.obj fields))) = true := by
    obtain ⟨cs, hcs⟩ := brackets_eq_cons (l := line) 0 '\x7b' '\x7d' (memberTexts line 1 fields)
    rw [Library.nonBlank, recordLine, text, hcs, String.toList_ofList, List.cons_append,
      List.any_cons, hpy.isSpace]
    rfl
  have hline : String.ofList (recordLine (.obj fields)) =
      dumps line (.obj fields) ++ String.ofList ['\n'] := by
    rw [recordLine, dumps, String.ofList_append]
  rw [if_pos hblank, hline, hpy.loads, loads_dumps hr line (List.forall_mem_singleton.mpr rfl)]
  rfl

/-- Records are read back from the file that they are written to. -/
theorem readJsonl_writeJsonl (hpy : ReadsFiles float py) (h : ∀ r ∈ records, IsRecord float r) :
    readJsonl py (fileLines (writeJsonl records)) = some records := by
  rw [fileLines_writeJsonl fun r hr => (h r hr).1, readJsonl]
  induction records with
  | nil => rfl
  | cons r records ih =>
      obtain ⟨hr, hrecords⟩ := List.forall_mem_cons.mp h
      rw [List.map_cons]
      exact collect_cons.mpr ⟨some r, records, loads_recordLine hpy hr, ih hrecords, rfl⟩

/-! ## What the builder makes of records -/

theorem wellFormed_of_item {key : String} (h : WellFormed float r) (hitem : r.item key = some v) :
    WellFormed float v := by
  cases h with
  | obj hnodup hfields =>
      obtain ⟨before, behind, rfl, -⟩ := List.lookup_eq_some_iff.mp hitem
      exact hfields (key, v) (List.mem_append_right _ List.mem_cons_self)
  | _ => cases hitem

theorem wellFormed_of_get {key : String} (h : WellFormed float r) (hget : r.get key = some v) :
    WellFormed float v := by
  cases h with
  | @obj fields hnodup hfields =>
      obtain rfl := Option.some.inj hget
      cases hlookup : fields.lookup key with
      | none => exact .null
      | some v => exact wellFormed_of_item (.obj hnodup hfields) hlookup
  | _ => cases hget

theorem isRecord_of_textAt {key name : String} (h : WellFormed float r)
    (htext : textAt key r = some name) : IsRecord float r := by
  obtain ⟨v, hitem, -⟩ := Option.bind_eq_some_iff.mp htext
  cases r with
  | obj fields => exact ⟨h, fields, rfl⟩
  | _ => cases hitem

theorem wellFormed_stopTokens (hpy : ReadsFiles float py) (h : WellFormed float r)
    (hstop : stopTokens py r = some v) : WellFormed float v := by
  obtain ⟨u, hitem, hstop⟩ := Option.bind_eq_some_iff.mp hstop
  have hu := wellFormed_of_item h hitem
  cases u with
  | str s =>
      rw [hpy.loads] at hstop
      exact wellFormed_of_loads hpy.float hstop
  | _ =>
      obtain rfl := Option.some.inj hstop
      exact hu

theorem wellFormed_entryPoint (prompt : String) :
    WellFormed float (entryPointFromPrompt py prompt) := by
  rw [entryPointFromPrompt]
  cases searchFn py none prompt.toList with
  | none => exact .null
  | some name => exact .str name

/-- A combined record goes into its file. -/
theorem isRecord_json {record : Record} (hprompt : WellFormed float record.prompt)
    (htests : WellFormed float record.tests) (hstop : WellFormed float record.stopTokens)
    (hentry : WellFormed float record.entryPoint) (hraw : WellFormed float record.raw) :
    IsRecord float record.json := by
  have hkeys : (["id", "source", "family", "underlying_id", "split", "harness", "prompt", "tests",
      "stop_tokens", "entry_point", "raw"] : List String).Nodup := by decide
  refine ⟨.obj hkeys fun e he => ?_, _, rfl⟩
  simp only [List.mem_cons, List.not_mem_nil, or_false] at he
  rcases he with rfl | rfl | rfl | rfl | rfl | rfl | rfl | rfl | rfl | rfl | rfl
  · exact .str _
  · exact .str _
  · exact .str _
  · exact .num (.inl (isNumber_toString _))
  · exact .str _
  · exact .str _
  · exact hprompt
  · exact htests
  · exact hstop
  · exact hentry
  · exact hraw

theorem isRecord_multiplE (hpy : ReadsFiles float py) (h : WellFormed float r) {source : Source}
    {family : Family} {name : String} {uid : ℤ} {split : Split} {record : Record}
    (hrecord : multiplERecord py source family name uid split r = some record) :
    IsRecord float record.json := by
  obtain ⟨prompt, hprompt, hrecord⟩ := Option.bind_eq_some_iff.mp hrecord
  obtain ⟨tests, htests, hrecord⟩ := Option.bind_eq_some_iff.mp hrecord
  obtain ⟨stop, hstop, hrecord⟩ := Option.bind_eq_some_iff.mp hrecord
  obtain ⟨text, -, hrecord⟩ := Option.bind_eq_some_iff.mp hrecord
  obtain rfl := Option.some.inj hrecord
  exact isRecord_json (wellFormed_of_item h hprompt) (wellFormed_of_item h htests)
    (wellFormed_stopTokens hpy h hstop) (wellFormed_entryPoint text) h

/-- The body of a loop takes records, and what it yields is one in its file. -/
def Sound (float : List Char → List Char) (body : Json → Option (Option Record)) : Prop :=
  ∀ r record?, WellFormed float r → body r = some record? →
    IsRecord float r ∧ ∀ record ∈ record?, IsRecord float record.json

theorem sound_mbpp (hpy : ReadsFiles float py) (ids : IdSplit) :
    Sound float (emitMbpp py ids) := by
  intro r record? hr h
  obtain ⟨name, hname, h⟩ := Option.bind_eq_some_iff.mp h
  obtain ⟨uid, -, h⟩ := Option.bind_eq_some_iff.mp h
  obtain ⟨record, hrecord, h⟩ := Option.bind_eq_some_iff.mp h
  obtain rfl := Option.some.inj h
  refine ⟨isRecord_of_textAt hr hname, fun record' hmem => ?_⟩
  obtain rfl := Option.some.inj hmem
  exact isRecord_multiplE hpy hr hrecord

theorem sound_humaneval (hpy : ReadsFiles float py) (ids : IdSplit) :
    Sound float (emitHumaneval py ids) := by
  intro r record? hr h
  obtain ⟨name, hname, h⟩ := Option.bind_eq_some_iff.mp h
  obtain ⟨uid, -, h⟩ := Option.bind_eq_some_iff.mp h
  refine ⟨isRecord_of_textAt hr hname, fun record' hmem => ?_⟩
  split at h
  next =>
    obtain rfl := Option.some.inj h
    cases hmem
  next =>
    obtain ⟨record, hrecord, h⟩ := Option.bind_eq_some_iff.mp h
    obtain rfl := Option.some.inj h
    obtain rfl := Option.some.inj hmem
    exact isRecord_multiplE hpy hr hrecord

theorem wellFormed_humanevalpackStop : WellFormed float humanevalpackStop := by
  refine .arr fun v hv => ?_
  simp only [List.mem_cons, List.not_mem_nil, or_false] at hv
  rcases hv with rfl | rfl | rfl | rfl <;> exact .str _

theorem sound_humanevalX (ids : IdSplit) : Sound float (emitHumanevalX py ids) := by
  intro r record? hr h
  obtain ⟨taskId, hname, h⟩ := Option.bind_eq_some_iff.mp h
  obtain ⟨uid, -, h⟩ := Option.bind_eq_some_iff.mp h
  obtain ⟨prompt, hprompt, h⟩ := Option.bind_eq_some_iff.mp h
  obtain ⟨tests, htests, h⟩ := Option.bind_eq_some_iff.mp h
  obtain ⟨entryPoint, hentry, h⟩ := Option.bind_eq_some_iff.mp h
  obtain rfl := Option.some.inj h
  refine ⟨isRecord_of_textAt hr hname, fun record' hmem => ?_⟩
  obtain rfl := Option.some.inj hmem
  exact isRecord_json (wellFormed_of_item hr hprompt) (wellFormed_of_item hr htests)
    wellFormed_humanevalpackStop (wellFormed_of_get hr hentry) hr

/-- The records of a loop, on both sides. -/
theorem Sound.of_collect {body : Json → Option (Option Record)} {emitted : List Record}
    (hbody : Sound float body) (h : ∀ r ∈ records, WellFormed float r)
    (hc : collect body records = some emitted) :
    (∀ r ∈ records, IsRecord float r) ∧ ∀ record ∈ emitted, IsRecord float record.json := by
  constructor
  · intro r hr
    obtain ⟨record?, hrecord⟩ := exists_of_collect hc r hr
    exact (hbody r record? (h r hr) hrecord).1
  · intro record hmem
    obtain ⟨r, hr, hrecord⟩ := of_mem_collect hc record hmem
    exact (hbody r _ (h r hr) hrecord).2 record rfl

/-- What is read from a file is a value. -/
theorem wellFormed_of_readJsonl (hpy : ReadsFiles float py) {lines : List String}
    (h : readJsonl py lines = some records) : ∀ r ∈ records, WellFormed float r := by
  intro r hr
  obtain ⟨l, -, hl⟩ := of_mem_collect h r hr
  split at hl
  next =>
    obtain ⟨v, hloads, heq⟩ := Option.map_eq_some_iff.mp hl
    obtain rfl := Option.some.inj heq
    rw [hpy.loads] at hloads
    exact wellFormed_of_loads hpy.float hloads
  next => cases hl

/-- All that a build takes and makes goes into files. -/
theorem isRecord_of_build (hpy : ReadsFiles float py)
    (hhe : ∀ r ∈ multipleHe, WellFormed float r) (hmbpp : ∀ r ∈ multipleMbpp, WellFormed float r)
    (hx : ∀ r ∈ humanevalX, WellFormed float r)
    (h : build py rng multipleHe multipleMbpp humanevalX = some o) :
    (∀ r ∈ multipleHe, IsRecord float r) ∧ (∀ r ∈ multipleMbpp, IsRecord float r) ∧
      (∀ r ∈ humanevalX, IsRecord float r) ∧
      ∀ record ∈ o.suite.train ++ o.suite.heldout, IsRecord float record.json := by
  obtain ⟨ids, ms, hs, xs, hyields, rfl⟩ := build_eq_some.mp h
  obtain ⟨hmbpp, hms⟩ := (sound_mbpp hpy _).of_collect hmbpp hyields.mbpp
  obtain ⟨hhe, hhs⟩ := (sound_humaneval hpy _).of_collect hhe hyields.humaneval
  obtain ⟨hx, hxs⟩ := (sound_humanevalX _).of_collect hx hyields.humanevalX
  refine ⟨hhe, hmbpp, hx, fun record hmem => ?_⟩
  have hall : ∀ record ∈ ms ++ hs ++ xs, IsRecord float record.json :=
    List.forall_mem_append.mpr ⟨List.forall_mem_append.mpr ⟨hms, hhs⟩, hxs⟩
  refine hall record ?_
  rcases List.mem_append.mp hmem with hmem | hmem
  · exact (mem_ofSplit.mp (sortBy_perm.mem_iff.mp hmem)).1
  · exact (mem_ofSplit.mp (sortBy_perm.mem_iff.mp hmem)).1

/-- The guard sees the records of the builder in the files, and a build from the copies of the
sources writes the same files. -/
theorem files_exact (hpy : ReadsFiles float py) {he mbpp heX : String} {w : Written}
    (h : buildFiles py rng he mbpp heX = some w) :
    ∃ heRecords mbppRecords heXRecords o,
      readJsonl py (fileLines he) = some heRecords ∧
      readJsonl py (fileLines mbpp) = some mbppRecords ∧
      readJsonl py (fileLines heX) = some heXRecords ∧
      build py rng heRecords mbppRecords heXRecords = some o ∧
      guardFiles py w = Verify.main heXRecords mbppRecords (o.suite.train.map Record.json)
        (o.suite.heldout.map Record.json) ∧
      buildFiles py rng w.multipleHe w.multipleMbpp w.humanevalX = some w := by
  obtain ⟨heRecords, hhe, h⟩ := Option.bind_eq_some_iff.mp h
  obtain ⟨mbppRecords, hmbpp, h⟩ := Option.bind_eq_some_iff.mp h
  obtain ⟨heXRecords, hx, h⟩ := Option.bind_eq_some_iff.mp h
  obtain ⟨o, ho, h⟩ := Option.bind_eq_some_iff.mp h
  obtain rfl := Option.some.inj h
  obtain ⟨hheRecords, hmbppRecords, hxRecords, hrecords⟩ := isRecord_of_build hpy
    (wellFormed_of_readJsonl hpy hhe) (wellFormed_of_readJsonl hpy hmbpp)
    (wellFormed_of_readJsonl hpy hx) ho
  obtain ⟨htrain, hheldout⟩ := List.forall_mem_append.mp hrecords
  refine ⟨heRecords, mbppRecords, heXRecords, o, hhe, hmbpp, hx, ho, ?_, ?_⟩
  · rw [guardFiles, Written.of, readJsonl_writeJsonl hpy hxRecords,
      readJsonl_writeJsonl hpy hmbppRecords,
      readJsonl_writeJsonl hpy (List.forall_mem_map.mpr htrain),
      readJsonl_writeJsonl hpy (List.forall_mem_map.mpr hheldout)]
    rfl
  · rw [buildFiles, Written.of, readJsonl_writeJsonl hpy hheRecords,
      readJsonl_writeJsonl hpy hmbppRecords, readJsonl_writeJsonl hpy hxRecords]
    show (build py rng heRecords mbppRecords heXRecords).bind _ = _
    rw [ho]
    rfl

end

namespace Sample

/-- The only `float` of the texts below is zero. -/
def float (_ : List Char) : List Char := ['0', '.', '0']

def pythonLibrary : Library := { library with loads := JsonText.loads float }

theorem readsFiles_pythonLibrary : ReadsFiles float pythonLibrary where
  loads := rfl
  isSpace := by decide
  float _ := .inl rfl

/-- The stop tokens are a text of JSON. -/
def multiplEText (name : String) : String :=
  "\x7b\"name\": \"" ++ name ++
    "\", \"prompt\": \"fn f(\", \"tests\": \"\", \"stop_tokens\": \"[ ]\"\x7d\n"

/-- A key comes twice, a letter is escaped, and a line is blank. -/
def humanevalXText : String :=
  "\x7b\"task_id\": \"Rust/0\", \"prompt\" :\"fn f(\", \"test\": 1, \"test\": [0.0, -0]," ++
    "\"docstring\": \"\\u00e9\"\x7d\r\n \n"

end Sample

/-- The copies are other texts than the sources. -/
theorem files_exact_samples : ∃ w,
    buildFiles Sample.pythonLibrary Sample.rng (Sample.multiplEText "HumanEval_0_a")
      (Sample.multiplEText "mbpp_3_c") Sample.humanevalXText = some w ∧
    w.humanevalX ≠ Sample.humanevalXText ∧
    buildFiles Sample.pythonLibrary Sample.rng w.multipleHe w.multipleMbpp w.humanevalX =
      some w := by
  have hrun : (buildFiles Sample.pythonLibrary Sample.rng (Sample.multiplEText "HumanEval_0_a")
      (Sample.multiplEText "mbpp_3_c") Sample.humanevalXText).any
        (fun w => w.humanevalX != Sample.humanevalXText) = true := by decide +kernel
  obtain ⟨w, hw, hne⟩ := (Option.any_eq_true _ _).mp hrun
  obtain ⟨_, _, _, _, -, -, -, -, -, hagain⟩ := files_exact Sample.readsFiles_pythonLibrary hw
  exact ⟨w, hw, bne_iff_ne.mp hne, hagain⟩

end Aicv.TaskSuite
