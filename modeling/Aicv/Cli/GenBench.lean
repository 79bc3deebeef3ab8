import Aicv.Cli.JobSpec
import Aicv.Dataset.Convert
import Aicv.Go.Json
import Aicv.Go.Scanner
import Aicv.Sequence.Fold

/-!
# Bench files made of datasets

`gen-bench` writes a job spec for each known-answer case of a dataset file, and `bench`
reads them with `readJobSpecs`.  Both scan lines into a buffer of the same size.  The
line of a spec has the prompt, the solution and the tests of a record in one string and
may be longer than the line of the record.

What `gen-bench` writes is read back if and only if each of these lines fits into the
buffer (`readable_iff`).
-/

namespace Aicv.Cli

open Go Dataset

/-- The largest buffer of both scanners. -/
def maxLine : ℕ := 8 * 1024 * 1024

/-- What `json.Encoder` writes for a job spec, without the newline.  The files are a map and
are written in the order of their names. -/
def JobSpec.json (s : JobSpec) : Bytes :=
  let files := (Sequence.sortBy Prod.fst s.files).map fun f => (f.1, quoted f.2)
  object ([("id", quoted s.id), ("lang", quoted s.lang), ("files", object files),
    ("ttl_secs", integer s.ttlSecs.toInt)] ++
    if s.expected = "" then [] else [("expected", quoted s.expected)])

/-! ## Writing -/

/-- What `cmdGenBench` has read and written.  It prints the lengths of both lists. -/
structure GenBench where
  records : List Record
  cases : List JobSpec
  written : Bytes

/-- The job spec of a case. -/
def jobSpecOf (ttlSecs : Int64) (c : Case) : JobSpec :=
  ⟨c.id, "rust", c.files, ttlSecs, c.expected.text⟩

/-- A line with a newline, for each job spec. -/
def jsonLines (specs : List JobSpec) : Bytes := (specs.map JobSpec.json).flatMap (· ++ [10])

section
variable (unmarshal : Bytes → Except String Record) (ttlSecs : Int64)

/-- The body of the loop of `cmdGenBench`. -/
def GenBench.line (g : GenBench) (text : Bytes) : Except String GenBench :=
  let line := trimSpace text
  if line = [] then .ok g
  else
    match unmarshal line with
    | .error e => .error ("parse record: " ++ e)
    | .ok rec =>
        let specs := (convert rec).map (jobSpecOf ttlSecs)
        .ok ⟨g.records ++ [rec], g.cases ++ specs, g.written ++ jsonLines specs⟩

/-- `cmdGenBench`, over `json.Unmarshal` of a record.  An error is fatal. -/
def genBench (input : Bytes) : Except String GenBench := do
  let scan := scanLines maxLine input
  let g ← scan.1.foldlM (GenBench.line unmarshal ttlSecs) ⟨[], [], []⟩
  if scan.2 then .error tooLong else .ok g

end

/-! ## Reading -/

section
variable (unmarshal : Bytes → Except String JobSpec)

/-- The body of the loop of `readJobSpecs`, with the number of lines read. -/
def readLine (r : ℕ × List JobSpec) (text : Bytes) : Except String (ℕ × List JobSpec) :=
  let line := r.1 + 1
  let text := trimSpace text
  if text = [] then .ok (line, r.2)
  else
    match unmarshal text with
    | .error e => .error ("line " ++ toString line ++ ": " ++ e)
    | .ok s => .ok (line, r.2 ++ [s])

/-- `readJobSpecs`, over `json.Unmarshal` of a job spec. -/
def readJobSpecs (input : Bytes) : Except String (List JobSpec) := do
  let scan := scanLines maxLine input
  let r ← scan.1.foldlM (readLine unmarshal) (0, [])
  if scan.2 then .error tooLong else .ok r.2

end

/-! ## Lines of job specs -/

theorem newline_not_mem_json (s : JobSpec) : 10 ∉ s.json := by
  refine newline_not_mem_object fun m hm => ?_
  have hfiles :
      10 ∉ object ((Sequence.sortBy Prod.fst s.files).map fun f => (f.1, quoted f.2)) := by
    refine newline_not_mem_object fun m hm => ?_
    obtain ⟨f, -, rfl⟩ := List.mem_map.mp hm
    exact newline_not_mem_quoted f.2
  rcases List.mem_append.mp hm with hm | hm
  · simp only [List.mem_cons, List.not_mem_nil, or_false] at hm
    rcases hm with rfl | rfl | rfl | rfl
    · exact newline_not_mem_quoted s.id
    · exact newline_not_mem_quoted s.lang
    · exact hfiles
    · exact newline_not_mem_integer s.ttlSecs.toInt
  · split at hm
    next => cases hm
    next =>
      obtain rfl := List.mem_singleton.mp hm
      exact newline_not_mem_quoted s.expected

theorem json_getLast (s : JobSpec) : s.json.getLast? = some 125 := by
  rw [JobSpec.json, object, List.getLast?_concat]

theorem json_ne_nil (s : JobSpec) : s.json ≠ [] := by
  simp [JobSpec.json, object]

section
variable {unmarshal : Bytes → Except String JobSpec} {specs : List JobSpec}

theorem readLine_json {s : JobSpec} (h : unmarshal s.json = .ok s) (r : ℕ × List JobSpec) :
    readLine unmarshal r s.json = .ok (r.1 + 1, r.2 ++ [s]) := by
  have htrim : trimSpace s.json = s.json := trimSpace_object _
  simp [readLine, htrim, json_ne_nil, h]

theorem foldlM_readLine (h : ∀ s ∈ specs, unmarshal s.json = .ok s) (r : ℕ × List JobSpec) :
    (specs.map JobSpec.json).foldlM (readLine unmarshal) r =
      .ok (r.1 + specs.length, r.2 ++ specs) := by
  induction specs generalizing r with
  | nil => simp; rfl
  | cons s specs ih =>
      obtain ⟨hs, hspecs⟩ := List.forall_mem_cons.mp h
      rw [List.map_cons, List.foldlM_cons, readLine_json hs]
      show List.foldlM _ (r.1 + 1, r.2 ++ [s]) _ = _
      rw [ih hspecs]
      simp [Nat.add_comm, Nat.add_left_comm]

/-- Job specs are read back if and only if their lines fit into the buffer. -/
theorem readJobSpecs_jsonLines (h : ∀ s ∈ specs, unmarshal s.json = .ok s) :
    readJobSpecs unmarshal (jsonLines specs) = .ok specs ↔
      ∀ s ∈ specs, s.json.length < maxLine := by
  have hnewline : ∀ line ∈ specs.map JobSpec.json, 10 ∉ line :=
    List.forall_mem_map.mpr fun s _ => newline_not_mem_json s
  constructor
  · intro hread s hs
    by_contra hlong
    have hstop := scanLines_tooLong hnewline (List.mem_map_of_mem hs) (Nat.le_of_not_lt hlong)
    simp only [readJobSpecs, jsonLines, hstop, if_true] at hread
    obtain ⟨r, -, hr⟩ := Sequence.bind_eq_ok.mp hread
    cases hr
  · intro hfit
    have hcr : ∀ line ∈ specs.map JobSpec.json, line.getLast? ≠ some 13 := by
      refine List.forall_mem_map.mpr fun s _ => ?_
      rw [json_getLast]
      decide
    have hscan := scanLines_join hnewline hcr (List.forall_mem_map.mpr hfit)
    rw [readJobSpecs, jsonLines, hscan]
    simp only [foldlM_readLine h]
    simp
    rfl

end

/-! ## Lengths -/

/-- What the line for a solution has besides its constant part. -/
def lineSize (ttlSecs : Int64) (r : Record) (suffix body : String) : ℕ :=
  textSize (r.id ++ suffix) + textSize (cargoToml (detectCrates (r.src body))) +
    textSize (r.src body) + (integer ttlSecs.toInt).length

theorem json_jobSpecOf (ttlSecs : Int64) (r : Record) (id body : String) (e : Expected) :
    (jobSpecOf ttlSecs ⟨id, assemble r body, e⟩).json =
      object [("id", quoted id), ("lang", quoted "rust"),
        ("files", object [("Cargo.toml", quoted (cargoToml (detectCrates (r.src body)))),
          ("src/main.rs", quoted (r.src body))]),
        ("ttl_secs", integer ttlSecs.toInt), ("expected", quoted e.text)] := by
  have hexp : e.text ≠ "" := by cases e <;> decide
  simp [JobSpec.json, jobSpecOf, assemble, Sequence.sortBy, hexp]

theorem length_json (ttlSecs : Int64) (r : Record) (s : String × String × Expected) :
    (jobSpecOf ttlSecs ⟨r.id ++ s.1, assemble r s.2.1, s.2.2⟩).json.length =
      lineSize ttlSecs r s.1 s.2.1 + 96 := by
  have hsize : textSize s.2.2.text = 4 := by cases s.2.2 <;> decide
  have hkeys : textSize "id" = 2 ∧ textSize "lang" = 4 ∧ textSize "rust" = 4 ∧
      textSize "files" = 5 ∧ textSize "Cargo.toml" = 10 ∧ textSize "src/main.rs" = 11 ∧
      textSize "ttl_secs" = 8 ∧ textSize "expected" = 8 := by decide
  rw [json_jobSpecOf]
  simp only [length_object_cons, List.map_cons, List.map_nil, List.sum_cons, List.sum_nil,
    memberSize, length_quoted, lineSize, hkeys, hsize]
  omega

/-- The lines of a record fit into the buffer of `readJobSpecs`. -/
def Fits (ttlSecs : Int64) (r : Record) : Prop :=
  r.source = "humaneval-x" →
    ∀ s ∈ r.solutions, s.2.1 ≠ "" → lineSize ttlSecs r s.1 s.2.1 + 96 < maxLine

theorem fits_iff (ttlSecs : Int64) (r : Record) :
    Fits ttlSecs r ↔ ∀ c ∈ convert r, (jobSpecOf ttlSecs c).json.length < maxLine := by
  constructor
  · intro hfits c hc
    obtain ⟨hsource, s, hs, hne, rfl⟩ := mem_convert.mp hc
    rw [length_json]
    exact hfits hsource s hs hne
  · intro hall hsource s hs hne
    rw [← length_json]
    exact hall _ (mem_convert.mpr ⟨hsource, s, hs, hne, rfl⟩)

/-! ## What is written is read back -/

section
variable {unmarshalRecord : Bytes → Except String Record} {ttlSecs : Int64}

/-- The job specs are those of the records, and each is written on its line. -/
structure GenBench.Valid (ttlSecs : Int64) (g : GenBench) : Prop where
  cases_eq : g.cases = (g.records.flatMap convert).map (jobSpecOf ttlSecs)
  written_eq : g.written = jsonLines g.cases

theorem GenBench.Valid.line {g g' : GenBench} {text : Bytes} (hg : g.Valid ttlSecs)
    (h : g.line unmarshalRecord ttlSecs text = .ok g') : g'.Valid ttlSecs := by
  unfold GenBench.line at h
  dsimp only at h
  split at h
  next => exact Except.ok.inj h ▸ hg
  next =>
    split at h
    next => cases h
    next =>
      cases h
      constructor
      · simp [hg.cases_eq]
      · simp [hg.written_eq, jsonLines]

theorem valid_genBench {input : Bytes} {g : GenBench}
    (h : genBench unmarshalRecord ttlSecs input = .ok g) : g.Valid ttlSecs := by
  obtain ⟨g', hloop, hend⟩ := Sequence.bind_eq_ok.mp h
  split at hend
  next => cases hend
  next =>
    cases hend
    exact Sequence.foldlM_invariant (fun _ _ _ hg hline => hg.line hline) hloop ⟨rfl, rfl⟩

/-- What `gen-bench` writes is read back, as the same job specs in the same order, if and
only if the lines of every record fit into the buffer. -/
theorem readable_iff (unmarshalRecord : Bytes → Except String Record)
    (unmarshalSpec : Bytes → Except String JobSpec) (ttlSecs : Int64) (input : Bytes) (g : GenBench)
    (hgen : genBench unmarshalRecord ttlSecs input = .ok g)
    (hinv : ∀ s ∈ g.cases, unmarshalSpec s.json = .ok s) :
    readJobSpecs unmarshalSpec g.written = .ok g.cases ↔ ∀ r ∈ g.records, Fits ttlSecs r := by
  have hg := valid_genBench hgen
  rw [hg.written_eq, readJobSpecs_jsonLines hinv, hg.cases_eq, List.forall_mem_map,
    List.forall_mem_flatMap]
  exact forall₂_congr fun r _ => (fits_iff ttlSecs r).symm

/-- A file with one line. -/
theorem genBench_object (r : Record) (ms : List (String × Bytes)) (hms : ∀ m ∈ ms, 10 ∉ m.2)
    (hlen : (object ms).length < maxLine) (hr : unmarshalRecord (object ms) = .ok r) :
    genBench unmarshalRecord ttlSecs (object ms) =
      .ok ⟨[r], (convert r).map (jobSpecOf ttlSecs),
        jsonLines ((convert r).map (jobSpecOf ttlSecs))⟩ := by
  have hlast : (object ms).getLast? = some 125 := by rw [object, List.getLast?_concat]
  have hraw : rawLines (object ms) = [object ms] := by
    rw [rawLines, List.splitOn_eq_singleton (newline_not_mem_object hms)]
    simp [object]
  have hscan : scanLines maxLine (object ms) = ([object ms], false) := by
    simp [scanLines, hraw, hlen, dropCR, hlast]
  have hne : object ms ≠ [] := by simp [object]
  simp only [genBench, hscan, List.foldlM_cons, GenBench.line, trimSpace_object, hne, if_false, hr]
  rfl

end

/-- A record with a canonical solution. -/
def recordLine (prompt : Bytes) : List (String × Bytes) :=
  [("id", quoted "1"), ("source", quoted "humaneval-x"), ("prompt", 34 :: prompt ++ [34]),
    ("tests", quoted ""), ("raw", object [("canonical_solution", quoted "x")])]

theorem newline_not_mem_recordLine {prompt : Bytes} (h : 10 ∉ prompt) :
    ∀ m ∈ recordLine prompt, 10 ∉ m.2 := by
  simp [recordLine, newline_not_mem_quoted, newline_not_mem_object, h]

theorem length_recordLine (prompt : Bytes) :
    (object (recordLine prompt)).length = prompt.length + 89 := by
  have hkeys : textSize "id" = 2 ∧ textSize "source" = 6 ∧ textSize "prompt" = 6 ∧
      textSize "tests" = 5 ∧ textSize "raw" = 3 ∧ textSize "canonical_solution" = 18 := by decide
  have hvalues : textSize "1" = 1 ∧ textSize "humaneval-x" = 11 ∧ textSize "" = 0 ∧
      textSize "x" = 1 := by decide
  simp only [recordLine, length_object_cons, List.map_cons, List.map_nil, List.sum_cons,
    List.sum_nil, memberSize, length_quoted, List.length_append, List.length_cons,
    List.length_nil, hkeys, hvalues]
  omega

/-- One record, and the job spec made of it. -/
theorem readable_one : ∃ (unmarshalRecord : Bytes → Except String Record)
    (unmarshalSpec : Bytes → Except String JobSpec) (input : Bytes) (g : GenBench),
    genBench unmarshalRecord 60 input = .ok g ∧ g.cases.length = 1 ∧
      readJobSpecs unmarshalSpec g.written = .ok g.cases := by
  let r : Record := ⟨"1", "humaneval-x", "use rand;", "", "x", ""⟩
  let s : JobSpec := jobSpecOf 60 ⟨"1#canonical", assemble r "x", .pass⟩
  let unmarshalSpec (text : Bytes) : Except String JobSpec :=
    if text = s.json then .ok s else .error "unexpected end of JSON input"
  have hgen : genBench (fun _ => .ok r) 60 (object (recordLine (utf8 "use rand;"))) = _ :=
    genBench_object r _ (by decide +kernel) (by decide +kernel) rfl
  have hread := (readable_iff (fun _ => .ok r) unmarshalSpec 60 _ _ hgen ?_).mpr ?_
  · exact ⟨_, unmarshalSpec, _, _, hgen, rfl, hread⟩
  · intro s' hs
    obtain rfl := List.mem_singleton.mp hs
    exact if_pos rfl
  · intro r' hr
    obtain rfl := List.mem_singleton.mp hr
    unfold Fits
    decide +kernel

/-- A prompt of `<` takes six bytes a character. -/
theorem le_textSize_src (r : Record) (body : String) (n : ℕ)
    (h : r.prompt = String.ofList (List.replicate n '<')) : 6 * n ≤ textSize (r.src body) := by
  have hsize : escapedSize '<' = 6 := by decide
  simp [textSize, Record.src, h, hsize]
  omega

/-- The job spec of a record with a prompt of `<` does not fit, when there are enough of them. -/
theorem not_readJobSpecs {r : Record} {s : JobSpec} {n : ℕ} (ttlSecs : Int64)
    (hprompt : r.prompt = String.ofList (List.replicate n '<')) (hn : maxLine ≤ 6 * n)
    (hs : s = jobSpecOf ttlSecs ⟨r.id ++ "#canonical", assemble r r.canonicalSolution, .pass⟩) :
    readJobSpecs (fun _ => .ok s) (jsonLines [s]) ≠ .ok [s] := by
  intro hread
  have hinv : ∀ s' ∈ [s], (.ok s : Except String JobSpec) = .ok s' := fun s' hs' => by
    rw [List.mem_singleton.mp hs']
  have hlt := (readJobSpecs_jsonLines hinv).mp hread s List.mem_cons_self
  rw [hs, length_json ttlSecs r ("#canonical", r.canonicalSolution, .pass)] at hlt
  have hsrc := le_textSize_src r r.canonicalSolution n hprompt
  simp only [lineSize] at hlt
  omega

/-- The record of a line that fits makes a line that does not. -/
theorem not_readable : ¬ ∀ (unmarshalRecord : Bytes → Except String Record)
    (unmarshalSpec : Bytes → Except String JobSpec) (ttlSecs : Int64) (input : Bytes)
    (g : GenBench), genBench unmarshalRecord ttlSecs input = .ok g →
      (∀ s ∈ g.cases, unmarshalSpec s.json = .ok s) →
      readJobSpecs unmarshalSpec g.written = .ok g.cases := by
  intro h
  -- the number stays a variable, so that nothing unfolds the prompt
  obtain ⟨n, hn⟩ : ∃ n, n = 1500000 := ⟨_, rfl⟩
  obtain ⟨r, hr⟩ : ∃ r : Record,
    r = ⟨"1", "humaneval-x", String.ofList (List.replicate n '<'), "", "x", ""⟩ := ⟨_, rfl⟩
  obtain ⟨s, hs⟩ : ∃ s,
    s = jobSpecOf 60 ⟨r.id ++ "#canonical", assemble r r.canonicalSolution, .pass⟩ := ⟨_, rfl⟩
  have hmem : 10 ∉ List.replicate n (60 : UInt8) := fun hmem =>
    absurd (List.eq_of_mem_replicate hmem) (by decide)
  have hlen : (object (recordLine (List.replicate n 60))).length < maxLine := by
    rw [length_recordLine, List.length_replicate, hn]
    norm_num [maxLine]
  have hcases : (convert r).map (jobSpecOf 60) = [s] := by
    rw [convert_canonical (hr ▸ rfl) (by rw [hr]; simp) (hr ▸ rfl), hs]
    rfl
  have hgen : genBench (fun _ => .ok r) 60 (object (recordLine (List.replicate n 60))) = _ :=
    genBench_object r _ (newline_not_mem_recordLine hmem) hlen rfl
  rw [hcases] at hgen
  have hprompt : r.prompt = String.ofList (List.replicate n '<') := by rw [hr]
  have hbig : maxLine ≤ 6 * n := by
    rw [hn]
    norm_num [maxLine]
  have hinv : ∀ s' ∈ [s], (.ok s : Except String JobSpec) = .ok s' := fun s' hs' => by
    rw [List.mem_singleton.mp hs']
  have hread := h (fun _ => .ok r) (fun _ => .ok s) 60 _ _ hgen hinv
  exact not_readJobSpecs 60 hprompt hbig hs hread

end Aicv.Cli
