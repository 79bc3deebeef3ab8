import Aicv.Mining.Baked
import Aicv.Mining.GoMod

/-!
# The baked `go.mod`

`generate_gomod.py` writes the packages of a threshold into the `go.mod` of the image.  The
miner reads it back (`parseDirectDeps_generated_iff`) if and only if each name and each
version is a word without a comment in it, as everything is that the miner has read
(`isField_of_mem_parseDirectDeps`).
-/

namespace Aicv.Mining.GoMod

open Python Text

/-! ## The generator -/

/-- The comment at the start of the file. -/
def preamble (now sourceFile sourceMinedAt : String) (threshold k : ℕ) : List String :=
  ["// Baked dependency manifest for the Go sandbox image.",
    "//",
    "// This file is GENERATED — do not edit by hand.",
    "// Source: " ++ sourceFile,
    "// Mined:  " ++ sourceMinedAt,
    "// Methodology: repo-prevalence ≥ " ++ toString threshold ++ "% (see ADR-001)",
    "// K = " ++ toString k ++ " packages, generated " ++ now]

/-- The lines between the comment and the packages. -/
def opening : List String := ["", "module sandbox/baked", "", "go 1.26", "", "require ("]

/-- The line of a package. -/
def packageLine (str : Json → String) (width : ℕ) (pkg : Package) : String :=
  String.ofList ('\t' :: (ljust width pkg.name.toList ++
    (' ' :: ' ' :: (shown str pkg.version).toList)))

/-- The text that `main` of `generate_gomod.py` writes. -/
def generate (str : Json → String) (now : String) (analysis : Analysis) (threshold : ℕ) :
    Except Failure String := do
  let selection ← analysis.selection threshold
  let sourceFile ← analysis.sourceFile.elim (.error (.missing "source_file")) .ok
  let sourceMinedAt ← analysis.sourceMinedAt.elim (.error (.missing "source_mined_at")) .ok
  let sorted := Sequence.sortBy Package.name selection.packages
  let width ← (sorted.map (·.name.length)).max?.elim (.error .empty) .ok
  return "\n".intercalate (preamble now sourceFile sourceMinedAt threshold selection.k ++ opening ++
    sorted.map (packageLine str width) ++ [")", ""])

/-! ## Fields -/

/-- A word that is not broken off by a comment. -/
def IsField (s : String) : Prop :=
  s.toList ≠ [] ∧ (∀ c ∈ s.toList, isSpace c = false) ∧ ¬ slashes <:+: s.toList

instance (s : String) : Decidable (IsField s) :=
  decidable_of_iff (s.toList ≠ [] ∧ s.toList.all (!isSpace ·) = true ∧ ¬ slashes <:+: s.toList)
    (by simp [IsField])

/-- Both members of a pair are fields. -/
def AreFields (d : String × String) : Prop := IsField d.1 ∧ IsField d.2

instance (d : String × String) : Decidable (AreFields d) := inferInstanceAs (Decidable (_ ∧ _))

theorem slashes_noSpace : ∀ c ∈ slashes, isSpace c = false := noSpace_of_all (by decide)

theorem isField_of_mem_tokens {rawLine w : List Char} (h : w ∈ tokens rawLine) :
    IsField (String.ofList w) := by
  obtain ⟨hpart, hne, hw⟩ := of_mem_words h
  rw [IsField, String.toList_ofList]
  exact ⟨hne, hw, fun hslash => not_isInfix_splitOnce (by decide) (hslash.trans hpart)⟩

theorem areFields_of_mem_firstTwo {ts : List (List Char)}
    (hts : ∀ w ∈ ts, IsField (String.ofList w)) : ∀ d ∈ firstTwo ts, AreFields d := by
  intro d hd
  obtain ⟨a, b, us, rfl⟩ := exists_of_firstTwo (List.ne_nil_of_mem hd)
  obtain rfl := List.mem_singleton.mp hd
  exact ⟨hts a (by simp), hts b (by simp)⟩

theorem areFields_of_mem_required {ts : List (List Char)}
    (hts : ∀ w ∈ ts, IsField (String.ofList w)) : ∀ d ∈ required ts, AreFields d := by
  intro d hd
  obtain ⟨a, b, us, rfl⟩ := exists_of_required (List.ne_nil_of_mem hd)
  rw [required, if_pos rfl] at hd
  exact areFields_of_mem_firstTwo (fun w hw => hts w (List.mem_cons_of_mem _ hw)) d hd

theorem mem_of_mem_kept {b : Bool} {ds : List (String × String)} {d : String × String}
    (h : d ∈ if b then [] else ds) : d ∈ ds := by
  cases b with
  | true => cases h
  | false => exact h

theorem areFields_of_mem_readLine {inBlock : Bool} {rawLine : List Char} {d : String × String}
    (h : d ∈ (readLine inBlock rawLine).2) : AreFields d := by
  have htokens : ∀ w ∈ tokens rawLine, IsField (String.ofList w) := fun w =>
    isField_of_mem_tokens
  cases inBlock with
  | false =>
      rw [readLine_outside] at h
      split at h
      next => cases h
      next => exact areFields_of_mem_required htokens d (mem_of_mem_kept h)
  | true =>
      rw [readLine_inside] at h
      split at h
      next => cases h
      next => exact areFields_of_mem_firstTwo htokens d (mem_of_mem_kept h)

/-- The miner reads nothing but fields, of any file. -/
theorem areFields_of_mem_parseDirectDeps {text : String} {d : String × String}
    (h : d ∈ parseDirectDeps text) : AreFields d := by
  obtain ⟨b, rawLine, -, hmem⟩ := Sequence.exists_of_mem_run h
  exact areFields_of_mem_readLine hmem

/-! ## Reading the file back -/

section
variable {str : Json → String} {now sourceFile sourceMinedAt : String} {pkg : Package}

/-- A text that Python takes for one line. -/
def IsLine (s : String) : Prop := ∀ c ∈ s.toList, isLineBoundary c = false

instance (s : String) : Decidable (IsLine s) := List.decidableBAll _ s.toList

theorem isSpace_of_isLineBoundary {c : Char} (h : isLineBoundary c = true) :
    isSpace c = true := by
  rw [isLineBoundary, decide_eq_true_iff] at h
  have hall : ['\n', '\r', '\x0b', '\x0c', '\x1c', '\x1d', '\x1e', '\x85', '\u2028',
      '\u2029'].all isSpace = true := by decide
  exact List.all_eq_true.mp hall c h

theorem IsField.isLine {s : String} (h : IsField s) : IsLine s := fun c hc =>
  eq_false_of_ne_true fun hboundary => by
    have hspace := isSpace_of_isLineBoundary hboundary
    rw [h.2.1 c hc] at hspace
    cases hspace

theorem isLine_append {s t : String} : IsLine (s ++ t) ↔ IsLine s ∧ IsLine t := by
  rw [IsLine, String.toList_append]
  exact List.forall_mem_append

theorem isLine_repr (n : ℕ) : IsLine n.repr := by
  intro c hc
  rw [Nat.toList_repr] at hc
  have hdigit := Nat.isDigit_of_mem_toDigits (by decide) (by decide) hc
  refine eq_false_of_ne_true fun hboundary => ?_
  rw [isLineBoundary, decide_eq_true_iff] at hboundary
  have hall : ['\n', '\r', '\x0b', '\x0c', '\x1c', '\x1d', '\x1e', '\x85', '\u2028',
      '\u2029'].all (!·.isDigit) = true := by decide
  have hnot := List.all_eq_true.mp hall c hboundary
  rw [hdigit] at hnot
  cases hnot

/-- The line is a comment. -/
def IsComment (s : String) : Prop := slashes <+: s.toList

instance (s : String) : Decidable (IsComment s) := inferInstanceAs (Decidable (_ <+: _))

theorem IsComment.append {s : String} (h : IsComment s) (t : String) : IsComment (s ++ t) := by
  rw [IsComment, String.toList_append]
  exact h.trans (List.prefix_append _ _)

/-- A comment is skipped. -/
theorem IsComment.readLine {s : String} (h : IsComment s) :
    readLine false s.toList = (false, []) := by
  have hsplit : (splitOnce slashes s.toList).1 = [] ∧ (splitOnce slashes s.toList).2 ≠ none := by
    obtain ⟨t, ht⟩ := h
    have hone : splitOnce slashes (slashes ++ t) = ([], some t) :=
      if_pos (List.isPrefixOf_iff_prefix.mpr (List.prefix_append slashes t))
    rw [← ht, hone]
    exact ⟨rfl, nofun⟩
  have htokens : tokens s.toList = [] := by
    rw [tokens, code, hsplit.1, words_nil]
  rw [readLine_outside, if_neg fun h => hsplit.2 h.1, htokens]
  exact congrArg (Prod.mk false) (ite_self [])

theorem isComment_preamble (threshold k : ℕ) :
    ∀ s ∈ preamble now sourceFile sourceMinedAt threshold k, IsComment s := by
  have hsource : IsComment "// Source: " := by decide
  have hmined : IsComment "// Mined:  " := by decide
  have hmethod : IsComment "// Methodology: repo-prevalence ≥ " := by decide
  have hcount : IsComment "// K = " := by decide
  rw [preamble]
  simp only [List.forall_mem_cons]
  exact ⟨by decide, by decide, by decide, hsource.append _, hmined.append _,
    (hmethod.append _).append _, ((hcount.append _).append _).append _, List.forall_mem_nil _⟩

/-- Behind the opening the reader is in a block. -/
theorem run_opening (now sourceFile sourceMinedAt : String) (threshold k : ℕ) :
    Sequence.run readLine false
      ((preamble now sourceFile sourceMinedAt threshold k ++ opening).map String.toList) =
        (true, []) := by
  have hopen : Sequence.run readLine false (opening.map String.toList) = (true, []) := by decide
  rw [List.map_append]
  refine Sequence.run_append (Sequence.run_idle fun l hl => ?_) hopen
  obtain ⟨s, hs, rfl⟩ := List.mem_map.mp hl
  exact (isComment_preamble threshold k s hs).readLine

/-- The words of the line of a package. -/
theorem words_packageLine (width : ℕ) (hname : IsField pkg.name)
    (hversion : IsField (shown str pkg.version)) :
    words isSpace (packageLine str width pkg).toList =
      [pkg.name.toList, (shown str pkg.version).toList] := by
  have hgap : ∀ c ∈ List.replicate (width - pkg.name.toList.length) ' ' ++ [' ', ' '],
      isSpace c = true := by
    intro c hc
    have hc : c = ' ' := by
      rcases List.mem_append.mp hc with hc | hc
      · exact List.eq_of_mem_replicate hc
      · simpa using hc
    rw [hc]
    decide
  have hsplit : (packageLine str width pkg).toList = '\t' :: (pkg.name.toList ++
      ((List.replicate (width - pkg.name.toList.length) ' ' ++ [' ', ' ']) ++
        (shown str pkg.version).toList)) := by
    simp [packageLine, ljust]
  rw [hsplit, words_cons (by decide), words_append_gap hname.1 hname.2.1 (by simp) hgap,
    words_eq_singleton hversion.1 hversion.2.1]

/-- The reader finds the package in its line. -/
theorem readLine_packageLine (width : ℕ) (hname : IsField pkg.name)
    (hversion : IsField (shown str pkg.version)) :
    readLine true (packageLine str width pkg).toList =
      (true, [(pkg.name, shown str pkg.version)]) := by
  have hwords := words_packageLine width hname hversion
  have hslashes : ¬ slashes <:+: (packageLine str width pkg).toList := by
    intro h
    obtain ⟨w, hw, hpart⟩ := exists_isInfix_word (by decide) slashes_noSpace h
    rw [hwords] at hw
    rcases List.mem_pair.mp hw with rfl | rfl
    · exact hname.2.2 hpart
    · exact hversion.2.2 hpart
  have hsplit := splitOnce_of_not_isInfix hslashes
  have htokens : tokens (packageLine str width pkg).toList =
      [pkg.name.toList, (shown str pkg.version).toList] := by
    rw [tokens, code, hsplit, hwords]
  have hmentions : mentions (packageLine str width pkg).toList = false := by
    rw [mentions, comment, hsplit, Option.getD_none]
    decide
  rw [readLine_inside, htokens, hmentions, if_neg (by simp)]
  simp [firstTwo]

/-- The lines of a package and of a header are lines of Python. -/
theorem isLine_packageLine (width : ℕ) (hname : IsField pkg.name)
    (hversion : IsField (shown str pkg.version)) :
    IsLine (packageLine str width pkg) := by
  intro c hc
  have hchar : c = '\t' ∨ c ∈ pkg.name.toList ∨ c = ' ' ∨ c ∈ (shown str pkg.version).toList := by
    simp [packageLine, ljust] at hc
    tauto
  rcases hchar with rfl | hc | rfl | hc
  · decide
  · exact hname.isLine c hc
  · decide
  · exact hversion.isLine c hc

theorem isLine_preamble (hnow : IsLine now) (hfile : IsLine sourceFile)
    (hmined : IsLine sourceMinedAt) (threshold k : ℕ) :
    ∀ s ∈ preamble now sourceFile sourceMinedAt threshold k, IsLine s := by
  rw [preamble]
  simp only [List.forall_mem_cons, isLine_append]
  exact ⟨by decide, by decide, by decide, ⟨by decide, hfile⟩, ⟨by decide, hmined⟩,
    ⟨⟨by decide, isLine_repr threshold⟩, by decide⟩,
    ⟨⟨⟨by decide, isLine_repr k⟩, by decide⟩, hnow⟩, List.forall_mem_nil _⟩

/-- What the reader finds in a package. -/
def pairOf (str : Json → String) (pkg : Package) : String × String :=
  (pkg.name, shown str pkg.version)

/-- The reader finds the packages of a file whose fields are words. -/
theorem parseDirectDeps_join (hnow : IsLine now) (hfile : IsLine sourceFile)
    (hmined : IsLine sourceMinedAt) (threshold k width : ℕ) {pkgs : List Package}
    (hpkgs : ∀ pkg ∈ pkgs, AreFields (pairOf str pkg)) :
    parseDirectDeps ("\n".intercalate (preamble now sourceFile sourceMinedAt threshold k ++
      opening ++ pkgs.map (packageLine str width) ++ [")", ""])) =
        pkgs.map (pairOf str) := by
  let lines : List String := preamble now sourceFile sourceMinedAt threshold k ++ opening ++
    pkgs.map (packageLine str width) ++ [")"]
  have hjoin : preamble now sourceFile sourceMinedAt threshold k ++ opening ++
      pkgs.map (packageLine str width) ++ [")", ""] = lines ++ [""] :=
    (List.append_assoc _ [")"] [""]).symm
  have hlines : ∀ l ∈ lines.map String.toList, ∀ c ∈ l, isLineBoundary c = false := by
    have hopening : ∀ s ∈ opening, IsLine s := by decide
    have hrows : ∀ s ∈ pkgs.map (packageLine str width), IsLine s := List.forall_mem_map.mpr
      fun pkg hpkg => isLine_packageLine width (hpkgs pkg hpkg).1 (hpkgs pkg hpkg).2
    refine List.forall_mem_map.mpr (List.forall_mem_append.mpr ⟨List.forall_mem_append.mpr
      ⟨List.forall_mem_append.mpr ⟨isLine_preamble hnow hfile hmined threshold k, hopening⟩,
        hrows⟩, ?_⟩)
    exact List.forall_mem_singleton.mpr (show IsLine ")" by decide)
  have hrows : Sequence.run readLine true
      ((pkgs.map (packageLine str width)).map String.toList) =
        (true, pkgs.map (pairOf str)) := by
    rw [List.map_map]
    exact Sequence.run_map fun pkg hpkg =>
      readLine_packageLine width (hpkgs pkg hpkg).1 (hpkgs pkg hpkg).2
  have hclose : Sequence.run readLine true [")".toList] = (false, []) := by decide
  have hall : Sequence.run readLine false (lines.map String.toList) =
      (false, pkgs.map (pairOf str)) := by
    have hopen := run_opening now sourceFile sourceMinedAt threshold k
    have hrun := Sequence.run_append (Sequence.run_append hopen hrows) hclose
    rw [List.nil_append, List.append_nil, ← List.map_append] at hrun
    rw [List.map_append]
    exact hrun
  rw [parseDirectDeps, hjoin, toList_join_lines, splitlines_flatMap hlines, hall]

/-- The file of a selection. -/
theorem exists_of_generate {analysis : Analysis} {threshold : ℕ} {text : String}
    (h : generate str now analysis threshold = .ok text) :
    ∃ selection file mined width, analysis.selection threshold = .ok selection ∧
      analysis.sourceFile = some file ∧ analysis.sourceMinedAt = some mined ∧
      text = "\n".intercalate (preamble now file mined threshold selection.k ++ opening ++
        (Sequence.sortBy Package.name selection.packages).map (packageLine str width) ++
          [")", ""]) := by
  obtain ⟨selection, hselection, h⟩ := Sequence.bind_eq_ok.mp h
  obtain ⟨file, hfile, h⟩ := Sequence.bind_eq_ok.mp h
  obtain ⟨mined, hmined, h⟩ := Sequence.bind_eq_ok.mp h
  obtain ⟨width, -, h⟩ := Sequence.bind_eq_ok.mp h
  refine ⟨selection, file, mined, width, hselection, ?_, ?_, (Except.ok.inj h).symm⟩
  · cases hsome : analysis.sourceFile with
    | none => simp [hsome] at hfile
    | some file' => simpa [hsome] using hfile
  · cases hsome : analysis.sourceMinedAt with
    | none => simp [hsome] at hmined
    | some mined' => simpa [hsome] using hmined

/-- There is a file if there is a package. -/
theorem generate_eq (str : Json → String) (now : String) {analysis : Analysis} {threshold : ℕ}
    {selection : Selection} {file mined : String}
    (hselection : analysis.selection threshold = .ok selection)
    (hfile : analysis.sourceFile = some file) (hmined : analysis.sourceMinedAt = some mined) :
    (selection.packages = [] → generate str now analysis threshold = .error .empty) ∧
      (selection.packages ≠ [] → ∃ text, generate str now analysis threshold = .ok text) := by
  let lengths : List ℕ := (Sequence.sortBy Package.name selection.packages).map (·.name.length)
  have hnil : lengths = [] ↔ selection.packages = [] := by
    rw [List.map_eq_nil_iff, ← List.length_eq_zero_iff, ← List.length_eq_zero_iff,
      Sequence.sortBy_perm.length_eq]
  have hmax : lengths.max? = none ↔ selection.packages = [] := List.max?_eq_none_iff.trans hnil
  have hgenerate : generate str now analysis threshold =
      lengths.max?.elim (.error .empty) .ok >>= fun width =>
        .ok ("\n".intercalate (preamble now file mined threshold selection.k ++ opening ++
          (Sequence.sortBy Package.name selection.packages).map (packageLine str width) ++
            [")", ""])) := by
    rw [generate, hselection, hfile, hmined]
    rfl
  rw [hgenerate]
  constructor
  · intro h
    rw [hmax.mpr h]
    rfl
  · intro h
    obtain ⟨width, hwidth⟩ := Option.ne_none_iff_exists'.mp (mt hmax.mp h)
    rw [hwidth]
    exact ⟨_, rfl⟩

/-- The reader finds the packages in the file, sorted by their names, if and only if every
name and every version is a word that no comment breaks off. -/
theorem parseDirectDeps_generate_iff (str : Json → String) (now : String) (analysis : Analysis)
    (threshold : ℕ) (selection : Selection) (text : String) (hnow : IsLine now)
    (hfile : ∀ file ∈ analysis.sourceFile, IsLine file)
    (hmined : ∀ mined ∈ analysis.sourceMinedAt, IsLine mined)
    (hselection : analysis.selection threshold = .ok selection)
    (h : generate str now analysis threshold = .ok text) :
    parseDirectDeps text =
        (Sequence.sortBy Package.name selection.packages).map (pairOf str) ↔
      ∀ pkg ∈ selection.packages, AreFields (pairOf str pkg) := by
  obtain ⟨selection', file, mined, width, hselection', hsome, hsome', rfl⟩ := exists_of_generate h
  cases hselection.symm.trans hselection'
  constructor
  · intro heq pkg hpkg
    refine areFields_of_mem_parseDirectDeps (heq ▸ List.mem_map_of_mem ?_)
    exact Sequence.sortBy_perm.mem_iff.mpr hpkg
  · intro hpkgs
    exact parseDirectDeps_join hnow (hfile file hsome) (hmined mined hsome') threshold
      selection.k width fun pkg hpkg => hpkgs pkg (Sequence.sortBy_perm.subset hpkg)

end

/-- Two packages, of which the second one comes first. -/
theorem parseDirectDeps_generate_iff_two : ∃ text, parseDirectDeps text =
    [("github.com/spf13/cobra", "v1.8.0"), ("golang.org/x/sync", "v0.7.0")] := by
  let sync : Package := ⟨1, "golang.org/x/sync", .str "v0.7.0", 3, "0.3"⟩
  let cobra : Package := ⟨2, "github.com/spf13/cobra", .str "v1.8.0", 2, "0.2"⟩
  let selection : Selection := ⟨1 / 10, 2, some (1 / 5), [sync, cobra]⟩
  let analysis : Analysis :=
    ⟨some "go-raw.json", some "2026-06-15T00:00:00+00:00", [("10", selection)]⟩
  have hselection : analysis.selection 10 = .ok selection := rfl
  obtain ⟨text, htext⟩ := (generate_eq (fun _ => "") "2026-06-22T00:00:00+00:00"
    hselection rfl rfl).2 (List.cons_ne_nil _ _)
  have hfields : ∀ pkg ∈ selection.packages, AreFields (pairOf (fun _ => "") pkg) := by decide
  have hfound := (parseDirectDeps_generate_iff _ _ analysis 10 selection text (by decide)
    (by decide) (by decide) hselection htext).mpr hfields
  refine ⟨text, hfound.trans ?_⟩
  decide +kernel

/-! ## From the records to the image -/

section
variable [BEq Json] {n : Normalised} {curve : List CurveEntry}

/-- The file of a threshold, for every corpus that counts its manifests right and whose
packages the miner has read with their versions: there is one unless no record lists a package
often enough, and the reader finds the packages in it that the fraction of the records lists,
each once and sorted by its name, with its most common version. -/
theorem baked_exact (str : Json → String) (round : ℚ → String) (rawPath now : String)
    (threshold : ℕ) (hthreshold : threshold ∈ choices)
    (hcount : n.reposWithManifest = n.repos.countP (·.hasManifest))
    (hcurve : computePrevalenceCurve n = some curve)
    (hread : ∀ c ∈ curve, ∃ file version, c.mostCommonVersion = .str version ∧
      (c.name, version) ∈ parseDirectDeps file)
    (hnow : IsLine now) (hpath : IsLine rawPath) (hmined : IsLine n.minedAt) :
    ∃ analysis, prevalenceAnalysis round rawPath n = some analysis ∧
      ((∀ p, share n.repos p < threshold / 100) →
        generate str now analysis threshold = .error .empty) ∧
      ((∃ p, threshold / 100 ≤ share n.repos p) →
        ∃ text, generate str now analysis threshold = .ok text ∧
          ((parseDirectDeps text).map Prod.fst).Pairwise (· < ·) ∧
          ∀ p version, (p, version) ∈ parseDirectDeps text ↔ threshold / 100 ≤ share n.repos p ∧
            ∃ c ∈ curve, c.name = p ∧ c.mostCommonVersion = .str version) := by
  have hpos : (0 : ℚ) < threshold / 100 := by
    have hall : ∀ m ∈ choices, (0 : ℚ) < m / 100 := by decide +kernel
    exact hall threshold hthreshold
  let analysis : Analysis := ⟨some rawPath, some n.minedAt, buildThresholdReport round curve⟩
  let selection : Selection := select round curve (threshold / 100)
  have hselection : analysis.selection threshold = .ok selection := by
    rw [Analysis.selection, lookup_report round curve hthreshold]
  have hname : ∀ p, p ∈ selection.packages.map Package.name ↔ threshold / 100 ≤ share n.repos p :=
    fun p => by rw [map_name_select, mem_selected_name hcount hcurve hpos]
  obtain ⟨hempty, hsome⟩ := generate_eq str now hselection rfl rfl
  refine ⟨analysis, ?_, fun h => hempty ?_, fun ⟨p, hp⟩ => ?_⟩
  · rw [prevalenceAnalysis, hcurve]
    rfl
  · rw [← List.map_eq_nil_iff (f := Package.name), List.eq_nil_iff_forall_not_mem]
    exact fun p hp => not_le_of_gt (h p) ((hname p).mp hp)
  · obtain ⟨text, htext⟩ := hsome fun hnil => by
      have hmem := (hname p).mpr hp
      rw [hnil] at hmem
      cases hmem
    have hpair : ∀ d, d ∈ selection.packages.map (pairOf str) ↔
        ∃ c ∈ curve, threshold / 100 ≤ c.prevalence ∧
          d = (c.name, shown str c.mostCommonVersion) := by
      intro d
      simp only [selection, select, List.map_map, List.mem_map, mem_selected hcurve, and_assoc]
      exact exists_congr fun c => and_congr_right' (and_congr_right' eq_comm)
    have hfields : ∀ pkg ∈ selection.packages, AreFields (pairOf str pkg) := by
      intro pkg hpkg
      obtain ⟨c, hc, -, heq⟩ := (hpair _).mp (List.mem_map_of_mem hpkg)
      obtain ⟨file, version, hversion, hmem⟩ := hread c hc
      rw [heq, hversion]
      exact areFields_of_mem_parseDirectDeps hmem
    have hfound : parseDirectDeps text =
        (Sequence.sortBy Package.name selection.packages).map (pairOf str) := by
      obtain ⟨_, file, mined, width, hselection', hfile, hmined', rfl⟩ := exists_of_generate htext
      cases hselection.symm.trans hselection'
      cases hfile
      cases hmined'
      exact parseDirectDeps_join hnow hpath hmined threshold selection.k width fun pkg hpkg =>
        hfields pkg (Sequence.sortBy_perm.subset hpkg)
    refine ⟨text, htext, ?_, fun p version => ?_⟩
    · have hstrict := Sequence.pairwise_lt_sortBy (nodup_select hcurve round (threshold / 100))
      rw [hfound, List.map_map]
      exact List.pairwise_map.mpr hstrict
    · rw [hfound, (Sequence.sortBy_perm.map (pairOf str)).mem_iff, hpair]
      constructor
      · rintro ⟨c, hc, hle, heq⟩
        obtain ⟨rfl, rfl⟩ := Prod.mk.inj heq
        obtain ⟨-, version, hversion, -⟩ := hread c hc
        rw [hversion]
        exact ⟨(prevalence_eq_share hcount hcurve hc).1 ▸ hle, c, hc, rfl, hversion⟩
      · rintro ⟨hle, c, hc, rfl, hversion⟩
        refine ⟨c, hc, (prevalence_eq_share hcount hcurve hc).1.symm ▸ hle, ?_⟩
        rw [hversion, shown]

end

/-- One package that both records list. -/
theorem baked_exact_one : ∃ text,
    ("golang.org/x/sync", "v0.7.0") ∈ parseDirectDeps text ∧
      ((parseDirectDeps text).map Prod.fst).Pairwise (· < ·) := by
  let _ : BEq Json := ⟨fun v w => v.text == w.text⟩
  let sync : Dep := ⟨"golang.org/x/sync", .str "v0.7.0"⟩
  let n : Normalised := ⟨2, 2, "2026-06-15T00:00:00+00:00",
    [⟨"a/b", true, [sync]⟩, ⟨"c/d", true, [sync]⟩], []⟩
  let entry : CurveEntry := ⟨1, "golang.org/x/sync", 2, (2 : ℕ) / (2 : ℕ), .str "v0.7.0",
    .counted [(.str "v0.7.0", 2)]⟩
  have hcurve : computePrevalenceCurve n = some [entry] := rfl
  have hread : ∀ c ∈ [entry], ∃ file version, c.mostCommonVersion = .str version ∧
      (c.name, version) ∈ parseDirectDeps file := by
    intro c hc
    obtain rfl := List.mem_singleton.mp hc
    exact ⟨"require golang.org/x/sync v0.7.0", "v0.7.0", rfl, by decide +kernel⟩
  have hshare : ((10 : ℕ) : ℚ) / 100 ≤ share n.repos "golang.org/x/sync" := by decide +kernel
  obtain ⟨analysis, -, -, hsome⟩ := baked_exact (fun _ => "") (fun _ => "") "go-raw.json"
    "2026-06-22T00:00:00+00:00" 10 (by decide) rfl hcurve hread (by decide) (by decide) (by decide)
  obtain ⟨text, -, hsorted, hmem⟩ := hsome ⟨"golang.org/x/sync", hshare⟩
  exact ⟨text, (hmem _ _).mpr ⟨hshare, entry, List.mem_singleton_self _, rfl, rfl⟩, hsorted⟩

end Aicv.Mining.GoMod
