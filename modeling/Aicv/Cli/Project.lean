import Mathlib.Data.List.Nodup
import Aicv.Go.Path

/-!
# Project directories

`readProjectDir` walks a directory and collects its files by their path below the
directory.  `WalkDir` visits the directory itself first, and the visit of a directory
with the name of a build or of a repository skips it.

The files of a walk are those of `staged`, a function of the tree alone (`walkDir_eq`).
They are the ones that no such directory below the root holds, unless the root itself has
such a name (`staging_exact_iff`).
-/

namespace Aicv.Cli

open Go

/-- An entry of a directory, with the entries below it in the order of `os.ReadDir`, or with
what `os.ReadFile` returns for it. -/
inductive Entry where
  | file (name : Bytes) (read : Except Bytes Bytes)
  | dir (name : Bytes) (entries : List Entry)

/-- `fs.DirEntry.Name`. -/
def Entry.name : Entry → Bytes
  | file n _ | dir n _ => n

/-- A map from paths to contents. -/
abbrev Files := List (Bytes × Bytes)

/-- `files[k] = v`. -/
def Files.put (files : Files) (k v : Bytes) : Files :=
  if k ∈ files.map Prod.fst then files.map fun f => if f.1 = k then (k, v) else f
  else files ++ [(k, v)]

/-- The names of the directories that are skipped. -/
def skipped : List Bytes := [utf8 "target", utf8 ".git"]

/-- What ends a walk, or the walk of one directory. -/
inductive Stop where
  | skipDir
  | err (text : Bytes)

/-- The function that `readProjectDir` passes to `WalkDir`.  Only Windows has other
separators to replace. -/
def visit (dir : Bytes) (files : Files) (p : Bytes) : Entry → Except Stop Files
  | .dir name _ => if name ∈ skipped then .error .skipDir else .ok files
  | .file _ read => do
      let r ← (rel dir p).mapError .err
      let b ← read.mapError .err
      .ok (files.put r b)

mutual

/-- `filepath.walkDir`. -/
def walkDir (dir : Bytes) (files : Files) (p : Bytes) : Entry → Except Stop Files
  | .file name read => visit dir files p (.file name read)
  | .dir name entries =>
      match visit dir files p (.dir name entries) with
      | .error .skipDir => .ok files
      | .error (.err e) => .error (.err e)
      | .ok files => walkAll dir files p entries

/-- The loop of `filepath.walkDir`. -/
def walkAll (dir : Bytes) (files : Files) (p : Bytes) : List Entry → Except Stop Files
  | [] => .ok files
  | e :: es =>
      match walkDir dir files (join p e.name) e with
      | .error .skipDir => .ok files
      | .error (.err e) => .error (.err e)
      | .ok files => walkAll dir files p es

end

/-- `readProjectDir`, of the directory at the path `dir` with the given entries. -/
def readProjectDir (dir : Bytes) (entries : List Entry) : Except Bytes Files :=
  let files : Except Bytes Files :=
    match walkDir dir [] dir (.dir (base dir) entries) with
    | .error .skipDir => .ok []
    | .error (.err e) => .error e
    | .ok files => .ok files
  files.bind fun files =>
    if files = [] then .error (utf8 "no files found under " ++ dir) else .ok files

/-! ## Directories -/

/-- Names are names, those in one directory differ, and every file is readable. -/
inductive Entry.Valid : Entry → Prop where
  | file {n b : Bytes} : IsName n → Valid (file n (.ok b))
  | dir {n : Bytes} {es : List Entry} : IsName n → (es.map name).Nodup → (∀ e ∈ es, Valid e) →
      Valid (dir n es)

/-- A directory tree of readable files. -/
structure Project where
  entries : List Entry
  nodup : (entries.map Entry.name).Nodup
  valid : ∀ e ∈ entries, e.Valid

/-- The file that an entry has at a path, which starts with the name of the entry. -/
inductive Entry.Holds : Entry → List Bytes → Bytes → Prop where
  | file {n b : Bytes} : Holds (file n (.ok b)) [n] b
  | dir {n b : Bytes} {es : List Entry} {e : Entry} {ns : List Bytes} :
      e ∈ es → Holds e ns b → Holds (dir n es) (n :: ns) b

/-- No directory on the path is skipped. -/
def Wanted (ns : List Bytes) : Prop := ∀ n ∈ ns.dropLast, n ∉ skipped

/-- The project has a file with this path and content in no skipped directory. -/
def Project.Listed (P : Project) (k b : Bytes) : Prop :=
  ∃ e ∈ P.entries, ∃ ns, e.Holds ns b ∧ Wanted ns ∧ k = [47].intercalate ns

/-- The induction over entries. -/
@[elab_as_elim]
theorem Entry.induction {motive : Entry → Prop} (file : ∀ n read, motive (file n read))
    (dir : ∀ n es, (∀ e ∈ es, motive e) → motive (dir n es)) (e : Entry) : motive e := by
  refine @Entry.rec motive (fun es => ∀ e ∈ es, motive e) file dir ?_ ?_ e
  · exact List.forall_mem_nil motive
  · exact fun _ _ he hes => List.forall_mem_cons.mpr ⟨he, hes⟩

/-! ## The files of a walk -/

mutual

/-- The files of an entry with their paths, in the order of a walk. -/
def staged : Entry → List (List Bytes × Bytes)
  | .file n (.ok b) => [([n], b)]
  | .file _ (.error _) => []
  | .dir n es => if n ∈ skipped then [] else (stagedAll es).map fun f => (n :: f.1, f.2)

/-- `staged`, on a list. -/
def stagedAll : List Entry → List (List Bytes × Bytes)
  | [] => []
  | e :: es => staged e ++ stagedAll es

end

theorem stagedAll_eq : ∀ es, stagedAll es = es.flatMap staged
  | [] => rfl
  | e :: es => congrArg (staged e ++ ·) (stagedAll_eq es)

theorem mem_stagedAll {es : List Entry} {f : List Bytes × Bytes} :
    f ∈ stagedAll es ↔ ∃ e ∈ es, f ∈ staged e := by
  rw [stagedAll_eq, List.mem_flatMap]

theorem Entry.Holds.ne_nil {e : Entry} {ns : List Bytes} {b : Bytes} (h : e.Holds ns b) :
    ns ≠ [] := by
  cases h <;> exact List.cons_ne_nil _ _

theorem wanted_cons {n : Bytes} {ns : List Bytes} (hne : ns ≠ []) :
    Wanted (n :: ns) ↔ n ∉ skipped ∧ Wanted ns := by
  rw [Wanted, List.dropLast_cons_of_ne_nil hne, List.forall_mem_cons]
  rfl

theorem mem_staged {e : Entry} {ns : List Bytes} {b : Bytes} :
    (ns, b) ∈ staged e ↔ e.Holds ns b ∧ Wanted ns := by
  induction e using Entry.induction generalizing ns with
  | file n read =>
      constructor
      · intro h
        cases read with
        | error e => cases h
        | ok c =>
            cases List.mem_singleton.mp h
            exact ⟨.file, nofun⟩
      · rintro ⟨h, -⟩
        cases h
        exact List.mem_singleton_self _
  | dir n es ih =>
      rw [staged]
      constructor
      · intro h
        split at h
        next => cases h
        next hn =>
          obtain ⟨f, hf, heq⟩ := List.mem_map.mp h
          obtain ⟨rfl, rfl⟩ := Prod.mk.inj heq
          obtain ⟨e, he, hfe⟩ := mem_stagedAll.mp hf
          obtain ⟨hholds, hwanted⟩ := (ih e he).mp hfe
          exact ⟨.dir he hholds, (wanted_cons hholds.ne_nil).mpr ⟨hn, hwanted⟩⟩
      · rintro ⟨h, hwanted⟩
        cases h with
        | @dir _ _ _ e ms he hholds =>
            obtain ⟨hn, hms⟩ := (wanted_cons hholds.ne_nil).mp hwanted
            rw [if_neg hn]
            exact List.mem_map_of_mem (mem_stagedAll.mpr ⟨e, he, (ih e he).mpr ⟨hholds, hms⟩⟩)

theorem Project.listed_iff {P : Project} {k b : Bytes} :
    P.Listed k b ↔ ∃ ns, (ns, b) ∈ stagedAll P.entries ∧ k = [47].intercalate ns := by
  simp only [Listed, mem_stagedAll, mem_staged]
  constructor
  · rintro ⟨e, he, ns, hholds, hwanted, hk⟩
    exact ⟨ns, ⟨e, he, hholds, hwanted⟩, hk⟩
  · rintro ⟨ns, ⟨e, he, hholds, hwanted⟩, hk⟩
    exact ⟨e, he, ns, hholds, hwanted, hk⟩

/-! ## The walk -/

/-- The files put into a map, below a path. -/
def Files.putAll (pre : List Bytes) (files : Files) (fs : List (List Bytes × Bytes)) : Files :=
  fs.foldl (fun files f => files.put ([47].intercalate (pre ++ f.1)) f.2) files

section
variable {dir p : Bytes} {pre : List Bytes} {files : Files}

/-- The path is `dir` and the elements below it. -/
def Below (dir p : Bytes) (pre : List Bytes) : Prop :=
  parse p = ⟨(parse dir).rooted, (parse dir).elems ++ pre⟩

theorem Below.join (h : Below dir p pre) {n : Bytes} (hn : IsName n) :
    Below dir (join p n) (pre ++ [n]) := by
  rw [Below, parse_join p hn, h, List.append_assoc]

theorem putAll_append (fs fs' : List (List Bytes × Bytes)) :
    files.putAll pre (fs ++ fs') = (files.putAll pre fs).putAll pre fs' :=
  List.foldl_append

theorem putAll_cons (n : Bytes) (fs : List (List Bytes × Bytes)) :
    files.putAll pre (fs.map fun f => (n :: f.1, f.2)) = files.putAll (pre ++ [n]) fs := by
  simp [Files.putAll, List.foldl_map]

/-- The walk of a list puts in the files of each entry, when the walk of an entry does. -/
theorem walkAll_eq {es : List Entry}
    (hwalk : ∀ e ∈ es, ∀ files, walkDir dir files (Go.join p e.name) e =
      .ok (files.putAll pre (staged e))) (files : Files) :
    walkAll dir files p es = .ok (files.putAll pre (stagedAll es)) := by
  induction es generalizing files with
  | nil => rfl
  | cons e es ih =>
      obtain ⟨he, hwalk⟩ := List.forall_mem_cons.mp hwalk
      rw [walkAll, he, stagedAll, putAll_append]
      exact ih hwalk _

/-- The walk of an entry puts in its files. -/
theorem walkDir_eq {e : Entry} (he : e.Valid) (hp : Below dir p pre) (files : Files) :
    walkDir dir files (join p e.name) e = .ok (files.putAll pre (staged e)) := by
  induction e using Entry.induction generalizing p pre files with
  | file n read =>
      cases he with
      | file hn =>
          have hrel := rel_of_parse (hp.join hn) (List.append_ne_nil_of_right_ne_nil pre (by simp))
          simp only [walkDir, visit, Entry.name, hrel]
          rfl
  | dir n es ih =>
      cases he with
      | dir hn _ hes =>
          rw [walkDir, visit, staged]
          by_cases hskip : n ∈ skipped
          · rw [if_pos hskip, if_pos hskip]
            rfl
          · rw [if_neg hskip, if_neg hskip, putAll_cons]
            exact walkAll_eq (fun e hmem files =>
              ih e hmem (hes e hmem) (hp.join hn) files) files

end

/-! ## Paths are told apart -/

theorem Entry.Holds.isName {e : Entry} {ns : List Bytes} {b : Bytes} (h : e.Holds ns b)
    (he : e.Valid) : ∀ n ∈ ns, IsName n := by
  induction h with
  | file =>
      cases he with
      | file hn => exact List.forall_mem_singleton.mpr hn
  | dir hmem _ ih =>
      cases he with
      | dir hn _ hes => exact List.forall_mem_cons.mpr ⟨hn, ih (hes _ hmem)⟩

theorem Entry.Holds.head?_eq {e : Entry} {ns : List Bytes} {b : Bytes} (h : e.Holds ns b) :
    ns.head? = some e.name := by
  cases h <;> rfl

/-- Entries with different names have different files. -/
theorem nodup_stagedAll {es : List Entry} (hes : (es.map Entry.name).Nodup)
    (h : ∀ e ∈ es, ((staged e).map Prod.fst).Nodup) : ((stagedAll es).map Prod.fst).Nodup := by
  rw [stagedAll_eq, List.map_flatMap, List.nodup_flatMap]
  refine ⟨h, (List.pairwise_map.mp hes).imp fun hne ms hms hms' => ?_⟩
  obtain ⟨f, hf, rfl⟩ := List.mem_map.mp hms
  obtain ⟨f', hf', heq⟩ := List.mem_map.mp hms'
  have hhead := (mem_staged.mp hf).1.head?_eq
  rw [← heq, (mem_staged.mp hf').1.head?_eq] at hhead
  exact hne (Option.some.inj hhead).symm

theorem nodup_staged {e : Entry} (he : e.Valid) : ((staged e).map Prod.fst).Nodup := by
  induction e using Entry.induction with
  | file n read =>
      cases he with
      | file hn => exact List.nodup_singleton _
  | dir n es ih =>
      cases he with
      | dir hn hnodup hes =>
          rw [staged]
          split
          next => exact List.nodup_nil
          next =>
            rw [List.map_map]
            have hall := nodup_stagedAll hnodup fun e hmem => ih e hmem (hes e hmem)
            have hcons := List.Nodup.map (List.cons_injective (a := n)) hall
            rwa [List.map_map] at hcons

/-- The files of a project, by path. -/
def Project.listing (P : Project) : Files :=
  (stagedAll P.entries).map fun f => ([47].intercalate f.1, f.2)

/-- The paths of a project are told apart by their texts. -/
theorem Project.nodup_listing (P : Project) : (P.listing.map Prod.fst).Nodup := by
  have hpaths := nodup_stagedAll P.nodup fun e he => nodup_staged (P.valid e he)
  have hkeys : ∀ ns ∈ (stagedAll P.entries).map Prod.fst,
      ([47].intercalate ns).splitOn 47 = ns := by
    intro ns hns
    obtain ⟨f, hf, rfl⟩ := List.mem_map.mp hns
    obtain ⟨e, he, hfe⟩ := mem_stagedAll.mp hf
    have hholds := (mem_staged.mp hfe).1
    exact List.splitOn_intercalate 47 (fun n hn => (hholds.isName (P.valid e he) n hn).2.1)
      hholds.ne_nil
  have hinj : ∀ ns ∈ (stagedAll P.entries).map Prod.fst,
      ∀ ms ∈ (stagedAll P.entries).map Prod.fst,
        [47].intercalate ns = [47].intercalate ms → ns = ms := by
    intro ns hns ms hms heq
    rw [← hkeys ns hns, ← hkeys ms hms, heq]
  have hjoin := List.Nodup.map_on hinj hpaths
  rw [listing, List.map_map]
  rwa [List.map_map] at hjoin

theorem putAll_of_nodup {files : Files} {fs : List (List Bytes × Bytes)}
    (h : ((files ++ fs.map fun f => ([47].intercalate f.1, f.2)).map Prod.fst).Nodup) :
    files.putAll [] fs = files ++ fs.map fun f => ([47].intercalate f.1, f.2) := by
  induction fs generalizing files with
  | nil => exact (List.append_nil files).symm
  | cons f fs ih =>
      have hnew : [47].intercalate f.1 ∉ files.map Prod.fst := by
        intro hmem
        rw [List.map_append, List.nodup_append] at h
        exact h.2.2 _ hmem _ List.mem_cons_self rfl
      have hput : files.put ([47].intercalate f.1) f.2 =
          files ++ [([47].intercalate f.1, f.2)] := if_neg hnew
      rw [List.map_cons, List.append_cons] at h ⊢
      rw [Files.putAll, List.foldl_cons, List.nil_append, hput]
      exact ih h

/-! ## What is staged -/

/-- What `readProjectDir` returns for a project. -/
theorem readProjectDir_eq (dir : Bytes) (P : Project) :
    readProjectDir dir P.entries =
      if base dir ∈ skipped ∨ P.listing = [] then .error (utf8 "no files found under " ++ dir)
      else .ok P.listing := by
  have hput : Files.putAll [] [] (stagedAll P.entries) = P.listing :=
    putAll_of_nodup P.nodup_listing
  have hwalk : walkAll dir [] dir P.entries = .ok P.listing := by
    rw [← hput]
    have hbelow : Below dir dir [] := by rw [Below, List.append_nil]
    exact walkAll_eq (fun e he files => walkDir_eq (P.valid e he) hbelow files) []
  rw [readProjectDir, walkDir, visit]
  by_cases hskip : base dir ∈ skipped
  · rw [if_pos hskip, if_pos (.inl hskip)]
    rfl
  · rw [if_neg hskip]
    simp only [hwalk, hskip, false_or]
    rfl

/-- The result has the files of the project that no skipped directory holds, and is an error
if and only if there is none. -/
structure Exact (P : Project) (r : Except Bytes Files) : Prop where
  nodup : ∀ files, r = .ok files → (files.map Prod.fst).Nodup
  mem_iff : ∀ files, r = .ok files → ∀ k b, (k, b) ∈ files ↔ P.Listed k b
  error_iff : (∃ e, r = .error e) ↔ ∀ k b, ¬ P.Listed k b

theorem Project.mem_listing {P : Project} {k b : Bytes} : (k, b) ∈ P.listing ↔ P.Listed k b := by
  rw [listed_iff, listing, List.mem_map]
  constructor
  · rintro ⟨⟨ns, c⟩, hf, heq⟩
    obtain ⟨rfl, rfl⟩ := Prod.mk.inj heq
    exact ⟨ns, hf, rfl⟩
  · rintro ⟨ns, hf, rfl⟩
    exact ⟨(ns, b), hf, rfl⟩

theorem Project.listing_eq_nil {P : Project} : P.listing = [] ↔ ∀ k b, ¬ P.Listed k b := by
  simp only [List.eq_nil_iff_forall_not_mem, Prod.forall, mem_listing]

/-- Exactly the files of the project that no skipped directory holds are staged if and only
if the directory itself has another name, or there are no such files. -/
theorem staging_exact_iff (dir : Bytes) (P : Project) :
    Exact P (readProjectDir dir P.entries) ↔
      base dir ∉ skipped ∨ ∀ k b, ¬ P.Listed k b := by
  rw [readProjectDir_eq, ← Project.listing_eq_nil]
  constructor
  · intro hexact
    by_contra hcond
    obtain ⟨hskip, hfiles⟩ := not_or.mp hcond
    rw [if_pos (.inl (not_not.mp hskip))] at hexact
    exact hfiles (Project.listing_eq_nil.mpr (hexact.error_iff.mp ⟨_, rfl⟩))
  · intro hcond
    by_cases hfiles : P.listing = []
    · rw [if_pos (.inr hfiles)]
      exact ⟨nofun, nofun, fun _ => Project.listing_eq_nil.mp hfiles, fun _ => ⟨_, rfl⟩⟩
    · have hskip := hcond.resolve_right hfiles
      rw [if_neg (not_or.mpr ⟨hskip, hfiles⟩)]
      refine ⟨fun files heq => ?_, fun files heq k b => ?_, fun ⟨_, he⟩ => ?_, fun hnone => ?_⟩
      · cases heq
        exact P.nodup_listing
      · cases heq
        exact Project.mem_listing
      · cases he
      · exact absurd (Project.listing_eq_nil.mpr hnone) hfiles

/-- A project in a directory named `target`. -/
theorem not_staging_exact : ¬ ∀ (dir : Bytes) (P : Project),
    Exact P (readProjectDir dir P.entries) := by
  intro h
  let P : Project := {
    entries := [.file (utf8 "main.go") (.ok (utf8 "package main"))]
    nodup := List.nodup_singleton _
    valid := List.forall_mem_singleton.mpr (.file (by decide +kernel)) }
  have hexact := h (utf8 "/home/target") P
  have hbase : base (utf8 "/home/target") ∈ skipped := by decide +kernel
  rw [readProjectDir_eq, if_pos (.inl hbase)] at hexact
  exact hexact.error_iff.mp ⟨_, rfl⟩ _ _ (P.mem_listing.mp (List.mem_singleton_self _))

end Aicv.Cli
