import Aicv.TaskSuite.Split

/-!
# The order of the lines

Two runs of the builder on source files with the same lines in another order have the
same split.  The MBPP ids are sorted before they are shuffled, the shuffle sees only
the length of the list, a record is routed by its id alone, and the final sort goes by
the record id.  So the outputs hold the same records and the manifests agree, and
records with distinct ids come in the same order (`order_independent`).
-/

namespace Aicv.TaskSuite

open Python Sequence

/-- The outputs of two runs that differ in the order of records with one id at most. -/
structure Agree (o o' : Output) : Prop where
  train : o.suite.train.Perm o'.suite.train
  heldout : o.suite.heldout.Perm o'.suite.heldout
  manifest : o.manifest = o'.manifest
  train_eq : (o.suite.train.map Record.id).Nodup → o.suite.train = o'.suite.train
  heldout_eq : (o.suite.heldout.map Record.id).Nodup → o.suite.heldout = o'.suite.heldout

section
variable {py : Library} {rng : Rng} {multipleHe multipleHe' multipleMbpp multipleMbpp' humanevalX
  humanevalX' : List Json} {files files' : Files} {o : Output} {records records' : List Record}

/-! ## The end of `main` -/

theorem counts_of_perm (h : records.Perm records') (sources : List Source) :
    Counts.of sources records = Counts.of sources records' := by
  have hcount : ∀ source, count records source = count records' source := fun _ => h.countP_eq _
  simp only [Counts.of, hcount, h.length_eq]

theorem sortBy_id_perm (h : records.Perm records') :
    (sortBy Record.id records).Perm (sortBy Record.id records') :=
  (sortBy_perm.trans h).trans sortBy_perm.symm

/-- Records with distinct ids are sorted to one list. -/
theorem sortBy_id_eq (h : records.Perm records')
    (hids : ((sortBy Record.id records).map Record.id).Nodup) :
    sortBy Record.id records = sortBy Record.id records' := by
  have hnodup : (records.map Record.id).Nodup := (sortBy_perm.map _).nodup_iff.mp hids
  exact sortBy_congr h fun r hr r' hr' => List.inj_on_of_nodup_map hnodup hr hr'

theorem agree_of (he mbpp : IdSplit) (sources : List (Source × ℕ)) {out out' : Suite}
    (htrain : out.train.Perm out'.train) (hheldout : out.heldout.Perm out'.heldout) :
    Agree (.of he mbpp sources out) (.of he mbpp sources out') where
  train := sortBy_id_perm htrain
  heldout := sortBy_id_perm hheldout
  manifest := by
    simp only [Output.of, counts_of_perm (sortBy_id_perm htrain),
      counts_of_perm (sortBy_id_perm hheldout)]
  train_eq := sortBy_id_eq htrain
  heldout_eq := sortBy_id_eq hheldout

/-! ## Two runs -/

/-- The ids are sorted before they are shuffled. -/
theorem mbppSplit_perm {ids ids' : List ℤ} (h : ids.Perm ids') :
    mbppSplit rng ids = mbppSplit rng ids' := by
  have heq : sortBy id ids = sortBy id ids' := sortBy_congr h fun _ _ _ _ hkey => hkey
  rw [mbppSplit, heq, mbppSplit]

theorem build_perm (hhe : multipleHe.Perm multipleHe') (hmbpp : multipleMbpp.Perm multipleMbpp')
    (hx : humanevalX.Perm humanevalX')
    (h : build py rng multipleHe multipleMbpp humanevalX = some o) :
    ∃ o', build py rng multipleHe' multipleMbpp' humanevalX' = some o' ∧ Agree o o' := by
  obtain ⟨ids, ms, hs, xs, ⟨hids, hms, hhs, hxs⟩, rfl⟩ := build_eq_some.mp h
  obtain ⟨ids', hids', hperm⟩ := collect_perm hmbpp hids
  rw [mbppSplit_perm hperm] at hms ⊢
  obtain ⟨ms', hms', hm⟩ := collect_perm hmbpp hms
  obtain ⟨hs', hhs', hh⟩ := collect_perm hhe hhs
  obtain ⟨xs', hxs', hx'⟩ := collect_perm hx hxs
  have hrecords : (ms ++ hs ++ xs).Perm (ms' ++ hs' ++ xs') := (hm.append hh).append hx'
  refine ⟨_, build_eq_some.mpr ⟨ids', ms', hs', xs', ⟨hids', hms', hhs', hxs'⟩, rfl⟩, ?_⟩
  rw [hhe.length_eq, hmbpp.length_eq, hx.length_eq]
  exact agree_of _ _ _ (hrecords.filter _) (hrecords.filter _)

/-- The same lines in another order give the same outputs, up to the order of records
with one id. -/
theorem order_independent (hhe : files.multipleHe.Perm files'.multipleHe)
    (hmbpp : files.multipleMbpp.Perm files'.multipleMbpp)
    (hx : files.humanevalX.Perm files'.humanevalX) (h : main py rng files = some o) :
    ∃ o', main py rng files' = some o' ∧ Agree o o' := by
  obtain ⟨multipleHe, hreadHe, h⟩ := Option.bind_eq_some_iff.mp h
  obtain ⟨multipleMbpp, hreadMbpp, h⟩ := Option.bind_eq_some_iff.mp h
  obtain ⟨humanevalX, hreadX, h⟩ := Option.bind_eq_some_iff.mp h
  obtain ⟨multipleHe', hreadHe', hpermHe⟩ := collect_perm hhe hreadHe
  obtain ⟨multipleMbpp', hreadMbpp', hpermMbpp⟩ := collect_perm hmbpp hreadMbpp
  obtain ⟨humanevalX', hreadX', hpermX⟩ := collect_perm hx hreadX
  obtain ⟨o', ho', hagree⟩ := build_perm hpermHe hpermMbpp hpermX h
  refine ⟨o', ?_, hagree⟩
  exact Option.bind_eq_some_iff.mpr ⟨_, hreadHe', Option.bind_eq_some_iff.mpr ⟨_, hreadMbpp',
    Option.bind_eq_some_iff.mpr ⟨_, hreadX', ho'⟩⟩⟩

/-- The lines of every file, the last one first. -/
def Files.reverse (files : Files) : Files :=
  ⟨files.multipleHe.reverse, files.multipleMbpp.reverse, files.humanevalX.reverse⟩

def Sample.lines : Files where
  multipleHe := [multiplELine "HumanEval_163_b", multiplELine "HumanEval_0_a"]
  multipleMbpp := [multiplELine "mbpp_3_c", "\n", multiplELine "mbpp_3_d"]
  humanevalX := [humanevalXLine "Rust/0", humanevalXLine "Rust/200"]

/-- Three files with their lines reversed. -/
theorem order_independent_reversed : ∃ o o', main Sample.library Sample.rng Sample.lines = some o ∧
    main Sample.library Sample.rng Sample.lines.reverse = some o' ∧ Agree o o' := by
  obtain ⟨o, ho⟩ : ∃ o, main Sample.library Sample.rng Sample.lines = some o :=
    Option.isSome_iff_exists.mp (by decide +kernel)
  have hreverse (lines : List String) : lines.Perm lines.reverse := (List.reverse_perm lines).symm
  obtain ⟨o', ho', hagree⟩ : ∃ o',
      main Sample.library Sample.rng Sample.lines.reverse = some o' ∧ Agree o o' :=
    order_independent (hreverse _) (hreverse _) (hreverse _) ho
  exact ⟨o, o', ho, ho', hagree⟩

end

end Aicv.TaskSuite
