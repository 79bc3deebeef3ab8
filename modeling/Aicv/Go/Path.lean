import Mathlib.Data.List.DropRight
import Aicv.Go.Strings
import Aicv.Text.Lines

/-!
# Go paths

The functions of `path/filepath` on paths with the separator `/`.  They are lexical: a
path is cleaned to a `Path`, a list of elements that is written back with separators.
`parse_text` says that nothing is left to clean after that.

`parse_join` is the effect of a `Join` with a name, and `rel_of_parse` what `Rel` makes of a
path that lies below another one.
-/

namespace Aicv.Go

/-- A clean path: the elements below the root, or below the current directory. -/
structure Path where
  rooted : Bool
  elems : List Bytes
deriving DecidableEq, Repr

/-- The element `..`. -/
def dotdot : Bytes := [46, 46]

/-- A name in a directory. -/
def IsName (n : Bytes) : Prop := n ≠ [] ∧ 47 ∉ n ∧ n ≠ [46] ∧ n ≠ dotdot

instance (n : Bytes) : Decidable (IsName n) := inferInstanceAs (Decidable (_ ∧ _))

/-- The elements after one more element. -/
def push (rooted : Bool) (elems : List Bytes) (c : Bytes) : List Bytes :=
  if c = [] ∨ c = [46] then elems
  else if c = dotdot then
    match elems.getLast? with
    | none => if rooted then [] else [dotdot]
    | some last => if last = dotdot then elems ++ [dotdot] else elems.dropLast
  else elems ++ [c]

/-- The clean path of a path. -/
def parse (s : Bytes) : Path :=
  let rooted := s.head? = some 47
  ⟨rooted, (s.splitOn 47).foldl (push rooted) []⟩

/-- A clean path with its separators. -/
def Path.text (p : Path) : Bytes :=
  if p.rooted then 47 :: [47].intercalate p.elems
  else if p.elems = [] then [46]
  else [47].intercalate p.elems

/-- `filepath.Clean`. -/
def clean (s : Bytes) : Bytes := (parse s).text

/-- `filepath.Join` of two elements. -/
def join (s n : Bytes) : Bytes :=
  if s ≠ [] then clean (s ++ 47 :: n) else if n ≠ [] then clean n else []

/-- `filepath.Base`. -/
def base (s : Bytes) : Bytes :=
  if s = [] then [46]
  else
    let last := (s.rdropWhile (· = 47)).rtakeWhile (· ≠ 47)
    if last = [] then [47] else last

/-- What is left of two lists after the longest prefix they share. -/
def afterCommon : List Bytes → List Bytes → List Bytes × List Bytes
  | a :: as, b :: bs => if a = b then afterCommon as bs else (a :: as, b :: bs)
  | as, bs => (as, bs)

/-- `filepath.Rel`. -/
def rel (basepath targpath : Bytes) : Except Bytes Bytes :=
  let b := parse basepath
  let t := parse targpath
  let err := utf8 "Rel: can't make " ++ targpath ++ utf8 " relative to " ++ basepath
  if b = t then .ok [46]
  else if b.rooted ≠ t.rooted then .error err
  else
    let (up, down) := afterCommon b.elems t.elems
    if up.head? = some dotdot then .error err
    else .ok ([47].intercalate (up.map (fun _ => dotdot) ++ down))

/-! ## Clean paths -/

/-- The elements are names, after some `..` where the path is not rooted. -/
def Clean (rooted : Bool) (elems : List Bytes) : Prop :=
  ∃ k names, elems = List.replicate k dotdot ++ names ∧ (rooted = true → k = 0) ∧
    ∀ n ∈ names, IsName n

section
variable {rooted : Bool} {elems names : List Bytes} {n : Bytes}

theorem push_name (hn : IsName n) : push rooted elems n = elems ++ [n] := by
  obtain ⟨hne, -, hdot, hdotdot⟩ := hn
  rw [push, if_neg (not_or.mpr ⟨hne, hdot⟩), if_neg hdotdot]

theorem foldl_push_names (h : ∀ n ∈ names, IsName n) :
    names.foldl (push rooted) elems = elems ++ names := by
  induction names generalizing elems with
  | nil => exact (List.append_nil elems).symm
  | cons n names ih =>
      obtain ⟨hn, hnames⟩ := List.forall_mem_cons.mp h
      rw [List.foldl_cons, push_name hn, ih hnames, List.append_assoc, List.singleton_append]

theorem push_dotdot_replicate (k : ℕ) :
    push false (List.replicate k dotdot) dotdot = List.replicate (k + 1) dotdot := by
  cases k with
  | zero => rfl
  | succ k =>
      have hlast : (List.replicate (k + 1) dotdot).getLast? = some dotdot := by
        simp [List.getLast?_replicate]
      rw [push, if_neg (by decide), if_pos rfl, hlast, List.replicate_succ' (n := k + 1)]
      rfl

theorem foldl_push_replicate (j k : ℕ) :
    (List.replicate k dotdot).foldl (push false) (List.replicate j dotdot) =
      List.replicate (j + k) dotdot := by
  induction k generalizing j with
  | zero => rfl
  | succ k ih =>
      rw [List.replicate_succ, List.foldl_cons, push_dotdot_replicate, ih, Nat.add_right_comm]
      rfl

/-- There is nothing to clean in a clean list of elements. -/
theorem Clean.foldl_push (h : Clean rooted elems) : elems.foldl (push rooted) [] = elems := by
  obtain ⟨k, names, rfl, hk, hnames⟩ := h
  rw [List.foldl_append, foldl_push_names hnames]
  cases rooted with
  | false => exact congrArg (· ++ names) ((foldl_push_replicate 0 k).trans (by rw [Nat.zero_add]))
  | true => rw [hk rfl]; rfl

/-- One more element leaves the list clean. -/
theorem Clean.push (h : Clean rooted elems) (hn : 47 ∉ n) : Clean rooted (push rooted elems n) := by
  obtain ⟨k, names, rfl, hk, hnames⟩ := h
  by_cases hskip : n = [] ∨ n = [46]
  · rw [Go.push, if_pos hskip]
    exact ⟨k, names, rfl, hk, hnames⟩
  by_cases hup : n = dotdot
  · subst hup
    rcases List.eq_nil_or_concat names with rfl | ⟨front, last, rfl⟩
    · rw [List.append_nil]
      cases rooted with
      | false =>
          rw [push_dotdot_replicate]
          exact ⟨k + 1, [], (List.append_nil _).symm, nofun, List.forall_mem_nil _⟩
      | true =>
          rw [hk rfl]
          exact ⟨0, [], rfl, fun _ => rfl, List.forall_mem_nil _⟩
    · rw [List.concat_eq_append] at hnames ⊢
      obtain ⟨hfront, hlast⟩ := List.forall_mem_append.mp hnames
      have hne : last ≠ dotdot := (hlast last List.mem_cons_self).2.2.2
      rw [← List.append_assoc, Go.push, if_neg hskip, if_pos rfl, List.getLast?_concat]
      simp only [if_neg hne, List.dropLast_concat]
      exact ⟨k, front, rfl, hk, hfront⟩
  · have hname : IsName n := ⟨fun h => hskip (.inl h), hn, fun h => hskip (.inr h), hup⟩
    rw [push_name hname, List.append_assoc]
    exact ⟨k, names ++ [n], rfl, hk, List.forall_mem_append.mpr ⟨hnames, by simpa using hname⟩⟩

theorem clean_foldl_push {cs : List Bytes} (hcs : ∀ c ∈ cs, 47 ∉ c) (h : Clean rooted elems) :
    Clean rooted (cs.foldl (push rooted) elems) := by
  induction cs generalizing elems with
  | nil => exact h
  | cons c cs ih =>
      obtain ⟨hc, hrest⟩ := List.forall_mem_cons.mp hcs
      exact ih hrest (h.push hc)

theorem clean_parse (s : Bytes) : Clean (parse s).rooted (parse s).elems :=
  clean_foldl_push (fun _ hc => Text.not_mem_of_mem_splitOn hc)
    ⟨0, [], rfl, fun _ => rfl, List.forall_mem_nil _⟩

theorem Clean.not_mem (h : Clean rooted elems) : ∀ c ∈ elems, c ≠ [] ∧ 47 ∉ c := by
  obtain ⟨k, names, rfl, -, hnames⟩ := h
  intro c hc
  rcases List.mem_append.mp hc with hc | hc
  · rw [List.eq_of_mem_replicate hc]
    decide
  · exact ⟨(hnames c hc).1, (hnames c hc).2.1⟩

theorem head?_intercalate {c : Bytes} {cs : List Bytes} (hc : c ≠ []) :
    ([47].intercalate (c :: cs)).head? = c.head? := by
  obtain ⟨b, c, rfl⟩ := List.exists_cons_of_ne_nil hc
  cases cs <;> rfl

/-- A clean path is read back. -/
theorem parse_text {p : Path} (h : Clean p.rooted p.elems) : parse p.text = p := by
  obtain ⟨rooted, elems⟩ := p
  have hmem := h.not_mem
  have hfold := h.foldl_push
  cases rooted with
  | true =>
      rcases eq_or_ne elems [] with rfl | hne
      · rfl
      · have hsplit : (47 :: [47].intercalate elems).splitOn 47 = [] :: elems := by
          rw [List.splitOn_cons_eq_if_modifyHead, if_pos (beq_self_eq_true _),
            List.splitOn_intercalate 47 (fun c hc => (hmem c hc).2) hne]
        simp only [Path.text, if_true, parse, hsplit, List.foldl_cons, List.head?_cons]
        exact congrArg (Path.mk true) hfold
  | false =>
      rcases eq_or_ne elems [] with rfl | hne
      · rfl
      · obtain ⟨c, cs, rfl⟩ := List.exists_cons_of_ne_nil hne
        have hhead : ([47].intercalate (c :: cs)).head? ≠ some 47 := by
          rw [head?_intercalate (hmem c List.mem_cons_self).1]
          exact fun hhead => (hmem c List.mem_cons_self).2 (List.mem_of_mem_head? hhead)
        have hsplit := List.splitOn_intercalate 47 (fun c hc => (hmem c hc).2) hne
        simp only [Path.text, Bool.false_eq_true, if_false, if_neg hne, parse, hsplit, hhead,
          decide_false]
        exact congrArg (Path.mk false) hfold

/-- A name is one more element. -/
theorem parse_join (s : Bytes) (hn : IsName n) :
    parse (join s n) = ⟨(parse s).rooted, (parse s).elems ++ [n]⟩ := by
  have hsplit : n.splitOn 47 = [n] := List.splitOn_eq_singleton hn.2.1
  by_cases hs : s = []
  · subst hs
    have hhead : n.head? ≠ some 47 := fun hhead => hn.2.1 (List.mem_of_mem_head? hhead)
    rw [join, if_neg (not_not.mpr rfl), if_pos hn.1, clean, parse_text (clean_parse n)]
    simp only [parse, hsplit, hhead, decide_false, List.foldl_cons, List.foldl_nil, push_name hn]
    rfl
  · have hhead : (s ++ 47 :: n).head? = s.head? := by
      obtain ⟨b, s, rfl⟩ := List.exists_cons_of_ne_nil hs
      rfl
    rw [join, if_pos hs, clean, parse_text (clean_parse _)]
    simp only [parse, hhead, List.splitOn_append_cons_self, hsplit, List.foldl_append,
      List.foldl_cons, List.foldl_nil, push_name hn]

theorem afterCommon_append (as bs : List Bytes) : afterCommon as (as ++ bs) = ([], bs) := by
  induction as with
  | nil => cases bs <;> rfl
  | cons a as ih => rw [List.cons_append, afterCommon, if_pos rfl, ih]

/-- A path below another one is relative to it by its names. -/
theorem rel_of_parse {s p : Bytes}
    (h : parse p = ⟨(parse s).rooted, (parse s).elems ++ names⟩) (hne : names ≠ []) :
    rel s p = .ok ([47].intercalate names) := by
  have hneq : parse s ≠ ⟨(parse s).rooted, (parse s).elems ++ names⟩ := fun heq =>
    hne (List.self_eq_append_right.mp (congrArg Path.elems heq))
  simp [rel, h, hneq, afterCommon_append]

end

end Aicv.Go
