import Aicv.Python.Dict
import Aicv.Python.JsonScan

/-!
# JSON texts

`json.dumps` and `json.loads`, over the layouts that the scripts write.  `loads_dumps` reads every
value back that a dictionary and a number can be, and `wellFormed_of_loads` says that whatever is
read is one.
-/

namespace Aicv.Python.JsonText

/-! ## Writing -/

/-- The options of `json.dumps`. -/
structure Layout where
  ascii : Bool
  indent : Option ℕ

namespace Layout

variable (l : Layout)

/-- The start of a line, on a level. -/
def newline (level : ℕ) : List Char :=
  match l.indent with
  | none => []
  | some width => '\n' :: List.replicate (width * level) ' '

/-- Between two members. -/
def separator (level : ℕ) : List Char :=
  match l.indent with
  | none => [',', ' ']
  | some _ => ',' :: l.newline level

/-- Members between brackets. -/
def brackets (level : ℕ) (first last : Char) (ms : List (List Char)) : List Char :=
  if ms = [] then [first, last]
  else first :: l.newline (level + 1) ++ (l.separator (level + 1)).intercalate ms ++
    l.newline level ++ [last]

end Layout

mutual

/-- `json.dumps`, on a level. -/
def text (l : Layout) (level : ℕ) : Json → List Char
  | .null => ['n', 'u', 'l', 'l']
  | .bool true => ['t', 'r', 'u', 'e']
  | .bool false => ['f', 'a', 'l', 's', 'e']
  | .num digits => digits.toList
  | .str s => '"' :: escaped l.ascii s.toList
  | .arr items => l.brackets level '[' ']' (texts l (level + 1) items)
  | .obj fields => l.brackets level '{' '}' (memberTexts l (level + 1) fields)

/-- The items of a list. -/
def texts (l : Layout) (level : ℕ) : List Json → List (List Char)
  | [] => []
  | v :: vs => text l level v :: texts l level vs

/-- A member of a dictionary. -/
def memberText (l : Layout) (level : ℕ) : String × Json → List Char
  | (key, v) => '"' :: escaped l.ascii key.toList ++ ':' :: ' ' :: text l level v

/-- The members of a dictionary. -/
def memberTexts (l : Layout) (level : ℕ) : List (String × Json) → List (List Char)
  | [] => []
  | e :: es => memberText l level e :: memberTexts l level es

end

/-- `json.dumps`. -/
def dumps (l : Layout) (v : Json) : String := String.ofList (text l 0 v)

/-! ## Reading -/

/-- The white space of JSON. -/
def isBlank (c : Char) : Bool := c ∈ [' ', '\t', '\n', '\r']

/-- The text behind white space. -/
def skip (cs : List Char) : List Char := cs.dropWhile isBlank

/-- The words that are values. -/
def constants : List (List Char × Json) :=
  [(['n', 'u', 'l', 'l'], .null), (['t', 'r', 'u', 'e'], .bool true),
    (['f', 'a', 'l', 's', 'e'], .bool false), (['N', 'a', 'N'], .num "NaN"),
    (['I', 'n', 'f', 'i', 'n', 'i', 't', 'y'], .num "Infinity"),
    (['-', 'I', 'n', 'f', 'i', 'n', 'i', 't', 'y'], .num "-Infinity")]

/-- A word that is a value. -/
def constant (cs : List Char) : Option (Json × List Char) :=
  constants.findSome? fun e => if e.1.isPrefixOf cs then some (e.2, cs.drop e.1.length) else none

/-- Members up to a bracket, from the first one on, no more than the number. -/
def sequence {α : Type} (elem : List Char → Option (α × List Char)) (close : Char) :
    ℕ → List Char → Option (List α × List Char)
  | 0, _ => none
  | n + 1, cs =>
      (elem cs).bind fun p =>
        let r := skip p.2
        if r.head? = some close then some ([p.1], r.tail)
        else if r.head? = some ',' then
          (sequence elem close n (skip r.tail)).map fun q => (p.1 :: q.1, q.2)
        else none

/-- Members up to a bracket. -/
def bracketed {α : Type} (elem : List Char → Option (α × List Char)) (close : Char)
    (cs : List Char) : Option (List α × List Char) :=
  let r := skip cs
  if r.head? = some close then some ([], r.tail) else sequence elem close r.length r

/-- A string. -/
def quoted (cs : List Char) : Option (String × List Char) :=
  if cs.head? = some '"' then
    (string cs.length cs.tail).map fun p => (String.ofList p.1, p.2)
  else none

/-- A member of a dictionary. -/
def member (val : List Char → Option (Json × List Char)) (cs : List Char) :
    Option ((String × Json) × List Char) :=
  (quoted cs).bind fun key =>
    let r := skip key.2
    if r.head? = some ':' then (val (skip r.tail)).map fun p => ((key.1, p.1), p.2) else none

/-- `dict`, of pairs.  A key that comes twice has its last value. -/
def ofPairs (es : List (String × Json)) : Dict String Json :=
  es.foldl (fun d e => d.alter e.1 fun _ => e.2) []

section
variable (float : List Char → List Char)

/-- A number or a word. -/
def scalar (cs : List Char) : Option (Json × List Char) :=
  ((number float cs).map fun p => (.num (String.ofList p.1), p.2)).or (constant cs)

/-- `scan_once`, of no more levels than the number. -/
def value : ℕ → List Char → Option (Json × List Char)
  | 0, _ => none
  | n + 1, cs =>
      if cs.head? = some '"' then (quoted cs).map fun p => (.str p.1, p.2)
      else if cs.head? = some '[' then
        (bracketed (value n) ']' cs.tail).map fun p => (.arr p.1, p.2)
      else if cs.head? = some '{' then
        (bracketed (member (value n)) '}' cs.tail).map fun p => (.obj (ofPairs p.1), p.2)
      else scalar float cs

/-- `json.loads`.  A level takes a character. -/
def loads (s : String) : Option Json :=
  (value float (s.length + 1) (skip s.toList)).bind fun p =>
    if skip p.2 = [] then some p.1 else none

end

/-! ## Values -/

/-- How `json.dumps` writes a number, `NaN` or an infinity. -/
def IsWritten (float : List Char → List Char) (s : List Char) : Prop :=
  IsNumber float s ∨ (s, Json.num (String.ofList s)) ∈ constants

/-- What `json.loads` returns: each key comes once, and a number is one that Python writes. -/
inductive WellFormed (float : List Char → List Char) : Json → Prop where
  | null : WellFormed float .null
  | bool (b : Bool) : WellFormed float (.bool b)
  | num {digits : String} : IsWritten float digits.toList → WellFormed float (.num digits)
  | str (s : String) : WellFormed float (.str s)
  | arr {items : List Json} : (∀ v ∈ items, WellFormed float v) → WellFormed float (.arr items)
  | obj {fields : List (String × Json)} : (fields.map Prod.fst).Nodup →
      (∀ e ∈ fields, WellFormed float e.2) → WellFormed float (.obj fields)

/-! ## Reading what is written -/

section
variable {float : List Char → List Char} {l : Layout} {level : ℕ} {v : Json}
  {cs w rest r : List Char}

theorem texts_eq (vs : List Json) : texts l level vs = vs.map (text l level) := by
  induction vs with
  | nil => rfl
  | cons v vs ih => rw [texts, ih, List.map_cons]

theorem memberTexts_eq (es : List (String × Json)) :
    memberTexts l level es = es.map (memberText l level) := by
  induction es with
  | nil => rfl
  | cons e es ih => rw [memberTexts, ih, List.map_cons]

/-- White space. -/
def Blank (cs : List Char) : Prop := ∀ c ∈ cs, isBlank c = true

theorem skip_append (h : Blank w) (cs : List Char) : skip (w ++ cs) = skip cs := by
  rw [skip, List.dropWhile_append_of_pos h, skip]

theorem skip_cons {c : Char} (h : isBlank c = false) (cs : List Char) :
    skip (c :: cs) = c :: cs := by
  rw [skip, List.dropWhile_cons, h]
  rfl

theorem blank_newline (l : Layout) (level : ℕ) : Blank (l.newline level) := by
  intro c hc
  rw [Layout.newline] at hc
  split at hc
  next => cases hc
  next =>
    rcases List.mem_cons.mp hc with rfl | hc
    · rfl
    · rw [(List.mem_replicate.mp hc).2]
      rfl

theorem separator_eq (l : Layout) (level : ℕ) :
    ∃ gap, l.separator level = ',' :: gap ∧ Blank gap := by
  rw [Layout.separator]
  split
  next => exact ⟨[' '], rfl, List.forall_mem_singleton.mpr rfl⟩
  next => exact ⟨_, rfl, blank_newline l level⟩

/-- The brackets, the white space and the separators of JSON. -/
def isMark (c : Char) : Bool := isBlank c || c ∈ ['"', '[', ']', '{', '}', ',', ':']

/-- No mark is a character of a number. -/
theorem isNumberChar_of_isMark {c : Char} (h : isMark c = true) : isNumberChar c = false := by
  have hall : [' ', '\t', '\n', '\r', '"', '[', ']', '{', '}', ',', ':'].all
      (!isNumberChar ·) = true := by decide
  have hmem : c ∈ [' ', '\t', '\n', '\r', '"', '[', ']', '{', '}', ',', ':'] := by
    simp only [isMark, isBlank, Bool.or_eq_true, decide_eq_true_eq] at h
    simpa [or_assoc] using h
  simpa using List.all_eq_true.mp hall c hmem

/-- White space does not continue a number. -/
theorem Blank.ends_append (hw : Blank w) (hrest : Ends rest) : Ends (w ++ rest) := by
  cases w with
  | nil => exact hrest
  | cons c w =>
      refine ends_cons (isNumberChar_of_isMark ?_)
      rw [isMark, hw c List.mem_cons_self, Bool.true_or]

/-! ### Members -/

section
variable {α : Type} {elem : List Char → Option (α × List Char)} {close : Char}
  {write : α → List Char} {as : List α} {gap : List Char}

/-- The text of a member is read back, whatever comes behind it, and starts with no mark of its
list. -/
structure Reads (elem : List Char → Option (α × List Char)) (close : Char) (write : α → List Char)
    (a : α) : Prop where
  read : ∀ rest, Ends rest → elem (write a ++ rest) = some (a, rest)
  head : ∃ c cs, write a = c :: cs ∧ isBlank c = false ∧ c ≠ close

theorem Reads.skip {a : α} (h : Reads elem close write a) (rest : List Char) :
    skip (write a ++ rest) = write a ++ rest := by
  obtain ⟨c, cs, heq, hc, -⟩ := h.head
  rw [heq, List.cons_append, skip_cons hc]

theorem sequence_close {a : α} (n : ℕ) (helem : elem cs = some (a, w))
    (hskip : skip w = close :: r) : sequence elem close (n + 1) cs = some ([a], r) := by
  rw [sequence, helem, Option.bind_some]
  show (if (skip w).head? = some close then _ else _) = _
  rw [hskip]
  exact if_pos rfl

theorem sequence_comma {a : α} (n : ℕ) (helem : elem cs = some (a, w)) (hskip : skip w = ',' :: r)
    (hcomma : close ≠ ',') :
    sequence elem close (n + 1) cs =
      (sequence elem close n (skip r)).map fun q => (a :: q.1, q.2) := by
  rw [sequence, helem, Option.bind_some]
  show (if (skip w).head? = some close then _ else _) = _
  rw [hskip, List.head?_cons, if_neg fun h => hcomma (Option.some.inj h).symm]
  exact if_pos rfl

/-- The members of a list are read back up to its bracket. -/
theorem sequence_intercalate (hclose : isMark close = true) (hcomma : close ≠ ',')
    (hblank : isBlank close = false) (hgap : Blank gap) (hw : Blank w) {n : ℕ}
    (has : ∀ a ∈ as, Reads elem close write a) (hne : as ≠ []) (hn : as.length ≤ n) :
    sequence elem close n ((',' :: gap).intercalate (as.map write) ++ (w ++ close :: rest)) =
      some (as, rest) := by
  induction as generalizing n with
  | nil => exact absurd rfl hne
  | cons a as ih =>
      obtain ⟨ha, has⟩ := List.forall_mem_cons.mp has
      obtain ⟨n, rfl⟩ := Nat.exists_eq_add_one_of_ne_zero (Nat.ne_of_gt (Nat.zero_lt_of_lt hn))
      cases as with
      | nil =>
          rw [List.map_singleton, List.intercalate_singleton]
          have hend : Ends (w ++ close :: rest) :=
            hw.ends_append (ends_cons (isNumberChar_of_isMark hclose))
          refine sequence_close n (ha.read _ hend) ?_
          rw [skip_append hw, skip_cons hblank]
      | cons b as =>
          have htail := ih has (List.cons_ne_nil b as) (Nat.le_of_succ_le_succ hn)
          obtain ⟨t, ht⟩ : ∃ t, t = (',' :: gap).intercalate ((b :: as).map write) ++
              (w ++ close :: rest) := ⟨_, rfl⟩
          have htext : (',' :: gap).intercalate ((a :: b :: as).map write) ++
              (w ++ close :: rest) = write a ++ ',' :: (gap ++ t) := by
            rw [ht]
            simp
          have hsolid : skip t = t := by
            rw [ht, List.map_cons]
            obtain ⟨c, cs, hc, hsolid, -⟩ := (has b List.mem_cons_self).head
            rw [hc, List.intercalate_cons_cons_left]
            exact skip_cons hsolid _
          rw [htext, sequence_comma n (ha.read _ (ends_cons rfl)) (skip_cons rfl _) hcomma,
            skip_append hgap, hsolid, ht, htail]
          rfl

theorem length_le_intercalate (separator : List Char) (has : ∀ a ∈ as, Reads elem close write a) :
    as.length ≤ (separator.intercalate (as.map write)).length := by
  induction as with
  | nil => exact Nat.zero_le _
  | cons a as ih =>
      obtain ⟨ha, has⟩ := List.forall_mem_cons.mp has
      obtain ⟨c, cs, hc, -⟩ := ha.head
      have hle := ih has
      cases as with
      | nil => simp [hc]
      | cons b as =>
          rw [List.map_cons] at hle
          rw [List.map_cons, List.map_cons, List.intercalate_cons_cons, hc]
          simp only [List.length_append, List.length_cons] at hle ⊢
          omega

/-- Members between brackets are read back. -/
theorem bracketed_brackets (hclose : isMark close = true) (hcomma : close ≠ ',')
    (hblank : isBlank close = false) (first : Char) (has : ∀ a ∈ as, Reads elem close write a)
    (rest : List Char) :
    bracketed elem close ((l.brackets level first close (as.map write) ++ rest).tail) =
      some (as, rest) := by
  cases as with
  | nil =>
      show bracketed elem close (close :: rest) = _
      rw [bracketed, skip_cons hblank]
      exact if_pos rfl
  | cons a as =>
      obtain ⟨gap, hseparator, hgap⟩ := separator_eq l (level + 1)
      obtain ⟨t, ht⟩ : ∃ t, t = (',' :: gap).intercalate ((a :: as).map write) ++
          (l.newline level ++ close :: rest) := ⟨_, rfl⟩
      have htext : (l.brackets level first close ((a :: as).map write) ++ rest).tail =
          l.newline (level + 1) ++ t := by
        rw [Layout.brackets, if_neg (by simp), hseparator, ht]
        simp
      obtain ⟨c, cs, hc, hsolid, hnot⟩ := (has a List.mem_cons_self).head
      have hhead : ∃ cs, t = c :: cs := by
        rw [ht, List.map_cons, hc, List.intercalate_cons_cons_left]
        exact ⟨_, rfl⟩
      obtain ⟨cs', hcs⟩ := hhead
      have hskip : skip t = t := by rw [hcs, skip_cons hsolid]
      have hlength : (a :: as).length ≤ t.length := by
        have hle := length_le_intercalate (',' :: gap) has
        rw [ht, List.length_append]
        omega
      rw [htext, bracketed, skip_append (blank_newline l _), hskip]
      show (if t.head? = some close then _ else _) = _
      rw [hcs, List.head?_cons, if_neg fun h => hnot (Option.some.inj h), ← hcs]
      show sequence elem close t.length t = _
      nth_rewrite 2 [ht]
      exact sequence_intercalate hclose hcomma hblank hgap (blank_newline l level) has
        (List.cons_ne_nil a as) hlength
end

/-! ### Values -/

theorem quoted_escaped (ascii : Bool) (s : String) (rest : List Char) :
    quoted ('"' :: escaped ascii s.toList ++ rest) = some (s, rest) := by
  have hlength := length_le_escaped ascii s.toList
  rw [quoted, List.cons_append, List.head?_cons, if_pos rfl, List.tail_cons,
    string_escaped ascii rest (by simp; omega)]
  exact congrArg some (Prod.ext (String.ofList_toList) rfl)

/-- A pair of a key and a value is read back. -/
theorem reads_memberText {val : List Char → Option (Json × List Char)} {key : String}
    (hv : Reads val ']' (text l level) v) :
    Reads (member val) '}' (memberText l level) (key, v) where
  read rest hrest := by
    rw [memberText, List.append_assoc, member, quoted_escaped, Option.bind_some]
    show (if (skip (':' :: ' ' :: text l level v ++ rest)).head? = some ':' then _ else _) = _
    rw [List.cons_append, skip_cons rfl, List.head?_cons, if_pos rfl, List.tail_cons]
    rw [show ' ' :: text l level v ++ rest = [' '] ++ (text l level v ++ rest) from rfl,
      skip_append (List.forall_mem_singleton.mpr rfl), hv.skip, hv.read rest hrest]
    rfl
  head := ⟨'"', _, rfl, rfl, by decide⟩

theorem ofPairs_eq {es : List (String × Json)} (h : (es.map Prod.fst).Nodup) : ofPairs es = es :=
  Dict.foldl_alter_eq (d := []) h

/-- No word is a number. -/
theorem number_constant {e : List Char × Json} (he : e ∈ constants) :
    number float (e.1 ++ rest) = none := by
  simp only [constants, List.mem_cons, List.not_mem_nil, or_false] at he
  rcases he with rfl | rfl | rfl | rfl | rfl | rfl <;> rfl

theorem constant_append {e : List Char × Json} (he : e ∈ constants) (rest : List Char) :
    constant (e.1 ++ rest) = some (e.2, rest) := by
  simp only [constants, List.mem_cons, List.not_mem_nil, or_false] at he
  rcases he with rfl | rfl | rfl | rfl | rfl | rfl <;> rfl

theorem scalar_constant {e : List Char × Json} (he : e ∈ constants) (rest : List Char) :
    scalar float (e.1 ++ rest) = some (e.2, rest) := by
  rw [scalar, number_constant he, Option.map_none, Option.none_or, constant_append he]

theorem scalar_number {s : List Char} (hs : IsNumber float s) (hrest : Ends rest) :
    scalar float (s ++ rest) = some (.num (String.ofList s), rest) := by
  rw [scalar, number_append hrest, hs]
  rfl

/-- The first character of a word or of a number. -/
theorem head_scalar {s : List Char} (hs : IsNumber float s ∨ ∃ v, (s, v) ∈ constants) :
    ∃ c cs, s = c :: cs ∧ isMark c = false := by
  rcases hs with hs | ⟨v, hv⟩
  · obtain ⟨hne, hall⟩ := hs.chars
    obtain ⟨c, cs, rfl⟩ := List.exists_cons_of_ne_nil hne
    refine ⟨c, cs, rfl, Bool.eq_false_iff.mpr fun hmark => ?_⟩
    have hc := hall c List.mem_cons_self
    rw [isNumberChar_of_isMark hmark] at hc
    cases hc
  · simp only [constants, List.mem_cons, List.not_mem_nil, or_false, Prod.mk.injEq] at hv
    rcases hv with ⟨rfl, -⟩ | ⟨rfl, -⟩ | ⟨rfl, -⟩ | ⟨rfl, -⟩ | ⟨rfl, -⟩ | ⟨rfl, -⟩ <;>
      exact ⟨_, _, rfl, rfl⟩

/-- A word or a number is read where it is written. -/
theorem reads_scalar {n : ℕ} (hs : IsNumber float (text l level v) ∨
      ∃ u, (text l level v, u) ∈ constants)
    (hread : ∀ rest, Ends rest → scalar float (text l level v ++ rest) = some (v, rest)) :
    Reads (value float (n + 1)) ']' (text l level) v where
  read rest hrest := by
    obtain ⟨c, cs, heq, hmark⟩ := head_scalar hs
    have hnot (d : Char) (hd : isMark d = true) : (text l level v ++ rest).head? ≠ some d := by
      rw [heq, List.cons_append, List.head?_cons]
      rintro ⟨⟩
      rw [hd] at hmark
      cases hmark
    rw [value, if_neg (hnot '"' rfl), if_neg (hnot '[' rfl), if_neg (hnot '{' rfl)]
    exact hread rest hrest
  head := by
    obtain ⟨c, cs, heq, hmark⟩ := head_scalar hs
    rw [isMark, Bool.or_eq_false_iff] at hmark
    refine ⟨c, cs, heq, hmark.1, ?_⟩
    rintro rfl
    exact absurd hmark.2 (by decide)

/-- Between the brackets of a list or of a dictionary. -/
theorem brackets_eq_cons (level : ℕ) (first last : Char) (ms : List (List Char)) :
    ∃ cs, l.brackets level first last ms = first :: cs := by
  rw [Layout.brackets]
  split
  next => exact ⟨_, rfl⟩
  next => exact ⟨_, rfl⟩

theorem sublist_intercalate (separator : List Char) {ms : List (List Char)} {m : List Char}
    (hm : m ∈ ms) : m.Sublist (separator.intercalate ms) := by
  induction ms with
  | nil => cases hm
  | cons m' ms ih =>
      cases ms with
      | nil => rw [List.mem_singleton.mp hm, List.intercalate_singleton]
      | cons m'' ms =>
          rw [List.intercalate_cons_cons, List.append_assoc]
          rcases List.mem_cons.mp hm with rfl | hm
          · exact List.sublist_append_left _ _
          · exact ((ih hm).trans (List.sublist_append_right _ _)).trans
              (List.sublist_append_right _ _)

theorem length_lt_brackets (first last : Char) {ms : List (List Char)} {m : List Char}
    (hm : m ∈ ms) : m.length < (l.brackets level first last ms).length := by
  have hle := (sublist_intercalate (l.separator (level + 1)) hm).length_le
  rw [Layout.brackets, if_neg (List.ne_nil_of_mem hm)]
  simp only [List.length_append, List.length_cons]
  omega

theorem text_ne_nil (hv : WellFormed float v) : text l level v ≠ [] := by
  cases hv with
  | null => exact List.cons_ne_nil _ _
  | bool b => cases b <;> exact List.cons_ne_nil _ _
  | num h =>
      obtain ⟨c, cs, heq, -⟩ := head_scalar (h.imp_right fun h => ⟨_, h⟩)
      rw [text, heq]
      exact List.cons_ne_nil c cs
  | str s => exact List.cons_ne_nil _ _
  | arr h =>
      obtain ⟨cs, heq⟩ := brackets_eq_cons (l := l) level '[' ']' (texts l (level + 1) _)
      rw [text, heq]
      exact List.cons_ne_nil _ cs
  | obj h =>
      obtain ⟨cs, heq⟩ := brackets_eq_cons (l := l) level '{' '}' (memberTexts l (level + 1) _)
      rw [text, heq]
      exact List.cons_ne_nil _ cs

theorem exists_succ (hv : WellFormed float v) {n : ℕ} (hn : (text l level v).length ≤ n) :
    ∃ m, n = m + 1 := by
  have hne : text l level v ≠ [] := text_ne_nil hv
  have hpos := List.length_pos_iff.mpr hne
  exact Nat.exists_eq_add_one_of_ne_zero (by omega)

/-- A list or a dictionary is read back if its members are. -/
theorem reads_brackets {α : Type} {elem : List Char → Option (α × List Char)}
    {write : α → List Char} {as : List α} {n : ℕ} (first close : Char) (make : List α → Json)
    (hclose : isMark close = true) (hcomma : close ≠ ',') (hblank : isBlank close = false)
    (hfirst : isBlank first = false) (hnot : first ≠ ']') (hmake : make as = v)
    (hvalue : ∀ cs, value float n (first :: cs) = (bracketed elem close cs).map fun p =>
      (make p.1, p.2))
    (htext : text l level v = l.brackets level first close (as.map write))
    (has : ∀ a ∈ as, Reads elem close write a) : Reads (value float n) ']' (text l level) v where
  read rest _ := by
    obtain ⟨cs, hcs⟩ := brackets_eq_cons (l := l) level first close (as.map write)
    have hread : bracketed elem close (l.brackets level first close (as.map write) ++ rest).tail =
        some (as, rest) := bracketed_brackets hclose hcomma hblank first has rest
    rw [htext, hcs, List.cons_append, hvalue]
    rw [hcs, List.cons_append, List.tail_cons] at hread
    rw [hread, Option.map_some, hmake]
  head := by
    obtain ⟨cs, hcs⟩ := brackets_eq_cons (l := l) level first close (as.map write)
    exact ⟨first, cs, htext.trans hcs, hfirst, hnot⟩

/-- Every value is read back where it is written. -/
theorem reads_text (hv : WellFormed float v) {n : ℕ} (hn : (text l level v).length ≤ n + 1) :
    Reads (value float (n + 1)) ']' (text l level) v := by
  induction hv generalizing level n with
  | null =>
      have hmem : (text l level .null, Json.null) ∈ constants := by simp [constants, text]
      exact reads_scalar (.inr ⟨_, hmem⟩) fun rest _ => scalar_constant hmem rest
  | bool b =>
      have hmem : (text l level (.bool b), Json.bool b) ∈ constants := by
        cases b <;> simp [constants, text]
      exact reads_scalar (.inr ⟨_, hmem⟩) fun rest _ => scalar_constant hmem rest
  | @num digits h =>
      refine reads_scalar (h.imp_right fun h => ⟨_, h⟩) fun rest hrest => ?_
      rcases h with h | h
      · rw [text, scalar_number h hrest, String.ofList_toList]
      · rw [text, scalar_constant h rest, String.ofList_toList]
  | str s =>
      refine ⟨fun rest _ => ?_, '"', _, rfl, rfl, by decide⟩
      rw [text, value, List.cons_append, List.head?_cons, if_pos rfl, ← List.cons_append,
        quoted_escaped]
      rfl
  | @arr items hitems ih =>
      have htext : text l level (.arr items) =
          l.brackets level '[' ']' (items.map (text l (level + 1))) := by
        rw [text, texts_eq]
      refine reads_brackets '[' ']' Json.arr rfl (by decide) rfl rfl (by decide) rfl
        (fun cs => rfl) htext fun v hv => ?_
      have hless : (text l (level + 1) v).length <
          (l.brackets level '[' ']' (items.map (text l (level + 1)))).length :=
        length_lt_brackets '[' ']' (List.mem_map_of_mem hv)
      have hlength : (text l (level + 1) v).length ≤ n := by
        rw [htext] at hn
        omega
      obtain ⟨m, rfl⟩ := exists_succ (hitems v hv) hlength
      exact ih v hv hlength
  | @obj fields hnodup hfields ih =>
      have htext : text l level (.obj fields) =
          l.brackets level '{' '}' (fields.map (memberText l (level + 1))) := by
        rw [text, memberTexts_eq]
      refine reads_brackets '{' '}' (fun es => .obj (ofPairs es)) rfl (by decide) rfl rfl
        (by decide) (congrArg Json.obj (ofPairs_eq hnodup)) (fun cs => rfl) htext fun e he => ?_
      have hless : (memberText l (level + 1) e).length <
          (l.brackets level '{' '}' (fields.map (memberText l (level + 1)))).length :=
        length_lt_brackets '{' '}' (List.mem_map_of_mem he)
      have hlength : (text l (level + 1) e.2).length ≤ n := by
        rw [htext] at hn
        rw [memberText] at hless
        simp only [List.length_append, List.length_cons] at hless
        omega
      obtain ⟨m, rfl⟩ := exists_succ (hfields e he) hlength
      exact reads_memberText (ih e he hlength)

/-- `json.loads` reads what `json.dumps` writes, in every layout, with white space behind it. -/
theorem loads_dumps (hv : WellFormed float v) (l : Layout) (hw : Blank w) :
    loads float (dumps l v ++ String.ofList w) = some v := by
  have hchars : (dumps l v ++ String.ofList w).toList = text l 0 v ++ w := by
    rw [String.toList_append, dumps, String.toList_ofList, String.toList_ofList]
  have hlength : (dumps l v ++ String.ofList w).length = (text l 0 v).length + w.length := by
    rw [← String.length_toList, hchars, List.length_append]
  have hreads : Reads (value float _) ']' (text l 0) v :=
    reads_text hv (n := (text l 0 v).length + w.length) (by omega)
  have hend : skip w = [] := by
    have hskip := skip_append hw []
    rwa [List.append_nil] at hskip
  have hends : Ends w := List.append_nil w ▸ hw.ends_append ends_nil
  rw [loads, hchars, hlength, hreads.skip, hreads.read w hends, Option.bind_some]
  exact if_pos hend

/-! ## Lines -/

/-- Text within a line, or the end of a line of the layout. -/
def Prints (l : Layout) (c : Char) : Prop :=
  32 ≤ c.toNat ∧ (l.ascii = true → InAscii c) ∨ c = '\n' ∧ l.indent ≠ none

theorem prints_of_inAscii {c : Char} (h : InAscii c) : Prints l c := .inl ⟨h.1, fun _ => h⟩

theorem prints_newline (l : Layout) (level : ℕ) : ∀ c ∈ l.newline level, Prints l c := by
  intro c hc
  rw [Layout.newline] at hc
  split at hc
  next => cases hc
  next width hindent =>
    rcases List.mem_cons.mp hc with rfl | hc
    · exact .inr ⟨rfl, hindent ▸ nofun⟩
    · rw [(List.mem_replicate.mp hc).2]
      exact prints_of_inAscii (by decide)

theorem prints_separator (l : Layout) (level : ℕ) : ∀ c ∈ l.separator level, Prints l c := by
  intro c hc
  rw [Layout.separator] at hc
  split at hc
  next =>
    simp only [List.mem_cons, List.not_mem_nil, or_false] at hc
    rcases hc with rfl | rfl <;> exact prints_of_inAscii (by decide)
  next =>
    rcases List.mem_cons.mp hc with rfl | hc
    · exact prints_of_inAscii (by decide)
    · exact prints_newline l level c hc

theorem mem_intercalate {separator : List Char} {ms : List (List Char)} {c : Char}
    (h : c ∈ separator.intercalate ms) : c ∈ separator ∨ ∃ m ∈ ms, c ∈ m := by
  induction ms with
  | nil => cases h
  | cons m ms ih =>
      cases ms with
      | nil =>
          rw [List.intercalate_singleton] at h
          exact .inr ⟨m, List.mem_singleton_self m, h⟩
      | cons m' ms =>
          rw [List.intercalate_cons_cons, List.mem_append, List.mem_append] at h
          rcases h with (h | h) | h
          · exact .inr ⟨m, List.mem_cons_self, h⟩
          · exact .inl h
          · exact (ih h).imp_right fun ⟨m, hm, hc⟩ => ⟨m, List.mem_cons_of_mem _ hm, hc⟩

theorem prints_brackets {first last : Char} (hfirst : InAscii first) (hlast : InAscii last)
    {ms : List (List Char)} (hms : ∀ m ∈ ms, ∀ c ∈ m, Prints l c) :
    ∀ c ∈ l.brackets level first last ms, Prints l c := by
  intro c hc
  rw [Layout.brackets] at hc
  split at hc
  next =>
    simp only [List.mem_cons, List.not_mem_nil, or_false] at hc
    rcases hc with rfl | rfl
    · exact prints_of_inAscii hfirst
    · exact prints_of_inAscii hlast
  next =>
    simp only [List.mem_append, List.mem_cons, List.not_mem_nil, or_false] at hc
    rcases hc with (((rfl | hc) | hc) | hc) | rfl
    · exact prints_of_inAscii hfirst
    · exact prints_newline l _ c hc
    · rcases mem_intercalate hc with hc | ⟨m, hm, hc⟩
      · exact prints_separator l _ c hc
      · exact hms m hm c hc
    · exact prints_newline l _ c hc
    · exact prints_of_inAscii hlast

theorem inAscii_of_isNumberChar {c : Char} (h : isNumberChar c = true) : InAscii c := by
  rw [isNumberChar, Bool.or_eq_true] at h
  rcases h with h | h
  · have hrange : 48 ≤ c.toNat ∧ c.toNat ≤ 57 := by
      rw [Char.isDigit, Bool.and_eq_true, decide_eq_true_eq, decide_eq_true_eq] at h
      exact h
    exact ⟨by omega, by omega⟩
  · have hall : ['-', '+', '.', 'e', 'E'].all (fun c => InAscii c) = true := by decide
    exact of_decide_eq_true (List.all_eq_true.mp hall c (of_decide_eq_true h))

theorem inAscii_of_mem_constant {e : List Char × Json} (he : e ∈ constants) :
    ∀ c ∈ e.1, InAscii c := by
  have hall : constants.all (fun e => e.1.all fun c => InAscii c) = true := by decide
  intro c hc
  exact of_decide_eq_true (List.all_eq_true.mp (List.all_eq_true.mp hall e he) c hc)

/-- A value is on one line, but for the ends of lines of its layout, and in ASCII if the layout
is. -/
theorem prints_text (hv : WellFormed float v) : ∀ c ∈ text l level v, Prints l c := by
  induction hv generalizing level with
  | null =>
      have hmem : (text l level .null, Json.null) ∈ constants := by simp [constants, text]
      exact fun c hc => prints_of_inAscii (inAscii_of_mem_constant hmem c hc)
  | bool b =>
      have hmem : (text l level (.bool b), Json.bool b) ∈ constants := by
        cases b <;> simp [constants, text]
      exact fun c hc => prints_of_inAscii (inAscii_of_mem_constant hmem c hc)
  | num h =>
      intro c hc
      rcases h with h | h
      · exact prints_of_inAscii (inAscii_of_isNumberChar (h.chars.2 c hc))
      · exact prints_of_inAscii (inAscii_of_mem_constant h c hc)
  | str s =>
      intro c hc
      rcases List.mem_cons.mp hc with rfl | hc
      · exact prints_of_inAscii (by decide)
      · exact .inl (of_mem_escaped hc)
  | @arr items hitems ih =>
      rw [text, texts_eq]
      refine prints_brackets (by decide) (by decide) fun m hm => ?_
      obtain ⟨v, hv, rfl⟩ := List.mem_map.mp hm
      exact ih v hv
  | @obj fields hnodup hfields ih =>
      rw [text, memberTexts_eq]
      refine prints_brackets (by decide) (by decide) fun m hm c hc => ?_
      obtain ⟨e, he, rfl⟩ := List.mem_map.mp hm
      rw [memberText] at hc
      simp only [List.mem_append, List.mem_cons] at hc
      rcases hc with (rfl | hc) | rfl | rfl | hc
      · exact prints_of_inAscii (by decide)
      · exact .inl (of_mem_escaped hc)
      · exact prints_of_inAscii (by decide)
      · exact prints_of_inAscii (by decide)
      · exact ih e he c hc

/-! ## Whatever is read -/

section
variable {α : Type} {elem : List Char → Option (α × List Char)} {close : Char} {as : List α}

/-- The members of a list have been read one by one. -/
theorem exists_of_mem_sequence {n : ℕ} (h : sequence elem close n cs = some (as, r)) :
    ∀ a ∈ as, ∃ cs r, elem cs = some (a, r) := by
  induction n generalizing cs as r with
  | zero => cases h
  | succ n ih =>
      obtain ⟨p, hp, h⟩ := Option.bind_eq_some_iff.mp h
      simp only at h
      split at h
      next =>
        cases h
        exact List.forall_mem_singleton.mpr ⟨cs, p.2, hp⟩
      next =>
        split at h
        next =>
          obtain ⟨q, hq, heq⟩ := Option.map_eq_some_iff.mp h
          cases heq
          exact List.forall_mem_cons.mpr ⟨⟨cs, p.2, hp⟩, ih hq⟩
        next => cases h

theorem exists_of_mem_bracketed (h : bracketed elem close cs = some (as, r)) :
    ∀ a ∈ as, ∃ cs r, elem cs = some (a, r) := by
  rw [bracketed] at h
  split at h
  next =>
    cases h
    exact List.forall_mem_nil _
  next => exact exists_of_mem_sequence h

end

theorem exists_of_member {val : List Char → Option (Json × List Char)} {e : String × Json}
    (h : member val cs = some (e, r)) : ∃ cs r, val cs = some (e.2, r) := by
  obtain ⟨key, -, h⟩ := Option.bind_eq_some_iff.mp h
  simp only at h
  split at h
  next =>
    obtain ⟨p, hp, heq⟩ := Option.map_eq_some_iff.mp h
    cases heq
    exact ⟨_, p.2, hp⟩
  next => cases h

theorem wellFormed_of_constant (h : constant cs = some (v, r)) : WellFormed float v := by
  obtain ⟨e, he, heq⟩ := List.exists_of_findSome?_eq_some h
  split at heq
  next =>
    cases heq
    obtain ⟨w, v⟩ := e
    cases v with
    | null => exact .null
    | bool b => exact .bool b
    | num digits =>
        refine .num (.inr ?_)
        simp only [constants, List.mem_cons, List.not_mem_nil, or_false, Prod.mk.injEq,
          reduceCtorEq, and_false, Json.num.injEq, false_or] at he
        rcases he with ⟨rfl, rfl⟩ | ⟨rfl, rfl⟩ | ⟨rfl, rfl⟩ <;> simp [constants]
    | str s => exact .str s
    | arr | obj => simp [constants] at he
  next => cases heq

theorem wellFormed_of_value (hfloat : ∀ t, IsWritten float (float t)) {n : ℕ}
    (h : value float n cs = some (v, r)) : WellFormed float v := by
  induction n generalizing cs v r with
  | zero => cases h
  | succ n ih =>
      rw [value] at h
      split at h
      next =>
        obtain ⟨p, -, heq⟩ := Option.map_eq_some_iff.mp h
        cases heq
        exact .str p.1
      next =>
        split at h
        next =>
          obtain ⟨p, hp, heq⟩ := Option.map_eq_some_iff.mp h
          cases heq
          refine .arr fun v hv => ?_
          obtain ⟨cs, r, hread⟩ := exists_of_mem_bracketed hp v hv
          exact ih hread
        next =>
          split at h
          next =>
            obtain ⟨p, hp, heq⟩ := Option.map_eq_some_iff.mp h
            cases heq
            refine .obj (Dict.nodup_foldl_alter List.nodup_nil)
              (Dict.forall_foldl_alter (List.forall_mem_nil _) fun e he => ?_)
            obtain ⟨cs, r, hread⟩ := exists_of_mem_bracketed hp e he
            obtain ⟨cs, r, hread⟩ := exists_of_member hread
            exact ih hread
          next =>
            rcases Option.or_eq_some_iff.mp h with h | ⟨-, h⟩
            · obtain ⟨p, hp, heq⟩ := Option.map_eq_some_iff.mp h
              cases heq
              refine .num ?_
              rw [String.toList_ofList]
              rcases isNumber_or_float hp with hnumber | ⟨t, heq⟩
              · exact .inl hnumber
              · exact heq ▸ hfloat t
            · exact wellFormed_of_constant h

/-- Whatever `json.loads` reads is a value, if a `float` is written as a number. -/
theorem wellFormed_of_loads (hfloat : ∀ t, IsWritten float (float t)) {s : String}
    (h : loads float s = some v) : WellFormed float v := by
  obtain ⟨p, hp, h⟩ := Option.bind_eq_some_iff.mp h
  split at h
  next =>
    cases h
    exact wellFormed_of_value hfloat hp
  next => cases h

end

end Aicv.Python.JsonText
