import Mathlib.Data.List.Basic

/-!
# Patterns

A `Pattern` is a regular expression whose repetitions are of single units.  `Matches`
says which cursors a pattern leads to and with which groups, and `run` is the search
that tries the alternatives in their order, so that the first success is the match
of a backtracking matcher: `many` takes as much as it can, `few` as little.  What the
search finds is a match (`exists_of_run`), and the lemmas on `Leads` say which one it is.

`find` searches a text from left to right, and `findAll` goes on behind each match.
-/

namespace Text

universe u v

variable {α : Type u} {β : Type v}

/-- A pattern over the units of a text. -/
inductive Pattern (α : Type u) where
  /-- One unit. -/
  | one (p : α → Bool)
  /-- Any number of units, the more the better. -/
  | many (p : α → Bool)
  /-- Any number of units, the fewer the better. -/
  | few (p : α → Bool)
  /-- No unit, with a condition on the units before and after. -/
  | look (q : Option α → Option α → Bool)
  | seq (a b : Pattern α)
  /-- A pattern whose text is recorded. -/
  | group (a : Pattern α)

/-- A position in a text, and the groups recorded on the way to it. -/
structure Cursor (α : Type u) where
  prev : Option α
  rest : List α
  groups : List (List α)

/-- The unit before a position, after the units `t`. -/
def after (prev : Option α) (t : List α) : Option α := t.foldl (fun _ a => some a) prev

@[simp] theorem after_nil (prev : Option α) : after prev [] = prev := rfl

@[simp] theorem after_cons (prev : Option α) (a : α) (t : List α) :
    after prev (a :: t) = after (some a) t := rfl

@[simp] theorem after_append (prev : Option α) (t u : List α) :
    after prev (t ++ u) = after (after prev t) u := List.foldl_append ..

theorem exists_after {t : List α} (prev : Option α) (h : t ≠ []) :
    ∃ a ∈ t, after prev t = some a := by
  obtain ⟨u, a, rfl⟩ := List.eq_nil_or_concat t |>.resolve_left h
  exact ⟨a, by simp, by simp⟩

namespace Pattern

/-- One unit or more, the more the better. -/
def plus (p : α → Bool) : Pattern α := seq (one p) (many p)

/-- The units of a word. -/
def lit [BEq α] : List α → Pattern α
  | [] => look fun _ _ => true
  | a :: w => seq (one (· == a)) (lit w)

/-- The start of the text. -/
def start : Pattern α := look fun prev _ => prev.isNone

/-- The start of a line. -/
def lineStart (newline : α → Bool) : Pattern α := look fun prev _ => prev.all newline

/-- The end of the text. -/
def stop : Pattern α := look fun _ next => next.isNone

/-- The first success of `k` with the most units of `p` before it. -/
def greedy (p : α → Bool) (k : Option α → List α → Option β) : Option α → List α → Option β
  | prev, [] => k prev []
  | prev, a :: s =>
      if p a then (greedy p k (some a) s).or (k prev (a :: s)) else k prev (a :: s)

/-- The first success of `k` with the fewest units of `p` before it. -/
def lazily (p : α → Bool) (k : Option α → List α → Option β) : Option α → List α → Option β
  | prev, [] => k prev []
  | prev, a :: s => (k prev (a :: s)).or (if p a then lazily p k (some a) s else none)

/-- The first match at a cursor with which `k` succeeds. -/
def run : Pattern α → (Cursor α → Option β) → Cursor α → Option β
  | one p, k, c =>
      match c.rest with
      | [] => none
      | a :: s => if p a then k ⟨some a, s, c.groups⟩ else none
  | many p, k, c => greedy p (fun prev rest => k ⟨prev, rest, c.groups⟩) c.prev c.rest
  | few p, k, c => lazily p (fun prev rest => k ⟨prev, rest, c.groups⟩) c.prev c.rest
  | look q, k, c => if q c.prev c.rest.head? then k c else none
  | seq a b, k, c => run a (run b k) c
  | group a, k, c =>
      run a (fun d =>
        let t := c.rest.take (c.rest.length - d.rest.length)
        k ⟨d.prev, d.rest, d.groups ++ [t]⟩) c

/-- The groups of the leftmost match. -/
def find (p : Pattern α) : Option α → List α → Option (List (List α))
  | prev, [] => (run p some ⟨prev, [], []⟩).map (·.groups)
  | prev, a :: s => ((run p some ⟨prev, a :: s, []⟩).map (·.groups)).or (find p (some a) s)

/-- The groups of each match, in a search that goes on behind the last match, for a
pattern without empty matches.  The first `n` units are passed over. -/
def findAll (p : Pattern α) : ℕ → Option α → List α → List (List (List α))
  | _, _, [] => []
  | n + 1, _, a :: s => findAll p n (some a) s
  | 0, prev, a :: s =>
      match run p some ⟨prev, a :: s, []⟩ with
      | some d => d.groups :: findAll p (s.length - d.rest.length) (some a) s
      | none => findAll p 0 (some a) s

/-! ## What a match is -/

/-- A pattern matches the text between two cursors. -/
inductive Matches : Pattern α → Cursor α → Cursor α → Prop where
  | one {p : α → Bool} {prev : Option α} {a : α} {s : List α} {gs : List (List α)} :
      p a = true → Matches (one p) ⟨prev, a :: s, gs⟩ ⟨some a, s, gs⟩
  | many {p : α → Bool} {prev : Option α} {t s : List α} {gs : List (List α)} :
      (∀ a ∈ t, p a = true) → Matches (many p) ⟨prev, t ++ s, gs⟩ ⟨after prev t, s, gs⟩
  | few {p : α → Bool} {prev : Option α} {t s : List α} {gs : List (List α)} :
      (∀ a ∈ t, p a = true) → Matches (few p) ⟨prev, t ++ s, gs⟩ ⟨after prev t, s, gs⟩
  | look {q : Option α → Option α → Bool} {c : Cursor α} :
      q c.prev c.rest.head? = true → Matches (look q) c c
  | seq {a b : Pattern α} {c d e : Cursor α} :
      Matches a c d → Matches b d e → Matches (seq a b) c e
  | group {a : Pattern α} {c d : Cursor α} {t : List α} :
      Matches a c d → c.rest = t ++ d.rest → Matches (group a) c ⟨d.prev, d.rest, d.groups ++ [t]⟩

/-- A match goes over a part of the text. -/
theorem Matches.exists_rest {p : Pattern α} {c d : Cursor α} (h : Matches p c d) :
    ∃ t, c.rest = t ++ d.rest ∧ d.prev = after c.prev t := by
  induction h with
  | @one _ _ a => exact ⟨[a], rfl, rfl⟩
  | @many _ _ t => exact ⟨t, rfl, rfl⟩
  | @few _ _ t => exact ⟨t, rfl, rfl⟩
  | look => exact ⟨[], rfl, rfl⟩
  | seq _ _ ih ih' =>
      obtain ⟨t, hrest, hprev⟩ := ih
      obtain ⟨t', hrest', hprev'⟩ := ih'
      refine ⟨t ++ t', ?_, ?_⟩
      · rw [hrest, hrest', List.append_assoc]
      · rw [hprev', hprev, after_append]
  | group _ _ ih => exact ih

/-! ## The search -/

section
variable {p : α → Bool} {k : Option α → List α → Option β} {prev : Option α} {t s : List α} {x : β}

theorem exists_of_greedy :
    ∀ {s : List α} {prev : Option α}, greedy p k prev s = some x →
      ∃ t u, s = t ++ u ∧ (∀ a ∈ t, p a = true) ∧ k (after prev t) u = some x
  | [], _, h => ⟨[], [], rfl, List.forall_mem_nil _, h⟩
  | a :: s, prev, h => by
      rw [greedy] at h
      split at h
      next ha =>
        rcases Option.or_eq_some_iff.mp h with h | ⟨-, h⟩
        · obtain ⟨t, u, rfl, ht, hk⟩ := exists_of_greedy h
          exact ⟨a :: t, u, rfl, List.forall_mem_cons.mpr ⟨ha, ht⟩, hk⟩
        · exact ⟨[], a :: s, rfl, List.forall_mem_nil _, h⟩
      next => exact ⟨[], a :: s, rfl, List.forall_mem_nil _, h⟩

theorem exists_of_lazily :
    ∀ {s : List α} {prev : Option α}, lazily p k prev s = some x →
      ∃ t u, s = t ++ u ∧ (∀ a ∈ t, p a = true) ∧ k (after prev t) u = some x
  | [], _, h => ⟨[], [], rfl, List.forall_mem_nil _, h⟩
  | a :: s, prev, h => by
      rw [lazily] at h
      rcases Option.or_eq_some_iff.mp h with h | ⟨-, h⟩
      · exact ⟨[], a :: s, rfl, List.forall_mem_nil _, h⟩
      · split at h
        next ha =>
          obtain ⟨t, u, rfl, ht, hk⟩ := exists_of_lazily h
          exact ⟨a :: t, u, rfl, List.forall_mem_cons.mpr ⟨ha, ht⟩, hk⟩
        next => cases h

/-- Units at which `k` does not succeed are passed over. -/
theorem greedy_append (ht : ∀ a ∈ t, p a = true)
    (hk : ∀ u a v, t = u ++ a :: v → k (after prev u) (a :: v ++ s) = none) :
    greedy p k prev (t ++ s) = greedy p k (after prev t) s := by
  induction t generalizing prev with
  | nil => rfl
  | cons a t ih =>
      obtain ⟨ha, ht⟩ := List.forall_mem_cons.mp ht
      have hfail : k prev (a :: t ++ s) = none := hk [] a t rfl
      rw [List.cons_append, greedy, if_pos ha, after_cons,
        ih ht fun u b v huv => hk (a :: u) b v (congrArg (a :: ·) huv)]
      exact (congrArg _ hfail).trans Option.or_none

theorem lazily_append (ht : ∀ a ∈ t, p a = true)
    (hk : ∀ u a v, t = u ++ a :: v → k (after prev u) (a :: v ++ s) = none) :
    lazily p k prev (t ++ s) = lazily p k (after prev t) s := by
  induction t generalizing prev with
  | nil => rfl
  | cons a t ih =>
      obtain ⟨ha, ht⟩ := List.forall_mem_cons.mp ht
      have hfail : k prev (a :: (t ++ s)) = none := hk [] a t rfl
      rw [List.cons_append, lazily, if_pos ha, hfail, Option.none_or, after_cons,
        ih ht fun u b v huv => hk (a :: u) b v (congrArg (a :: ·) huv)]

theorem greedy_stop (hs : ∀ a ∈ s.head?, p a = false) : greedy p k prev s = k prev s := by
  cases s with
  | nil => rfl
  | cons a s => rw [greedy, if_neg (by simp [hs a rfl])]

/-- All units of a run of `p` are taken where `k` succeeds behind them. -/
theorem greedy_take (ht : ∀ a ∈ t, p a = true) (hs : ∀ a ∈ s.head?, p a = false)
    (hk : k (after prev t) s = some x) : greedy p k prev (t ++ s) = some x := by
  induction t generalizing prev with
  | nil => exact (greedy_stop hs).trans hk
  | cons a t ih =>
      obtain ⟨ha, ht⟩ := List.forall_mem_cons.mp ht
      rw [List.cons_append, greedy, if_pos ha, ih ht hk, Option.some_or]

theorem lazily_first (hk : k prev s = some x) : lazily p k prev s = some x := by
  cases s with
  | nil => exact hk
  | cons a s => rw [lazily, hk, Option.some_or]

end

/-- What the search finds is a match. -/
theorem exists_of_run {p : Pattern α} {k : Cursor α → Option β} {c : Cursor α} {x : β}
    (h : run p k c = some x) : ∃ d, Matches p c d ∧ k d = some x := by
  induction p generalizing c x β with
  | one p =>
      obtain ⟨prev, rest, gs⟩ := c
      cases rest with
      | nil => cases h
      | cons a s =>
          simp only [run] at h
          split at h
          next ha => exact ⟨_, .one ha, h⟩
          next => cases h
  | many p =>
      obtain ⟨prev, rest, gs⟩ := c
      obtain ⟨t, u, rfl, ht, hk⟩ := exists_of_greedy h
      exact ⟨_, .many ht, hk⟩
  | few p =>
      obtain ⟨prev, rest, gs⟩ := c
      obtain ⟨t, u, rfl, ht, hk⟩ := exists_of_lazily h
      exact ⟨_, .few ht, hk⟩
  | look q =>
      simp only [run] at h
      split at h
      next hq => exact ⟨c, .look hq, h⟩
      next => cases h
  | seq a b iha ihb =>
      obtain ⟨d, hd, hb⟩ := iha h
      obtain ⟨e, he, hk⟩ := ihb hb
      exact ⟨e, .seq hd he, hk⟩
  | group a iha =>
      obtain ⟨d, hd, hk⟩ := iha h
      obtain ⟨t, ht, -⟩ := hd.exists_rest
      refine ⟨_, .group hd ht, ?_⟩
      simpa [ht] using hk

/-! ## Inversion -/

section
variable {p : α → Bool} {a b : Pattern α} {c d : Cursor α}

theorem Matches.of_one (h : Matches (.one p) c d) :
    ∃ x, p x = true ∧ c.rest = x :: d.rest := by
  cases h with
  | @one _ _ x _ _ hx => exact ⟨x, hx, rfl⟩

theorem Matches.of_many (h : Matches (.many p) c d) :
    ∃ t, (∀ x ∈ t, p x = true) ∧ c.rest = t ++ d.rest := by
  cases h with
  | @many _ _ t _ _ ht => exact ⟨t, ht, rfl⟩

theorem Matches.of_look {q : Option α → Option α → Bool} (h : Matches (.look q) c d) : c = d := by
  cases h with
  | look => rfl

theorem Matches.of_stop (h : Matches .stop c d) : c = d ∧ c.rest = [] := by
  cases h with
  | look hq => exact ⟨rfl, by simpa using hq⟩

theorem Matches.of_seq (h : Matches (.seq a b) c d) : ∃ e, Matches a c e ∧ Matches b e d := by
  cases h with
  | seq ha hb => exact ⟨_, ha, hb⟩

theorem Matches.of_group (h : Matches (.group a) c d) :
    ∃ e, Matches a c e ∧ e.rest = d.rest := by
  cases h with
  | group ha _ => exact ⟨_, ha, rfl⟩

theorem Matches.of_lit [BEq α] [LawfulBEq α] {w : List α} (h : Matches (.lit w) c d) :
    c.rest = w ++ d.rest := by
  induction w generalizing c with
  | nil => exact congrArg Cursor.rest h.of_look
  | cons a w ih =>
      obtain ⟨e, hone, hlit⟩ := h.of_seq
      obtain ⟨x, hx, hrest⟩ := hone.of_one
      rw [hrest, eq_of_beq hx, ih hlit, List.cons_append]

theorem Matches.of_plus (h : Matches (.plus p) c d) :
    ∃ t, t ≠ [] ∧ (∀ x ∈ t, p x = true) ∧ c.rest = t ++ d.rest := by
  obtain ⟨e, hone, hmany⟩ := h.of_seq
  obtain ⟨x, hx, hrest⟩ := hone.of_one
  obtain ⟨t, ht, hrest'⟩ := hmany.of_many
  refine ⟨x :: t, List.cons_ne_nil x t, List.forall_mem_cons.mpr ⟨hx, ht⟩, ?_⟩
  rw [hrest, hrest']
  rfl

theorem Matches.of_group_plus (h : Matches (.group (.plus p)) c d) :
    ∃ t, t ≠ [] ∧ (∀ x ∈ t, p x = true) ∧ c.rest = t ++ d.rest := by
  obtain ⟨e, hplus, hrest⟩ := h.of_group
  rw [← hrest]
  exact hplus.of_plus

end

/-! ## The first choice -/

/-- The search from `c` goes to `d` first. -/
def Leads (p : Pattern α) (c d : Cursor α) : Prop :=
  ∀ (k : Cursor α → Option (Cursor α)) (x : Cursor α), k d = some x → run p k c = some x

section
variable {p : α → Bool} {prev : Option α} {s t : List α} {gs : List (List α)} {x : α}

theorem Leads.run {q : Pattern α} {c d : Cursor α} (h : Leads q c d) : run q some c = some d :=
  h some d rfl

theorem Leads.one (hx : p x = true) : Leads (.one p) ⟨prev, x :: s, gs⟩ ⟨some x, s, gs⟩ := by
  intro k y hk
  simpa only [Pattern.run, hx, if_true] using hk

theorem Leads.many (ht : ∀ a ∈ t, p a = true) (hs : ∀ a ∈ s.head?, p a = false) :
    Leads (.many p) ⟨prev, t ++ s, gs⟩ ⟨after prev t, s, gs⟩ :=
  fun _ _ hk => greedy_take ht hs hk

theorem Leads.look {q : Option α → Option α → Bool} {c : Cursor α}
    (hq : q c.prev c.rest.head? = true) : Leads (.look q) c c := by
  intro k y hk
  simpa only [Pattern.run, hq, if_true] using hk

theorem Leads.start : Leads .start ⟨none, s, gs⟩ ⟨none, s, gs⟩ := .look rfl

theorem Leads.stop : Leads .stop ⟨prev, [], gs⟩ ⟨prev, [], gs⟩ := .look rfl

theorem Leads.seq {a b : Pattern α} {c d e : Cursor α} (ha : Leads a c d) (hb : Leads b d e) :
    Leads (.seq a b) c e :=
  fun k y hk => ha (Pattern.run b k) y (hb k y hk)

theorem Leads.lit [BEq α] [ReflBEq α] (w : List α) :
    Leads (.lit w) ⟨prev, w ++ s, gs⟩ ⟨after prev w, s, gs⟩ := by
  induction w generalizing prev with
  | nil => exact .look rfl
  | cons a w ih => exact .seq (.one BEq.rfl) ih

theorem Leads.group {a : Pattern α} {prev' : Option α}
    (ha : Leads a ⟨prev, t ++ s, gs⟩ ⟨prev', s, gs⟩) :
    Leads (.group a) ⟨prev, t ++ s, gs⟩ ⟨prev', s, gs ++ [t]⟩ := by
  intro k y hk
  exact ha _ y (by simpa using hk)

theorem Leads.plus (hne : t ≠ []) (ht : ∀ a ∈ t, p a = true) (hs : ∀ a ∈ s.head?, p a = false) :
    Leads (.plus p) ⟨prev, t ++ s, gs⟩ ⟨after prev t, s, gs⟩ := by
  cases t with
  | nil => exact absurd rfl hne
  | cons a t =>
      obtain ⟨ha, ht⟩ := List.forall_mem_cons.mp ht
      exact .seq (.one ha) (.many ht hs)

/-- The rest of a text is one group. -/
theorem Leads.group_rest (ht : ∀ a ∈ t, p a = true) :
    Leads (.group (.many p)) ⟨prev, t, gs⟩ ⟨after prev t, [], gs ++ [t]⟩ := by
  have hmany : Leads (.many p) ⟨prev, t ++ [], gs⟩ ⟨after prev t, [], gs⟩ := .many ht (by simp)
  simpa using hmany.group

end

/-! ## Searching -/

/-- A pattern that starts at the start of the text is matched there or nowhere. -/
theorem find_start (p : Pattern α) (s : List α) :
    find (seq start p) none s = (run p some ⟨none, s, []⟩).map (·.groups) := by
  have hrest : ∀ (s : List α) (a : α), find (seq start p) (some a) s = none := by
    intro s
    induction s with
    | nil => exact fun _ => rfl
    | cons b s ih => exact fun _ => ih b
  cases s with
  | nil => rfl
  | cons a s =>
      rw [find, hrest]
      exact Option.or_none

section
variable {p : Pattern α} {prev : Option α} {s t : List α}

theorem findAll_skip (t s : List α) (prev : Option α) :
    findAll p t.length prev (t ++ s) = findAll p 0 (after prev t) s := by
  induction t generalizing prev with
  | nil => rfl
  | cons a t ih => exact ih (some a)

/-- The search goes on behind a match. -/
theorem findAll_match {d : Cursor α} (h : run p some ⟨prev, t ++ s, []⟩ = some d)
    (hrest : d.rest = s) (hne : t ≠ []) :
    findAll p 0 prev (t ++ s) = d.groups :: findAll p 0 (after prev t) s := by
  cases t with
  | nil => exact absurd rfl hne
  | cons a t =>
      have hlen : (t ++ s).length - d.rest.length = t.length := by simp [hrest]
      rw [List.cons_append] at h ⊢
      rw [findAll, h]
      simp only [hlen, findAll_skip, after_cons]

/-- Units at which there is no match are passed over. -/
theorem findAll_append
    (h : ∀ u a v, t = u ++ a :: v → run p some ⟨after prev u, a :: v ++ s, []⟩ = none) :
    findAll p 0 prev (t ++ s) = findAll p 0 (after prev t) s := by
  induction t generalizing prev with
  | nil => rfl
  | cons a t ih =>
      have hnone : run p some ⟨prev, a :: (t ++ s), []⟩ = none := h [] a t rfl
      rw [List.cons_append, findAll, hnone]
      exact ih fun u b v huv => h (a :: u) b v (congrArg (a :: ·) huv)

end

end Pattern

end Text
