import Aicv.Pool.Ownership

/-!
# An `Acquire` that fails

`Alone` is a call that runs by itself from a state of the pool, with a backend
that does nothing under a context that has ended.  An `Acquire` that runs alone
and returns an error leaves the pool and the containers of the backend as they
were, with one exception: when `Start` fails, `create` removes its container
under the context of the caller, and if that has ended the `Remove` fails as well
and the container stays (`acquire_restores_iff`).

The proof follows what the call has changed from point to point (`OnPath`).
-/

namespace Aicv.Pool

open Transition

/-! ## Running alone -/

/-- What the call may be answered.  A backend call under a context that has ended
fails, and a `Remove` under a live one succeeds. -/
structure Obeys (c : Call) (e : Event) : Prop where
  create : ∀ text cfg r, c = .growCreate (.acquire (some text)) → e = .create cfg r →
    ∃ text', r = .error text'
  start : ∀ text id err, c = .growStart (.acquire (some text)) id → e = .start id err → err ≠ none
  remove : ∀ ctx id e' id' err, c = .growUnstart (.acquire ctx) id e' → e = .remove id' err →
    (err = none ↔ ctx = none)

/-- A call that runs by itself, with its steps, the last one first. -/
inductive Alone (cfg : Config) (g : World) (c : Call) :
    List (Call × Event) → World → Multiset Call → Prop where
  | start : Alone cfg g c [] g {c}
  | step {l : List (Call × Event)} {g' g'' : World} {c' : Call} {e : Event} {cs : Multiset Call} :
      Alone cfg g c l g' {c'} → Obeys c' e → Call.Step cfg g' c' e g'' cs →
      Alone cfg g c ((c', e) :: l) g'' cs

/-- The call removes its container after a failed `Start`, under this context. -/
def Undoes (ctx : Ctx) (step : Call × Event) : Prop :=
  ∃ id e id' err, step = (.growUnstart (.acquire ctx) id e, .remove id' err)

/-- It does so under a context that has ended. -/
def Leaks (step : Call × Event) : Prop := ∃ text, Undoes (some text) step

/-- No such `Remove`. -/
def Clean (l : List (Call × Event)) : Prop := ∀ step ∈ l, ¬ Leaks step

section
variable {cfg : Config} {ok : Soup World Call → Label Call Event → Prop}
  {g₀ g g' : World} {c : Call} {e : Event} {cs ps : Multiset Call} {l : List (Call × Event)}

theorem clean_cons {step : Call × Event} : Clean (step :: l) ↔ ¬ Leaks step ∧ Clean l :=
  List.forall_mem_cons

/-- While a call runs alone, the others are where they were. -/
theorem Alone.run (h : Alone cfg g c l g' cs) (ps : Multiset Call) :
    (calls cfg).system.Run System.Any ⟨g, c ::ₘ ps⟩ ⟨g', cs + ps⟩ := by
  induction h with
  | start =>
      rw [Multiset.singleton_add]
      exact .refl _
  | step _ _ hs ih =>
      rw [Multiset.singleton_add] at ih
      exact .tail ih trivial (.act hs)

/-- The containers that exist have been issued. -/
theorem live_issued {s : Soup World Call} (h : (calls cfg).system.Reach ok s) :
    s.shared.backend.live ⊆ s.shared.backend.issued := by
  refine Program.invariant (I := fun s => s.shared.backend.live ⊆ s.shared.backend.issued)
    (fun s hs => ?_) (fun g p g' ps _ hi _ hc => ?_) (fun g p e g' qs ps _ hi _ hs => ?_) h
  · obtain ⟨-, -, rfl⟩ := init_iff.mp hs
    exact fun _ h => h
  · obtain ⟨rfl, -, -⟩ := hc.owned
    exact hi
  · cases hs with
    | createOk => exact Finset.insert_subset_insert _ hi
    | unstart | discardRemove | closeRemove => exact fun _ h => hi (Backend.live_of_removed h)
    | _ => exact hi

/-! ## What the call has changed -/

/-- The pool has this many slots less, and the backend these containers more. -/
structure Drift (g₀ g : World) (slots : ℤ) (extra : Finset String) : Prop where
  idle : g.pool.idle = g₀.pool.idle
  all : g.pool.all = g₀.pool.all
  count : g.pool.count = g₀.pool.count + slots
  live : g.backend.live = g₀.backend.live ∪ extra
  fresh : Disjoint g₀.backend.live extra

/-- The containers are there exactly if a `Remove` has failed. -/
def Settled (g₀ g : World) (clean : Prop) (slots : ℤ) : Prop :=
  ∃ extra, (clean ↔ extra = ∅) ∧ Drift g₀ g slots extra

/-- What an `Acquire` has changed at each point before it returns an error. -/
def OnPath (g₀ g : World) (clean : Prop) : Call → Prop
  | .acquire _ | .acquireFast _ | .grow (.acquire _) => clean ∧ Drift g₀ g 0 ∅
  | .growCreate (.acquire _) => clean ∧ Drift g₀ g 1 ∅
  | .growStart (.acquire _) id | .growUnstart (.acquire _) id _
  | .growRegister (.acquire _) id => clean ∧ Drift g₀ g 1 {id}
  | .growGiveBack (.acquire _) _ => Settled g₀ g clean 1
  | .acquireWait _ | .acquireReturn (.error _) => Settled g₀ g clean 0
  | _ => True

variable {clean : Prop} {slots : ℤ} {extra : Finset String}

theorem Drift.settled (h : Drift g₀ g slots ∅) (hclean : clean) : Settled g₀ g clean slots :=
  ⟨∅, iff_of_true hclean rfl, h⟩

/-- A section that moves the counter. -/
theorem Drift.withPool {p : Pool} {slots' : ℤ} (h : Drift g₀ g slots extra)
    (hidle : p.idle = g.pool.idle) (hall : p.all = g.pool.all)
    (hcount : p.count + slots = g.pool.count + slots') :
    Drift g₀ (g.withPool p) slots' extra where
  idle := hidle.trans h.idle
  all := hall.trans h.all
  count := by
    have := h.count
    rw [World.withPool_pool]
    omega
  live := h.live
  fresh := h.fresh

/-- A new container. -/
theorem Drift.created {id : String} (h : Drift g₀ g slots ∅) (hnew : id ∉ g₀.backend.live) :
    Drift g₀ (g.withBackend (g.backend.created id)) slots {id} where
  idle := h.idle
  all := h.all
  count := h.count
  live := by simp [Backend.created, h.live]
  fresh := Finset.disjoint_singleton_right.mpr hnew

theorem onPath_refused (w : Grower) (e : Error) (h : Settled g₀ g clean 0) :
    OnPath g₀ g clean (w.refused e) := by
  cases w with
  | new => trivial
  | acquire => cases e <;> exact h

theorem onPath_grown (w : Grower) (id : String) : OnPath g₀ g clean (w.grown id) := by
  cases w <;> trivial

/-- A step of an `Acquire` other than that `Remove`. -/
theorem Call.Step.onPath (hs : Call.Step cfg g c e g' cs) (hnot : ∀ ctx, ¬ Undoes ctx (c, e))
    (hissued : g₀.backend.live ⊆ g.backend.issued) (hp : OnPath g₀ g clean c) :
    ∀ c' ∈ cs, OnPath g₀ g' clean c' := by
  intro c' hc'
  cases hs with
  | prewarmEnd | returnErr | releaseDead | releaseSend | removeByIDGone | discardRemove
  | closeAgain | closeRet => cases Multiset.notMem_zero _ hc'
  | @unstart w =>
      obtain rfl := Multiset.mem_singleton.mp hc'
      cases w with
      | new => trivial
      | acquire => exact absurd ⟨_, _, _, _, rfl⟩ (hnot _)
  | @growRefused w =>
      obtain rfl := Multiset.mem_singleton.mp hc'
      cases w with
      | new => trivial
      | acquire => exact onPath_refused _ _ (hp.2.settled hp.1)
  | register =>
      obtain rfl := Multiset.mem_singleton.mp hc'
      exact onPath_grown _ _
  | cancel hcancel =>
      obtain rfl := Multiset.mem_singleton.mp hc'
      cases hcancel <;> exact hp
  | @growReserve w p hr =>
      obtain rfl := Multiset.mem_singleton.mp hc'
      obtain ⟨-, -, rfl⟩ := reserve_ok.mp hr
      cases w with
      | new => trivial
      | acquire => exact ⟨hp.1, hp.2.withPool rfl rfl (by simp)⟩
  | @createOk w id hnew =>
      obtain rfl := Multiset.mem_singleton.mp hc'
      cases w with
      | new => trivial
      | acquire => exact ⟨hp.1, hp.2.created fun h => hnew (hissued h)⟩
  | @createErr w =>
      obtain rfl := Multiset.mem_singleton.mp hc'
      cases w with
      | new => trivial
      | acquire => exact hp.2.settled hp.1
  | @startOk w | @startErr w =>
      obtain rfl := Multiset.mem_singleton.mp hc'
      cases w with
      | new => trivial
      | acquire => exact hp
  | @giveBack w =>
      obtain rfl := Multiset.mem_singleton.mp hc'
      cases w with
      | new => trivial
      | acquire =>
          obtain ⟨extra, hextra, hdrift⟩ := hp
          exact onPath_refused _ _ ⟨extra, hextra, hdrift.withPool rfl rfl (by simp)⟩
  | acquireClosed =>
      obtain rfl := Multiset.mem_singleton.mp hc'
      exact hp.2.settled hp.1
  | acquireOpen | fastDefault | waitDone | waitCtx =>
      obtain rfl := Multiset.mem_singleton.mp hc'
      exact hp
  | _ =>
      obtain rfl := Multiset.mem_singleton.mp hc'
      trivial

/-- The `Remove` of a container whose `Start` has failed. -/
theorem onPath_unstart {ctx : Ctx} {id : String} {e : Error} {err : Option String}
    (hobeys : err = none ↔ ctx = none) (hp : OnPath g₀ g clean (.growUnstart (.acquire ctx) id e)) :
    OnPath g₀ (g.withBackend (g.backend.removed id err)) (ctx = none ∧ clean)
      (.growGiveBack (.acquire ctx) e) := by
  obtain ⟨hclean, hidle, hall, hcount, hlive, hfresh⟩ := hp
  have hid : id ∉ g₀.backend.live := Finset.disjoint_singleton_right.mp hfresh
  cases err with
  | none =>
      have hctx := hobeys.mp rfl
      refine ⟨∅, iff_of_true ⟨hctx, hclean⟩ rfl, hidle, hall, hcount, ?_, disjoint_bot_right⟩
      simp [Backend.removed, hlive, hid]
  | some text =>
      have hctx : ctx ≠ none := fun h => nomatch hobeys.mpr h
      refine ⟨{id}, iff_of_false (fun h => hctx h.1) (Finset.singleton_ne_empty id), hidle, hall,
        hcount, hlive, hfresh⟩

theorem Alone.onPath {ctx : Ctx} (h : Alone cfg g (.acquire ctx) l g' cs)
    (hlive : g.backend.live ⊆ g.backend.issued) :
    g.backend.live ⊆ g'.backend.issued ∧ ∀ c' ∈ cs, OnPath g g' (Clean l) c' := by
  induction h with
  | start =>
      refine ⟨hlive, fun c' hc' => ?_⟩
      obtain rfl := Multiset.mem_singleton.mp hc'
      exact ⟨List.forall_mem_nil _, rfl, rfl, by simp, by simp, disjoint_bot_right⟩
  | @step l g₁ g₂ c e cs _ hobeys hs ih =>
      obtain ⟨hissued, hpath⟩ := ih
      have hc := hpath c (Multiset.mem_singleton_self c)
      refine ⟨hissued.trans hs.issued_subset, ?_⟩
      by_cases hundo : ∃ ctx, Undoes ctx (c, e)
      · obtain ⟨ctx', id, e', id', err, heq⟩ := hundo
        cases heq
        have hclean : Clean ((.growUnstart (.acquire ctx') id e', .remove id' err) :: l) ↔
            ctx' = none ∧ Clean l := by
          rw [clean_cons]
          cases ctx' <;> simp [Leaks, Undoes]
        cases hs with
        | unstart =>
            intro c' hc'
            obtain rfl := Multiset.mem_singleton.mp hc'
            rw [propext hclean]
            exact onPath_unstart (hobeys.remove _ _ _ _ _ rfl rfl) hc
      · have hnot (ctx : Ctx) : ¬ Undoes ctx (c, e) := fun h => hundo ⟨ctx, h⟩
        have hclean : Clean ((c, e) :: l) ↔ Clean l :=
          clean_cons.trans (and_iff_right fun ⟨_, h⟩ => hnot _ h)
        rw [propext hclean]
        exact hs.onPath hnot hissued hc

/-- An `Acquire` that runs alone and returns an error leaves the idle channel, the
registry, the count and the containers of the backend as they were if and only
if it has not removed a container under a context that had ended. -/
theorem acquire_restores_iff {ctx : Ctx} {e : Error}
    (hr : (calls cfg).system.Reachable ⟨g, .acquire ctx ::ₘ ps⟩)
    (h : Alone cfg g (.acquire ctx) ((.acquireReturn (.error e), .ret) :: l) g' 0) :
    (g'.pool.idle = g.pool.idle ∧ g'.pool.all = g.pool.all ∧ g'.pool.count = g.pool.count ∧
      g'.backend.live = g.backend.live) ↔ ∀ step ∈ l, ¬ Leaks step := by
  cases h with
  | step hl _ hs =>
      cases hs with
      | returnErr =>
          obtain ⟨extra, hextra, hidle, hall, hcount, hlive, hfresh⟩ :=
            (hl.onPath (live_issued hr)).2 _ (Multiset.mem_singleton_self _)
          have hsame : g'.backend.live = g.backend.live ↔ extra = ∅ := by
            rw [hlive, Finset.union_eq_left]
            exact ⟨fun h => Finset.disjoint_self_iff_empty _ |>.mp (hfresh.mono_left h),
              fun h => h ▸ Finset.empty_subset _⟩
          rw [hsame, ← hextra]
          exact ⟨fun h => h.2.2.2, fun h => ⟨hidle, hall, by rw [hcount, add_zero], h⟩⟩

theorem obeys_remove {ctx : Ctx} {id id' : String} {e : Error} {err : Option String}
    (h : err = none ↔ ctx = none) : Obeys (.growUnstart (.acquire ctx) id e) (.remove id' err) := by
  refine ⟨by simp, by simp, ?_⟩
  rintro _ _ _ _ _ ⟨⟩ ⟨⟩
  exact h

/-- The end of an `Acquire` whose `Start` has failed. -/
theorem exists_undo {ctx : Ctx} {id text : String} (err : Option String)
    (h : Alone cfg g c l g' {.growUnstart (.acquire ctx) id (.start text)})
    (herr : err = none ↔ ctx = none) :
    ∃ g'', Alone cfg g c ((.acquireReturn (.error (.start text)), .ret) ::
        (.growGiveBack (.acquire ctx) (.start text), .lock) ::
        (.growUnstart (.acquire ctx) id (.start text), .remove id err) :: l) g'' 0 ∧
      g''.backend.live = (g'.backend.removed id err).live :=
  ⟨_, .step (.step (.step h (obeys_remove herr) .unstart) ⟨by simp, by simp, by simp⟩ .giveBack)
    ⟨by simp, by simp, by simp⟩ .returnErr, rfl⟩

/-- An `Acquire` of an open pool with a free slot, up to its `Start`. -/
theorem exists_start (hopen : g.pool.closed = false) (hidle : g.pool.idle = [])
    (hcount : g.pool.count < cfg.maxSize) {id : String} (hnew : id ∉ g.backend.issued) :
    ∃ l g', Alone cfg g (.acquire none) l g' {.growStart (.acquire none) id} ∧ Clean l ∧
      g'.backend.live = insert id g.backend.live := by
  have hgrow : Alone cfg g (.acquire none) _ _ {.grow (.acquire none)} :=
    .step (.step .start ⟨by simp, by simp, by simp⟩ (.acquireOpen hopen))
      ⟨by simp, by simp, by simp⟩ (.fastDefault hidle)
  have hstart := Alone.step (.step hgrow ⟨by simp, by simp, by simp⟩
    (.growReserve (reserve_ok.mpr ⟨hopen, hcount, rfl⟩))) ⟨by simp, by simp, by simp⟩
    (.createOk hnew)
  exact ⟨_, _, hstart, by simp [Clean, Leaks, Undoes], rfl⟩

end

/-- A `Start` fails under a live context, and the container is removed. -/
theorem acquire_restores_started : ∃ (g g' : World) (l : List (Call × Event)) (e : Error),
    Alone (Config.sized 0 1 0) g (.acquire none) ((.acquireReturn (.error e), .ret) :: l) g' 0 ∧
      (.growUnstart (.acquire none) "a" e, .remove "a" none) ∈ l ∧
      g'.backend.live = g.backend.live := by
  let cfg := Config.sized 0 1 0
  obtain ⟨s, hs, hprocs, hopen, hidle, hcount, hnew⟩ := exists_reachable cfg (by decide)
    (Script.new ++ [.call (.acquire none)])
    (fun s => s.procs = {.acquire none} ∧ s.shared.pool.closed = false ∧ s.shared.pool.idle = [] ∧
      s.shared.pool.count < cfg.maxSize ∧ "a" ∉ s.shared.backend.issued)
    (by decide +kernel)
  obtain ⟨g, procs⟩ := s
  obtain rfl : procs = {.acquire none} := hprocs
  obtain ⟨l, g', hrun, hclean, -⟩ := exists_start hopen hidle hcount hnew
  have hfail : Alone cfg g _
      ((.growStart (.acquire none) "a", .start "a" (some "exit 125")) :: l) g'
      {.growUnstart (.acquire none) "a" (.start "exit 125")} :=
    .step hrun ⟨by simp, by simp, by simp⟩ .startErr
  obtain ⟨g'', hret, -⟩ := exists_undo none hfail (by simp)
  refine ⟨g, g'', _, _, hret, by simp, ((acquire_restores_iff hs hret).mpr ?_).2.2.2⟩
  refine clean_cons.mpr ⟨by simp [Leaks, Undoes], clean_cons.mpr ⟨by simp [Leaks, Undoes], ?_⟩⟩
  exact clean_cons.mpr ⟨by simp [Leaks, Undoes], hclean⟩

/-- The context of the caller ends during `Start`, which fails.  The `Remove` that
follows runs under the same context, and the container stays. -/
theorem acquire_leaks : ¬ ∀ (cfg : Config) (g g' : World) (ps : Multiset Call) (ctx : Ctx)
    (l : List (Call × Event)) (e : Error),
    (calls cfg).system.Reachable ⟨g, .acquire ctx ::ₘ ps⟩ → g.pool.closed = false →
    Alone cfg g (.acquire ctx) ((.acquireReturn (.error e), .ret) :: l) g' 0 →
    g'.pool.idle = g.pool.idle ∧ g'.pool.all = g.pool.all ∧ g'.pool.count = g.pool.count ∧
      g'.backend.live = g.backend.live := by
  intro h
  let cfg := Config.sized 0 1 0
  obtain ⟨s, hs, hprocs, hopen, hidle, hcount, hnew, hlive⟩ := exists_reachable cfg (by decide)
    (Script.new ++ [.call (.acquire none)])
    (fun s => s.procs = {.acquire none} ∧ s.shared.pool.closed = false ∧ s.shared.pool.idle = [] ∧
      s.shared.pool.count < cfg.maxSize ∧ "a" ∉ s.shared.backend.issued ∧
      "a" ∉ s.shared.backend.live)
    (by decide +kernel)
  obtain ⟨g, procs⟩ := s
  obtain rfl : procs = {.acquire none} := hprocs
  obtain ⟨l, g', hrun, -, hkept⟩ := exists_start hopen hidle hcount hnew
  have hfail : Alone cfg g _ ((.growStart (.acquire (some "canceled")) "a",
      .start "a" (some "canceled")) :: (.growStart (.acquire none) "a", .cancel "canceled") :: l) g'
      {.growUnstart (.acquire (some "canceled")) "a" (.start "canceled")} :=
    .step (.step hrun ⟨by simp, by simp, by simp⟩ (.cancel .growStart))
      ⟨by simp, by simp, by simp⟩ .startErr
  obtain ⟨g'', hret, hlast⟩ := exists_undo (some "canceled") hfail (by simp)
  have hsame := (h cfg g g'' 0 none _ _ hs hopen hret).2.2.2
  rw [hlast, Backend.removed, if_neg (by simp), hkept] at hsame
  exact hlive (hsame ▸ Finset.mem_insert_self _ _)

end Aicv.Pool
