import Aicv.Pool.Alone
import Aicv.Pool.Occupancy
import Aicv.Pool.Progress

/-!
# A saturated pool

`Overflow` takes a snapshot for one of a saturated pool, on which the next `Acquire` has to wait.
`overflow_exact` says that it is right about every snapshot of every interleaving: an `Acquire`
that runs alone from there, under a context that does not end, waits without end if the snapshot
is one of a saturated pool, and never waits if it is not.
-/

namespace Aicv.Pool

open Transition

/-- `Stats.Overflow`. -/
def Stats.overflow (st : Stats) : Bool := decide (st.total ≥ st.max) && decide (st.idle = 0)

/-- The context of the call does not end. -/
def Live (l : List (Call × Event)) : Prop := ∀ step ∈ l, ∀ text, step.2 ≠ .cancel text

section
variable {cfg : Config} {ok : Soup World Call → Label Call Event → Prop} {s : Soup World Call}
  {g₀ g g' : World} {c : Call} {e : Event} {cs : Multiset Call} {l : List (Call × Event)}

theorem live_cons {step : Call × Event} :
    Live (step :: l) ↔ (∀ text, step.2 ≠ .cancel text) ∧ Live l :=
  List.forall_mem_cons

theorem overflow_stats {p : Pool} :
    (p.stats cfg).overflow = true ↔ cfg.maxSize ≤ p.count ∧ p.idle = [] := by
  simp [Stats.overflow, Pool.stats]

/-! ## Closed pools -/

/-- A closed pool counts no container, and `done` is closed behind it. -/
structure Ended (s : Soup World Call) : Prop where
  count : s.shared.pool.closed = true → s.shared.pool.count ≤ 0
  done : s.shared.pool.done = true → s.shared.pool.closed = true

/-- On a closed pool nothing is counted any more. -/
theorem Call.Step.count_le_of_closed (hs : Call.Step cfg g c e g' cs)
    (hclosed : g.pool.closed = true) : g'.pool.count ≤ g.pool.count := by
  cases hs with
  | growReserve hr =>
      rw [(reserve_ok.mp hr).1] at hclosed
      cases hclosed
  | close hopen =>
      rw [hopen] at hclosed
      cases hclosed
  | giveBack =>
      rw [World.withPool_pool, giveBack_count]
      omega
  | discard =>
      rw [World.withPool_pool, discard_count]
      split <;> omega
  | _ => exact le_rfl

/-- Only `Close` closes `done`. -/
theorem Call.Step.done_cases (hs : Call.Step cfg g c e g' cs) (hdone : g'.pool.done = true) :
    g.pool.done = true ∨ ∃ w todo, c = .closeDone w todo := by
  cases hs with
  | growReserve hr =>
      obtain ⟨-, -, rfl⟩ := reserve_ok.mp hr
      exact .inl hdone
  | @discard w id =>
      rw [World.withPool_pool, Pool.discard] at hdone
      split at hdone
      next => exact .inl hdone
      next => exact .inl hdone
  | @closeDone w todo => exact .inr ⟨w, todo, rfl⟩
  | _ => exact .inl hdone

theorem ended (h : (calls cfg).system.Reach ok s) : Ended s := by
  refine Program.invariant (I := Ended) (fun s hs => ?_) (fun g p g' ps _ hi _ hc => ?_)
    (fun g p e g' qs ps hr hi _ hs => ?_) h
  · obtain ⟨-, -, rfl⟩ := init_iff.mp hs
    exact ⟨nofun, nofun⟩
  · obtain ⟨rfl, -, -⟩ := hc.owned
    exact ⟨hi.count, hi.done⟩
  · refine ⟨fun hclosed => ?_, fun hdone => hs.closed ?_⟩
    · cases hopen : g.pool.closed with
      | true => exact (hs.count_le_of_closed hopen).trans (hi.count hopen)
      | false =>
          obtain ⟨w, rfl, rfl, rfl, rfl⟩ := hs.closes hopen hclosed
          exact le_rfl
    · rcases hs.done_cases hdone with hdone | ⟨w, todo, rfl⟩
      · exact hi.done hdone
      · exact closed_of_afterClose hr _ (Multiset.mem_cons_self _ _) rfl

/-- A saturated pool is open. -/
theorem open_of_overflow (h : (calls cfg).system.Reach ok s)
    (hfull : cfg.maxSize ≤ s.shared.pool.count) :
    s.shared.pool.closed = false ∧ s.shared.pool.done = false := by
  have hpos := one_le_maxSize h
  have hopen : s.shared.pool.closed = false := by
    refine Bool.eq_false_iff.mpr fun hclosed => ?_
    have hcount := (ended h).count hclosed
    omega
  refine ⟨hopen, Bool.eq_false_iff.mpr fun hdone => ?_⟩
  rw [(ended h).done hdone] at hopen
  cases hopen

/-! ## An `Acquire` that waits -/

/-- An `Acquire` that has not got to `create`. -/
def Call.Waits : Call → Prop
  | .acquire none | .acquireFast none | .grow (.acquire none) | .acquireWait none => True
  | _ => False

/-- On a saturated pool the call comes to wait, and stays there. -/
theorem Call.Step.stays (hs : Call.Step cfg g c e g' cs) (hc : c.Waits)
    (hcancel : ∀ text, e ≠ .cancel text) (hopen : g.pool.closed = false)
    (hdone : g.pool.done = false) (hfull : cfg.maxSize ≤ g.pool.count) (hidle : g.pool.idle = []) :
    g' = g ∧ ∃ c', cs = {c'} ∧ c'.Waits := by
  cases hs with
  | @acquireClosed ctx hclosed =>
      rw [hopen] at hclosed
      cases hclosed
  | @acquireOpen ctx =>
      cases ctx with
      | none => exact ⟨rfl, _, rfl, trivial⟩
      | some text => exact hc.elim
  | @fastDefault ctx =>
      cases ctx with
      | none => exact ⟨rfl, _, rfl, trivial⟩
      | some text => exact hc.elim
  | fastRecv hhead | waitRecv hhead =>
      rw [hidle] at hhead
      cases hhead
  | @growRefused w e' hr =>
      cases w with
      | new => exact hc.elim
      | acquire ctx =>
          cases ctx with
          | some text => exact hc.elim
          | none =>
              obtain ⟨hclosed, -⟩ | ⟨-, -, rfl⟩ := reserve_error.mp hr
              · rw [hopen] at hclosed
                cases hclosed
              · exact ⟨rfl, _, rfl, trivial⟩
  | growReserve hr =>
      obtain ⟨-, hlt, -⟩ := reserve_ok.mp hr
      omega
  | waitDone hd =>
      rw [hdone] at hd
      cases hd
  | waitCtx => exact hc.elim
  | cancel => exact absurd rfl (hcancel _)
  | _ => exact hc.elim

theorem Alone.waits (h : Alone cfg g (.acquire none) l g' cs) (hlive : Live l)
    (hopen : g.pool.closed = false) (hdone : g.pool.done = false)
    (hfull : cfg.maxSize ≤ g.pool.count) (hidle : g.pool.idle = []) :
    g' = g ∧ ∃ c, cs = {c} ∧ c.Waits := by
  induction h with
  | start => exact ⟨rfl, _, rfl, trivial⟩
  | @step l g₁ g₂ c e cs _ _ hs ih =>
      obtain ⟨hcancel, hlive⟩ := live_cons.mp hlive
      obtain ⟨rfl, c', heq, hc⟩ := ih hlive
      obtain rfl := Multiset.singleton_inj.mp heq
      exact hs.stays hc hcancel hopen hdone hfull hidle

theorem obeys_trivial (hc : c.Waits) : Obeys c e := by
  refine ⟨?_, ?_, ?_⟩
  · rintro _ _ _ rfl
    exact hc.elim
  · rintro _ _ _ rfl
    exact hc.elim
  · rintro _ _ _ _ _ rfl
    exact hc.elim

/-- The `Acquire` gets to its wait. -/
theorem exists_wait (hopen : g.pool.closed = false) (hfull : cfg.maxSize ≤ g.pool.count)
    (hidle : g.pool.idle = []) :
    ∃ l, Alone cfg g (.acquire none) l g {.acquireWait none} ∧ Live l := by
  have hfast : Alone cfg g (.acquire none) [(.acquire none, .lock)] g {.acquireFast none} :=
    .step .start (obeys_trivial trivial) (.acquireOpen hopen)
  have hgrow := Alone.step hfast (obeys_trivial trivial) (.fastDefault hidle)
  have hwait := Alone.step hgrow (obeys_trivial trivial)
    (.growRefused (reserve_error.mpr (.inr ⟨hopen, hfull, rfl⟩)))
  exact ⟨_, hwait, by simp [Live]⟩

/-! ## An `Acquire` that does not wait -/

/-- What is left of an `Acquire` on a pool that is not saturated. -/
def Call.Passes (g₀ g : World) : Call → Prop
  | .acquire none | .acquireFast none => g = g₀
  | .grow (.acquire none) => g = g₀ ∧ g₀.pool.idle = []
  | .growCreate (.acquire none) | .growStart (.acquire none) _
  | .growRegister (.acquire none) _ => True
  | .growUnstart (.acquire none) _ e | .growGiveBack (.acquire none) e => e ≠ .atCapacity
  | .acquireReturn _ | .holding _ | .release _ | .releaseSend _ | .discard .release _
  | .discardRemove .release _ => True
  | _ => False

theorem passes_refused {e : Error} (h : e ≠ .atCapacity) :
    (Grower.refused (.acquire none) e).Passes g₀ g := by
  cases e with
  | atCapacity => exact absurd rfl h
  | _ => trivial

theorem Call.Step.passes (hs : Call.Step cfg g c e g' cs) (hc : c.Passes g₀ g)
    (hcancel : ∀ text, e ≠ .cancel text)
    (hfree : ¬ (cfg.maxSize ≤ g₀.pool.count ∧ g₀.pool.idle = [])) :
    ∀ c' ∈ cs, c'.Passes g₀ g' := by
  intro c' hc'
  cases hs with
  | prewarmEnd | returnErr | releaseDead | releaseSend | removeByIDGone | discardRemove
  | closeAgain | closeRet => cases Multiset.notMem_zero _ hc'
  | cancel => exact absurd rfl (hcancel _)
  | @growRefused w e' hr =>
      obtain rfl := Multiset.mem_singleton.mp hc'
      cases w with
      | new => exact hc.elim
      | acquire ctx =>
          cases ctx with
          | some text => exact hc.elim
          | none =>
              obtain ⟨rfl, hidle⟩ := hc
              refine passes_refused ?_
              rintro rfl
              obtain ⟨-, heq⟩ | ⟨-, hfull, -⟩ := reserve_error.mp hr
              · cases heq
              · exact hfree ⟨hfull, hidle⟩
  | @growReserve w | @createOk w | @startOk w =>
      obtain rfl := Multiset.mem_singleton.mp hc'
      cases w with
      | new => exact hc.elim
      | acquire ctx =>
          cases ctx with
          | some text => exact hc.elim
          | none => trivial
  | @createErr w | @startErr w =>
      obtain rfl := Multiset.mem_singleton.mp hc'
      cases w with
      | new => exact hc.elim
      | acquire ctx =>
          cases ctx with
          | some text => exact hc.elim
          | none => exact Error.noConfusion
  | @unstart w =>
      obtain rfl := Multiset.mem_singleton.mp hc'
      cases w with
      | new => exact hc.elim
      | acquire ctx =>
          cases ctx with
          | some text => exact hc.elim
          | none => exact hc
  | @giveBack w =>
      obtain rfl := Multiset.mem_singleton.mp hc'
      cases w with
      | new => exact hc.elim
      | acquire ctx =>
          cases ctx with
          | some text => exact hc.elim
          | none => exact passes_refused hc
  | @register w =>
      obtain rfl := Multiset.mem_singleton.mp hc'
      cases w with
      | new => exact hc.elim
      | acquire ctx => trivial
  | @acquireOpen ctx =>
      obtain rfl := Multiset.mem_singleton.mp hc'
      cases ctx with
      | some text => exact hc.elim
      | none => exact hc
  | @fastDefault ctx hidle =>
      obtain rfl := Multiset.mem_singleton.mp hc'
      cases ctx with
      | some text => exact hc.elim
      | none => exact ⟨hc, hc ▸ hidle⟩
  | acquireClosed | fastRecv | returnOk | release | releaseRecycle | releaseKeep | releaseFull =>
      obtain rfl := Multiset.mem_singleton.mp hc'
      trivial
  | @discard w =>
      obtain rfl := Multiset.mem_singleton.mp hc'
      cases w with
      | release => trivial
      | removeByID => exact hc.elim
  | _ => exact hc.elim

theorem Alone.passes (h : Alone cfg g (.acquire none) l g' cs) (hlive : Live l)
    (hfree : ¬ (cfg.maxSize ≤ g.pool.count ∧ g.pool.idle = [])) :
    ∀ c ∈ cs, c.Passes g g' := by
  induction h with
  | start =>
      intro c hc
      obtain rfl := Multiset.mem_singleton.mp hc
      exact rfl
  | step _ _ hs ih =>
      obtain ⟨hcancel, hlive⟩ := live_cons.mp hlive
      exact hs.passes (ih hlive _ (Multiset.mem_singleton_self _)) hcancel hfree

/-- Such a call has a step left. -/
theorem Call.Passes.exists_step (hc : c.Passes g₀ g) :
    ∃ e g' cs, Obeys c e ∧ Call.Step cfg g c e g' cs ∧ ∀ text, e ≠ .cancel text := by
  have hwait : c ≠ .acquireWait none := by
    rintro rfl
    exact hc.elim
  have hsend (i : ℕ) (id : String) : c ≠ .prewarmSend i id := by
    rintro rfl
    exact hc.elim
  by_cases hundo : ∃ w id e, c = .growUnstart w id e
  · obtain ⟨w, id, e, rfl⟩ := hundo
    cases w with
    | new => exact hc.elim
    | acquire ctx =>
        cases ctx with
        | some text => exact hc.elim
        | none =>
            exact ⟨.remove id none, _, _, obeys_remove (iff_of_true rfl rfl), .unstart, nofun⟩
  · obtain ⟨e, g', cs, hs, hcancel⟩ := @Call.exists_step cfg g c
      (fun i id heq => absurd heq (hsend i id)) (fun heq => absurd heq hwait)
    refine ⟨e, g', cs, ⟨?_, ?_, ?_⟩, hs, hcancel⟩
    · rintro _ _ _ rfl
      exact hc.elim
    · rintro _ _ _ rfl
      exact hc.elim
    · rintro ctx id e' _ _ rfl
      exact absurd ⟨_, id, e', rfl⟩ hundo

/-- A call that runs alone takes a bounded number of steps. -/
theorem Alone.length_le {ps : Multiset Call} (h : Alone cfg g c l g' cs)
    (hr : (calls cfg).system.Reachable ⟨g, c ::ₘ ps⟩) :
    l.length + (cs.map (Call.rank cfg)).sum ≤ c.rank cfg := by
  induction h with
  | start => simp
  | @step l g₁ g₂ c₁ e cs hl _ hs ih =>
      have hreach : (calls cfg).system.Reachable ⟨g₁, {c₁} + ps⟩ := hr.run (hl.run ps)
      have hless := hs.rank_lt (card_all_le hreach)
      rw [Multiset.map_singleton, Multiset.sum_singleton] at ih
      rw [List.length_cons]
      omega

end

/-- `Overflow` is right about the pool.  From every state of a published pool, an `Acquire` that
runs alone under a context that does not end comes to wait, and stays there with the pool as it
was, if the snapshot is one of a saturated pool.  If it is not, the call never comes to wait, has
a step at each of its points until it ends, and ends within 15 steps. -/
theorem overflow_exact {cfg : Config} {s : Soup World Call} (h : (calls cfg).system.Reachable s)
    (hpublished : s.shared.published = true) :
    ((s.shared.pool.stats cfg).overflow = true →
      (∀ l g' cs, Alone cfg s.shared (.acquire none) l g' cs → Live l →
        g' = s.shared ∧ ∃ c, cs = {c} ∧ c.Waits) ∧
      ∃ l, Alone cfg s.shared (.acquire none) l s.shared {.acquireWait none} ∧ Live l) ∧
    ((s.shared.pool.stats cfg).overflow = false →
      ∀ l g' cs, Alone cfg s.shared (.acquire none) l g' cs → Live l →
        l.length ≤ 15 ∧ ∀ c ∈ cs, c ≠ .acquireWait none ∧
          ∃ e g'' cs', Obeys c e ∧ Call.Step cfg g' c e g'' cs' ∧ ∀ text, e ≠ .cancel text) := by
  refine ⟨fun hover => ?_, fun hover l g' cs hl hlive => ⟨?_, fun c hc => ?_⟩⟩
  · obtain ⟨hfull, hidle⟩ := overflow_stats.mp hover
    obtain ⟨hopen, hdone⟩ := open_of_overflow h hfull
    exact ⟨fun l g' cs hl hlive => hl.waits hlive hopen hdone hfull hidle,
      exists_wait hopen hfull hidle⟩
  · have hcall : (calls cfg).system.Reachable ⟨s.shared, .acquire none ::ₘ s.procs⟩ :=
      .step h trivial (.call (.acquire hpublished))
    have hle := hl.length_le hcall
    simp only [Call.rank, Grower.rest] at hle
    split at hle <;> omega
  · have hfree : ¬ (cfg.maxSize ≤ s.shared.pool.count ∧ s.shared.pool.idle = []) := by
      rw [← overflow_stats, hover]
      exact Bool.false_ne_true
    have hpasses := hl.passes hlive hfree c hc
    refine ⟨?_, hpasses.exists_step⟩
    rintro rfl
    exact hpasses.elim

/-- The only container is checked out, and the next `Acquire` waits. -/
theorem overflow_exact_held : ∃ s : Soup World Call,
    s.procs = {.holding "a"} ∧ (s.shared.pool.stats (Config.sized 0 1 0)).overflow = true ∧
      ∃ l, Alone (Config.sized 0 1 0) s.shared (.acquire none) l s.shared {.acquireWait none} ∧
        Live l := by
  let cfg := Config.sized 0 1 0
  obtain ⟨s, hs, hprocs, hpublished, hover⟩ := exists_reachable cfg (by decide)
    (Script.new ++ Script.acquireGrow cfg "a")
    (fun s => s.procs = {.holding "a"} ∧ s.shared.published = true ∧
      (s.shared.pool.stats cfg).overflow = true)
    (by decide +kernel)
  exact ⟨s, hprocs, hover, ((overflow_exact hs hpublished).1 hover).2⟩

end Aicv.Pool
