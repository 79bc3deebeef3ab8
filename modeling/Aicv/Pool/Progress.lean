import Aicv.Pool.Teardown
import Aicv.Transition.Progress

/-!
# The pool comes to rest

Every call takes a bounded number of steps (`Call.Step.rank_lt`), and at each of its points it
can take one, unless it is an `Acquire` that waits on an open pool with nothing parked
(`Call.exists_step`).  So without new calls the pool comes to rest, and an `Acquire` that still
waits then does so on a pool without a container (`quiesces`).

On a closed pool nobody is left waiting, whether contexts end or not, and when the last call has
returned every container has been passed to `Remove` (`drains`).
-/

namespace Aicv.Pool

open Transition

/-- No client makes a call, and no context ends.  The holders release their containers. -/
def Undisturbed (_ : Soup World Call) : Label Call Event → Prop
  | .call _ => False
  | .act _ (.cancel _) => False
  | .act _ _ => True

/-- No client makes a call.  Contexts may end. -/
def Uncalled (_ : Soup World Call) : Label Call Event → Prop
  | .call _ => False
  | .act _ _ => True

/-- Every step counts. -/
def Everything (_ : Label Call Event) : Bool := true

/-- The end of a context may come or not.  Every other step has to come. -/
def Forced : Label Call Event → Bool
  | .act _ (.cancel _) => false
  | _ => true

/-! ## The steps that a call has left -/

section
variable (cfg : Config)

/-- The steps of the caller behind the return of `grow`. -/
def Grower.rest : Grower → ℕ
  | .new i => 7 * (cfg.minWarm - (i + 1)).toNat + cfg.maxSize.toNat + 5
  | .acquire ctx => if ctx.isNone then 8 else 7

/-- The steps that a call has left at most. -/
def Call.rank : Call → ℕ
  | .prewarm i => 7 * (cfg.minWarm - i).toNat + cfg.maxSize.toNat + 4
  | .prewarmSend i _ => Grower.rest cfg (.new i)
  | .grow w => w.rest cfg + 5
  | .growCreate w => w.rest cfg + 4
  | .growStart w _ => w.rest cfg + 3
  | .growUnstart w _ _ => w.rest cfg + 2
  | .growRegister w _ | .growGiveBack w _ => w.rest cfg + 1
  | .acquire ctx => Grower.rest cfg (.acquire ctx) + 7
  | .acquireFast ctx => Grower.rest cfg (.acquire ctx) + 6
  | .acquireWait ctx => Grower.rest cfg (.acquire ctx)
  | .acquireReturn _ => 6
  | .holding _ => 5
  | .release _ => 4
  | .releaseSend _ | .removeByID _ => 3
  | .discard _ _ => 2
  | .discardRemove _ _ => 1
  | .close _ => cfg.maxSize.toNat + 3
  | .closeDone _ todo => todo.card + 2
  | .closeRemove _ todo _ => todo.card + 1

end

section
variable {cfg : Config} {ok : Soup World Call → Label Call Event → Prop}
  {g g' : World} {c : Call} {e : Event} {cs : Multiset Call}

theorem rank_refused_le (w : Grower) (e : Error) : (w.refused e).rank cfg ≤ w.rest cfg := by
  cases w with
  | new i =>
      simp only [Grower.refused, Call.rank, Grower.rest]
      omega
  | acquire ctx =>
      have hle : 6 ≤ Grower.rest cfg (.acquire ctx) := by
        rw [Grower.rest]
        split <;> omega
      cases e with
      | atCapacity => exact le_refl _
      | _ => exact hle

theorem rank_grown_le (w : Grower) (id : String) : (w.grown id).rank cfg ≤ w.rest cfg := by
  cases w with
  | new i => exact le_refl _
  | acquire ctx =>
      simp only [Grower.grown, Call.rank, Grower.rest]
      split <;> omega

/-- A step leaves fewer steps. -/
theorem Call.Step.rank_lt (h : Call.Step cfg g c e g' cs)
    (hall : g.pool.closed = false → (g.pool.all.card : ℤ) ≤ cfg.maxSize) :
    (cs.map (Call.rank cfg)).sum < c.rank cfg := by
  cases h with
  | prewarmMore hlt =>
      simp only [Multiset.map_singleton, Multiset.sum_singleton, Call.rank, Grower.rest]
      omega
  | prewarmSend =>
      simp only [Multiset.map_singleton, Multiset.sum_singleton, Call.rank, Grower.rest]
      push_cast
      omega
  | @growRefused w e | @giveBack w e =>
      rw [Multiset.map_singleton, Multiset.sum_singleton]
      exact Nat.lt_of_le_of_lt (rank_refused_le w e) (by simp [Call.rank])
  | @register w id =>
      rw [Multiset.map_singleton, Multiset.sum_singleton]
      exact Nat.lt_of_le_of_lt (rank_grown_le w id) (by simp [Call.rank])
  | acquireClosed | fastRecv | waitRecv | waitDone | waitCtx =>
      simp only [Multiset.map_singleton, Multiset.sum_singleton, Call.rank, Grower.rest]
      split <;> omega
  | cancel hc =>
      cases hc <;> simp [Call.rank, Grower.rest]
  | close hopen =>
      have := hall hopen
      simp only [Multiset.map_singleton, Multiset.sum_singleton, Call.rank]
      omega
  | @closeRemove w todo firstErr id err hid =>
      have := Finset.card_erase_of_mem hid
      have := Finset.card_pos.mpr ⟨id, hid⟩
      simp only [Multiset.map_singleton, Multiset.sum_singleton, Call.rank]
      omega
  | _ => simp [Call.rank]

/-! ## Enabled steps -/

/-- The index of the pre-warm loop. -/
def Grower.index : Grower → Option ℕ
  | .new i => some i
  | .acquire _ => none

/-- The index of the pre-warm loop, in a call of `New`. -/
def Call.index : Call → Option ℕ
  | .prewarm i | .prewarmSend i _ => some i
  | .grow w | .growCreate w | .growStart w _ | .growUnstart w _ _ | .growRegister w _
  | .growGiveBack w _ => w.index
  | _ => none

theorem index_refused (w : Grower) (e : Error) : (w.refused e).index = none := by
  cases w <;> cases e <;> rfl

theorem index_grown (w : Grower) (id : String) : (w.grown id).index = w.index := by
  cases w <;> rfl

theorem ofNew_of_index {i : ℕ} (h : c.index = some i) : c.ofNew = true := by
  have hgrower {w : Grower} (hw : w.index = some i) : w.ofNew = true := by
    cases w with
    | new => rfl
    | acquire => cases hw
  cases c with
  | prewarm | prewarmSend => rfl
  | grow | growCreate | growStart | growUnstart | growRegister | growGiveBack => exact hgrower h
  | _ => cases h

/-- `New` has parked a container at each index before its own. -/
def Call.Warm (cfg : Config) (p : Pool) (c : Call) : Prop :=
  ∀ i, c.index = some i → p.idle.length = i ∧ (c ≠ .prewarm i → (i : ℤ) < cfg.minWarm)

theorem Call.Step.warm (h : Call.Step cfg g c e g' cs) (hc : c.Warm cfg g.pool) :
    ∀ c' ∈ cs, c'.Warm cfg g'.pool := by
  intro c' hc' i hi
  cases h with
  | prewarmMore hlt =>
      cases Multiset.mem_singleton.mp hc'
      cases hi
      exact ⟨(hc i rfl).1, fun _ => hlt⟩
  | prewarmSend =>
      cases Multiset.mem_singleton.mp hc'
      cases hi
      refine ⟨?_, fun hne => absurd rfl hne⟩
      rw [World.withPool_pool, send_idle, List.length_append, (hc _ rfl).1]
      rfl
  | growRefused | giveBack =>
      cases Multiset.mem_singleton.mp hc'
      rw [index_refused] at hi
      cases hi
  | @register w id =>
      cases Multiset.mem_singleton.mp hc'
      rw [index_grown] at hi
      obtain ⟨hlen, hlt⟩ := hc i hi
      exact ⟨hlen, fun _ => hlt Call.noConfusion⟩
  | growReserve hr =>
      obtain ⟨-, -, rfl⟩ := reserve_ok.mp hr
      cases Multiset.mem_singleton.mp hc'
      obtain ⟨hlen, hlt⟩ := hc i hi
      exact ⟨hlen, fun _ => hlt Call.noConfusion⟩
  | createOk | createErr | startOk | startErr | unstart =>
      cases Multiset.mem_singleton.mp hc'
      obtain ⟨hlen, hlt⟩ := hc i hi
      exact ⟨hlen, fun _ => hlt Call.noConfusion⟩
  | cancel hcc =>
      cases Multiset.mem_singleton.mp hc'
      cases hcc <;> cases hi
  | returnErr | releaseDead | releaseSend | removeByIDGone | discardRemove | closeAgain | closeRet
  | prewarmEnd => cases Multiset.notMem_zero _ hc'
  | _ =>
      cases Multiset.mem_singleton.mp hc'
      cases hi

theorem warm {s : Soup World Call} (h : (calls cfg).system.Reach ok s) :
    ∀ c ∈ s.procs, c.Warm cfg s.shared.pool := by
  refine Program.invariant (I := fun s => ∀ c ∈ s.procs, c.Warm cfg s.shared.pool)
    (fun s hs => ?_) (fun g p g' ps _ hi _ hc => ?_) (fun g p e g' qs ps hr hi _ hs => ?_) h
  · obtain ⟨-, -, rfl⟩ := init_iff.mp hs
    intro c hc i hi
    cases Multiset.mem_singleton.mp hc
    cases hi
    exact ⟨rfl, fun hne => absurd rfl hne⟩
  · obtain ⟨rfl, -, -⟩ := hc.owned
    refine Multiset.forall_mem_cons.mpr ⟨fun i hindex => ?_, hi⟩
    cases hc <;> cases hindex
  · obtain ⟨hp, hps⟩ := Multiset.forall_mem_cons.mp hi
    intro c hc
    rcases Multiset.mem_add.mp hc with hc | hc
    · exact hs.warm hp c hc
    · -- the others are no calls of `New`, which has the pool to itself
      intro i hindex
      have hnew := ofNew_of_index hindex
      have hphase := phase hr
      rw [Phase] at hphase
      split at hphase
      next =>
        rw [hphase c (Multiset.mem_cons_of_mem hc)] at hnew
        cases hnew
      next =>
        rcases hphase with ⟨hnil, -⟩ | ⟨c', hone, -⟩
        · cases Multiset.cons_ne_zero hnil
        · have hcard := congrArg Multiset.card hone
          rw [Multiset.card_cons, Multiset.card_singleton] at hcard
          have hpos := Multiset.card_pos_iff_exists_mem.mpr ⟨c, hc⟩
          omega

/-- The pre-warm loop stays below the capacity of the channel. -/
theorem minWarm_le {s : Soup World Call} (h : (calls cfg).system.Reach ok s) :
    cfg.minWarm ≤ cfg.maxSize :=
  Program.invariant (I := fun _ => cfg.minWarm ≤ cfg.maxSize) (fun _ hs => (init_iff.mp hs).2.1)
    (fun _ _ _ _ _ hi _ _ => hi) (fun _ _ _ _ _ _ _ hi _ _ => hi) h

/-- The pre-warm loop never blocks on the channel. -/
theorem hasRoom {s : Soup World Call} (h : (calls cfg).system.Reach ok s) {i : ℕ} {id : String}
    (hc : .prewarmSend i id ∈ s.procs) : s.shared.pool.HasRoom cfg := by
  obtain ⟨hlen, hlt⟩ := warm h _ hc i rfl
  have hless := hlt Call.noConfusion
  have hmin := minWarm_le h
  rw [Pool.HasRoom, hlen]
  omega

/-- A call can take a step, unless it waits at capacity. -/
theorem Call.exists_step (hroom : ∀ i id, c = .prewarmSend i id → g.pool.HasRoom cfg)
    (hwait : c = .acquireWait none → g.pool.idle ≠ [] ∨ g.pool.done = true) :
    ∃ e g' cs, Call.Step cfg g c e g' cs ∧ ∀ text, e ≠ .cancel text := by
  have hrecv (hne : g.pool.idle ≠ []) : ∃ id, g.pool.idle.head? = some id :=
    ⟨_, List.head?_eq_some_head hne⟩
  cases c with
  | prewarm i =>
      by_cases hlt : (i : ℤ) < cfg.minWarm
      · exact ⟨_, _, _, .prewarmMore hlt, by simp⟩
      · exact ⟨_, _, _, .prewarmEnd hlt, by simp⟩
  | prewarmSend i id => exact ⟨_, _, _, .prewarmSend (hroom i id rfl), by simp⟩
  | grow w =>
      cases hr : g.pool.reserve cfg with
      | error e => exact ⟨_, _, _, .growRefused hr, by simp⟩
      | ok p => exact ⟨_, _, _, .growReserve hr, by simp⟩
  | growCreate w => exact ⟨.create cfg.createConfig (.error ""), _, _, .createErr, by simp⟩
  | growStart w id => exact ⟨_, _, _, .startOk, by simp⟩
  | growUnstart w id e => exact ⟨.remove id none, _, _, .unstart, by simp⟩
  | growRegister w id => exact ⟨_, _, _, .register, by simp⟩
  | growGiveBack w e => exact ⟨_, _, _, .giveBack, by simp⟩
  | acquire ctx =>
      cases hcl : g.pool.closed with
      | true => exact ⟨_, _, _, .acquireClosed hcl, by simp⟩
      | false => exact ⟨_, _, _, .acquireOpen hcl, by simp⟩
  | acquireFast ctx =>
      by_cases hidle : g.pool.idle = []
      · exact ⟨_, _, _, .fastDefault hidle, by simp⟩
      · obtain ⟨id, hid⟩ := hrecv hidle
        exact ⟨_, _, _, .fastRecv hid, by simp⟩
  | acquireWait ctx =>
      cases ctx with
      | some text => exact ⟨_, _, _, .waitCtx, by simp⟩
      | none =>
          rcases hwait rfl with hidle | hdone
          · obtain ⟨id, hid⟩ := hrecv hidle
            exact ⟨_, _, _, .waitRecv hid, by simp⟩
          · exact ⟨_, _, _, .waitDone hdone, by simp⟩
  | acquireReturn r =>
      cases r with
      | ok id => exact ⟨_, _, _, .returnOk, by simp⟩
      | error e => exact ⟨_, _, _, .returnErr, by simp⟩
  | holding id => exact ⟨_, _, _, .release, by simp⟩
  | release id =>
      by_cases hid : id ∈ g.pool.all
      · cases hspent : g.pool.closed || cfg.jobsSpent (g.pool.cells id).jobs with
        | true => exact ⟨_, _, _, .releaseRecycle hid hspent, by simp⟩
        | false => exact ⟨_, _, _, .releaseKeep hid hspent, by simp⟩
      · exact ⟨_, _, _, .releaseDead hid, by simp⟩
  | releaseSend id =>
      by_cases hfree : g.pool.HasRoom cfg
      · exact ⟨_, _, _, .releaseSend hfree, by simp⟩
      · exact ⟨_, _, _, .releaseFull hfree, by simp⟩
  | removeByID id =>
      by_cases hid : id ∈ g.pool.all
      · exact ⟨_, _, _, .removeByIDFound hid, by simp⟩
      · exact ⟨_, _, _, .removeByIDGone hid, by simp⟩
  | discard w id => exact ⟨_, _, _, .discard, by simp⟩
  | discardRemove w id => exact ⟨.remove id none, _, _, .discardRemove, by simp⟩
  | close w =>
      cases hcl : g.pool.closed with
      | true => exact ⟨_, _, _, .closeAgain hcl, by simp⟩
      | false => exact ⟨_, _, _, .close hcl, by simp⟩
  | closeDone w todo => exact ⟨_, _, _, .closeDone, by simp⟩
  | closeRemove w todo firstErr =>
      rcases todo.eq_empty_or_nonempty with rfl | ⟨id, hid⟩
      · exact ⟨_, _, _, .closeRet, by simp⟩
      · exact ⟨.remove id none, _, _, .closeRemove hid, by simp⟩

/-! ## `Close` wakes everyone -/

/-- A `Close` that has closed the pool still has to close `done`. -/
def Signals (s : Soup World Call) : Prop :=
  s.shared.pool.closed = true → s.shared.pool.done = true ∨ ∃ w todo, .closeDone w todo ∈ s.procs

theorem Call.Step.done (h : Call.Step cfg g c e g' cs) (hdone : g.pool.done = true) :
    g'.pool.done = true := by
  cases h with
  | growReserve hr =>
      obtain ⟨-, -, rfl⟩ := reserve_ok.mp hr
      exact hdone
  | @discard w id =>
      rw [World.withPool_pool, Pool.discard]
      split <;> exact hdone
  | closeDone => rfl
  | _ => exact hdone

theorem signals {s : Soup World Call} (h : (calls cfg).system.Reach ok s) : Signals s := by
  refine Program.invariant (fun s hs hcl => ?_) (fun g p g' ps _ hi _ hc hcl => ?_)
    (fun g p e g' qs ps _ hi _ hs hcl => ?_) h
  · obtain ⟨-, -, rfl⟩ := init_iff.mp hs
    cases hcl
  · obtain ⟨rfl, -, -⟩ := hc.owned
    exact (hi hcl).imp_right fun ⟨w, todo, hmem⟩ => ⟨w, todo, Multiset.mem_cons_of_mem hmem⟩
  · cases hopen : g.pool.closed with
    | false =>
        obtain ⟨w, -, -, -, rfl⟩ := hs.closes hopen hcl
        exact .inr ⟨w, _, Multiset.mem_add.mpr (.inl (Multiset.mem_singleton_self _))⟩
    | true =>
        rcases hi hopen with hdone | ⟨w, todo, hmem⟩
        · exact .inl (hs.done hdone)
        · rcases Multiset.mem_cons.mp hmem with rfl | hmem
          · cases hs with
            | closeDone => exact .inl rfl
            | cancel hc => cases hc
          · exact .inr ⟨w, todo, Multiset.mem_add.mpr (.inr hmem)⟩

/-! ## The pool at rest -/

/-- Every call is an `Acquire` that waits, on an open pool without a container. -/
structure Stranded (s : Soup World Call) : Prop where
  waiting : ∀ c ∈ s.procs, c = .acquireWait none
  opened : s.shared.pool.closed = false
  idle : s.shared.pool.idle = []
  all : s.shared.pool.all = ∅
  count : s.shared.pool.count = 0

/-- A call that has no step left waits on an empty channel. -/
theorem waits_of_rests {s : Soup World Call} (h : (calls cfg).system.Reachable s)
    (hrests : (calls cfg).system.Rests Undisturbed Everything s) (hc : c ∈ s.procs) :
    c = .acquireWait none ∧ s.shared.pool.idle = [] ∧ s.shared.pool.done = false := by
  by_contra hnot
  have hwait (heq : c = .acquireWait none) :
      s.shared.pool.idle ≠ [] ∨ s.shared.pool.done = true := by
    by_contra hneither
    rw [not_or, not_not, Bool.not_eq_true] at hneither
    exact hnot ⟨heq, hneither⟩
  obtain ⟨e, g', cs, hstep, hcancel⟩ :=
    Call.exists_step (fun i id heq => hasRoom h (heq ▸ hc)) hwait
  have hok : Undisturbed s (.act c e) := by
    cases e with
    | cancel text => exact absurd rfl (hcancel text)
    | _ => trivial
  exact Program.not_act_of_rests hrests hc hok rfl _ _ hstep

theorem waiting_owns_nothing {ps : Multiset Call} (h : ∀ c ∈ ps, c = .acquireWait none) :
    tally Call.reserves ps = 0 ∧ ps.bind Call.held = 0 := by
  constructor
  · refine Multiset.countP_eq_zero.mpr fun c hc => ?_
    rw [h c hc]
    exact Bool.false_ne_true
  · refine Multiset.eq_zero_of_forall_notMem fun id hid => ?_
    obtain ⟨c, hc, hheld⟩ := Multiset.mem_bind.mp hid
    rw [h c hc] at hheld
    cases Multiset.notMem_zero _ hheld

/-- At rest the pool has no call left, or the ones left are stranded. -/
theorem returned_or_stranded {s : Soup World Call} (h : (calls cfg).system.Reachable s)
    (hrests : (calls cfg).system.Rests Undisturbed Everything s) :
    s.procs = 0 ∨ Stranded s := by
  by_cases hnil : s.procs = 0
  · exact .inl hnil
  · obtain ⟨c, hc⟩ := Multiset.exists_mem_of_ne_zero hnil
    have hwaiting : ∀ c ∈ s.procs, c = .acquireWait none := fun c hc =>
      (waits_of_rests h hrests hc).1
    obtain ⟨-, hidle, hdone⟩ := waits_of_rests h hrests hc
    obtain ⟨hreserves, hheld⟩ := waiting_owns_nothing hwaiting
    have hopen : s.shared.pool.closed = false := by
      refine Bool.eq_false_iff.mpr fun hcl => ?_
      rcases signals h hcl with hsignal | ⟨w, todo, hmem⟩
      · rw [hdone] at hsignal
        cases hsignal
      · cases hwaiting _ hmem
    have hall : s.shared.pool.all = ∅ := by
      refine Finset.eq_empty_of_forall_notMem fun id hid => ?_
      have hplace := mem_places h id hid
      rw [places, hidle, hheld] at hplace
      exact Multiset.notMem_zero id hplace
    have hcount := balanced h hopen
    rw [hall, hreserves] at hcount
    exact .inr ⟨hwaiting, hopen, hidle, hall, hcount⟩

theorem card_all_le {s : Soup World Call} (h : (calls cfg).system.Reachable s)
    (hopen : s.shared.pool.closed = false) : (s.shared.pool.all.card : ℤ) ≤ cfg.maxSize := by
  have hcount := balanced h hopen
  have hle := count_le h
  omega

/-- The rank of a pool, which falls with every step. -/
theorem rank_act_lt {ps : Multiset Call} (h : (calls cfg).system.Reachable ⟨g, c ::ₘ ps⟩)
    (hs : Call.Step cfg g c e g' cs) :
    Program.rank (fun _ => 0) (Call.rank cfg) ⟨g', cs + ps⟩ + 1 ≤
      Program.rank (fun _ => 0) (Call.rank cfg) ⟨g, c ::ₘ ps⟩ := by
  have hlt := hs.rank_lt (card_all_le h)
  exact Program.rank_act (by omega)

/-- On a closed pool an id that no call has on its hands has been passed to `Remove`. -/
theorem passed_of_pending {s : Soup World Call} (h : (calls cfg).system.Reachable s)
    (hcl : s.shared.pool.closed = true) (hpending : ∀ c ∈ s.procs, c.pending = ∅)
    (hheld : s.procs.bind Call.held = 0) : s.shared.backend.issued ⊆ s.shared.backend.passed := by
  intro id hid
  rcases accounted h id hid with hpassed | hall | ⟨c, hc, hmem⟩
  · exact hpassed
  · have hplace := mem_places h id hall
    rw [places, hheld, add_zero] at hplace
    exact absurd (Multiset.mem_coe.mp hplace) (stray h hcl id hall).1
  · rw [hpending c hc] at hmem
    cases Finset.notMem_empty id hmem

/-- A pool where only contexts can end rests if they do not. -/
theorem rests_iff {s : Soup World Call} :
    (calls cfg).system.Rests Uncalled Forced s ↔
      (calls cfg).system.Rests Undisturbed Everything s := by
  refine forall₂_congr fun l t => ?_
  have hsame : Uncalled s l ∧ Forced l = true ↔ Undisturbed s l ∧ Everything l = true := by
    cases l with
    | call => simp [Uncalled, Undisturbed]
    | act c e => cases e <;> simp [Uncalled, Undisturbed, Forced, Everything]
  rw [← and_imp, hsame, and_imp]

theorem comes_to_rest {s : Soup World Call} (h : (calls cfg).system.Reachable s) :
    (calls cfg).system.Halts Uncalled Everything Forced
      (fun t => (calls cfg).system.Reachable t ∧ (t.procs = 0 ∨ Stranded t)) s := by
  refine .of_rank (I := (calls cfg).system.Reachable)
    (Program.rank (fun _ => 0) (Call.rank cfg)) (fun s l t hr _ hs => hr.step trivial hs)
    (fun s l t hr hok hs => ?_)
    (fun t ht hrests => ⟨ht, returned_or_stranded ht (rests_iff.mp hrests)⟩) h
  cases hs with
  | call => cases hok
  | act hact => exact rank_act_lt hr hact

/-- Without new calls the pool comes to rest, from every state that it reaches.  Each run has a
bounded number of steps, and in the state where it cannot go on every call has returned, except
that an `Acquire` may still wait on a pool that has no container any more. -/
theorem quiesces {s : Soup World Call} (h : (calls cfg).system.Reachable s) :
    (calls cfg).system.Completes Undisturbed Everything (fun t => t.procs = 0 ∨ Stranded t) s :=
  ((comes_to_rest h).imp fun _ _ ht => ht.2).completes (fun _ l _ => by cases l <;> trivial)
    fun _ => rests_iff.mpr

/-- One caller holds the only container and another one waits for it. -/
theorem quiesces_waiting : ∃ s t : Soup World Call, .holding "a" ∈ s.procs ∧
    .acquireWait none ∈ s.procs ∧ (calls (Config.sized 0 1 0)).system.Run Undisturbed s t ∧
      (t.procs = 0 ∨ Stranded t) := by
  let cfg := Config.sized 0 1 0
  obtain ⟨s, hs, hheld, hwait⟩ := exists_reachable cfg (by decide)
    (Script.new ++ Script.acquireGrow cfg "a" ++ Script.acquireWait)
    (fun s => .holding "a" ∈ s.procs ∧ .acquireWait none ∈ s.procs)
    (by decide +kernel)
  obtain ⟨t, hrun, hrest⟩ := (quiesces hs).exists_final
  exact ⟨s, t, hheld, hwait, hrun, hrest⟩

/-- A closed pool comes to rest with every call returned and every container passed to
`Remove`, whether `Close` or a pre-warm that failed has closed it and whichever contexts end. -/
theorem drains {s : Soup World Call} (h : (calls cfg).system.Reachable s)
    (hclosed : s.shared.pool.closed = true) :
    (calls cfg).system.Halts Uncalled Everything Forced
      (fun t => t.procs = 0 ∧ t.shared.backend.issued ⊆ t.shared.backend.passed) s := by
  refine (comes_to_rest h).imp fun t hrun ⟨ht, hrest⟩ => ?_
  have hcl : t.shared.pool.closed = true := by
    refine hrun.invariant (I := fun t => t.shared.pool.closed = true) (fun s l t hi _ hs => ?_)
      hclosed
    cases hs with
    | call hc =>
        obtain ⟨rfl, -, -⟩ := hc.owned
        exact hi
    | act ha => exact ha.closed hi
  rcases hrest with hnil | hstranded
  · exact ⟨hnil, passed_of_pending ht hcl (by simp [hnil]) (by simp [hnil])⟩
  · rw [hstranded.opened] at hcl
    cases hcl

/-- `Close` finds a holder and a caller that waits. -/
theorem drains_waiting : ∃ s t : Soup World Call, .holding "a" ∈ s.procs ∧
    .acquireWait none ∈ s.procs ∧ (calls (Config.sized 0 1 0)).system.Run Uncalled s t ∧
      t.procs = 0 ∧ t.shared.backend.issued ⊆ t.shared.backend.passed := by
  let cfg := Config.sized 0 1 0
  obtain ⟨s, hs, hcl, hheld, hwait⟩ := exists_reachable cfg (by decide)
    (Script.new ++ Script.acquireGrow cfg "a" ++ Script.acquireWait ++
      [.call (.close .user), .act (.close .user) .lock])
    (fun s => s.shared.pool.closed = true ∧ .holding "a" ∈ s.procs ∧
      .acquireWait none ∈ s.procs)
    (by decide +kernel)
  have hcompletes := (drains hs hcl).completes (fun _ _ hok => hok) fun t hrests l t' hok _ =>
    hrests l t' hok rfl
  obtain ⟨t, hrun, hnil, hpassed⟩ := hcompletes.exists_final
  exact ⟨s, t, hheld, hwait, hrun, hnil, hpassed⟩

end

end Aicv.Pool
