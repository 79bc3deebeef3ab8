import Aicv.Pool.Handout

/-!
# The occupancy snapshot

`Stats` counts the idle channel and takes the difference to `count` for the
containers in use.  The two are kept apart: `Close` sets `count` to zero and
leaves the channel alone.

When the calls of the pool are executed one at a time, a snapshot between two of
them is consistent as long as no `Close` has found a container in the idle
channel (`consistent_iff`).  The proof turns such a run into one in which every
parked container is registered (`Alive`), and then counts the registry by
places.
-/

namespace Aicv.Pool

open Transition

/-! ## The snapshot -/

/-- `pool.Stats`. -/
structure Stats where
  idle : ℤ
  busy : ℤ
  total : ℤ
  max : ℤ
deriving DecidableEq, Repr

/-- `Pool.Stats`. -/
def stats (cfg : Config) (p : Pool) : Stats :=
  let idle : ℤ := p.idle.length
  ⟨idle, p.count - idle, p.count, cfg.maxSize⟩

/-- The containers that are checked out and have not been removed. -/
def checkedOut (s : Soup World Call) : Finset String :=
  s.shared.pool.all.filter fun id => .holding id ∈ s.procs

/-- The snapshot adds up, and is right about the containers in use. -/
structure Consistent (cfg : Config) (s : Soup World Call) : Prop where
  idle : 0 ≤ (s.shared.pool.stats cfg).idle
  busy : 0 ≤ (s.shared.pool.stats cfg).busy
  total : (s.shared.pool.stats cfg).idle + (s.shared.pool.stats cfg).busy =
    (s.shared.pool.stats cfg).total
  max : (s.shared.pool.stats cfg).total ≤ (s.shared.pool.stats cfg).max
  live : (s.shared.pool.stats cfg).busy = (checkedOut s).card

/-! ## One call at a time -/

/-- The call is a container in the hands of its user. -/
def Call.holds : Call → Bool
  | .holding _ => true
  | _ => false

/-- No call is in progress. -/
def Quiet (s : Soup World Call) : Prop := ∀ c ∈ s.procs, c.holds = true

instance (s : Soup World Call) : Decidable (Quiet s) := inferInstanceAs (Decidable (∀ c ∈ _, _))

/-- A call starts when no other is in progress, and `RemoveByID` is called on
containers that are checked out. -/
def sequential (s : Soup World Call) : Label Call Event → Bool
  | .call c => decide (Quiet s) && removesHeld s (.call c)
  | .act (.holding _) .release => decide (Quiet s)
  | _ => true

section
variable {cfg : Config} {g g' : World} {c : Call} {e : Event} {cs ps : Multiset Call}
  {s : Soup World Call} {h : Program.History World Call Event}

/-- The calls in progress. -/
def Call.active (c : Call) : Bool := !c.holds

theorem quiet_iff : Quiet s ↔ tally Call.active s.procs = 0 := by
  simp [Quiet, tally, Call.active, Multiset.countP_eq_zero]

theorem eq_holding (hc : c.holds = true) : ∃ id, c = .holding id := by
  cases c with
  | holding id => exact ⟨id, rfl⟩
  | _ => cases hc

/-- The holder of a container can only release it. -/
theorem Call.Step.of_holding {id : String} (hs : Call.Step cfg g (.holding id) e g' cs) :
    e = .release := by
  cases hs with
  | release => rfl
  | cancel hcancel => cases hcancel

/-- At most one call is in progress. -/
theorem one_active (hr : (calls cfg).system.Reach (fun s l => sequential s l = true) s) :
    tally Call.active s.procs ≤ 1 := by
  refine Program.invariant (I := fun s => tally Call.active s.procs ≤ 1)
    (fun s hs => ?_) (fun g p g' ps _ hi hok hc => ?_) (fun g p e g' qs ps _ hi hok hs => ?_) hr
  · obtain ⟨-, -, rfl⟩ := init_iff.mp hs
    decide
  · have hquiet : Quiet ⟨g, ps⟩ := of_decide_eq_true (Bool.and_eq_true_iff.mp hok).1
    have hone : tally Call.active {p} ≤ 1 := Multiset.countP_le_card _ _
    rw [tally_cons, quiet_iff.mp hquiet]
    exact hone
  · have hone : tally Call.active qs ≤ 1 := (Multiset.countP_le_card _ _).trans hs.card_le
    rw [tally_add]
    cases hp : p.holds with
    | true =>
        obtain ⟨id, rfl⟩ := eq_holding hp
        obtain rfl := hs.of_holding
        have hquiet : Quiet ⟨g, .holding id ::ₘ ps⟩ := of_decide_eq_true hok
        have hnone : tally Call.active (.holding id ::ₘ ps) = 0 := quiet_iff.mp hquiet
        rw [tally_cons] at hnone
        rw [(Nat.add_eq_zero_iff.mp hnone).2]
        exact hone
    | false =>
        have hself : tally Call.active {p} = 1 := by simp [tally_singleton, Call.active, hp]
        replace hi : tally Call.active (p ::ₘ ps) ≤ 1 := hi
        rw [tally_cons, hself] at hi
        rw [Nat.le_zero.mp (Nat.le_of_add_le_add_left hi)]
        exact hone

/-- While a call is in progress, the others are containers in use. -/
theorem others_hold
    (hr : (calls cfg).system.Reach (fun s l => sequential s l = true) ⟨g, c ::ₘ ps⟩)
    (hc : c.holds = false) : ∀ q ∈ ps, q.holds = true := by
  have hself : tally Call.active {c} = 1 := by simp [tally_singleton, Call.active, hc]
  have hle : tally Call.active (c ::ₘ ps) ≤ 1 := one_active hr
  rw [tally_cons, hself] at hle
  exact quiet_iff (s := ⟨g, ps⟩) |>.mpr (Nat.le_zero.mp (Nat.le_of_add_le_add_left hle))

/-! ## Parked containers are registered -/

/-- The id a `RemoveByID` in progress is about to delete. -/
def Call.deletes : Call → Multiset String
  | .removeByID id | .discard .removeByID id => {id}
  | _ => 0

theorem deletes_grown (w : Grower) (id : String) : (w.grown id).deletes = 0 := by
  cases w <;> rfl

theorem deletes_refused (w : Grower) (e : Error) : (w.refused e).deletes = 0 := by
  cases w <;> cases e <;> rfl

/-- Only a `RemoveByID` turns into one. -/
theorem Call.Step.deletes (hs : Call.Step cfg g c e g' cs) : cs.bind Call.deletes ≤ c.deletes := by
  cases hs with
  | growRefused | giveBack => simp [deletes_refused]
  | register => simp [deletes_grown]
  | cancel hcancel => cases hcancel <;> simp [Call.deletes]
  | _ => simp [Call.deletes]

/-- What is about to be deleted after a step was so before it, by the call that took
the step. -/
theorem deleting
    (hr : (calls cfg).system.Reach (fun s l => sequential s l = true) ⟨g, c ::ₘ ps⟩)
    (hok : sequential ⟨g, c ::ₘ ps⟩ (.act c e) = true) (hs : Call.Step cfg g c e g' cs)
    {id : String} (hid : id ∈ (cs + ps).bind Call.deletes) :
    id ∈ c.deletes ∧ c.holds = false := by
  rw [Multiset.add_bind] at hid
  cases hc : c.holds with
  | true =>
      -- a release starts, so no `RemoveByID` is in progress
      obtain ⟨id', rfl⟩ := eq_holding hc
      obtain rfl := hs.of_holding
      have hquiet : Quiet ⟨g, .holding id' ::ₘ ps⟩ := of_decide_eq_true hok
      rcases Multiset.mem_add.mp hid with hid | hid
      · cases Multiset.notMem_zero _ (Multiset.mem_of_le hs.deletes hid)
      · obtain ⟨q, hq, hmem⟩ := Multiset.mem_bind.mp hid
        obtain ⟨id'', rfl⟩ := eq_holding (hquiet q (Multiset.mem_cons_of_mem hq))
        cases Multiset.notMem_zero _ hmem
  | false =>
      refine ⟨?_, rfl⟩
      rcases Multiset.mem_add.mp hid with hid | hid
      · exact Multiset.mem_of_le hs.deletes hid
      · obtain ⟨q, hq, hmem⟩ := Multiset.mem_bind.mp hid
        obtain ⟨id'', rfl⟩ := eq_holding (others_hold hr hc q hq)
        cases Multiset.notMem_zero _ hmem

/-- What a `RemoveByID` is about to delete is checked out. -/
theorem deletes_checked_out
    (hr : (calls cfg).system.Reach (fun s l => sequential s l = true) s) :
    ∀ id ∈ s.procs.bind Call.deletes, .holding id ∈ s.procs := by
  refine Program.invariant (I := fun s => ∀ id ∈ s.procs.bind Call.deletes, .holding id ∈ s.procs)
    (fun s hs => ?_) (fun g p g' ps _ hi hok hc => ?_) (fun g p e g' qs ps hr hi hok hs => ?_) hr
  · obtain ⟨-, -, rfl⟩ := init_iff.mp hs
    simp [start, Call.deletes]
  · intro id hid
    have hremoves := (Bool.and_eq_true_iff.mp hok).2
    rw [Multiset.cons_bind] at hid
    rcases Multiset.mem_add.mp hid with hid | hid
    · cases hc with
      | removeByID =>
          obtain rfl := Multiset.mem_singleton.mp hid
          exact Multiset.mem_cons_of_mem (of_decide_eq_true hremoves)
      | _ => cases Multiset.notMem_zero _ hid
    · exact Multiset.mem_cons_of_mem (hi id hid)
  · intro id hid
    obtain ⟨hdel, hact⟩ := deleting hr hok hs hid
    have hheld := hi id (by simp [hdel])
    rcases Multiset.mem_cons.mp hheld with rfl | hheld
    · cases hact
    · exact Multiset.mem_add.mpr (.inr hheld)

/-- What is checked out is neither parked nor offered. -/
theorem not_offered {w : Discarder} {id : String} (hr : (calls cfg).system.Reach
      (fun s l => sequential s l = true) ⟨g, .discard w id ::ₘ ps⟩)
    (hheld : .holding id ∈ ps) :
    id ∉ g.pool.idle ∧ id ∉ (Call.discard w id ::ₘ ps).bind Call.offers := by
  constructor
  · obtain ⟨rest, rfl⟩ := Multiset.exists_cons_of_mem hheld
    rw [Multiset.cons_swap] at hr
    exact (Tokens.not_mem_of_mem (owned hr).nodup (t := id) (by simp [Call.owned, Call.held])).1
  · intro hmem
    obtain ⟨q, hq, hmem⟩ := Multiset.mem_bind.mp hmem
    rcases Multiset.mem_cons.mp hq with rfl | hq
    · cases Multiset.notMem_zero _ hmem
    · obtain ⟨id', rfl⟩ := eq_holding (others_hold hr rfl q hq)
      cases Multiset.notMem_zero _ hmem

/-- When the calls come one at a time, `RemoveByID` deletes only what is checked
out. -/
theorem deletes_held (hr : (calls cfg).system.Reach (fun s l => sequential s l = true) s) :
    (calls cfg).system.Reach (fun s l => deletesHeld s l = true) s := by
  refine hr.strengthen fun s l t hr _ hs => ?_
  cases hs with
  | call => rfl
  | @act g _ _ _ ps _ hs =>
      cases hs with
      | @discard w id =>
          cases w with
          | release => rfl
          | removeByID =>
              have hout : .holding id ∈ Call.discard .removeByID id ::ₘ ps :=
                deletes_checked_out hr id (by simp [Call.deletes])
              have hheld : .holding id ∈ ps := (Multiset.mem_cons.mp hout).resolve_left nofun
              exact decide_eq_true (.inr (not_offered hr hheld))
      | cancel hcancel => cases hcancel <;> rfl
      | _ => rfl

/-! ## After `Close` -/

/-- The call meets a closed pool without changing it. -/
def Call.settled : Call → Bool
  | .holding _ | .acquire _ | .acquireReturn _ | .release _ | .removeByID _ | .close _
  | .closeDone _ _ | .closeRemove _ _ _ => true
  | _ => false

/-- On a closed pool with an empty registry such a call changes neither the idle
channel nor the ledger. -/
theorem Call.Step.settled (hs : Call.Step cfg g c e g' cs) (hc : c.settled = true)
    (hclosed : g.pool.closed = true) (hall : g.pool.all = ∅) :
    (∀ q ∈ cs, q.settled = true) ∧ g'.pool.idle = g.pool.idle ∧ g'.pool.all = g.pool.all ∧
      g'.pool.count = g.pool.count := by
  cases hs with
  | acquireOpen hopen | close hopen =>
      rw [hclosed] at hopen
      cases hopen
  | releaseRecycle hid | releaseKeep hid | removeByIDFound hid =>
      rw [hall] at hid
      cases Finset.notMem_empty _ hid
  | cancel hcancel => cases hcancel <;> simp [Call.settled] at hc ⊢
  | _ => simp [Call.settled] at hc ⊢

/-- After `Close` the pool is empty but for the idle channel. -/
structure Shut (s : Soup World Call) : Prop where
  all : s.shared.pool.all = ∅
  count : s.shared.pool.count = 0
  settled : ∀ c ∈ s.procs, c.settled = true

theorem shut (hr : (calls cfg).system.Reach (fun s l => sequential s l = true) s)
    (hclosed : s.shared.pool.closed = true) : Shut s := by
  refine Program.invariant (I := fun s => s.shared.pool.closed = true → Shut s)
    (fun s hs hcl => ?_) (fun g p g' ps _ hi _ hc hcl => ?_)
    (fun g p e g' qs ps hr hi _ hs hcl => ?_) hr hclosed
  · obtain ⟨-, -, rfl⟩ := init_iff.mp hs
    cases hcl
  · obtain ⟨rfl, -, -⟩ := hc.owned
    obtain ⟨hall, hcount, hsettled⟩ := hi hcl
    have hp : p.settled = true := by cases hc <;> rfl
    exact ⟨hall, hcount, Multiset.forall_mem_cons.mpr ⟨hp, hsettled⟩⟩
  · cases hopen : g.pool.closed with
    | true =>
        obtain ⟨hall, hcount, hsettled⟩ := hi hopen
        obtain ⟨hp, hps⟩ := Multiset.forall_mem_cons.mp hsettled
        obtain ⟨hqs, -, hall', hcount'⟩ := hs.settled hp hopen hall
        refine ⟨hall'.trans hall, hcount'.trans hcount, fun q hq => ?_⟩
        exact (Multiset.mem_add.mp hq).elim (hqs q) (hps q)
    | false =>
        obtain ⟨w, rfl, rfl, rfl, rfl⟩ := hs.closes hopen hcl
        refine ⟨rfl, rfl, fun q hq => ?_⟩
        rcases Multiset.mem_add.mp hq with hq | hq
        · rw [Multiset.mem_singleton.mp hq]
          rfl
        · obtain ⟨id, rfl⟩ := eq_holding (others_hold hr rfl q hq)
          rfl

/-- A `Close` that finds a container in the idle channel. -/
def strands (s : Soup World Call) : Label Call Event → Bool
  | .act (.close _) .lock => !s.shared.pool.closed && !s.shared.pool.idle.isEmpty
  | _ => false

theorem strands_of_closed (hclosed : s.shared.pool.closed = true) (l : Label Call Event) :
    strands s l = false := by
  unfold strands
  split <;> simp [hclosed]

/-- A step that leaves the pool open is no effective `Close`. -/
theorem Call.Step.strands_of_open (hs : Call.Step cfg g c e g' cs)
    (hopen : g'.pool.closed = false) : strands ⟨g, ps⟩ (.act c e) = false := by
  cases hs with
  | close => cases hopen
  | closeAgain hclosed => exact strands_of_closed hclosed _
  | cancel hcancel => cases hcancel <;> rfl
  | _ => rfl

/-- A closed pool has an empty idle channel exactly if its `Close` found one. -/
theorem stranded (ht : (calls cfg).system.Trace (fun s l => sequential s l = true) h s) :
    (∀ step ∈ h, strands step.1 step.2 = false) ↔
      (s.shared.pool.closed = true → s.shared.pool.idle = []) := by
  refine Program.trace_invariant (I := fun h s => (∀ step ∈ h, strands step.1 step.2 = false) ↔
      (s.shared.pool.closed = true → s.shared.pool.idle = []))
    (fun s hs => ?_) (fun h g p g' ps _ hi _ hc => ?_)
    (fun h g p e g' qs ps ht hi _ hs => ?_) ht
  · obtain ⟨-, -, rfl⟩ := init_iff.mp hs
    simp [start, empty]
  · obtain ⟨rfl, -, -⟩ := hc.owned
    simpa [strands] using hi
  · have hcons : (∀ step ∈ (⟨g, p ::ₘ ps⟩, .act p e) :: h, strands step.1 step.2 = false) ↔
        strands ⟨g, p ::ₘ ps⟩ (.act p e) = false ∧
          (g.pool.closed = true → g.pool.idle = []) := by
      rw [List.forall_mem_cons, hi]
    rw [hcons]
    cases hclosed : g.pool.closed with
    | true =>
        have hshut := shut ht.reach hclosed
        obtain ⟨-, hidle, -⟩ :=
          hs.settled (hshut.settled p (Multiset.mem_cons_self _ _)) hclosed hshut.all
        have hno := strands_of_closed (s := ⟨g, p ::ₘ ps⟩) hclosed (.act p e)
        simp [hno, hidle, hs.closed hclosed]
    | false =>
        cases hclosed' : g'.pool.closed with
        | true =>
            obtain ⟨w, rfl, rfl, rfl, rfl⟩ := hs.closes hclosed hclosed'
            simp [strands, hclosed]
        | false =>
            simp [hs.strands_of_open hclosed']

/-! ## The snapshot of every history -/

theorem mem_checkedOut {id : String} :
    id ∈ checkedOut s ↔ id ∈ s.shared.pool.all ∧ .holding id ∈ s.procs :=
  Finset.mem_filter

/-- When no call is in progress, a container of an open pool is parked or checked
out, and not both. -/
theorem card_all (hr : (calls cfg).system.Reach (fun s l => sequential s l = true) s)
    (hquiet : Quiet s) (hopen : s.shared.pool.closed = false) :
    s.shared.pool.all.card = s.shared.pool.idle.length + (checkedOut s).card := by
  have hnodup := (single_owner hr.reachable).1
  rw [places, Multiset.nodup_add] at hnodup
  obtain ⟨hidle, -, hdisj⟩ := hnodup
  have hall : s.shared.pool.all = s.shared.pool.idle.toFinset ∪ checkedOut s := by
    ext id
    rw [Finset.mem_union, List.mem_toFinset, mem_checkedOut]
    constructor
    · intro hid
      rcases Multiset.mem_add.mp (mem_places hr id hid) with hpark | hheld
      · exact .inl hpark
      · obtain ⟨c, hc, hmem⟩ := Multiset.mem_bind.mp hheld
        obtain ⟨id', rfl⟩ := eq_holding (hquiet c hc)
        obtain rfl := Multiset.mem_singleton.mp hmem
        exact .inr ⟨hid, hc⟩
    · rintro (hpark | ⟨hid, -⟩)
      · exact alive (deletes_held hr) hopen id (.inl hpark)
      · exact hid
  have hdisj' : Disjoint s.shared.pool.idle.toFinset (checkedOut s) := by
    rw [Finset.disjoint_left]
    intro id hpark hout
    refine Multiset.disjoint_left.mp hdisj (List.mem_toFinset.mp hpark) ?_
    exact Multiset.mem_bind.mpr ⟨_, (mem_checkedOut.mp hout).2, Multiset.mem_singleton_self id⟩
  rw [hall, Finset.card_union_of_disjoint hdisj', List.toFinset_card_of_nodup hidle]

/-- When no call is in progress, every container of an open pool is counted. -/
theorem count_eq (hr : (calls cfg).system.Reach (fun s l => sequential s l = true) s)
    (hquiet : Quiet s) (hopen : s.shared.pool.closed = false) :
    s.shared.pool.count = s.shared.pool.idle.length + (checkedOut s).card := by
  have hnone : tally Call.reserves s.procs = 0 := by
    refine Multiset.countP_eq_zero.mpr fun c hc => ?_
    obtain ⟨id, rfl⟩ := eq_holding (hquiet c hc)
    exact Bool.false_ne_true
  rw [balanced hr hopen, card_all hr hquiet hopen, hnone]
  push_cast
  exact add_zero _

/-- A snapshot is consistent unless the pool is closed with a container in the idle
channel. -/
theorem consistent_now (hr : (calls cfg).system.Reach (fun s l => sequential s l = true) s)
    (hquiet : Quiet s) :
    Consistent cfg s ↔ (s.shared.pool.closed = true → s.shared.pool.idle = []) := by
  have hmax := count_le hr
  cases hclosed : s.shared.pool.closed with
  | false =>
      have hcount := count_eq hr hquiet hclosed
      refine iff_of_true ⟨?_, ?_, ?_, ?_, ?_⟩ nofun
      all_goals
        simp only [stats]
        omega
  | true =>
      obtain ⟨hall, hcount, -⟩ := shut hr hclosed
      have hnone : checkedOut s = ∅ := by rw [checkedOut, hall, Finset.filter_empty]
      constructor
      · intro hs _
        have hbusy := hs.busy
        simp only [stats, hcount] at hbusy
        exact List.length_eq_zero_iff.mp (by omega)
      · intro hidle
        refine ⟨?_, ?_, ?_, ?_, ?_⟩
        all_goals
          simp only [stats, hcount, hidle rfl, hnone, List.length_nil, Finset.card_empty] at hmax ⊢
          omega

/-- When the calls of a history come one at a time, a snapshot after it is
consistent exactly if no `Close` of the history has found a container in the idle
channel. -/
theorem consistent_iff (ht : (calls cfg).system.Trace (fun s l => sequential s l = true) h s)
    (hquiet : Quiet s) :
    Consistent cfg s ↔ ∀ step ∈ h, strands step.1 step.2 = false := by
  rw [stranded ht]
  exact consistent_now ht.reach hquiet

/-- One container is parked and one is checked out. -/
theorem consistent_two : ∃ (h : Program.History World Call Event) (s : Soup World Call),
    s.shared.pool.idle = ["a"] ∧ s.procs = {.holding "b"} ∧
      (Consistent (Config.sized 0 2 0) s ↔ ∀ step ∈ h, strands step.1 step.2 = false) := by
  let cfg := Config.sized 0 2 0
  obtain ⟨s, hs, hidle, hprocs, hquiet⟩ := exists_reach cfg (by decide) sequential
    (Script.new ++ Script.acquireGrow cfg "a" ++ Script.acquireGrow cfg "b" ++
      Script.releaseSend "a")
    (fun s => s.shared.pool.idle = ["a"] ∧ s.procs = {.holding "b"} ∧ Quiet s)
    (by decide +kernel)
  obtain ⟨h, ht⟩ := hs.exists_trace
  exact ⟨h, s, hidle, hprocs, consistent_iff ht hquiet⟩

/-- `Close` comes when the only container is parked.  The channel keeps it, and the
snapshot reports it as idle on a pool of no containers. -/
theorem inconsistent_snapshot : ¬ ∀ (cfg : Config) (s : Soup World Call),
    (calls cfg).system.Reach (fun s l => sequential s l = true) s → s.shared.published = true →
      Quiet s → Consistent cfg s := by
  intro h
  let cfg := Config.sized 0 1 0
  obtain ⟨s, hs, hpub, hquiet, hstats⟩ := exists_reach cfg (by decide) sequential
    (Script.new ++ Script.acquireGrow cfg "a" ++ Script.releaseSend "a" ++
      [.call (.close .user), .act (.close .user) .lock, .act (.closeDone .user {"a"}) .closeDone,
        .act (.closeRemove .user {"a"} none) (.remove "a" none),
        .act (.closeRemove .user ∅ none) .ret])
    (fun s => s.shared.published = true ∧ Quiet s ∧ s.shared.pool.stats cfg = ⟨1, -1, 0, 1⟩)
    (by decide +kernel)
  have hbusy := (h cfg s hs hpub hquiet).busy
  rw [hstats] at hbusy
  exact absurd hbusy (by decide)

end

end Aicv.Pool
