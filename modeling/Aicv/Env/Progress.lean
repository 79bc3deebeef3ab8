import Aicv.Env.Closing
import Aicv.Pool.Progress

/-!
# `Env.Close` comes to its end

Each process of an `Env` has a bounded number of steps left, but the reaper, which goes round
until its context ends (`Proc.Step.rank_le`).  Once `Close` has cancelled that context the
reaper stops, `Wait` returns, the pool is closed, and every call of `Run` returns.  No
container and no command is left then (`shuts_down`).

This is about runs without further calls of `Verify` and `Close`.  Contexts of callers may
end at any time.  It rests on what the processes wait for: that each command comes to an end,
that each request to the runtime is answered, and that the select of the reaper does not take
a tick each time that the context has ended as well.
-/

namespace Aicv.Env

open Transition Pool Ttl Pipeline

/-- No client makes a call.  A reaper whose context has ended takes no further tick. -/
def Settles (s : Soup World Proc) : Label Proc Event → Prop
  | .call _ => False
  | .act _ .tick => s.shared.cancelled = false
  | .act _ _ => True

/-- Every step counts but the passing of time. -/
def counts : Label Proc Event → Bool
  | .act _ (.pass _) => false
  | _ => true

/-- Time may pass or not, and the context of a caller may end or not.  Every other step has to
come. -/
def forced : Label Proc Event → Bool
  | .act _ (.pass _) | .act _ (.pool (.cancel _)) => false
  | _ => true

/-! ## The steps that a process has left -/

section
variable (cfg : Pool.Config)

/-- The steps that a run has left at most.  Between `Acquire` and `Release` there are those of
the stages, of the command that each starts, and of the reaper for the entry of the run. -/
def Phase.rank : Phase → ℕ
  | .inPool c => if c.rank cfg ≤ 5 then c.rank cfg else c.rank cfg + 19
  | .track _ => 23
  | .prepare _ .compile => 17
  | .copyIn _ .compile => 16
  | .exec _ .compile => 15
  | .wait _ .compile => 13
  | .prepare _ .execute => 12
  | .copyIn _ .execute => 11
  | .exec _ .execute => 10
  | .wait _ .execute => 8
  | .cleanup _ => 7
  | .untrack _ => 6

/-- The steps that the reaper has left at most, up to its select. -/
def Sweep.rank : Sweep → ℕ
  | .select => 1
  | .readClock => 4
  | .lock _ => 3
  | .kills todo => 5 * todo.card + 2
  | .killing c _ todo => 5 * todo.card + 3 + c.rank cfg

/-- The steps that a process has left at most. -/
def Proc.rank : Proc → ℕ
  | .opening c => c.rank cfg + 1
  | .run _ ph => ph.rank cfg
  | .reaper sw => sw.rank cfg
  | .closing .cancel => cfg.maxSize.toNat + 5
  | .closing .wait => cfg.maxSize.toNat + 4
  | .closing (.inPool c) => c.rank cfg
  | .runtime => 0

end

/-- The steps that the entries of the reaper and the commands give rise to. -/
def World.rank (g : World) : ℕ := 5 * g.reaper.deadlines.length + g.running.card

section
variable {cfg : Config} {ok : Soup World Proc → Label Proc Event → Prop}
  {g g' : World} {p : Proc} {e : Event} {ps qs : Multiset Proc}

theorem rank_withPool_le (g : World) (p : Pool.World) : (g.withPool p).rank ≤ g.rank :=
  Nat.add_le_add_left (Finset.card_filter_le _ _) _

theorem length_untrack_le (m : Manager JobId) (id : String) :
    (m.untrack id).deadlines.length ≤ m.deadlines.length :=
  List.length_filter_le _ _

theorem length_track_le (m : Manager JobId) (id : String) (ttl : Duration) (now : ℤ)
    (job : JobId) : (m.track id ttl now job).deadlines.length ≤ m.deadlines.length + 1 :=
  Nat.succ_le_succ (length_untrack_le m id)

/-- A sweep takes its victims out of the table. -/
theorem length_forget_le (m : Manager JobId) (now : ℤ) :
    (m.expired now).length + (m.forget now).deadlines.length ≤ m.deadlines.length := by
  rw [Manager.expired, Manager.forget, ← List.countP_eq_length_filter,
    ← List.countP_eq_length_filter, List.length_eq_countP_add_countP fun t => t.deadline ≤ now]
  refine Nat.add_le_add_left (List.countP_mono_left fun t ht hkept => ?_) _
  have hmem : t ∈ (m.forget now).deadlines := List.mem_filter.mpr ⟨ht, hkept⟩
  simpa using (Manager.mem_forget.mp hmem).2

/-- A call of the pool that is part of a process. -/
theorem sum_rank_lt {c : Call} {cs : Multiset Call} {f : Call → Proc} {n : ℕ}
    (hcard : cs.card ≤ 1) (hlt : (cs.map (Call.rank cfg.pool)).sum < c.rank cfg.pool)
    (hf : ∀ c', c'.rank cfg.pool < c.rank cfg.pool → (f c').rank cfg.pool < n) (hn : 0 < n) :
    ((cs.map f).map (Proc.rank cfg.pool)).sum < n := by
  rcases Nat.le_one_iff_eq_zero_or_eq_one.mp hcard with hzero | hone
  · rw [Multiset.card_eq_zero.mp hzero]
    exact hn
  · obtain ⟨c', rfl⟩ := Multiset.card_eq_one.mp hone
    rw [Multiset.map_singleton, Multiset.sum_singleton] at hlt
    simpa using hf c' hlt

/-- Behind `Acquire` a run has the steps of its stages left. -/
theorem rank_after_lt {c c' : Call} (hlt : c'.rank cfg.pool < c.rank cfg.pool) :
    (Phase.after c').rank cfg.pool < (Phase.inPool c).rank cfg.pool := by
  have hin : (Phase.inPool c').rank cfg.pool < (Phase.inPool c).rank cfg.pool := by
    rw [Phase.rank, Phase.rank]
    split <;> split <;> omega
  cases c' with
  | holding id =>
      have hfive : 5 < c.rank cfg.pool := hlt
      have htrack : (Phase.after (.holding id)).rank cfg.pool = 23 := rfl
      rw [htrack, Phase.rank, if_neg (Nat.not_le.mpr hfive)]
      omega
  | _ => exact hin

theorem rank_next_lt (cfg : Config) (r : Run) (id : String) (exitCode : ℤ) (dur : Duration)
    (st : Stage) :
    (Phase.next r id exitCode dur st).rank cfg.pool < (Phase.wait id st).rank cfg.pool := by
  cases st with
  | compile =>
      rw [Phase.next]
      split
      next => exact (by decide : 7 < 13)
      next => exact (by decide : 12 < 13)
  | execute => exact (by decide : 7 < 8)

/-- A step leaves fewer steps, but the passing of time, which leaves as many. -/
theorem Proc.Step.rank_le (h : Proc.Step cfg g p e g' qs) (htick : e ≠ .tick)
    (hall : g.pool.pool.closed = false → (g.pool.pool.all.card : ℤ) ≤ cfg.pool.maxSize) :
    g'.rank + (qs.map (Proc.rank cfg.pool)).sum + (counts (.act p e)).toNat ≤
      g.rank + p.rank cfg.pool := by
  have hcount : (counts (.act p e)).toNat ≤ 1 := Bool.toNat_le _
  cases h with
  | @opening c e pool cs hs _ =>
      have hpool := rank_withPool_le g pool
      have hsum := sum_rank_lt (f := .opening) hs.card_le (hs.rank_lt hall)
        (fun _ => Nat.succ_lt_succ) (Nat.succ_pos _)
      rw [Proc.rank]
      omega
  | @opened c e pool hs _ =>
      have hpool := rank_withPool_le g pool
      have hlt := hs.rank_lt hall
      rw [Multiset.map_singleton, Multiset.sum_singleton, Proc.rank, Proc.rank, Sweep.rank]
      omega
  | @inPool r c e pool cs hs =>
      have hpool := rank_withPool_le g pool
      have hlt := hs.rank_lt hall
      have hpos : 0 < (Phase.inPool c).rank cfg.pool := by
        rw [Phase.rank]
        split <;> omega
      have hsum := sum_rank_lt (f := fun c' => .run r (Phase.after c')) hs.card_le hlt
        (fun _ => rank_after_lt) hpos
      rw [Proc.rank]
      omega
  | @track r id grace _ =>
      have htable := length_track_le g.reaper id (r.job.ttl + grace) g.clock r.id
      simp only [World.rank, World.withReaper, Multiset.map_singleton, Multiset.sum_singleton,
        Proc.rank, Phase.rank]
      omega
  | @untrack r id _ =>
      have htable := length_untrack_le g.reaper id
      simp only [World.rank, World.withReaper, Multiset.map_singleton, Multiset.sum_singleton,
        Proc.rank, Phase.rank, Call.rank, le_refl, if_true]
      omega
  | @prepared _ _ st | @prepareErr _ _ st _ | @copied _ _ st | @copyErr _ _ _ st
  | @execErr _ _ _ st | @waitErr _ _ _ st =>
      cases st <;>
        simp only [Multiset.map_singleton, Multiset.sum_singleton, Proc.rank, Phase.rank] <;>
        omega
  | trackNone | cleanup | untrackNone =>
      simp only [Multiset.map_singleton, Multiset.sum_singleton, Proc.rank, Phase.rank, Call.rank,
        le_refl, if_true]
      omega
  | @exec r id st _ =>
      have hcard := Finset.card_insert_le ⟨id, r.id, st⟩ g.running
      cases st <;>
        simp only [World.rank, World.withRunning, Multiset.map_singleton, Multiset.sum_singleton,
          Proc.rank, Phase.rank] <;>
        omega
  | @waitRet r id st exitCode dur _ =>
      have hlt := rank_next_lt cfg r id exitCode dur st
      simp only [Multiset.map_singleton, Multiset.sum_singleton, Proc.rank]
      omega
  | tick => exact absurd rfl htick
  | ctxDone =>
      simp only [World.rank, Multiset.map_zero, Multiset.sum_zero, Proc.rank, Sweep.rank]
      omega
  | readClock | swept =>
      simp only [Multiset.map_singleton, Multiset.sum_singleton, Proc.rank, Sweep.rank,
        Multiset.card_zero]
      omega
  | @lock now =>
      have htable := length_forget_le g.reaper now
      simp only [World.rank, World.withReaper, Multiset.map_singleton, Multiset.sum_singleton,
        Proc.rank, Sweep.rank, Multiset.coe_card]
      omega
  | @kill victim todo hv =>
      have hcard := Multiset.card_erase_add_one hv
      simp only [Multiset.map_singleton, Multiset.sum_singleton, Proc.rank, Sweep.rank, Call.rank]
      omega
  | @killing c victim todo e pool cs hs _ =>
      have hpool := rank_withPool_le g pool
      have hsum := sum_rank_lt (f := fun c' => .reaper (.killing c' victim todo))
        (n := 5 * todo.card + 3 + c.rank cfg.pool) hs.card_le (hs.rank_lt hall)
        (fun _ hlt => Nat.add_lt_add_left hlt _) (by omega)
      rw [Proc.rank, Sweep.rank]
      omega
  | @killed c victim todo e pool hs =>
      have hpool := rank_withPool_le g pool
      simp only [Multiset.map_singleton, Multiset.sum_singleton, Proc.rank, Sweep.rank]
      omega
  | cancel | waited =>
      simp only [World.rank, Multiset.map_singleton, Multiset.sum_singleton, Proc.rank, Call.rank]
      omega
  | @closing c e pool cs hs =>
      have hpool := rank_withPool_le g pool
      have hlt := hs.rank_lt hall
      have hsum := sum_rank_lt (f := fun c' => .closing (.inPool c')) hs.card_le hlt
        (fun _ => id) (by omega)
      rw [Proc.rank]
      omega
  | pass => exact le_refl _
  | @exit c hc =>
      have hcard := Finset.card_erase_add_one hc
      simp only [World.rank, World.withRunning, Multiset.map_singleton, Multiset.sum_singleton,
        Proc.rank]
      omega

/-! ## What `Close` waits for -/

/-- `NewEnv` is in a call of `New`. -/
theorem opening_ofNew {s : Soup World Proc} (h : (processes cfg).system.Reach ok s) :
    ∀ p ∈ s.procs, ∀ c, p = .opening c → c.ofNew = true := by
  refine Program.forall_procs (fun s hs p hp c hc => ?_) (fun g p g' hc c heq => ?_)
    (fun g p e g' qs hs hp q hq c hc => ?_) h
  · obtain ⟨-, -, rfl⟩ := hs
    have hp : p ∈ Proc.opening (.prewarm 0) ::ₘ {.runtime} := hp
    rcases Multiset.mem_cons.mp hp with rfl | hp
    · cases hc
      rfl
    · cases Multiset.mem_singleton.mp hp
      cases hc
  · subst heq
    cases hc
  · subst hc
    cases hs with
    | opening hs =>
        obtain ⟨c', hc', heq⟩ := Multiset.mem_map.mp hq
        cases heq
        exact (hs.ofNew _ hc').trans (hp _ rfl)
    | inPool | killing | closing =>
        obtain ⟨c', -, heq⟩ := Multiset.mem_map.mp hq
        cases heq
    | ctxDone => cases Multiset.notMem_zero _ hq
    | _ => cases Multiset.mem_singleton.mp hq

/-- `NewEnv` is over when it has returned. -/
theorem not_opening {s : Soup World Proc} (h : (processes cfg).system.Reach ok s)
    (hpub : s.shared.pool.published = true) (c : Call) : .opening c ∉ s.procs := by
  intro hmem
  have hphase := phase (pool_reachable h)
  have hpub : (toPool s).shared.published = true := hpub
  rw [Pool.Phase, if_pos hpub] at hphase
  have hnew := opening_ofNew h _ hmem c rfl
  rw [hphase c (Multiset.mem_bind.mpr ⟨_, hmem, Multiset.mem_singleton_self c⟩)] at hnew
  cases hnew

/-- The runtime is there at any time. -/
theorem mem_runtime {s : Soup World Proc} (h : (processes cfg).system.Reach ok s) :
    .runtime ∈ s.procs := by
  refine Program.invariant (I := fun s => .runtime ∈ s.procs) (fun s hs => ?_)
    (fun g p g' ps _ hi _ _ => Multiset.mem_cons_of_mem hi) (fun g p e g' qs ps _ hi _ hs => ?_) h
  · obtain ⟨-, -, rfl⟩ := hs
    exact Multiset.mem_cons_of_mem (Multiset.mem_singleton_self _)
  · rcases Multiset.mem_cons.mp hi with rfl | hi
    · cases hs <;> exact Multiset.mem_add.mpr (.inl (Multiset.mem_singleton_self _))
    · exact Multiset.mem_add.mpr (.inr hi)

/-- The reaper is there from the return of `NewEnv` on until it stops. -/
theorem reaper_or_stopped {s : Soup World Proc} (h : (processes cfg).system.Reach ok s)
    (hpub : s.shared.pool.published = true) :
    (∃ sw, .reaper sw ∈ s.procs) ∨ s.shared.stopped = true := by
  revert hpub
  refine Program.invariant
    (I := fun s => s.shared.pool.published = true →
      (∃ sw, .reaper sw ∈ s.procs) ∨ s.shared.stopped = true)
    (fun s hs hpub => ?_) (fun g p g' ps _ hi _ hc hpub => ?_)
    (fun g p e g' qs ps hr hi _ hs hpub => ?_) h
  · obtain ⟨-, -, rfl⟩ := hs
    cases hpub
  · have hstay : (∃ sw, .reaper sw ∈ p ::ₘ ps) ∨ g.stopped = true :=
      (hi (by cases hc <;> assumption)).imp_left fun ⟨sw, hmem⟩ =>
        ⟨sw, Multiset.mem_cons_of_mem hmem⟩
    cases hc <;> exact hstay
  · have hqs (sw : Sweep) (hmem : .reaper sw ∈ qs) : ∃ sw, .reaper sw ∈ qs + ps :=
      ⟨sw, Multiset.mem_add.mpr (.inl hmem)⟩
    cases hold : g.pool.published with
    | true =>
        rcases hi hold with ⟨sw, hmem⟩ | hstop
        · rcases Multiset.mem_cons.mp hmem with rfl | hmem
          · -- a step of the reaper
            cases hs with
            | ctxDone => exact .inr rfl
            | killing _ hne =>
                obtain ⟨c', hc'⟩ := Multiset.exists_mem_of_ne_zero hne
                exact .inl (hqs _ (Multiset.mem_map_of_mem _ hc'))
            | _ => exact .inl (hqs _ (Multiset.mem_singleton_self _))
          · exact .inl ⟨sw, Multiset.mem_add.mpr (.inr hmem)⟩
        · exact .inr (hs.stays_stopped hstop)
    | false =>
        have hearly : p.early = true := by
          simpa [hold] using opened hr p (Multiset.mem_cons_self _ _)
        cases hs with
        | opening _ hnot =>
            have hpub : _ = true := hpub
            rw [World.withPool_pool, hnot] at hpub
            cases hpub
        | opened => exact .inl (hqs _ (Multiset.mem_singleton_self _))
        | pass | exit =>
            have hpub : g.pool.published = true := hpub
            rw [hold] at hpub
            cases hpub
        | _ => cases hearly

/-- Only `Close` cancels the reaper, and it waits then. -/
theorem Proc.Step.cancelled (h : Proc.Step cfg g p e g' qs) (hcancel : g'.cancelled = true) :
    g.cancelled = true ∨ p = .closing .cancel ∧ qs = {.closing .wait} := by
  cases h with
  | cancel => exact .inr ⟨rfl, rfl⟩
  | _ => exact .inl hcancel

theorem Proc.Step.stays_cancelled (h : Proc.Step cfg g p e g' qs) (hcancel : g.cancelled = true) :
    g'.cancelled = true := by
  cases h with
  | cancel => rfl
  | _ => exact hcancel

/-- A step of an `Env` does not open its pool again. -/
theorem Proc.Step.closed (h : Proc.Step cfg g p e g' qs) (hcl : g.pool.pool.closed = true) :
    g'.pool.pool.closed = true := by
  rcases h.pool with ⟨heq, -⟩ | ⟨c, e', -, -, hs⟩ | ⟨c, -, -, heq, -⟩
  · rw [heq]
    exact hcl
  · exact hs.closed hcl
  · rw [heq]
    exact hcl

/-- A call of `Close` that has cancelled the reaper waits for it, or is about to close the
pool, or has closed it. -/
def Closes (s : Soup World Proc) : Prop :=
  .closing .wait ∈ s.procs ∨ .closing (.inPool (.close .user)) ∈ s.procs ∨
    s.shared.pool.pool.closed = true

theorem Proc.Step.closes (h : Proc.Step cfg g p e g' qs) (hi : Closes ⟨g, p ::ₘ ps⟩) :
    Closes ⟨g', qs + ps⟩ := by
  rcases hi with hmem | hmem | hcl
  · rcases Multiset.mem_cons.mp hmem with rfl | hmem
    · cases h with
      | waited => exact .inr (.inl (Multiset.mem_add.mpr (.inl (Multiset.mem_singleton_self _))))
    · exact .inl (Multiset.mem_add.mpr (.inr hmem))
  · rcases Multiset.mem_cons.mp hmem with rfl | hmem
    · cases h with
      | closing hs =>
          cases hs with
          | closeAgain hcl => exact .inr (.inr hcl)
          | close => exact .inr (.inr rfl)
          | cancel hc => cases hc
    · exact .inr (.inl (Multiset.mem_add.mpr (.inr hmem)))
  · exact .inr (.inr (h.closed hcl))

theorem closes {s : Soup World Proc} (h : (processes cfg).system.Reach ok s)
    (hcancel : s.shared.cancelled = true) : s.shared.pool.published = true ∧ Closes s := by
  revert hcancel
  refine Program.invariant
    (I := fun s => s.shared.cancelled = true → s.shared.pool.published = true ∧ Closes s)
    (fun s hs hcancel => ?_) (fun g p g' ps _ hi _ hc hcancel => ?_)
    (fun g p e g' qs ps hr hi _ hs hcancel => ?_) h
  · obtain ⟨-, -, rfl⟩ := hs
    cases hcancel
  · obtain ⟨hpub, hcloses⟩ := hi (by cases hc <;> exact hcancel)
    have hmore : Closes ⟨g, p ::ₘ ps⟩ :=
      hcloses.imp Multiset.mem_cons_of_mem (.imp_left Multiset.mem_cons_of_mem)
    cases hc <;> exact ⟨hpub, hmore⟩
  · have hearly := opened hr p (Multiset.mem_cons_self _ _)
    rcases hs.cancelled hcancel with hold | ⟨rfl, rfl⟩
    · obtain ⟨hpub, hcloses⟩ := hi hold
      exact ⟨(hs.early hearly).1 hpub, hs.closes hcloses⟩
    · have hpub : g.pool.published = true := by simpa [Proc.early] using hearly
      exact ⟨(hs.early hearly).1 hpub,
        .inl (Multiset.mem_add.mpr (.inl (Multiset.mem_singleton_self _)))⟩

/-! ## An `Env` at rest -/

/-- The call of the pool that a process is in. -/
def Proc.inCall : Proc → Option Call
  | .run _ (.inPool c) | .reaper (.killing c _ _) | .closing (.inPool c) => some c
  | _ => none

theorem mem_calls_of_inCall {c : Call} (h : p.inCall = some c) : c ∈ p.calls := by
  revert h
  fun_cases Proc.inCall p with
  | case4 =>
      intro h
      cases h
  | _ =>
      intro h
      exact Multiset.mem_singleton.mpr (Option.some.inj h).symm

/-- A step of the call is one of the process. -/
theorem exists_step_of_inCall {c : Call} {e : Pool.Event} {w : Pool.World} {cs : Multiset Call}
    (h : Call.Step cfg.pool g.pool c e w cs) (hp : p.inCall = some c) :
    ∃ g' qs, Proc.Step cfg g p (.pool e) g' qs := by
  revert hp
  fun_cases Proc.inCall p with
  | case1 r c' =>
      intro hp
      cases hp
      exact ⟨_, _, .inPool h⟩
  | case2 c' v todo =>
      intro hp
      cases hp
      by_cases hnil : cs = 0
      · subst hnil
        exact ⟨_, _, .killed h⟩
      · exact ⟨_, _, .killing h hnil⟩
  | case3 c' =>
      intro hp
      cases hp
      exact ⟨_, _, .closing h⟩
  | case4 =>
      intro hp
      cases hp

theorem forced_pool {e : Pool.Event} (he : ∀ text, e ≠ .cancel text) :
    forced (.act p (.pool e)) = true := by
  cases e with
  | cancel text => exact absurd rfl (he text)
  | _ => rfl

theorem counts_of_forced {l : Label Proc Event} (h : forced l = true) : counts l = true := by
  fun_cases counts l with
  | case1 => cases h
  | case2 => rfl

section
variable {s : Soup World Proc} (h : (processes cfg).system.Reachable s)
  (hrests : (processes cfg).system.Rests Settles forced s)
include hrests

theorem not_step (hp : p ∈ s.procs) (hstep : Proc.Step cfg s.shared p e g' qs)
    (hok : Settles s (.act p e)) (hforced : forced (.act p e) = true) : False :=
  Program.not_act_of_rests hrests hp hok hforced g' qs hstep

include h

/-- At rest a process that is in a call of the pool waits for a container. -/
theorem waits_of_inCall {c : Call} (hp : p ∈ s.procs) (hc : p.inCall = some c) :
    c = .acquireWait none ∧ s.shared.pool.pool.done = false := by
  by_contra hnot
  have hwait (heq : c = .acquireWait none) :
      s.shared.pool.pool.idle ≠ [] ∨ s.shared.pool.pool.done = true := by
    refine .inr (by_contra fun hdone => hnot ⟨heq, ?_⟩)
    rwa [Bool.not_eq_true] at hdone
  have hmem : c ∈ (toPool s).procs := Multiset.mem_bind.mpr ⟨p, hp, mem_calls_of_inCall hc⟩
  have hroom (i : ℕ) (id : String) (heq : c = .prewarmSend i id) :
      s.shared.pool.pool.HasRoom cfg.pool := hasRoom (pool_reachable h) (heq ▸ hmem)
  obtain ⟨e, w, cs, hs, hcancel⟩ := Call.exists_step hroom hwait
  obtain ⟨g', qs, hstep⟩ := exists_step_of_inCall hs hc
  exact not_step hrests hp hstep trivial (forced_pool hcancel)

/-- At rest the reaper whose context has ended is gone. -/
theorem not_reaper_of_rests (hcancel : s.shared.cancelled = true) (sw : Sweep) :
    .reaper sw ∉ s.procs := by
  intro hmem
  cases sw with
  | select => exact not_step hrests hmem (.ctxDone hcancel) trivial rfl
  | readClock => exact not_step hrests hmem .readClock trivial rfl
  | lock now => exact not_step hrests hmem .lock trivial rfl
  | kills todo =>
      rcases todo.empty_or_exists_mem with rfl | ⟨victim, hv⟩
      · exact not_step hrests hmem .swept trivial rfl
      · exact not_step hrests hmem (.kill hv) trivial rfl
  | killing c victim todo =>
      -- a kill does not wait for a container
      obtain ⟨rfl, -⟩ := waits_of_inCall h hrests hmem rfl
      have haimed : Call.removing (.acquireWait none) = some victim.id := aimed h _ hmem
      cases haimed

/-- At rest no command runs. -/
theorem running_of_rests : s.shared.running = ∅ := by
  refine Finset.eq_empty_of_forall_notMem fun c hc => ?_
  exact not_step hrests (mem_runtime h) (.exit hc) trivial rfl

omit h in
/-- At rest a run is in a call of the pool. -/
theorem inPool_of_rests {r : Run} {ph : Phase} (hmem : .run r ph ∈ s.procs) :
    ∃ c, ph = .inPool c := by
  cases ph with
  | inPool c => exact ⟨c, rfl⟩
  | track id =>
      exfalso
      cases hgrace : r.grace with
      | none => exact not_step hrests hmem (.trackNone hgrace) trivial rfl
      | some grace => exact not_step hrests hmem (.track hgrace) trivial rfl
  | prepare id st => exact (not_step hrests hmem .prepared trivial rfl).elim
  | copyIn id st => exact (not_step hrests hmem .copied trivial rfl).elim
  | exec id st => exact (not_step (e := .execErr "") hrests hmem .execErr trivial rfl).elim
  | wait id st => exact (not_step (e := .execErr "") hrests hmem .waitErr trivial rfl).elim
  | cleanup id => exact (not_step hrests hmem .cleanup trivial rfl).elim
  | untrack id =>
      exfalso
      cases hgrace : r.grace with
      | none => exact not_step hrests hmem (.untrackNone hgrace) trivial rfl
      | some grace => exact not_step hrests hmem (.untrack (by simp [hgrace])) trivial rfl

/-- At rest the pool of a closing `Env` is closed, and nobody waits for a container. -/
theorem done_of_rests (hcancel : s.shared.cancelled = true) :
    s.shared.pool.pool.closed = true ∧ s.shared.pool.pool.done = true := by
  obtain ⟨hpub, hcloses⟩ := closes h hcancel
  have hstop : s.shared.stopped = true :=
    (reaper_or_stopped h hpub).resolve_left fun ⟨sw, hmem⟩ =>
      not_reaper_of_rests h hrests hcancel sw hmem
  have hclosed : s.shared.pool.pool.closed = true := by
    rcases hcloses with hmem | hmem | hcl
    · exact (not_step hrests hmem (.waited hstop) trivial rfl).elim
    · cases (waits_of_inCall h hrests hmem rfl).1
    · exact hcl
  refine ⟨hclosed, ?_⟩
  rcases signals (pool_reachable h) hclosed with hdone | ⟨w, todo, hmem⟩
  · exact hdone
  · -- the call of `Close` that closes `done` goes on
    exfalso
    obtain ⟨p, hp, hc⟩ := Multiset.mem_bind.mp hmem
    cases p with
    | opening c => exact not_opening h hpub c hp
    | run r ph =>
        obtain ⟨c, rfl⟩ := inPool_of_rests hrests hp
        cases Multiset.mem_singleton.mp hc
        cases (waits_of_inCall h hrests hp rfl).1
    | reaper sw => exact not_reaper_of_rests h hrests hcancel sw hp
    | closing cl =>
        cases cl with
        | cancel | wait => cases Multiset.notMem_zero _ hc
        | inPool c =>
            cases Multiset.mem_singleton.mp hc
            cases (waits_of_inCall h hrests hp rfl).1
    | runtime => cases Multiset.notMem_zero _ hc

/-- At rest every process of a closing `Env` has returned. -/
theorem runtime_of_rests (hcancel : s.shared.cancelled = true) : ∀ p ∈ s.procs, p = .runtime := by
  intro p hp
  obtain ⟨hpub, -⟩ := closes h hcancel
  have hdone := (done_of_rests h hrests hcancel).2
  have hcall (c : Call) : p.inCall ≠ some c := by
    intro hc
    have hnot := (waits_of_inCall h hrests hp hc).2
    rw [hdone] at hnot
    cases hnot
  cases p with
  | opening c => exact (not_opening h hpub c hp).elim
  | run r ph =>
      obtain ⟨c, rfl⟩ := inPool_of_rests hrests hp
      exact absurd rfl (hcall c)
  | reaper sw => exact (not_reaper_of_rests h hrests hcancel sw hp).elim
  | closing cl =>
      cases cl with
      | cancel => exact (not_step hrests hp .cancel trivial rfl).elim
      | wait =>
          have hstop := (reaper_or_stopped h hpub).resolve_left fun ⟨sw, hmem⟩ =>
            not_reaper_of_rests h hrests hcancel sw hmem
          exact (not_step hrests hp (.waited hstop) trivial rfl).elim
      | inPool c => exact absurd rfl (hcall c)
  | runtime => rfl

/-- At rest every container of a closing `Env` has been passed to `Remove`. -/
theorem passed_of_rests (hcancel : s.shared.cancelled = true) :
    s.shared.pool.backend.issued ⊆ s.shared.pool.backend.passed := by
  have hnil : (toPool s).procs = 0 := by
    refine Multiset.eq_zero_of_forall_notMem fun c hc => ?_
    obtain ⟨p, hp, hmem⟩ := Multiset.mem_bind.mp hc
    obtain rfl := runtime_of_rests h hrests hcancel p hp
    cases Multiset.notMem_zero _ hmem
  exact passed_of_pending (pool_reachable h) (done_of_rests h hrests hcancel).1 (by simp [hnil])
    (by simp [hnil])

end

/-- Once a call of `Close` has cancelled the reaper, every run of the `Env` without further calls
comes to its end, whatever jobs, sweeps and calls of `Close` are in flight and whichever contexts
end, and only the runtime is left then: every `Verify` and every `Close` has returned, no command
runs, and each container has been passed to `Remove`. -/
theorem shuts_down {s : Soup World Proc} (h : (processes cfg).system.Reachable s)
    (hcancel : s.shared.cancelled = true) :
    (processes cfg).system.Halts Settles counts forced
      (fun t => (∀ p ∈ t.procs, p = .runtime) ∧ t.shared.running = ∅ ∧
        t.shared.pool.backend.issued ⊆ t.shared.pool.backend.passed) s := by
  refine .of_rank
    (I := fun t => (processes cfg).system.Reachable t ∧ t.shared.cancelled = true)
    (Program.rank World.rank (Proc.rank cfg.pool))
    (fun s l t hi _ hs => ⟨hi.1.step trivial hs, ?_⟩) (fun s l t hi hok hs => ?_)
    (fun t hi hrests => ⟨runtime_of_rests hi.1 hrests hi.2, running_of_rests hi.1 hrests,
      passed_of_rests hi.1 hrests hi.2⟩) ⟨h, hcancel⟩
  · cases hs with
    | call hc => cases hc <;> exact hi.2
    | act ha => exact ha.stays_cancelled hi.2
  · cases hs with
    | call => cases hok
    | @act g p e g' qs ps ha =>
        refine Program.rank_act (ha.rank_le ?_ (card_all_le (pool_reachable hi.1)))
        rintro rfl
        have hsettled : g.cancelled = false := hok
        rw [show g.cancelled = true from hi.2] at hsettled
        cases hsettled

end

/-- `Close` finds a job whose compile command runs and one that waits for a container, and the
reaper is about to remove the container of the first. -/
theorem shuts_down_two : ∃ s t : Soup World Proc, s.shared.running ≠ ∅ ∧ 4 < s.procs.card ∧
    (processes (Config.sized 1 0)).system.Run Settles s t ∧
      (∀ p ∈ t.procs, p = .runtime) ∧ t.shared.running = ∅ ∧
        t.shared.pool.backend.issued ⊆ t.shared.pool.backend.passed := by
  let cfg := Config.sized 1 0
  let r : Run := ⟨0, ⟨.rust, [("Cargo.toml", "")], 0⟩, some cfg.grace⟩
  let r' : Run := ⟨1, ⟨.rust, [("Cargo.toml", "")], 0⟩, some cfg.grace⟩
  let v : Tracked JobId := ⟨"a", 30000000000, 0⟩
  obtain ⟨s, hs, hcancel, hrunning, hprocs⟩ := exists_reach cfg (by decide) (fun _ _ => true)
    (Script.newEnv ++ (Pool.Script.acquireGrow cfg.pool "a").map (Script.inRun r) ++
      Script.compile r "a" ++ Pool.Script.acquireWait.map (Script.inRun r') ++
      [.act .runtime (.pass 30000000000)] ++ Script.sweep 30000000000 v ++
      [.call (.closing .cancel), .act (.closing .cancel) .cancel])
    (fun s => s.shared.cancelled = true ∧ s.shared.running ≠ ∅ ∧ 4 < s.procs.card)
    (by decide +kernel)
  have hcompletes := (shuts_down hs.reachable hcancel).completes (fun _ _ hok => hok)
    fun t hrests l t' hok hforced => hrests l t' hok (counts_of_forced hforced)
  obtain ⟨t, hrun, hrest⟩ := hcompletes.exists_final
  exact ⟨s, t, hrunning, hprocs, hrun, hrest⟩

end Aicv.Env
