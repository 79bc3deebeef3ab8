import Aicv.Cli.Summary
import Aicv.Transition.Soup

/-!
# The workers of a bench run

`runBench` starts its workers, feeds them the indices of the job specs through a channel
without a buffer, closes the channel and waits until every worker is done.  Between any
two steps of one goroutine the others may take theirs.  A send and its receive are one
step.

`Invariant` accounts for every index: not sent yet, with a worker, or stored.
`runBench_exact` is what follows for every run: no index is verified twice, a run that
has not returned can go on, and the results it returns are those of the specs.
-/

namespace Aicv.Cli

open Transition

/-- The arguments of `runBench`, with the quoting of the error texts. -/
structure Bench where
  specs : List JobSpec
  workers : ℤ
  defaultTTL : Duration
  quote : String → String

/-- The number of workers, at least one. -/
def Bench.workerCount (b : Bench) : ℕ := if b.workers < 1 then 1 else b.workers.toNat

/-- Where `runBench` is. -/
inductive Phase where
  /-- At the head of the loop that starts worker `w`. -/
  | add (w : ℕ)
  /-- About to start worker `w`. -/
  | start (w : ℕ)
  /-- At the head of the loop that sends index `i`. -/
  | send (i : ℕ)
  /-- In `wg.Wait`. -/
  | wait
  | returned
deriving DecidableEq, Repr

/-- What the goroutines share. -/
structure Shared where
  phase : Phase
  closed : Bool
  /-- The counter of the wait group. -/
  wg : ℤ
  results : List BenchResult
deriving DecidableEq

/-- A goroutine. -/
inductive Goroutine where
  /-- `runBench` itself, wherever its phase says. -/
  | main
  /-- A worker in front of its receive. -/
  | idle
  /-- A worker in `verifyOne`. -/
  | verifying (i : ℕ)
  /-- A worker about to store a result. -/
  | storing (i : ℕ) (r : BenchResult)
deriving DecidableEq

/-- A step of a goroutine. -/
inductive Event where
  | add
  | start
  | started
  /-- The index `i` goes over the channel. -/
  | take (i : ℕ)
  /-- `verifyOne` returns `r` for the spec `i`. -/
  | verified (i : ℕ) (r : BenchResult)
  | store (i : ℕ) (r : BenchResult)
  | close
  /-- A worker finds the channel closed, and calls `wg.Done`. -/
  | leave
  | ret
deriving DecidableEq

variable {δ : Type}

/-- `r` is a result of verifying the spec `i`. -/
def Bench.Result (δ : Type) (b : Bench) (i : ℕ) (r : BenchResult) : Prop :=
  ∃ spec, b.specs[i]? = some spec ∧
    ∃ reply : Reply δ, r = verifyOne b.quote spec b.defaultTTL reply

/-- The steps of a goroutine. -/
inductive Goroutine.Step (δ : Type) (b : Bench) :
    Shared → Goroutine → Event → Shared → Multiset Goroutine → Prop where
  | add {g : Shared} {w : ℕ} : g.phase = .add w → w < b.workerCount →
      Step δ b g main .add { g with phase := .start w, wg := g.wg + 1 } {main}
  | start {g : Shared} {w : ℕ} : g.phase = .start w →
      Step δ b g main .start { g with phase := .add (w + 1) } {main, idle}
  | started {g : Shared} {w : ℕ} : g.phase = .add w → ¬ w < b.workerCount →
      Step δ b g main .started { g with phase := .send 0 } {main}
  | take {g : Shared} {i : ℕ} : g.phase = .send i → i < b.specs.length →
      Step δ b g idle (.take i) { g with phase := .send (i + 1) } {verifying i}
  | verified {g : Shared} {i : ℕ} {r : BenchResult} : b.Result δ i r →
      Step δ b g (verifying i) (.verified i r) g {storing i r}
  | store {g : Shared} {i : ℕ} {r : BenchResult} :
      Step δ b g (storing i r) (.store i r) { g with results := g.results.set i r } {idle}
  | close {g : Shared} {i : ℕ} : g.phase = .send i → ¬ i < b.specs.length →
      Step δ b g main .close { g with phase := .wait, closed := true } {main}
  | leave {g : Shared} : g.closed = true →
      Step δ b g idle .leave { g with wg := g.wg - 1 } 0
  | ret {g : Shared} : g.phase = .wait → g.wg = 0 →
      Step δ b g main .ret { g with phase := .returned } 0

/-- The zero value of a result. -/
def zeroResult : BenchResult := ⟨"", "", "", none, 0, 0, false, ""⟩

/-- Where `runBench` begins. -/
def Bench.begin (b : Bench) : Soup Shared Goroutine :=
  ⟨⟨.add 0, false, 0, List.replicate b.specs.length zeroResult⟩, {.main}⟩

/-- `runBench`. -/
def runBench (δ : Type) (b : Bench) : Program Shared Goroutine Event where
  Init s := s = b.begin
  Call _ _ _ := False
  Act := Goroutine.Step δ b

/-! ## What a run has done -/

/-- The indices sent in a history. -/
def taken (h : Program.History Shared Goroutine Event) : List ℕ :=
  h.filterMap fun
    | (_, .act _ (.take i)) => some i
    | _ => none

/-- The results in a history, each with the index of its spec. -/
def verified (h : Program.History Shared Goroutine Event) : List (ℕ × BenchResult) :=
  h.filterMap fun
    | (_, .act _ (.verified i r)) => some (i, r)
    | _ => none

/-- The results stored in a history, each with its index. -/
def stored (h : Program.History Shared Goroutine Event) : List (ℕ × BenchResult) :=
  h.filterMap fun
    | (_, .act _ (.store i r)) => some (i, r)
    | _ => none

/-- The index a goroutine verifies. -/
def Goroutine.verifies : Goroutine → Multiset ℕ
  | verifying i => {i}
  | _ => 0

/-- The result a goroutine is about to store, with its index. -/
def Goroutine.stores : Goroutine → Multiset (ℕ × BenchResult)
  | storing i r => {(i, r)}
  | _ => 0

/-- The index that is sent in an event. -/
def Event.sends : Event → Multiset ℕ
  | take i => {i}
  | _ => 0

/-- The result that is found in an event, with its index. -/
def Event.verifies : Event → Multiset (ℕ × BenchResult)
  | verified i r => {(i, r)}
  | _ => 0

/-- The result that is stored in an event, with its index. -/
def Event.stores : Event → Multiset (ℕ × BenchResult)
  | store i r => {(i, r)}
  | _ => 0

/-- How many indices have been sent in a phase. -/
def Bench.sent (b : Bench) : Phase → ℕ
  | .add _ | .start _ => 0
  | .send i => i
  | .wait | .returned => b.specs.length

/-- Every index that was sent is with one worker, or its result is stored. -/
structure Indices (δ : Type) (b : Bench) (h : Program.History Shared Goroutine Event)
    (s : Soup Shared Goroutine) : Prop where
  sent_le : b.sent s.shared.phase ≤ b.specs.length
  taken_eq : (taken h : Multiset ℕ) = Multiset.range (b.sent s.shared.phase)
  verified_eq : s.procs.bind Goroutine.verifies + ((verified h).map Prod.fst : Multiset ℕ) = taken h
  stored_eq : s.procs.bind Goroutine.stores + (stored h : Multiset (ℕ × BenchResult)) = verified h
  sound : ∀ q ∈ verified h, b.Result δ q.1 q.2
  found : ∀ q ∈ stored h, s.shared.results[q.1]? = some q.2
  length_eq : s.shared.results.length = b.specs.length

section
variable {b : Bench} {h : Program.History Shared Goroutine Event} {s : Soup Shared Goroutine}
  {g g' : Shared} {p : Goroutine} {e : Event} {ps qs : Multiset Goroutine}

/-- No index is verified twice. -/
theorem Indices.nodup (hi : Indices δ b h s) :
    (taken h).Nodup ∧ ((verified h).map Prod.fst).Nodup := by
  have htaken : (taken h : Multiset ℕ).Nodup := hi.taken_eq ▸ Multiset.nodup_range _
  refine ⟨Multiset.coe_nodup.mp htaken, Multiset.coe_nodup.mp ?_⟩
  exact Multiset.nodup_of_le (hi.verified_eq ▸ Multiset.le_add_left _ _) htaken

/-- A result that is about to be stored is of another index than those stored. -/
theorem Indices.ne_of_mem_stored {i : ℕ} {r : BenchResult}
    (hi : Indices δ b h ⟨g, .storing i r ::ₘ ps⟩) {q : ℕ × BenchResult} (hq : q ∈ stored h) :
    q.1 ≠ i := by
  have hnodup : ((verified h : Multiset (ℕ × BenchResult)).map Prod.fst).Nodup :=
    Multiset.coe_nodup.mpr hi.nodup.2
  rw [← hi.stored_eq, Multiset.cons_bind, Goroutine.stores, Multiset.singleton_add,
    Multiset.cons_add, Multiset.map_cons, Multiset.nodup_cons] at hnodup
  rintro rfl
  exact hnodup.1 (Multiset.mem_map.mpr ⟨q, Multiset.mem_add.mpr (.inr hq), rfl⟩)

/-- The index of a result is one of a spec. -/
theorem Indices.lt_of_mem_verified (hi : Indices δ b h s) {q : ℕ × BenchResult}
    (hq : q ∈ verified h) : q.1 < b.specs.length := by
  have hmem : q.1 ∈ (taken h : Multiset ℕ) := by
    rw [← hi.verified_eq]
    exact Multiset.mem_add.mpr (.inr (Multiset.mem_coe.mpr (List.mem_map_of_mem hq)))
  rw [hi.taken_eq, Multiset.mem_range] at hmem
  exact hmem.trans_le hi.sent_le

theorem taken_cons :
    (taken ((s, .act p e) :: h) : Multiset ℕ) = e.sends + (taken h : Multiset ℕ) := by
  cases e <;> rfl

theorem verified_cons : (verified ((s, .act p e) :: h) : Multiset (ℕ × BenchResult)) =
    e.verifies + (verified h : Multiset (ℕ × BenchResult)) := by
  cases e <;> rfl

theorem stored_cons : (stored ((s, .act p e) :: h) : Multiset (ℕ × BenchResult)) =
    e.stores + (stored h : Multiset (ℕ × BenchResult)) := by
  cases e <;> rfl

namespace Goroutine.Step

theorem sent_le (hs : Goroutine.Step δ b g p e g' qs) (hle : b.sent g.phase ≤ b.specs.length) :
    b.sent g'.phase ≤ b.specs.length := by
  cases hs with
  | take _ hlt => exact hlt
  | verified _ | store | leave _ => exact hle
  | close _ _ | ret _ _ => exact Nat.le_refl _
  | _ => exact Nat.zero_le _

/-- The next index is sent. -/
theorem sends_eq (hs : Goroutine.Step δ b g p e g' qs) (hle : b.sent g.phase ≤ b.specs.length) :
    e.sends + Multiset.range (b.sent g.phase) = Multiset.range (b.sent g'.phase) := by
  cases hs with
  | @take i hphase _ =>
      rw [hphase, Bench.sent, Bench.sent, Multiset.range_succ]
      rfl
  | @close i hphase hend =>
      rw [hphase, Bench.sent] at hle ⊢
      rw [Nat.le_antisymm hle (Nat.le_of_not_lt hend)]
      rfl
  | verified _ | store | leave _ => exact zero_add _
  | add hphase _ | start hphase | started hphase _ | ret hphase _ => rw [hphase]; rfl

/-- An index that is sent goes to a worker, and one that is verified leaves it. -/
theorem verifies_eq (hs : Goroutine.Step δ b g p e g' qs) :
    qs.bind verifies + e.verifies.map Prod.fst = p.verifies + e.sends := by
  cases hs <;> rfl

/-- A result that is verified is about to be stored. -/
theorem stores_eq (hs : Goroutine.Step δ b g p e g' qs) :
    qs.bind stores + e.stores = p.stores + e.verifies := by
  cases hs <;> rfl

theorem result (hs : Goroutine.Step δ b g p e g' qs) {q : ℕ × BenchResult} (hq : q ∈ e.verifies) :
    b.Result δ q.1 q.2 := by
  cases hs with
  | verified hr => exact Multiset.mem_singleton.mp hq ▸ hr
  | _ => exact absurd hq (Multiset.notMem_zero q)

end Goroutine.Step

theorem Indices.act (hi : Indices δ b h ⟨g, p ::ₘ ps⟩) (hs : Goroutine.Step δ b g p e g' qs) :
    Indices δ b ((⟨g, p ::ₘ ps⟩, .act p e) :: h) ⟨g', qs + ps⟩ where
  sent_le := hs.sent_le hi.sent_le
  taken_eq := by rw [taken_cons, hi.taken_eq, hs.sends_eq hi.sent_le]
  verified_eq := by
    rw [taken_cons, ← hi.verified_eq, ← Multiset.map_coe, verified_cons, Multiset.map_add,
      Multiset.add_bind, Multiset.cons_bind, add_add_add_comm, hs.verifies_eq, Multiset.map_coe]
    ac_rfl
  stored_eq := by
    rw [verified_cons, ← hi.stored_eq, stored_cons, Multiset.add_bind, Multiset.cons_bind,
      add_add_add_comm, hs.stores_eq]
    ac_rfl
  sound q hq := by
    rw [← Multiset.mem_coe, verified_cons, Multiset.mem_add] at hq
    exact hq.elim hs.result (hi.sound q)
  found := by
    cases hs with
    | @store i r =>
        have hmem : (i, r) ∈ verified h := by
          rw [← Multiset.mem_coe, ← hi.stored_eq, Multiset.cons_bind, add_assoc]
          exact Multiset.mem_add.mpr (.inl (Multiset.mem_singleton_self _))
        have hlt : i < g.results.length := hi.length_eq ▸ hi.lt_of_mem_verified hmem
        refine List.forall_mem_cons.mpr ⟨List.getElem?_set_self hlt, fun q hq => ?_⟩
        rw [List.getElem?_set_ne (Ne.symm (hi.ne_of_mem_stored hq))]
        exact hi.found q hq
    | _ => exact hi.found
  length_eq := by
    cases hs with
    | store => exact List.length_set.trans hi.length_eq
    | _ => exact hi.length_eq

end

/-! ## The workers -/

/-- What is known of the numbers in a phase. -/
def Bench.Bounded (b : Bench) : Phase → Prop
  | .add w => w ≤ b.workerCount
  | .start w => w < b.workerCount
  | .send i => i ≤ b.specs.length
  | .wait | .returned => True

/-- Whether the channel is closed in a phase. -/
def Phase.isClosed : Phase → Bool
  | wait | returned => true
  | _ => false

/-- How many workers have been started in a phase. -/
def Bench.launched (b : Bench) : Phase → ℕ
  | .add w | .start w => w
  | _ => b.workerCount

/-- The workers counted by the wait group that are not started yet. -/
def Phase.pending : Phase → ℕ
  | start _ => 1
  | _ => 0

/-- The steps of `runBench` that are still to come in a phase, with those of the workers not
started and of the indices not sent. -/
def Bench.ahead (b : Bench) : Phase → ℕ
  | .add w => 3 * (b.workerCount - w) + 3 * b.specs.length + 3
  | .start w => 3 * (b.workerCount - w) + 3 * b.specs.length + 2
  | .send i => 3 * (b.specs.length - i) + 2
  | .wait => 1
  | .returned => 0

/-- The steps of a worker that are still to come, unless it gets another index. -/
def Goroutine.ahead : Goroutine → ℕ
  | main => 0
  | idle => 1
  | verifying _ => 3
  | storing _ _ => 2

def Goroutine.isMain : Goroutine → Bool
  | main => true
  | _ => false

def Goroutine.isWorker : Goroutine → Bool
  | main => false
  | _ => true

section
variable {b : Bench} {g g' : Shared} {p : Goroutine} {e : Event} {qs : Multiset Goroutine}

theorem Goroutine.Step.bounded (hs : Goroutine.Step δ b g p e g' qs) (hb : b.Bounded g.phase) :
    b.Bounded g'.phase := by
  cases hs with
  | add hphase hlt => exact hlt
  | start hphase => rw [hphase] at hb; exact hb
  | started hphase hend => exact Nat.zero_le _
  | take hphase hlt => exact hlt
  | verified hr => exact hb
  | store => exact hb
  | close hphase hend => exact trivial
  | leave hc => exact hb
  | ret hphase hzero => exact trivial

/-- `runBench` is there until it returns. -/
theorem Goroutine.Step.tally_isMain (hs : Goroutine.Step δ b g p e g' qs) :
    tally isMain qs + (if g.phase = .returned then 0 else 1) =
      tally isMain {p} + (if g'.phase = .returned then 0 else 1) := by
  cases hs <;> simp_all [Multiset.insert_eq_cons, tally_cons isMain main, tally_singleton, isMain]

/-- The wait group counts the workers. -/
theorem Goroutine.Step.wg_eq (hs : Goroutine.Step δ b g p e g' qs) :
    g'.wg + tally isWorker {p} + g.phase.pending =
      g.wg + tally isWorker qs + g'.phase.pending := by
  cases hs <;>
    simp_all [Multiset.insert_eq_cons, tally_cons isWorker main, tally_singleton, isWorker,
      Phase.pending]

/-- A step is one of those that are still to come. -/
theorem Goroutine.Step.ahead_eq (hs : Goroutine.Step δ b g p e g' qs) (hb : b.Bounded g.phase) :
    b.ahead g'.phase + (qs.map ahead).sum + 1 = b.ahead g.phase + p.ahead := by
  cases hs <;> simp_all [Bench.ahead, ahead, Bench.Bounded] <;> omega

theorem Goroutine.Step.isClosed_eq (hs : Goroutine.Step δ b g p e g' qs)
    (hc : g.closed = g.phase.isClosed) : g'.closed = g'.phase.isClosed := by
  cases hs <;> simp_all [Phase.isClosed]

/-- No worker leaves before the channel is closed. -/
theorem Goroutine.Step.launched_eq (hs : Goroutine.Step δ b g p e g' qs)
    (hb : b.Bounded g.phase) (hc : g.closed = g.phase.isClosed) (hopen : g'.closed = false) :
    g.closed = false ∧
      tally isWorker qs + b.launched g.phase = tally isWorker {p} + b.launched g'.phase := by
  cases hs <;>
    simp_all [Multiset.insert_eq_cons, tally_cons isWorker main, tally_singleton, isWorker,
      Bench.launched, Bench.Bounded, Phase.isClosed] <;> omega

end

/-- Who is there, and how far the run is. -/
structure Workers (b : Bench) (h : Program.History Shared Goroutine Event)
    (s : Soup Shared Goroutine) : Prop where
  bounded : b.Bounded s.shared.phase
  closed_eq : s.shared.closed = s.shared.phase.isClosed
  main_eq : tally Goroutine.isMain s.procs = if s.shared.phase = .returned then 0 else 1
  wg_eq : s.shared.wg = tally Goroutine.isWorker s.procs + s.shared.phase.pending
  launched_eq : s.shared.closed = false →
    tally Goroutine.isWorker s.procs = b.launched s.shared.phase
  returned_eq : s.shared.phase = .returned → s.shared.wg = 0
  steps_eq : h.length + b.ahead s.shared.phase + (s.procs.map Goroutine.ahead).sum =
    3 * b.workerCount + 3 * b.specs.length + 3

theorem Workers.init (b : Bench) : Workers b [] b.begin where
  bounded := Nat.zero_le _
  closed_eq := rfl
  main_eq := rfl
  wg_eq := rfl
  launched_eq _ := rfl
  returned_eq h := by cases h
  steps_eq := by simp [Bench.begin, Bench.ahead, Goroutine.ahead]

theorem Indices.init (b : Bench) : Indices δ b [] b.begin where
  sent_le := Nat.zero_le _
  taken_eq := rfl
  verified_eq := rfl
  stored_eq := rfl
  sound q hq := by cases hq
  found q hq := by cases hq
  length_eq := List.length_replicate

section
variable {b : Bench} {h : Program.History Shared Goroutine Event} {s : Soup Shared Goroutine}
  {g g' : Shared} {p : Goroutine} {e : Event} {ps qs : Multiset Goroutine}

theorem Workers.act (hi : Workers b h ⟨g, p ::ₘ ps⟩) (hs : Goroutine.Step δ b g p e g' qs) :
    Workers b ((⟨g, p ::ₘ ps⟩, .act p e) :: h) ⟨g', qs + ps⟩ := by
  obtain ⟨hbounded, hclosed, hmain, hwg, hlaunched, hreturned, hsteps⟩ := hi
  simp only [tally_cons _ p ps, Nat.cast_add] at hmain hwg hlaunched
  simp only [Multiset.map_cons, Multiset.sum_cons] at hsteps
  have hmain' := hs.tally_isMain
  have hwg' := hs.wg_eq
  have hsteps' := hs.ahead_eq hbounded
  refine ⟨hs.bounded hbounded, hs.isClosed_eq hclosed, ?_, ?_, fun hopen => ?_, fun hret => ?_, ?_⟩
  · simp only [tally_add]
    omega
  · simp only [tally_add, Nat.cast_add]
    omega
  · obtain ⟨hopen', heq⟩ := hs.launched_eq hbounded hclosed hopen
    have hworkers := hlaunched hopen'
    simp only [tally_add]
    omega
  · cases hs with
    | verified _ | store => exact hreturned hret
    | leave _ =>
        -- there is no worker left to leave
        have hzero := hreturned hret
        simp only [tally_singleton, Goroutine.isWorker, if_true] at hwg hzero
        omega
    | ret _ hzero => exact hzero
    | _ => cases hret
  · simp only [Multiset.map_add, Multiset.sum_add, List.length_cons]
    omega

/-- Every run keeps account of the indices and of the workers. -/
theorem runBench_invariant (ht : (runBench δ b).system.Trace System.Any h s) :
    Indices δ b h s ∧ Workers b h s := by
  refine Program.trace_invariant (I := fun h s => Indices δ b h s ∧ Workers b h s) ?_ ?_ ?_ ht
  · rintro s rfl
    exact ⟨Indices.init b, Workers.init b⟩
  · intro h g p g' ps _ _ _ hc
    exact hc.elim
  · intro h g p e g' qs ps _ hi _ ha
    exact ⟨hi.1.act ha, hi.2.act ha⟩

/-! ## Progress -/

theorem Workers.main_mem (hw : Workers b h s) (hphase : s.shared.phase ≠ .returned) :
    Goroutine.main ∈ s.procs := by
  have hpos : 0 < tally Goroutine.isMain s.procs := by
    rw [hw.main_eq, if_neg hphase]
    exact Nat.one_pos
  obtain ⟨p, hp, hmain⟩ := Multiset.countP_pos.mp hpos
  cases p with
  | main => exact hp
  | _ => cases hmain

/-- A worker that is not idle can go on. -/
theorem Indices.worker_step (hi : Indices δ b h s) (hp : p ∈ s.procs)
    (hworker : p.isWorker = true) (hbusy : p ≠ .idle) :
    ∃ l t, (runBench δ b).system.Step s l t := by
  cases p with
  | main => cases hworker
  | idle => exact absurd rfl hbusy
  | verifying i =>
      have hmem : i ∈ (taken h : Multiset ℕ) := by
        rw [← hi.verified_eq]
        refine Multiset.mem_add.mpr (.inl (Multiset.mem_bind.mpr ⟨_, hp, ?_⟩))
        exact Multiset.mem_singleton_self i
      rw [hi.taken_eq, Multiset.mem_range] at hmem
      have hlt : i < b.specs.length := hmem.trans_le hi.sent_le
      have hresult : b.Result δ i (verifyOne b.quote b.specs[i] b.defaultTTL ⟨.error "", 0⟩) :=
        ⟨b.specs[i], List.getElem?_eq_getElem hlt, _, rfl⟩
      exact ⟨_, Program.act_of_mem hp ⟨_, _, .verified hresult⟩⟩
  | storing i r => exact ⟨_, Program.act_of_mem hp ⟨_, _, .store⟩⟩

theorem exists_worker (hpos : 0 < tally Goroutine.isWorker s.procs) :
    ∃ p ∈ s.procs, p.isWorker = true :=
  Multiset.countP_pos.mp hpos

theorem Bench.workerCount_pos (b : Bench) : 0 < b.workerCount := by
  unfold Bench.workerCount
  split <;> omega

/-- A run that has not returned can go on. -/
theorem progress (hi : Indices δ b h s) (hw : Workers b h s)
    (hphase : s.shared.phase ≠ .returned) : ∃ l t, (runBench δ b).system.Step s l t := by
  have hmain := hw.main_mem hphase
  have hclosed := hw.closed_eq
  cases hp : s.shared.phase with
  | add w =>
      by_cases hlt : w < b.workerCount
      · exact ⟨_, Program.act_of_mem hmain ⟨_, _, .add hp hlt⟩⟩
      · exact ⟨_, Program.act_of_mem hmain ⟨_, _, .started hp hlt⟩⟩
  | start w => exact ⟨_, Program.act_of_mem hmain ⟨_, _, .start hp⟩⟩
  | send i =>
      by_cases hlt : i < b.specs.length
      · -- every worker is still there, and one of them is busy or takes the index
        have hworkers := hw.launched_eq (by rw [hclosed, hp]; rfl)
        simp only [hp, Bench.launched] at hworkers
        obtain ⟨p, hmem, hworker⟩ := exists_worker (hworkers.symm ▸ b.workerCount_pos)
        by_cases hidle : p = .idle
        · exact ⟨_, Program.act_of_mem (hidle ▸ hmem) ⟨_, _, .take hp hlt⟩⟩
        · exact hi.worker_step hmem hworker hidle
      · exact ⟨_, Program.act_of_mem hmain ⟨_, _, .close hp hlt⟩⟩
  | wait =>
      rw [hp] at hclosed
      by_cases hpos : 0 < tally Goroutine.isWorker s.procs
      · obtain ⟨p, hmem, hworker⟩ := exists_worker hpos
        by_cases hidle : p = .idle
        · exact ⟨_, Program.act_of_mem (hidle ▸ hmem) ⟨_, _, .leave hclosed⟩⟩
        · exact hi.worker_step hmem hworker hidle
      · have hzero : s.shared.wg = 0 := by
          rw [hw.wg_eq, hp, Nat.eq_zero_of_not_pos hpos]
          rfl
        exact ⟨_, Program.act_of_mem hmain ⟨_, _, .ret hp hzero⟩⟩
  | returned => exact absurd hp hphase

/-! ## The return -/

/-- When `runBench` returns nobody is left. -/
theorem Workers.procs_eq (hw : Workers b h s) (hphase : s.shared.phase = .returned) :
    s.procs = 0 := by
  have hwg := hw.wg_eq
  have hmain := hw.main_eq
  rw [hw.returned_eq hphase, hphase] at hwg
  rw [if_pos hphase] at hmain
  have hworkers : tally Goroutine.isWorker s.procs = 0 := by
    simp only [Phase.pending] at hwg
    omega
  refine Multiset.eq_zero_of_forall_notMem fun p hp => ?_
  cases p with
  | main => exact Multiset.countP_eq_zero.mp hmain _ hp rfl
  | _ => exact Multiset.countP_eq_zero.mp hworkers _ hp rfl

/-- When nobody is left, every index is verified and every result stored. -/
theorem Indices.of_procs_eq (hi : Indices δ b h s) (hprocs : s.procs = 0)
    (hphase : s.shared.phase = .returned) :
    ((verified h).map Prod.fst).Perm (List.range b.specs.length) ∧
      ∀ q ∈ verified h, s.shared.results[q.1]? = some q.2 := by
  have hverified := hi.verified_eq
  have hstored := hi.stored_eq
  rw [hprocs, Multiset.zero_bind, zero_add] at hverified hstored
  refine ⟨Multiset.coe_eq_coe.mp ?_, fun q hq => hi.found q ?_⟩
  · rw [hverified, hi.taken_eq, hphase]
    rfl
  · exact (Multiset.coe_eq_coe.mp hstored).mem_iff.mpr hq

/-- For every interleaving: no index is sent or verified twice, a run that has not returned
can go on, every run ends, and when `runBench` returns every index has been verified once
and its result is the one of its spec. -/
theorem runBench_exact (δ : Type) (b : Bench) (h : Program.History Shared Goroutine Event)
    (s : Soup Shared Goroutine) (ht : (runBench δ b).system.Trace System.Any h s) :
    ((taken h).Nodup ∧ ((verified h).map Prod.fst).Nodup) ∧
      (s.shared.phase ≠ .returned → ∃ l t, (runBench δ b).system.Step s l t) ∧
      h.length ≤ 3 * b.workerCount + 3 * b.specs.length + 3 ∧
      (s.shared.phase = .returned →
        s.procs = 0 ∧
          ((verified h).map Prod.fst).Perm (List.range b.specs.length) ∧
          s.shared.results.length = b.specs.length ∧
          ∀ q ∈ verified h, s.shared.results[q.1]? = some q.2 ∧ b.Result δ q.1 q.2) := by
  obtain ⟨hi, hw⟩ := runBench_invariant ht
  refine ⟨hi.nodup, progress hi hw, ?_, fun hphase => ?_⟩
  · have hsteps := hw.steps_eq
    omega
  · have hprocs := hw.procs_eq hphase
    obtain ⟨hperm, hfound⟩ := hi.of_procs_eq hprocs hphase
    exact ⟨hprocs, hperm, hi.length_eq, fun q hq => ⟨hfound q hq, hi.sound q hq⟩⟩

end

/-! ## Replay -/

/-- The step of a goroutine on an event, if it takes one, when `Verify` returns
`replies i` for the spec `i`. -/
def Goroutine.exec (b : Bench) (replies : ℕ → Reply δ) (g : Shared) :
    Goroutine → Event → Option (Shared × Multiset Goroutine)
  | main, .add =>
      match g.phase with
      | .add w =>
          if w < b.workerCount then some ({ g with phase := .start w, wg := g.wg + 1 }, {main})
          else none
      | _ => none
  | main, .start =>
      match g.phase with
      | .start w => some ({ g with phase := .add (w + 1) }, {main, idle})
      | _ => none
  | main, .started =>
      match g.phase with
      | .add w =>
          if w < b.workerCount then none else some ({ g with phase := .send 0 }, {main})
      | _ => none
  | idle, .take i =>
      if g.phase = .send i ∧ i < b.specs.length then
        some ({ g with phase := .send (i + 1) }, {verifying i})
      else none
  | verifying i, .verified j r =>
      match b.specs[i]? with
      | some spec =>
          if i = j ∧ r = verifyOne b.quote spec b.defaultTTL (replies i) then
            some (g, {storing i r})
          else none
      | none => none
  | storing i r, .store j r' =>
      if i = j ∧ r = r' then some ({ g with results := g.results.set i r }, {idle}) else none
  | main, .close =>
      match g.phase with
      | .send i =>
          if i < b.specs.length then none
          else some ({ g with phase := .wait, closed := true }, {main})
      | _ => none
  | idle, .leave => if g.closed then some ({ g with wg := g.wg - 1 }, 0) else none
  | main, .ret =>
      if g.phase = .wait ∧ g.wg = 0 then some ({ g with phase := .returned }, 0) else none
  | _, _ => none

/-- Everything `Goroutine.exec` computes is a step. -/
theorem Goroutine.exec_sound {b : Bench} {replies : ℕ → Reply δ} {g g' : Shared} {p : Goroutine}
    {e : Event} {qs : Multiset Goroutine} (h : p.exec b replies g e = some (g', qs)) :
    Goroutine.Step δ b g p e g' qs := by
  revert h
  fun_cases Goroutine.exec b replies g p e
  case case7 w hphase hend =>
    intro h
    cases h
    exact .started hphase hend
  case case17 i hphase hend =>
    intro h
    cases h
    exact .close hphase hend
  case case11 i j r spec hspec hr =>
    intro h
    cases h
    obtain ⟨rfl, rfl⟩ := hr
    exact .verified ⟨spec, hspec, _, rfl⟩
  case case14 i r j r' hr =>
    intro h
    cases h
    obtain ⟨rfl, rfl⟩ := hr
    exact .store
  -- the other steps are read off the rule
  all_goals intro h
  all_goals cases h
  all_goals constructor <;> simp_all

/-- The interpreter of `runBench`. -/
def interpreter (b : Bench) (replies : ℕ → Reply δ) : Interpreter Shared Goroutine Event where
  call := fun _ _ => none
  act := fun g p e => p.exec b replies g e

theorem interpreter_sound (b : Bench) (replies : ℕ → Reply δ) :
    (interpreter b replies).Sound (runBench δ b) where
  call h := by cases h
  act := Goroutine.exec_sound

/-- What a test finds after the steps of a list of labels is reached by a run. -/
theorem exists_history (b : Bench) (replies : ℕ → Reply δ) (ls : List (Label Goroutine Event))
    (q : Soup Shared Goroutine → Prop) [DecidablePred q]
    (h : ((interpreter b replies).replay (fun _ _ => true) b.begin ls).any
      (fun s => decide (q s)) = true) :
    ∃ h s, (runBench δ b).system.Trace System.Any h s ∧ q s := by
  obtain ⟨s, hs, hq⟩ := Interpreter.exists_reach (interpreter_sound b replies) rfl h
  obtain ⟨h, ht⟩ := hs.reachable.exists_trace
  exact ⟨h, s, ht, hq⟩

/-- Two workers, of which the second is done first. -/
theorem runBench_exact_two : ∃ (b : Bench) (h : Program.History Shared Goroutine Event)
    (s : Soup Shared Goroutine), b.specs.length = 2 ∧
      (runBench Unit b).system.Trace System.Any h s ∧ s.shared.phase = .returned ∧
      ((verified h).map Prod.fst).Perm (List.range b.specs.length) ∧
      ∀ q ∈ verified h, s.shared.results[q.1]? = some q.2 ∧ b.Result Unit q.1 q.2 := by
  let bad : JobSpec := ⟨"bad", "rust", [], 0, ""⟩
  let good : JobSpec := ⟨"good", "go", [("go.mod", "")], 60, "pass"⟩
  let b : Bench := ⟨[bad, good], 2, 0, id⟩
  let v : Api.Verdict Unit := ⟨.passed, [], "", "", "", 0, false, 0, 0, 0, 0⟩
  let r (i : ℕ) : BenchResult := verifyOne id ([bad, good].getD i bad) 0 ⟨.ok v, 7⟩
  let ls : List (Label Goroutine Event) :=
    [.act .main .add, .act .main .start, .act .main .add, .act .main .start, .act .main .started,
      .act .idle (.take 0), .act .idle (.take 1), .act (.verifying 1) (.verified 1 (r 1)),
      .act (.storing 1 (r 1)) (.store 1 (r 1)), .act .main .close, .act .idle .leave,
      .act (.verifying 0) (.verified 0 (r 0)), .act (.storing 0 (r 0)) (.store 0 (r 0)),
      .act .idle .leave, .act .main .ret]
  obtain ⟨h, s, ht, hphase⟩ := exists_history b (fun _ => ⟨.ok v, 7⟩) ls
    (fun s => s.shared.phase = .returned) (by decide +kernel)
  obtain ⟨-, hperm, -, hresults⟩ := (runBench_exact Unit b h s ht).2.2.2 hphase
  exact ⟨b, h, s, rfl, ht, hphase, hperm, hresults⟩

end Aicv.Cli
