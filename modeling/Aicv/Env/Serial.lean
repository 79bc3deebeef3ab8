import Aicv.Env.Requests

/-!
# A container serves one run after the other

The runs of an `Env` interleave, and a container goes from run to run through the pool.  What the
container is asked for does not interleave (`serializable`): in any history it is what the runs
that had the container ask by themselves, one complete run after the other, and then the beginning
of what the run asks that has it now.

The runs that have got the container stand in a list, the last one at its end (`Serial`).  Only the
last one may still ask for something, since the container has one owner, and it asks for nothing
after its `Untrack`.
-/

namespace Aicv.Sandbox

/-- The container of a request. -/
def Request.container : Request → String
  | .exec id _ _ | .copyIn id _ _ => id

end Aicv.Sandbox

namespace Aicv.Pool

/-- A call goes on with a container in hand when `Acquire` returns it. -/
theorem Call.Step.holding {cfg : Config} {g g' : World} {c : Call} {e : Event}
    {cs : Multiset Call} (h : Call.Step cfg g c e g' cs) {id : String} (hid : .holding id ∈ cs) :
    c = .acquireReturn (.ok id) ∧ e = .ret ∧ cs = {.holding id} := by
  have hacq := h.acquires hid (.inr ⟨id, rfl⟩)
  rcases h.acquiring hacq with ⟨c', rfl, hacq', -⟩ | ⟨id', rfl, rfl, rfl⟩ | ⟨err, rfl, rfl, rfl⟩
  · cases Multiset.mem_singleton.mp hid
    cases hacq'
  · cases Multiset.mem_singleton.mp hid
    exact ⟨rfl, rfl, rfl⟩
  · cases Multiset.notMem_zero _ hid

end Aicv.Pool

namespace Aicv.Env

open Transition Pool Ttl Pipeline Sandbox

/-! ## What a container is asked for -/

/-- The requests of a step.  Each run has replies of its own. -/
def Proc.asks (rs : JobId → Pipeline.Replies) (e : Event) : Proc → List Request
  | .run r ph => r.asks (rs r.id).workDir ph e
  | _ => []

/-- What a container has been asked for in a history, the first request first. -/
def askedOf (rs : JobId → Pipeline.Replies) (id : String) :
    Program.History World Proc Event → List Request
  | [] => []
  | (_, .act p e) :: h => askedOf rs id h ++ (p.asks rs e).filter fun req => req.container = id
  | (_, .call _) :: h => askedOf rs id h

/-- The run is in the call of `Acquire`. -/
def Phase.acquires : Phase → Bool
  | .inPool c => c.acquires
  | _ => false

section
variable {cfg : Config} {ok : Soup World Proc → Label Proc Event → Prop}
  {rs : JobId → Pipeline.Replies} {h : Program.History World Proc Event} {s : Soup World Proc}
  {g g' : World} {p : Proc} {e : Event} {ps qs : Multiset Proc} {r : Run} {ph ph' : Phase}
  {id : String} {runs : List Run}

/-- A run asks for something of the container that it has. -/
theorem calls_of_asks {req : Request} (hreq : req ∈ (Proc.run r ph).asks rs e) :
    (Proc.run r ph).calls = {.holding req.container} := by
  have hreq : req ∈ r.asks (rs r.id).workDir ph e := hreq
  revert hreq
  fun_cases Run.asks r (rs r.id).workDir ph e with
  | case2 => intro hreq; cases hreq
  | case7 => intro hreq; cases hreq
  | _ =>
      intro hreq
      cases List.mem_singleton.mp hreq
      rfl

theorem asks_inPool (r : Run) (c : Call) : (Proc.run r (.inPool c)).asks rs e = [] := rfl

/-! ## One step of a run -/

/-- A run gets a container when `Acquire` returns it.  All other steps leave it the one it has, or
none. -/
theorem Proc.Step.leases (hs : Proc.Step cfg g (.run r ph) e g' qs) :
    (∃ id, ph = .inPool (.acquireReturn (.ok id)) ∧ e = .pool .ret ∧ qs = {.run r (.track id)}) ∨
      ∀ q ∈ qs, ∀ id, .holding id ∈ q.calls → .holding id ∈ (Proc.run r ph).calls := by
  cases hs with
  | @inPool r c e pool cs hs =>
      by_cases hid : ∃ id, .holding id ∈ cs
      · obtain ⟨id, hid⟩ := hid
        obtain ⟨rfl, rfl, rfl⟩ := hs.holding hid
        exact .inl ⟨id, rfl, rfl, rfl⟩
      · refine .inr fun q hq id hmem => absurd ?_ hid
        obtain ⟨c', hc', rfl⟩ := Multiset.mem_map.mp hq
        rw [calls_after, Multiset.mem_singleton] at hmem
        exact ⟨id, hmem ▸ hc'⟩
  | waitRet =>
      refine .inr fun q hq id hmem => ?_
      rwa [Multiset.mem_singleton.mp hq, calls_next] at hmem
  | _ =>
      refine .inr fun q hq id hmem => ?_
      rwa [Multiset.mem_singleton.mp hq] at hmem

/-- Only a run in `Acquire` goes on in `Acquire`. -/
theorem Proc.Step.acquires (hs : Proc.Step cfg g (.run r ph) e g' qs) (hq : .run r ph' ∈ qs)
    (hacq : ph'.acquires = true) : ph.acquires = true := by
  cases hs with
  | @inPool r c e pool cs hs =>
      obtain ⟨c', hc', heq⟩ := Multiset.mem_map.mp hq
      cases heq
      refine hs.acquires hc' (.inl ?_)
      cases c' with
      | holding => cases hacq
      | _ => exact hacq
  | @waitRet r id st code dur =>
      cases Multiset.mem_singleton.mp hq
      cases st with
      | compile =>
          rw [Phase.next] at hacq
          split at hacq <;> cases hacq
      | execute => cases hacq
  | _ =>
      cases Multiset.mem_singleton.mp hq
      cases hacq

/-- A run hears once which container it gets. -/
theorem acquire_hear {rs : Pipeline.Replies} (hacq : ph.acquires = false) :
    (ph.hear rs e).acquire = rs.acquire := by
  fun_cases Phase.hear rs ph e
  case case1 => cases hacq
  all_goals first | rfl | exact acquire_update _

/-- Each run has been started. -/
theorem started_of_mem (ht : (processes cfg).system.Trace ok h s) :
    ∀ r ph, .run r ph ∈ s.procs → Started h r := by
  refine Program.trace_invariant (I := fun h s => ∀ r ph, .run r ph ∈ s.procs → Started h r)
    (fun s hs => ?_) (fun h g p g' ps _ hi _ hc => ?_) (fun h g p e g' qs ps _ hi _ hs => ?_) ht
  · obtain ⟨-, -, rfl⟩ := hs
    intro r ph hmem
    simp [start] at hmem
  · intro r ph hmem
    rcases Multiset.mem_cons.mp hmem with rfl | hmem
    · cases hc with
      | run => exact started_call.mpr (.inl ⟨_, rfl⟩)
    · exact started_call.mpr (.inr (hi r ph hmem))
  · intro r ph hmem
    rcases Multiset.mem_add.mp hmem with hmem | hmem
    · obtain ⟨ph₀, rfl⟩ := hs.run_of_mem hmem
      exact started_act.mpr (hi r ph₀ (Multiset.mem_cons_self _ _))
    · exact started_act.mpr (hi r ph (Multiset.mem_cons_of_mem hmem))

/-! ## The runs that have got a container -/

/-- These runs have got the container, in this order, and what it has been asked for is what they
have asked for. -/
structure Serial (rs : JobId → Pipeline.Replies) (id : String)
    (h : Program.History World Proc Event) (s : Soup World Proc) (runs : List Run) : Prop where
  asked : askedOf rs id h = runs.flatMap fun r => asked (rs r.id).workDir r.id h
  nodup : (runs.map Run.id).Nodup
  got : ∀ r ∈ runs, Started h r ∧ (heard (rs r.id) r.id h).acquire = .ok id
  /-- None of them gets another container. -/
  settled : ∀ r ∈ runs, ∀ ph, .run r ph ∈ s.procs →
    ph.acquires = false ∧ ∀ id', .holding id' ∈ (Proc.run r ph).calls → id' = id
  last : ∀ r ph, .run r ph ∈ s.procs → .holding id ∈ (Proc.run r ph).calls →
    runs.getLast? = some r

/-- In what a step asks for a run asks of the container that it has. -/
theorem Serial.asks_eq (hi : Serial rs id h ⟨g, .run r ph ::ₘ ps⟩ runs) (hr : r ∈ runs) :
    ((Proc.run r ph).asks rs e).filter (fun req => req.container = id) =
      (Proc.run r ph).asks rs e := by
  rw [List.filter_eq_self]
  intro req hreq
  have hcalls := calls_of_asks hreq
  refine decide_eq_true ((hi.settled r hr ph (Multiset.mem_cons_self _ _)).2 _ ?_)
  rw [hcalls]
  exact Multiset.mem_singleton_self _

/-- A run that gets the container is the last one in the list. -/
theorem Serial.lease
    (ht : (processes cfg).system.Trace ok h
      ⟨g, .run r (.inPool (.acquireReturn (.ok id))) ::ₘ ps⟩)
    (hi : Serial rs id h ⟨g, .run r (.inPool (.acquireReturn (.ok id))) ::ₘ ps⟩ runs) :
    Serial rs id
      ((⟨g, .run r (.inPool (.acquireReturn (.ok id))) ::ₘ ps⟩,
        .act (.run r (.inPool (.acquireReturn (.ok id)))) (.pool .ret)) :: h)
      ⟨g', {.run r (.track id)} + ps⟩ (runs ++ [r]) := by
  have hself := Multiset.mem_cons_self (.run r (.inPool (.acquireReturn (.ok id)))) ps
  have hf := followed (rs r.id) ht
  have hstarted : Started h r := started_of_mem ht r _ hself
  have hnone : Env.asked (rs r.id).workDir r.id h = [] := hf.sofar r _ hself
  have hnew : ∀ b ∈ runs, b.id ≠ r.id := by
    intro b hb heq
    obtain rfl := hf.same b (hi.got b hb).1 r _ hself heq.symm
    cases (hi.settled r hb _ hself).1
  have hother : ∀ b ∈ runs,
      (Proc.run r (.inPool (.acquireReturn (.ok id)))).job ≠ some b.id :=
    fun b hb hjob => hnew b hb (Option.some.inj hjob).symm
  refine ⟨?_, ?_, fun b hb => ?_, fun b hb ph hmem => ?_, fun b ph hmem hid => ?_⟩
  · rw [askedOf, asks_inPool, List.filter_nil, List.append_nil, hi.asked, List.flatMap_append,
      List.flatMap_singleton, asked_self, hnone]
    refine (List.append_nil _).symm.trans (congrArg (· ++ []) ?_)
    exact List.flatMap_congr fun b hb => (asked_of_ne (hother b hb)).symm
  · rw [List.map_append, List.nodup_append]
    refine ⟨hi.nodup, List.nodup_singleton _, fun a ha b hb => ?_⟩
    obtain ⟨r', hr', rfl⟩ := List.mem_map.mp ha
    rw [List.mem_singleton.mp hb]
    exact hnew r' hr'
  · rcases List.mem_append.mp hb with hb | hb
    · rw [started_act, heard_of_ne (hother b hb)]
      exact hi.got b hb
    · cases List.mem_singleton.mp hb
      rw [started_act, heard_self]
      exact ⟨hstarted, rfl⟩
  · rcases Multiset.mem_add.mp hmem with hmem | hmem
    · cases Multiset.mem_singleton.mp hmem
      refine ⟨rfl, fun id' hid => ?_⟩
      cases Multiset.mem_singleton.mp hid
      rfl
    · rcases List.mem_append.mp hb with hb | hb
      · exact hi.settled b hb ph (Multiset.mem_cons_of_mem hmem)
      · cases List.mem_singleton.mp hb
        exact absurd rfl (job_ne ht.reach rfl hmem)
  · rcases Multiset.mem_add.mp hmem with hmem | hmem
    · cases Multiset.mem_singleton.mp hmem
      exact List.getLast?_concat
    · -- the container has one owner
      have howns : id ∈ containers.proc (.run r (.inPool (.acquireReturn (.ok id)))) := by
        simp [containers, Proc.calls, Call.owned, Call.held]
      refine absurd ?_ ((Tokens.not_mem_of_mem (containers_nodup ht.reach) howns).2 _ hmem)
      exact Multiset.mem_bind.mpr ⟨_, hid, by simp [Call.owned, Call.held, Call.creating]⟩

/-- A step that hands nobody the container. -/
theorem Serial.keep (ht : (processes cfg).system.Trace ok h ⟨g, p ::ₘ ps⟩)
    (hs : Proc.Step cfg g p e g' qs)
    (hold : ∀ r ph', .run r ph' ∈ qs → .holding id ∈ (Proc.run r ph').calls →
      ∃ ph, p = .run r ph ∧ .holding id ∈ (Proc.run r ph).calls)
    (hi : Serial rs id h ⟨g, p ::ₘ ps⟩ runs) :
    Serial rs id ((⟨g, p ::ₘ ps⟩, .act p e) :: h) ⟨g', qs + ps⟩ runs := by
  have hself := Multiset.mem_cons_self p ps
  have hrun : ∀ r ∈ runs, p.job = some r.id → ∃ ph, p = .run r ph := by
    intro r hr hjob
    cases p with
    | run r' ph =>
        obtain rfl := (followed (rs r.id) ht).same r (hi.got r hr).1 r' ph hself
          (Option.some.inj hjob)
        exact ⟨ph, rfl⟩
    | _ => cases hjob
  refine ⟨?_, hi.nodup, fun r hr => ?_, fun r hr ph hmem => ?_, fun r ph hmem hid => ?_⟩
  · rw [askedOf, hi.asked]
    by_cases hnil : (p.asks rs e).filter (fun req => req.container = id) = []
    · rw [hnil, List.append_nil]
      refine List.flatMap_congr fun r hr => ?_
      by_cases hjob : p.job = some r.id
      · obtain ⟨ph, rfl⟩ := hrun r hr hjob
        rw [hi.asks_eq hr] at hnil
        exact (asked_self.trans ((congrArg _ hnil).trans (List.append_nil _))).symm
      · exact (asked_of_ne hjob).symm
    · -- the run that asks has the container, so it is the last one
      obtain ⟨req, hmem⟩ := List.exists_mem_of_ne_nil _ hnil
      obtain ⟨hreq, hid⟩ := List.mem_filter.mp hmem
      obtain rfl := of_decide_eq_true hid
      cases p with
      | run r ph =>
          have hcalls := calls_of_asks hreq
          obtain ⟨before, rfl⟩ := List.getLast?_eq_some_iff.mp
            (hi.last r ph hself (hcalls ▸ Multiset.mem_singleton_self _))
          have hr : r ∈ before ++ [r] := List.mem_append_right _ (List.mem_singleton_self _)
          have hnodup := hi.nodup
          rw [List.map_append, List.nodup_append] at hnodup
          rw [hi.asks_eq hr, List.flatMap_append, List.flatMap_append, List.flatMap_singleton,
            List.flatMap_singleton, List.append_assoc]
          refine congrArg₂ _ (List.flatMap_congr fun b hb => ?_) asked_self.symm
          refine (asked_of_ne fun hjob => ?_).symm
          exact hnodup.2.2 b.id (List.mem_map_of_mem hb) r.id (List.mem_singleton_self _)
            (Option.some.inj hjob).symm
      | _ => cases hreq
  · refine ⟨started_act.mpr (hi.got r hr).1, ?_⟩
    by_cases hjob : p.job = some r.id
    · obtain ⟨ph, rfl⟩ := hrun r hr hjob
      rw [heard_self, acquire_hear (hi.settled r hr ph hself).1]
      exact (hi.got r hr).2
    · rw [heard_of_ne hjob]
      exact (hi.got r hr).2
  · rcases Multiset.mem_add.mp hmem with hmem | hmem
    · obtain ⟨ph₀, rfl⟩ := hs.run_of_mem hmem
      obtain ⟨hacq, hids⟩ := hi.settled r hr ph₀ hself
      refine ⟨Bool.eq_false_iff.mpr fun hacq' => ?_, fun id' hid => ?_⟩
      · rw [hs.acquires hmem hacq'] at hacq
        cases hacq
      · rcases hs.leases with ⟨id, rfl, -, -⟩ | hkeeps
        · cases hacq
        · exact hids id' (hkeeps _ hmem id' hid)
    · exact hi.settled r hr ph (Multiset.mem_cons_of_mem hmem)
  · rcases Multiset.mem_add.mp hmem with hmem | hmem
    · obtain ⟨ph₀, rfl, hid⟩ := hold r ph hmem hid
      exact hi.last r ph₀ hself hid
    · exact hi.last r ph (Multiset.mem_cons_of_mem hmem) hid

theorem Serial.call (ht : (processes cfg).system.Trace ok h ⟨g, ps⟩)
    (hc : Proc.Start cfg g p g') (hi : Serial rs id h ⟨g, ps⟩ runs) :
    Serial rs id ((⟨g, ps⟩, .call p) :: h) ⟨g', p ::ₘ ps⟩ runs := by
  have hgot : ∀ r ∈ runs, Started ((⟨g, ps⟩, .call p) :: h) r ∧
      (heard (rs r.id) r.id h).acquire = .ok id :=
    fun r hr => (hi.got r hr).imp_left fun hold => started_call.mpr (.inr hold)
  refine ⟨hi.asked, hi.nodup, hgot, fun r hr ph hmem => ?_, fun r ph hmem hid => ?_⟩
  · rcases Multiset.mem_cons.mp hmem with rfl | hmem
    · cases hc with
      | run _ hnew =>
          have hlt : r.id < g.runs := (followed (rs r.id) ht).born r (hi.got r hr).1
          exact absurd hnew hlt.ne
    · exact hi.settled r hr ph hmem
  · rcases Multiset.mem_cons.mp hmem with rfl | hmem
    · cases hc with
      | run => cases Multiset.mem_singleton.mp hid
    · exact hi.last r ph hmem hid

theorem serial (rs : JobId → Pipeline.Replies) (id : String)
    (ht : (processes cfg).system.Trace ok h s) : ∃ runs, Serial rs id h s runs := by
  refine Program.trace_invariant (I := fun h s => ∃ runs, Serial rs id h s runs)
    (fun s hs => ?_) (fun h g p g' ps ht hi _ hc => ?_) (fun h g p e g' qs ps ht hi _ hs => ?_) ht
  · obtain ⟨-, -, rfl⟩ := hs
    refine ⟨[], rfl, List.nodup_nil, nofun, nofun, fun r ph hmem => ?_⟩
    simp [start] at hmem
  · obtain ⟨runs, hi⟩ := hi
    exact ⟨runs, hi.call ht hc⟩
  · obtain ⟨runs, hi⟩ := hi
    by_cases hold : ∀ r ph', .run r ph' ∈ qs → .holding id ∈ (Proc.run r ph').calls →
        ∃ ph, p = .run r ph ∧ .holding id ∈ (Proc.run r ph).calls
    · exact ⟨runs, hi.keep ht hs hold⟩
    · push Not at hold
      obtain ⟨r, ph', hmem, hid, hnone⟩ := hold
      obtain ⟨ph, rfl⟩ := hs.run_of_mem hmem
      rcases hs.leases with ⟨id', rfl, rfl, rfl⟩ | hkeeps
      · cases Multiset.mem_singleton.mp hmem
        cases Multiset.mem_singleton.mp hid
        exact ⟨_, hi.lease ht⟩
      · exact absurd (hkeeps _ hmem id hid) (hnone ph rfl)

/-- What a run of the pipeline asks for by itself, under the replies that it has heard. -/
def alone (rs : JobId → Pipeline.Replies) (h : Program.History World Proc Event) (r : Run) :
    List Request :=
  (Pipeline.run (heard (rs r.id) r.id h) r.job).requests

/-- The run has the container now. -/
def Has (s : Soup World Proc) (r : Run) (id : String) : Prop :=
  ∃ ph, .run r ph ∈ s.procs ∧ .holding id ∈ (Proc.run r ph).calls

/-- A run that has got a container and has it no longer has asked for all. -/
theorem Serial.complete (ht : (processes cfg).system.Trace ok h s)
    (hi : Serial rs id h s runs) (hr : r ∈ runs) (hhas : ¬ Has s r id) :
    Env.asked (rs r.id).workDir r.id h = alone rs h r := by
  have hf := followed (rs r.id) ht
  by_cases hgone : ∀ ph, .run r ph ∉ s.procs
  · exact hf.ended r (hi.got r hr).1 hgone
  · push Not at hgone
    obtain ⟨ph, hmem⟩ := hgone
    obtain ⟨hacq, hids⟩ := hi.settled r hr ph hmem
    have hnone : ∀ id', .holding id' ∉ (Proc.run r ph).calls := fun id' hid =>
      hhas ⟨ph, hmem, hids id' hid ▸ hid⟩
    have hsofar := hf.sofar r ph hmem
    cases ph with
    | inPool c =>
        have hacq : c.acquires = false := hacq
        exact hsofar.trans (by rw [hacq]; rfl)
    | _ => exact absurd (Multiset.mem_singleton_self _) (hnone _)

/-- In any history of an `Env` the requests to a container are those of the runs that had it, one
complete run of the pipeline after the other, and then the beginning of one more, if a run has the
container. -/
theorem serializable (rs : JobId → Pipeline.Replies) (id : String)
    (ht : (processes cfg).system.Trace System.Any h s) :
    ∃ (done : List Run) (rest : List Request), askedOf rs id h = done.flatMap (alone rs h) ++ rest ∧
      (done.map Run.id).Nodup ∧
      (∀ r ∈ done, Started h r ∧ (heard (rs r.id) r.id h).acquire = .ok id) ∧
      (rest = [] ∨ ∃ r, Has s r id ∧ r.id ∉ done.map Run.id ∧ rest <+: alone rs h r) := by
  obtain ⟨runs, hi⟩ := serial rs id ht
  by_cases hhas : ∃ r, Has s r id
  · obtain ⟨r, ph, hmem, hid⟩ := hhas
    obtain ⟨done, rfl⟩ := List.getLast?_eq_some_iff.mp (hi.last r ph hmem hid)
    have hnodup := hi.nodup
    rw [List.map_append, List.nodup_append] at hnodup
    have hnew : r.id ∉ done.map Run.id := fun hr =>
      hnodup.2.2 r.id hr r.id (List.mem_singleton_self _) rfl
    refine ⟨done, Env.asked (rs r.id).workDir r.id h, ?_, hnodup.1,
      fun b hb => hi.got b (List.mem_append_left _ hb), .inr ⟨r, ⟨ph, hmem, hid⟩, hnew, ?_⟩⟩
    · rw [hi.asked, List.flatMap_append, List.flatMap_singleton]
      refine congrArg (· ++ _) (List.flatMap_congr fun b hb => ?_)
      refine hi.complete ht (List.mem_append_left _ hb) fun ⟨ph', hmem', hid'⟩ => hnew ?_
      have hlast := (hi.last b ph' hmem' hid').symm.trans (hi.last r ph hmem hid)
      exact List.mem_map.mpr ⟨b, hb, congrArg Run.id (Option.some.inj hlast)⟩
    · exact ((followed (rs r.id) ht).sofar r ph hmem).prefix_run
  · push Not at hhas
    refine ⟨runs, [], ?_, hi.nodup, hi.got, .inl rfl⟩
    rw [hi.asked, List.append_nil]
    exact List.flatMap_congr fun r hr => hi.complete ht hr (hhas r)

end

/-- A job fails to compile, and the next one compiles in the same container. -/
theorem serializable_two : ∃ (rs : JobId → Pipeline.Replies)
    (h : Program.History World Proc Event) (s : Soup World Proc) (r : Run), Has s r "a" ∧
      r.id = 1 ∧ ∃ (done : List Run) (rest : List Request),
        askedOf rs "a" h = done.flatMap (alone rs h) ++ rest ∧ (done.map Run.id).Nodup ∧
        (∀ r ∈ done, Started h r ∧ (heard (rs r.id) r.id h).acquire = .ok "a") ∧
        (rest = [] ∨ ∃ r, Has s r "a" ∧ r.id ∉ done.map Run.id ∧ rest <+: alone rs h r) := by
  let cfg := Config.sized 1 0
  let r (id : JobId) : Run := ⟨id, ⟨.rust, [("Cargo.toml", "")], 60000000000⟩, some cfg.grace⟩
  let rs (id : JobId) : Pipeline.Replies :=
    ⟨.ok "a", 0, toString id, ⟨.ok ⟨"", "", 0⟩, .ok (), .ok ⟨"", "", 0⟩, 0⟩,
      ⟨.ok ⟨"", "", 0⟩, .ok (), .ok ⟨"", "", 0⟩, 0⟩⟩
  obtain ⟨h, s, ht, -, hmem⟩ := exists_trace cfg (by decide) (fun _ _ => true)
    (Script.newEnv ++ (Pool.Script.acquireGrow cfg.pool "a").map (Script.inRun (r 0)) ++
      Script.compile (r 0) "a" ++ Script.compileFails (r 0) "a" ++ Script.unwind (r 0) "a" ++
      (Pool.Script.releaseSend "a").map (Script.inRun (r 0)) ++
      Pool.Script.acquireParked.map (Script.inRun (r 1)) ++
      [.act (.run (r 1) (.inPool (.acquireReturn (.ok "a")))) (.pool .ret)] ++
      Script.compile (r 1) "a")
    (fun s => .run (r 1) (.wait "a" .compile) ∈ s.procs)
    (by decide +kernel)
  exact ⟨rs, h, s, r 1, ⟨_, hmem, Multiset.mem_singleton_self _⟩, rfl,
    serializable rs "a" (ht.mono fun _ _ _ => trivial)⟩

end Aicv.Env
