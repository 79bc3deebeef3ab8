import Aicv.Pool.Ledger

/-!
# Teardown

Once the pool is closed and every call has returned, each container the runtime
ever created has been passed to `Remove` (`no_forgotten`).  A call of `Close` that
has returned leaves a closed pool (`closed_of_closeReturns`).

The proof follows an id from `Create` on.  At any time it has been passed to
`Remove`, or it is registered, or a call in flight is going to register or
remove it (`Call.pending`).  `Close` moves the registry into its own loop.  A
container registered after that is held by the `Acquire` that created it, and
its `Release` discards it: a registered container of a closed pool is neither
parked nor about to be parked (`Stray`).

`New` has the pool to itself until it returns (`Phase`), so a pre-warm that
fails leaves a closed pool.
-/

namespace Aicv.Pool

open Transition

/-! ## Calls of `New` -/

/-- `grow` was called by `New`. -/
def Grower.ofNew : Grower → Bool
  | .new _ => true
  | .acquire _ => false

/-- `Close` was called by `New`. -/
def Closer.ofNew : Closer → Bool
  | .new _ => true
  | .user => false

/-- The call is `New`, or runs inside `New`. -/
def Call.ofNew : Call → Bool
  | .prewarm _ | .prewarmSend _ _ => true
  | .grow w | .growCreate w | .growStart w _ | .growUnstart w _ _ | .growRegister w _
  | .growGiveBack w _ => w.ofNew
  | .close w | .closeDone w _ | .closeRemove w _ _ => w.ofNew
  | _ => false

/-- `Close`, after its critical section on an open pool. -/
def Call.afterClose : Call → Bool
  | .closeDone _ _ | .closeRemove _ _ _ => true
  | _ => false

/-- Until `New` returns the pool, there is one call, or `New` has failed and
closed the pool.  Afterwards no call belongs to `New`. -/
def Phase (s : Soup World Call) : Prop :=
  if s.shared.published = true then ∀ c ∈ s.procs, c.ofNew = false
  else s.procs = 0 ∧ s.shared.pool.closed = true ∨
    ∃ c, s.procs = {c} ∧ c.ofNew = true ∧ s.shared.pool.closed = c.afterClose

section
variable {cfg : Config} {ok : Soup World Call → Label Call Event → Prop}
  {g g' : World} {c : Call} {e : Event} {cs ps : Multiset Call}

theorem ofNew_grown (w : Grower) (id : String) : (w.grown id).ofNew = w.ofNew := by
  cases w <;> rfl

theorem ofNew_refused (w : Grower) (e : Error) : (w.refused e).ofNew = w.ofNew := by
  cases w <;> cases e <;> rfl

theorem afterClose_grown (w : Grower) (id : String) : (w.grown id).afterClose = false := by
  cases w <;> rfl

theorem afterClose_refused (w : Grower) (e : Error) : (w.refused e).afterClose = false := by
  cases w <;> cases e <;> rfl

/-- What a call turns into belongs to `New` if the call does. -/
theorem Call.Step.ofNew (h : Call.Step cfg g c e g' cs) : ∀ c' ∈ cs, c'.ofNew = c.ofNew := by
  cases h with
  | growRefused | giveBack =>
      intro c' hc'
      rw [Multiset.mem_singleton.mp hc', ofNew_refused]
      rfl
  | register =>
      intro c' hc'
      rw [Multiset.mem_singleton.mp hc', ofNew_grown]
      rfl
  | cancel hc => cases hc <;> simp [Call.ofNew, Grower.ofNew]
  | _ => simp [Call.ofNew, Grower.ofNew]

/-- Only the end of `New` publishes the pool. -/
theorem Call.Step.published (h : Call.Step cfg g c e g' cs) (hc : c.ofNew = false) :
    g'.published = g.published := by
  cases h with
  | prewarmEnd => cases hc
  | _ => rfl

/-- A step of `New`, which has the pool to itself. -/
theorem Call.Step.phase (h : Call.Step cfg g c e g' cs) (hp : g.published = false)
    (hc : c.ofNew = true) (hcl : g.pool.closed = c.afterClose) : Phase ⟨g', cs⟩ := by
  have next : ∀ (g'' : World) (c' : Call), g''.published = false → c'.ofNew = true →
      g''.pool.closed = c'.afterClose → Phase ⟨g'', {c'}⟩ := by
    intro g'' c' hpub hnew hclosed
    simp only [Phase, hpub, Bool.false_eq_true, if_false]
    exact .inr ⟨c', rfl, hnew, hclosed⟩
  cases h with
  | prewarmEnd => simp [Phase]
  | growRefused | giveBack =>
      exact next _ _ hp ((ofNew_refused _ _).trans hc) (hcl.trans (afterClose_refused _ _).symm)
  | register =>
      exact next _ _ hp ((ofNew_grown _ _).trans hc) (hcl.trans (afterClose_grown _ _).symm)
  | growReserve hr =>
      obtain ⟨-, -, rfl⟩ := reserve_ok.mp hr
      exact next _ _ hp hc hcl
  | cancel hcc => cases hcc <;> cases hc
  | closeAgain hclosed =>
      rw [hclosed] at hcl
      cases hcl
  | closeRet =>
      simp only [Phase, hp, Bool.false_eq_true, if_false]
      exact .inl ⟨trivial, hcl⟩
  | prewarmMore | prewarmSend => exact next _ _ hp rfl hcl
  | createOk | createErr | startOk | startErr | unstart => exact next _ _ hp hc hcl
  | close => exact next _ _ hp hc rfl
  | closeDone | closeRemove => exact next _ _ hp hc hcl
  | _ => cases hc

theorem phase {s : Soup World Call} (h : (calls cfg).system.Reach ok s) : Phase s := by
  refine Program.invariant (fun s hs => ?_) (fun g p g' ps _ hi _ hc => ?_)
    (fun g p e g' qs ps _ hi _ hs => ?_) h
  · obtain ⟨-, -, rfl⟩ := init_iff.mp hs
    exact .inr ⟨_, rfl, rfl, rfl⟩
  · obtain ⟨hp, rfl, hnew⟩ : g.published = true ∧ g' = g ∧ p.ofNew = false := by
      cases hc <;> exact ⟨‹_›, rfl, rfl⟩
    simp only [Phase, hp, if_true] at hi ⊢
    simpa [hnew] using hi
  · cases hp : g.published with
    | true =>
        simp only [Phase, hp, if_true] at hi
        have hnew := hi p (Multiset.mem_cons_self _ _)
        simp only [Phase, hs.published hnew, hp, if_true]
        intro c hc
        rcases Multiset.mem_add.mp hc with hc | hc
        · rw [hs.ofNew c hc, hnew]
        · exact hi c (Multiset.mem_cons_of_mem hc)
    | false =>
        simp only [Phase, hp, Bool.false_eq_true, if_false] at hi
        rcases hi with ⟨hnil, -⟩ | ⟨c, hone, hnew, hcl⟩
        · exact absurd hnil (Multiset.cons_ne_zero)
        · obtain ⟨rfl, rfl⟩ : p = c ∧ ps = 0 := by
            have : p ::ₘ ps = c ::ₘ 0 := hone
            rcases Multiset.cons_eq_cons.mp this with ⟨h1, h2⟩ | ⟨-, t, -, ht⟩
            · exact ⟨h1, h2⟩
            · exact absurd ht.symm (Multiset.cons_ne_zero)
          rw [add_zero]
          exact hs.phase hp hnew hcl

/-! ## The way of an id to `Remove` -/

/-- The ids a call is going to register or to remove. -/
def Call.pending : Call → Finset String
  | .growStart _ id | .growUnstart _ id _ | .growRegister _ id => {id}
  | .discardRemove _ id => {id}
  | .closeDone _ todo | .closeRemove _ todo _ => todo
  | _ => ∅

/-- The id has been passed to `Remove`, or is registered, or a call is going to
register or remove it. -/
def Accounted (s : Soup World Call) (id : String) : Prop :=
  id ∈ s.shared.backend.passed ∨ id ∈ s.shared.pool.all ∨ ∃ c ∈ s.procs, id ∈ c.pending

theorem accounted_cons {id : String} :
    Accounted ⟨g, c ::ₘ ps⟩ id ↔ Accounted ⟨g, {c}⟩ id ∨ ∃ c ∈ ps, id ∈ c.pending := by
  simp [Accounted, or_assoc]

theorem accounted_add {id : String} :
    Accounted ⟨g, cs + ps⟩ id ↔ Accounted ⟨g, cs⟩ id ∨ ∃ c ∈ ps, id ∈ c.pending := by
  simp only [Accounted, Multiset.mem_add, or_and_right, exists_or, or_assoc]

/-- A step accounts for the ids that were accounted for, and for the one
`Create` returns. -/
theorem Call.Step.accounted (h : Call.Step cfg g c e g' cs) {id : String}
    (hid : Accounted ⟨g, {c}⟩ id ∨ id ∈ g'.backend.issued ∧ id ∉ g.backend.issued) :
    Accounted ⟨g', cs⟩ id := by
  simp only [Accounted, Multiset.mem_singleton, exists_eq_left] at hid ⊢
  cases h with
  | @createOk w id' =>
      rcases hid with (hid | hid | hid) | ⟨hid, hold⟩
      · exact .inl hid
      · exact .inr (.inl hid)
      · cases Finset.notMem_empty id hid
      · have hid : id = id' := by simpa [hold] using hid
        exact .inr (.inr ⟨_, Multiset.mem_singleton_self _, Finset.mem_singleton.mpr hid⟩)
  | startOk | startErr | closeDone => simpa [Call.pending] using hid
  | unstart | register | discard | discardRemove | close | closeRemove =>
      simp [Call.pending] at hid ⊢
      tauto
  | growReserve hr =>
      obtain ⟨-, -, rfl⟩ := reserve_ok.mp hr
      simp [Call.pending] at hid ⊢
      tauto
  | cancel hc => cases hc <;> simpa [Call.pending] using hid
  | _ =>
      rcases hid with (hid | hid | hid) | ⟨hid, hold⟩
      · exact .inl hid
      · exact .inr (.inl hid)
      · cases Finset.notMem_empty id hid
      · exact absurd hid hold

theorem accounted {s : Soup World Call} (h : (calls cfg).system.Reach ok s) :
    ∀ id ∈ s.shared.backend.issued, Accounted s id := by
  refine Program.invariant (I := fun s => ∀ id ∈ s.shared.backend.issued, Accounted s id)
    (fun s hs => ?_) (fun g p g' ps _ hi _ hc id hid => ?_)
    (fun g p e g' qs ps _ hi _ hs id hid => ?_) h
  · obtain ⟨-, -, rfl⟩ := init_iff.mp hs
    intro id hid
    cases Finset.notMem_empty id hid
  · rw [hc.owned.1] at hid ⊢
    rcases hi id hid with hp | ha | ⟨c, hc, hpd⟩
    · exact .inl hp
    · exact .inr (.inl ha)
    · exact .inr (.inr ⟨c, Multiset.mem_cons_of_mem hc, hpd⟩)
  · rw [accounted_add]
    by_cases hold : id ∈ g.backend.issued
    · rcases accounted_cons.mp (hi id hold) with hacc | hrest
      · exact .inl (hs.accounted (.inl hacc))
      · exact .inr hrest
    · exact .inl (hs.accounted (.inr ⟨hid, hold⟩))

/-! ## A closed pool parks no registered container -/

/-- The container a call is about to send on `idle`. -/
def Call.parks : Call → Multiset String
  | .prewarmSend _ id | .releaseSend id => {id}
  | _ => 0

theorem parks_le_owned (c : Call) : c.parks ≤ c.owned := by
  fun_cases Call.parks c with
  | case3 => exact Multiset.zero_le _
  | _ => simp [Call.owned, Call.held]

theorem parks_refused (w : Grower) (e : Error) : (w.refused e).parks = 0 := by
  cases w <;> cases e <;> rfl

theorem parks_grown {w : Grower} (hw : w.ofNew = false) (id : String) : (w.grown id).parks = 0 := by
  cases w with
  | new => cases hw
  | acquire => rfl

/-- On a closed pool, what is parked or about to be parked was so before. -/
theorem Call.Step.parks (h : Call.Step cfg g c e g' cs) (hcl : g.pool.closed = true)
    (hnew : c.ofNew = true → c.afterClose = true) (id : String)
    (hid : id ∈ g'.pool.idle ∨ id ∈ cs.bind Call.parks) : id ∈ g.pool.idle ∨ id ∈ c.parks := by
  cases h with
  | growRefused | giveBack => exact .inl (by simpa [parks_refused] using hid)
  | @register w =>
      have hw : w.ofNew = false := by
        cases hw : w.ofNew with
        | false => rfl
        | true => cases hnew hw
      exact .inl (by simpa [parks_grown hw] using hid)
  | growReserve hr =>
      obtain ⟨-, -, rfl⟩ := reserve_ok.mp hr
      exact .inl (by simpa [Call.parks] using hid)
  | prewarmSend | releaseSend => simpa [Call.parks] using hid
  | fastRecv | waitRecv => exact .inl (List.mem_of_mem_tail (by simpa [Call.parks] using hid))
  | releaseKeep _ hkeep => simp [hcl] at hkeep
  | cancel hc => cases hc <;> exact .inl (by simpa [Call.parks] using hid)
  | _ => exact .inl (by simpa [Call.parks] using hid)

/-- Only the critical section of `Close` closes the pool. -/
theorem Call.Step.closes (h : Call.Step cfg g c e g' cs) (hopen : g.pool.closed = false)
    (hcl : g'.pool.closed = true) :
    ∃ w, c = .close w ∧ e = .lock ∧ g' = g.withPool g.pool.close ∧
      cs = {.closeDone w g.pool.all} := by
  cases h with
  | close => exact ⟨_, rfl, rfl, rfl, rfl⟩
  | growReserve hr =>
      obtain ⟨-, -, rfl⟩ := reserve_ok.mp hr
      exact absurd hcl (by simp [hopen])
  | _ => exact absurd hcl (by simp [hopen])

/-- A registered container of a closed pool is neither parked nor about to be. -/
def Stray (s : Soup World Call) : Prop :=
  s.shared.pool.closed = true → ∀ id ∈ s.shared.pool.all,
    id ∉ s.shared.pool.idle ∧ id ∉ s.procs.bind Call.parks

theorem Phase.afterClose {s : Soup World Call} (h : Phase s) (hcl : s.shared.pool.closed = true)
    (hc : c ∈ s.procs) (hnew : c.ofNew = true) : c.afterClose = true := by
  unfold Phase at h
  split at h
  next => simp [h c hc] at hnew
  next =>
    rcases h with ⟨hnil, -⟩ | ⟨c', hone, -, hclosed⟩
    · simp [hnil] at hc
    · obtain rfl : c = c' := by simpa [hone] using hc
      rw [← hclosed, hcl]

theorem stray {s : Soup World Call} (h : (calls cfg).system.Reach ok s) : Stray s := by
  refine Program.invariant (fun s hs hcl => ?_) (fun g p g' ps _ hi _ hc hcl => ?_)
    (fun g p e g' qs ps hr hi _ hs hcl id hid => ?_) h
  · obtain ⟨-, -, rfl⟩ := init_iff.mp hs
    cases hcl
  · obtain ⟨rfl, -, -⟩ := hc.owned
    have hp : p.parks = 0 := by cases hc <;> rfl
    simpa [hp] using hi hcl
  · cases hopen : g.pool.closed with
    | false =>
        obtain ⟨w, -, -, rfl, -⟩ := hs.closes hopen hcl
        cases Finset.notMem_empty id hid
    | true =>
        -- the id was not parked before the step: it was registered, or is minted by it
        have hold : id ∉ g.pool.idle ∧ id ∉ p.parks ∧ id ∉ ps.bind Call.parks := by
          rcases hs.mem_registry hid with hall | ⟨w, rfl, -⟩
          · simpa using hi hopen id hall
          · obtain ⟨hidle, hothers⟩ := Tokens.not_mem_of_mem (owned hr).nodup (t := id)
              (by simp [Call.owned, Call.held, Call.creating])
            refine ⟨hidle, by simp [Call.parks], fun hmem => ?_⟩
            obtain ⟨q, hq, hpark⟩ := Multiset.mem_bind.mp hmem
            exact hothers q hq (Multiset.mem_of_le (parks_le_owned q) hpark)
        have hnow := mt (hs.parks hopen
          ((phase hr).afterClose hopen (Multiset.mem_cons_self _ _)) id)
          (not_or.mpr ⟨hold.1, hold.2.1⟩)
        rw [not_or] at hnow
        simpa [hnow.1, hnow.2] using hold.2.2

/-! ## `Close` returns on a closed pool -/

/-- A call is past the critical section of `Close` because it was so before, or because it
has just closed the pool. -/
theorem Call.Step.afterClose (h : Call.Step cfg g c e g' cs) {c' : Call} (hc' : c' ∈ cs)
    (hafter : c'.afterClose = true) : c.afterClose = true ∨ g'.pool.closed = true := by
  cases h with
  | growRefused | giveBack =>
      rw [Multiset.mem_singleton.mp hc', afterClose_refused] at hafter
      cases hafter
  | register =>
      rw [Multiset.mem_singleton.mp hc', afterClose_grown] at hafter
      cases hafter
  | close => exact .inr rfl
  | closeDone | closeRemove => exact .inl rfl
  | cancel hc =>
      cases Multiset.mem_singleton.mp hc'
      cases hc <;> cases hafter
  | prewarmEnd | returnErr | releaseDead | releaseSend | removeByIDGone | discardRemove
  | closeAgain | closeRet => cases Multiset.notMem_zero _ hc'
  | _ =>
      cases Multiset.mem_singleton.mp hc'
      cases hafter

/-- Past its critical section `Close` has closed the pool. -/
theorem closed_of_afterClose {s : Soup World Call} (h : (calls cfg).system.Reach ok s) :
    ∀ c ∈ s.procs, c.afterClose = true → s.shared.pool.closed = true := by
  refine Program.invariant
    (I := fun s => ∀ c ∈ s.procs, c.afterClose = true → s.shared.pool.closed = true)
    (fun s hs c hc hafter => ?_) (fun g p g' ps _ hi _ hc => ?_)
    (fun g p e g' qs ps _ hi _ hs c hc hafter => ?_) h
  · obtain ⟨-, -, rfl⟩ := init_iff.mp hs
    cases Multiset.mem_singleton.mp hc
    cases hafter
  · obtain ⟨rfl, -, -⟩ := hc.owned
    refine Multiset.forall_mem_cons.mpr ⟨fun hafter => ?_, hi⟩
    cases hc <;> cases hafter
  · obtain ⟨hp, hps⟩ := Multiset.forall_mem_cons.mp hi
    rcases Multiset.mem_add.mp hc with hc | hc
    · exact (hs.afterClose hc hafter).elim (fun hbefore => hs.closed (hp hbefore)) id
    · exact hs.closed (hps c hc hafter)

/-- A call of `Close` returns: the pool was closed before, or no container is left to remove. -/
def CloseReturns (s : Soup World Call) : Label Call Event → Prop
  | .act (.close _) .lock => s.shared.pool.closed = true
  | .act (.closeRemove _ _ _) .ret => True
  | _ => False

/-- Once a call of `Close` has returned the pool is closed, from then on. -/
theorem closed_of_closeReturns {h : Program.History World Call Event} {s : Soup World Call}
    (ht : (calls cfg).system.Trace ok h s) (hret : ∃ step ∈ h, CloseReturns step.1 step.2) :
    s.shared.pool.closed = true := by
  revert hret
  refine Program.trace_invariant
    (I := fun h s => (∃ step ∈ h, CloseReturns step.1 step.2) → s.shared.pool.closed = true)
    (fun s _ hret => ?_) (fun h g p g' ps _ hi _ hc hret => ?_)
    (fun h g p e g' qs ps ht hi _ hs hret => ?_) ht
  · obtain ⟨_, hmem, -⟩ := hret
    cases hmem
  · obtain ⟨rfl, -, -⟩ := hc.owned
    obtain ⟨step, hmem, hr⟩ := hret
    rcases List.mem_cons.mp hmem with rfl | hmem
    · cases hr
    · exact hi ⟨step, hmem, hr⟩
  · obtain ⟨step, hmem, hr⟩ := hret
    refine hs.closed ?_
    rcases List.mem_cons.mp hmem with rfl | hmem
    · cases hs with
      | closeAgain hclosed => exact hclosed
      | close => exact hr
      | closeRet => exact closed_of_afterClose ht.reach _ (Multiset.mem_cons_self _ _) rfl
      | cancel hc => cases hc <;> cases hr
      | _ => cases hr
    · exact hi ⟨step, hmem, hr⟩

/-! ## No container is forgotten -/

/-- Once every call has returned on a closed pool, or `New` has failed, every
id `Create` ever returned has been passed to `Remove`.  A caller that holds a
container counts as a call that has not returned. -/
theorem no_forgotten {s : Soup World Call} (h : (calls cfg).system.Reachable s)
    (hdone : s.procs = 0) (hclosed : s.shared.pool.closed = true ∨ s.shared.published = false) :
    s.shared.backend.issued ⊆ s.shared.backend.passed := by
  have hcl : s.shared.pool.closed = true := by
    rcases hclosed with hcl | hpub
    · exact hcl
    · simpa [Phase, hpub, hdone] using phase h
  intro id hid
  rcases accounted h id hid with hp | ha | ⟨c, hc, -⟩
  · exact hp
  · have hpl := mem_places h id ha
    simp only [places, hdone, Multiset.zero_bind, add_zero, Multiset.mem_coe] at hpl
    exact absurd hpl (stray h hcl id ha).1
  · simp [hdone] at hc

/-- `Close` meets a parked container, a held one and one in creation. -/
theorem no_forgotten_three : ∃ s : Soup World Call, s.shared.backend.issued = {"a", "b", "c"} ∧
    s.shared.backend.issued ⊆ s.shared.backend.passed := by
  let cfg := Config.sized 0 3 0
  obtain ⟨s, hs, hdone, hcl, hissued⟩ := exists_reachable cfg (by decide)
    (Script.new ++ Script.acquireGrow cfg "a" ++ Script.acquireGrow cfg "b" ++
      Script.acquireCreate cfg "c" ++ Script.releaseSend "a" ++
      [.call (.close .user), .act (.close .user) .lock,
        .act (.closeDone .user {"b", "a"}) .closeDone] ++
      Script.growEnd "c" ++ Script.release "b" ++
      [.act (.closeRemove .user {"b", "a"} none) (.remove "b" none),
        .act (.closeRemove .user {"a"} none) (.remove "a" (some "gone")),
        .act (.closeRemove .user ∅ (some "gone")) .ret] ++
      Script.release "c" ++ Script.discard .release "c")
    (fun s => s.procs = 0 ∧ s.shared.pool.closed = true ∧
      s.shared.backend.issued = {"a", "b", "c"})
    (by decide +kernel)
  exact ⟨s, hissued, no_forgotten hs hdone (.inl hcl)⟩

end

end Aicv.Pool
