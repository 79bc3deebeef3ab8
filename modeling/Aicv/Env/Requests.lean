import Aicv.Env.Deadlines
import Aicv.Pipeline.Run

/-!
# What a run asks of the runtime

`Pipeline.run` is one call of `Run` by itself: the requests that it makes, one after the other,
under given replies.  Among the processes of an `Env` a run is a process that takes one step at a
time, and each step makes at most one request (`Run.asks`) and hears at most one reply
(`Phase.hear`).

The two agree (`refines_run`).  In any history of an `Env` what a run has asked is the beginning of
what `Pipeline.run` asks under the replies that the run has heard, and all of it once the run has
returned.
-/

namespace Aicv.Pool

/-- A call of `Acquire` goes on, or returns. -/
theorem Call.Step.acquiring {cfg : Config} {g g' : World} {c : Call} {e : Event}
    {cs : Multiset Call} (h : Call.Step cfg g c e g' cs) (hacq : c.acquires = true) :
    (∃ c', cs = {c'} ∧ c'.acquires = true ∧ ∀ res, c ≠ .acquireReturn res) ∨
      (∃ id, c = .acquireReturn (.ok id) ∧ e = .ret ∧ cs = {.holding id}) ∨
      ∃ err, c = .acquireReturn (.error err) ∧ e = .ret ∧ cs = 0 := by
  cases h with
  | @growRefused w err | @giveBack w err =>
      cases w with
      | new => cases hacq
      | acquire => cases err <;> exact .inl ⟨_, rfl, rfl, fun _ => Call.noConfusion⟩
  | @growReserve w | @createOk w | @createErr w | @startOk w | @startErr w | @unstart w
  | @register w =>
      cases w with
      | new => cases hacq
      | acquire => exact .inl ⟨_, rfl, rfl, fun _ => Call.noConfusion⟩
  | acquireClosed | acquireOpen | fastRecv | fastDefault | waitRecv | waitDone | waitCtx =>
      exact .inl ⟨_, rfl, rfl, fun _ => Call.noConfusion⟩
  | returnOk => exact .inr (.inl ⟨_, rfl, rfl, rfl⟩)
  | returnErr => exact .inr (.inr ⟨_, rfl, rfl, rfl⟩)
  | cancel hc => cases hc <;> exact .inl ⟨_, rfl, rfl, fun _ => Call.noConfusion⟩
  | _ => cases hacq

end Aicv.Pool

namespace Aicv.Env

open Transition Pool Ttl Pipeline Sandbox

/-! ## Requests and replies -/

/-- The replies to the sandbox in a stage. -/
def atStage (rs : Pipeline.Replies) : Stage → Sandbox.Replies
  | .compile => rs.compile
  | .execute => rs.execute

/-- Other replies to the sandbox in a stage. -/
def update (f : Sandbox.Replies → Sandbox.Replies) (rs : Pipeline.Replies) :
    Stage → Pipeline.Replies
  | .compile => { rs with compile := f rs.compile }
  | .execute => { rs with execute := f rs.execute }

/-- A reply with another exit code. -/
def exitWith (code : ℤ) : Except String ExecOutput → Except String ExecOutput
  | .ok out => .ok { out with exitCode := code }
  | .error _ => .ok ⟨"", "", code⟩

/-- The replies to a run when it has heard the one of its step.  The steps leave out what a command
puts out, which stays as it is. -/
def Phase.hear (rs : Pipeline.Replies) : Phase → Event → Pipeline.Replies
  | .inPool (.acquireReturn res), .pool .ret => { rs with acquire := res }
  | .prepare _ st, .mkdir (.ok code) =>
      update (fun a => { a with mkdir := exitWith code a.mkdir }) rs st
  | .prepare _ st, .mkdir (.error text) => update (fun a => { a with mkdir := .error text }) rs st
  | .copyIn _ st, .copyIn _ none => update (fun a => { a with copyIn := .ok () }) rs st
  | .copyIn _ st, .copyIn _ (some text) =>
      update (fun a => { a with copyIn := .error text }) rs st
  | .exec _ st, .execErr text => update (fun a => { a with exec := .error text }) rs st
  | .wait _ st, .execErr text => update (fun a => { a with exec := .error text }) rs st
  | .wait _ st, .execRet code dur =>
      update (fun a => { a with exec := exitWith code a.exec, dur := dur }) rs st
  | _, _ => rs

/-- The request of a step, in this work directory. -/
def Run.asks (r : Run) (dir : String) : Phase → Event → List Request
  | .prepare id _, .mkdir _ => [.exec id ⟨["mkdir", "-p", dir], "", []⟩ none]
  | .copyIn id _, .copyIn files _ => if files = [] then [] else [.copyIn id dir files]
  | .exec id st, .exec cmd => [.exec id ⟨cmd, dir, []⟩ (execTimeout (r.job.limit st))]
  | .exec id st, .execErr _ =>
      [.exec id ⟨r.job.wrapped st, dir, []⟩ (execTimeout (r.job.limit st))]
  | .cleanup id, .cleanup => [.exec id ⟨["rm", "-rf", dir], "", []⟩ none]
  | _, _ => []

/-- What a run has asked for in a history, the first request first. -/
def asked (dir : String) (job : JobId) : Program.History World Proc Event → List Request
  | [] => []
  | (_, .act (.run r ph) e) :: h =>
      if r.id = job then asked dir job h ++ r.asks dir ph e else asked dir job h
  | _ :: h => asked dir job h

/-- The replies to a run when it has heard those of a history. -/
def heard (rs : Pipeline.Replies) (job : JobId) :
    Program.History World Proc Event → Pipeline.Replies
  | [] => rs
  | (_, .act (.run r ph) e) :: h =>
      if r.id = job then Phase.hear (heard rs job h) ph e else heard rs job h
  | _ :: h => heard rs job h

section
variable {rs : Pipeline.Replies} {r : Run} {id : String} {st : Stage} {ph : Phase} {e : Event}
  {l : List Request}

@[simp] theorem acquire_update (f : Sandbox.Replies → Sandbox.Replies) :
    (update f rs st).acquire = rs.acquire := by
  cases st <;> rfl

@[simp] theorem randID_update (f : Sandbox.Replies → Sandbox.Replies) :
    (update f rs st).randID = rs.randID := by
  cases st <;> rfl

@[simp] theorem workDir_update (f : Sandbox.Replies → Sandbox.Replies) :
    (update f rs st).workDir = rs.workDir := by
  rw [Replies.workDir, Replies.workDir, randID_update]

@[simp] theorem atStage_update (f : Sandbox.Replies → Sandbox.Replies) :
    atStage (update f rs st) st = f (atStage rs st) := by
  cases st <;> rfl

/-- A step does not change the work directory. -/
@[simp] theorem workDir_hear : (ph.hear rs e).workDir = rs.workDir := by
  fun_cases Phase.hear rs ph e
  all_goals first | rfl | exact workDir_update _

theorem workDir_heard (job : JobId) (h : Program.History World Proc Event) :
    (heard rs job h).workDir = rs.workDir := by
  fun_induction heard rs job h with
  | case1 => rfl
  | case2 _ r ph e h _ ih => rw [workDir_hear, ih]
  | case3 _ r ph e h _ ih => exact ih
  | case4 _ h _ ih => exact ih

/-! ## The stages of a run -/

/-- The sandbox in a stage. -/
def inStage (rs : Pipeline.Replies) (r : Run) (id : String) (st : Stage) :
    Session Sandbox.Error ExecResult :=
  Sandbox.run (atStage rs st) id (r.job.spec rs.workDir st)

/-- What `Run` has asked for before a stage.  It has come to the execute stage through a compile
stage without failure. -/
def Before (rs : Pipeline.Replies) (r : Run) (id : String) (l : List Request) : Stage → Prop
  | .compile => l = []
  | .execute => ∃ res, (inStage rs r id .compile).result = .ok res ∧
      (res.timedOut || decide (res.exitCode ≠ 0)) = false ∧
      l = (inStage rs r id .compile).requests

theorem stages_eq : stages rs id r.job = (do
    let compileRes ← (inStage rs r id .compile).mapError .compile
    let res := compileResult rs.assignment compileRes
    if compileRes.timedOut || compileRes.exitCode ≠ 0 then pure res
    else do
      let execRes ← (inStage rs r id .execute).mapError .execute
      pure (executeResult res compileRes execRes)) := rfl

/-- What `Run` asks for if it ends with this stage. -/
theorem stages_requests (hl : Before rs r id l st)
    (hends : ∀ res, (inStage rs r id st).result = .ok res → st = .compile →
      (res.timedOut || decide (res.exitCode ≠ 0)) = true) :
    (stages rs id r.job).requests = l ++ (inStage rs r id st).requests := by
  rw [stages_eq]
  cases st with
  | compile =>
      have hl : l = [] := hl
      rw [hl, List.nil_append]
      cases hres : (inStage rs r id .compile).result with
      | error err => exact (Session.bind_error (Session.result_mapError_error hres _) _).1
      | ok res =>
          rw [Session.requests_bind (Session.result_mapError_ok hres _),
            if_pos (hends res hres rfl)]
          exact List.append_nil _
  | execute =>
      obtain ⟨res, hres, hgoes, rfl⟩ := hl
      rw [Session.requests_bind (Session.result_mapError_ok hres _),
        if_neg (Bool.eq_false_iff.mp hgoes)]
      refine congrArg _ ?_
      cases hx : (inStage rs r id .execute).result with
      | error err => exact (Session.bind_error (Session.result_mapError_error hx _) _).1
      | ok res =>
          rw [Session.requests_bind (Session.result_mapError_ok hx _)]
          exact List.append_nil _

/-! ## Where a run is -/

/-- The work directory of a stage has been made, after what was asked before. -/
def Prepared (rs : Pipeline.Replies) (r : Run) (id : String) (l : List Request) (st : Stage) :
    Prop :=
  (prepare (atStage rs st) id (r.job.spec rs.workDir st)).result = .ok () ∧
    ∃ l', Before rs r id l' st ∧
      l = l' ++ (prepare (atStage rs st) id (r.job.spec rs.workDir st)).requests

/-- The files of a stage have been copied. -/
def Staged (rs : Pipeline.Replies) (r : Run) (id : String) (l : List Request) (st : Stage) :
    Prop :=
  (stage (atStage rs st) id (r.job.spec rs.workDir st)).result = .ok () ∧
    ∃ l', Prepared rs r id l' st ∧
      l = l' ++ (stage (atStage rs st) id (r.job.spec rs.workDir st)).requests

/-- What a run has asked for when it is at a point. -/
def Sofar (rs : Pipeline.Replies) (r : Run) (l : List Request) : Phase → Prop
  | .inPool c => l = if c.acquires then [] else (Pipeline.run rs r.job).requests
  | .track id => rs.acquire = .ok id ∧ l = []
  | .prepare id st => rs.acquire = .ok id ∧ Before rs r id l st
  | .copyIn id st => rs.acquire = .ok id ∧ Prepared rs r id l st
  | .exec id st => rs.acquire = .ok id ∧ Staged rs r id l st
  | .wait id st => rs.acquire = .ok id ∧
      ∃ l', Staged rs r id l' st ∧ l = l' ++ [execRequest id (r.job.spec rs.workDir st)]
  | .cleanup id => rs.acquire = .ok id ∧ l = (stages rs id r.job).requests
  | .untrack _ => l = (Pipeline.run rs r.job).requests

theorem run_requests (h : rs.acquire = .ok id) : (Pipeline.run rs r.job).requests =
    (stages rs id r.job).requests ++ [.exec id ⟨["rm", "-rf", rs.workDir], "", []⟩ none] := by
  rw [Pipeline.run, h]
  rfl

theorem spec_workDir_ne (rs : Pipeline.Replies) (r : Run) (st : Stage) :
    (r.job.spec rs.workDir st).workDir ≠ "" := workDir_ne rs

/-! ## The parts of a stage -/

theorem exists_exitWith (code : ℤ) (old : Except String ExecOutput) :
    ∃ out, exitWith code old = .ok out ∧ out.exitCode = code := by
  cases old with
  | ok out => exact ⟨_, rfl, rfl⟩
  | error => exact ⟨_, rfl, rfl⟩

section
variable {a b : Sandbox.Replies} {spec : ExecSpec}

theorem prepare_congr (h : a.mkdir = b.mkdir) : prepare a id spec = prepare b id spec := by
  rw [prepare, prepare, h]

theorem stage_congr (h : a.copyIn = b.copyIn) : stage a id spec = stage b id spec := by
  rw [stage, stage, h]

/-- `prepare` makes its one request and goes on if that exits with code zero. -/
theorem prepare_cases (a : Sandbox.Replies) (id : String) (hdir : spec.workDir ≠ "") :
    (prepare a id spec).requests = [.exec id ⟨["mkdir", "-p", spec.workDir], "", []⟩ none] ∧
      ((∃ out, a.mkdir = .ok out ∧ out.exitCode = 0) → (prepare a id spec).result = .ok ()) ∧
      ((∀ out, a.mkdir = .ok out → out.exitCode ≠ 0) →
        ∃ err, (prepare a id spec).result = .error err) := by
  rw [prepare, if_neg hdir]
  cases hmkdir : a.mkdir with
  | error text =>
      refine ⟨rfl, ?_, fun _ => ⟨_, rfl⟩⟩
      rintro ⟨out, hout, -⟩
      cases hout
  | ok out =>
      rw [Session.requests_bind rfl, Session.result_bind rfl]
      by_cases hzero : out.exitCode = 0
      · rw [if_neg (not_not_intro hzero)]
        exact ⟨rfl, fun _ => rfl, fun hno => absurd hzero (hno out rfl)⟩
      · rw [if_pos hzero]
        refine ⟨rfl, ?_, fun _ => ⟨_, rfl⟩⟩
        rintro ⟨out', hout, hzero'⟩
        cases hout
        exact absurd hzero' hzero

/-- `stage` copies the files, if there are any. -/
theorem stage_cases (a : Sandbox.Replies) (id : String) (hdir : spec.workDir ≠ "") :
    (stage a id spec).requests =
        (if spec.files = [] then [] else [.copyIn id spec.workDir spec.files]) ∧
      (a.copyIn = .ok () ∨ spec.files = [] → (stage a id spec).result = .ok ()) ∧
      ∀ text, spec.files ≠ [] → a.copyIn = .error text →
        (stage a id spec).result = .error (.stage text) := by
  rw [stage]
  by_cases hfiles : spec.files = []
  · rw [if_pos hfiles, if_pos hfiles]
    exact ⟨rfl, fun _ => rfl, fun _ hne => absurd hfiles hne⟩
  · rw [if_neg hfiles, if_neg hfiles, if_neg hdir]
    refine ⟨rfl, fun hok => ?_, fun text _ herr => ?_⟩
    · rw [hok.resolve_right hfiles]
      rfl
    · rw [herr]
      rfl

end

/-! ## Replies of a later step -/

section
variable {f : Sandbox.Replies → Sandbox.Replies}

theorem Before.update (h : Before rs r id l st) : Before (update f rs st) r id l st := by
  cases st <;> exact h

theorem Prepared.update (hf : (f (atStage rs st)).mkdir = (atStage rs st).mkdir)
    (h : Prepared rs r id l st) : Prepared (update f rs st) r id l st := by
  obtain ⟨hres, l', hl', rfl⟩ := h
  rw [Prepared, atStage_update, prepare_congr hf, workDir_update]
  exact ⟨hres, l', hl'.update, rfl⟩

theorem Staged.update (hf : (f (atStage rs st)).mkdir = (atStage rs st).mkdir)
    (hf' : (f (atStage rs st)).copyIn = (atStage rs st).copyIn)
    (h : Staged rs r id l st) : Staged (update f rs st) r id l st := by
  obtain ⟨hres, l', hl', rfl⟩ := h
  rw [Staged, atStage_update, stage_congr hf', workDir_update]
  exact ⟨hres, l', hl'.update hf, rfl⟩

end

/-! ## One step of a run -/

/-- Between the steps of a stage. -/
theorem Before.prepared (h : Before rs r id l st) {out : ExecOutput}
    (hout : (atStage rs st).mkdir = .ok out) (hzero : out.exitCode = 0) :
    Prepared rs r id (l ++ [.exec id ⟨["mkdir", "-p", rs.workDir], "", []⟩ none]) st := by
  obtain ⟨hreqs, hok, -⟩ := prepare_cases (atStage rs st) id
    (spec_workDir_ne rs r st)
  exact ⟨hok ⟨out, hout, hzero⟩, l, h, by rw [hreqs]; rfl⟩

theorem Before.unprepared (h : Before rs r id l st)
    (hfail : ∀ out, (atStage rs st).mkdir = .ok out → out.exitCode ≠ 0) :
    (stages rs id r.job).requests =
      l ++ [.exec id ⟨["mkdir", "-p", rs.workDir], "", []⟩ none] := by
  obtain ⟨hreqs, -, herr⟩ := prepare_cases (atStage rs st) id
    (spec_workDir_ne rs r st)
  obtain ⟨err, herr⟩ := herr hfail
  obtain ⟨hrun, hres⟩ := run_of_prepare_error herr
  have hrun : (inStage rs r id st).requests = _ := hrun
  rw [stages_requests h, hrun, hreqs]
  · rfl
  · intro res hok
    have hres : (inStage rs r id st).result = _ := hres
    rw [hres] at hok
    cases hok

/-- The request for the files of a stage. -/
def copies (r : Run) (id dir : String) (st : Stage) : List Request :=
  if r.job.staged st = [] then [] else [.copyIn id dir (r.job.staged st)]

theorem Prepared.staged (h : Prepared rs r id l st) (hcopy : (atStage rs st).copyIn = .ok ()) :
    Staged rs r id (l ++ copies r id rs.workDir st) st := by
  obtain ⟨hreqs, hok, -⟩ := stage_cases (atStage rs st) id
    (spec_workDir_ne rs r st)
  exact ⟨hok (.inl hcopy), l, h, by rw [hreqs]; rfl⟩

theorem Prepared.unstaged (h : Prepared rs r id l st) {text : String}
    (hfiles : r.job.staged st ≠ []) (hcopy : (atStage rs st).copyIn = .error text) :
    (stages rs id r.job).requests = l ++ copies r id rs.workDir st := by
  obtain ⟨hreqs, -, herr⟩ := stage_cases (atStage rs st) id
    (spec_workDir_ne rs r st)
  obtain ⟨hprep, l', hl', rfl⟩ := h
  obtain ⟨hrun, hres⟩ := run_of_stage_error hprep (herr text hfiles hcopy)
  have hrun : (inStage rs r id st).requests = _ := hrun
  rw [stages_requests hl', hrun, hreqs, ← List.append_assoc]
  · rfl
  · intro res hok
    have hres : (inStage rs r id st).result = _ := hres
    rw [hres] at hok
    cases hok

/-- The sandbox in a stage whose files are there. -/
theorem Staged.inStage (h : Staged rs r id l st) : ∃ l', Before rs r id l' st ∧
    l ++ [execRequest id (r.job.spec rs.workDir st)] = l' ++ (inStage rs r id st).requests ∧
    (inStage rs r id st).result =
      (execute (atStage rs st) id (r.job.spec rs.workDir st)).result := by
  obtain ⟨hstage, _, ⟨hprep, l', hl', rfl⟩, rfl⟩ := h
  obtain ⟨hrun, hres⟩ := run_of_staged hprep hstage
  have hrun : (Env.inStage rs r id st).requests = _ := hrun
  exact ⟨l', hl', by rw [hrun]; simp only [List.append_assoc], hres⟩

theorem Staged.failed (h : Staged rs r id l st) {text : String}
    (hexec : (atStage rs st).exec = .error text) :
    (stages rs id r.job).requests = l ++ [execRequest id (r.job.spec rs.workDir st)] := by
  obtain ⟨l', hl', hreqs, hres⟩ := h.inStage
  rw [stages_requests hl', hreqs]
  intro res hok
  rw [hres, execute_error hexec] at hok
  cases hok

/-- A run goes on after a stage as `Run` does. -/
theorem Staged.next (h : Staged rs r id l st) (hacq : rs.acquire = .ok id) {out : ExecOutput}
    (hexec : (atStage rs st).exec = .ok out) :
    Sofar rs r (l ++ [execRequest id (r.job.spec rs.workDir st)])
      (Phase.next r id out.exitCode (atStage rs st).dur st) := by
  obtain ⟨l', hl', hreqs, hres⟩ := h.inStage
  rw [execute_ok hexec] at hres
  rw [hreqs]
  cases st with
  | compile =>
      rw [Phase.next]
      split
      next hends =>
        refine ⟨hacq, (stages_requests hl' fun res hok _ => ?_).symm⟩
        rw [hres] at hok
        cases hok
        exact hends
      next hgoes =>
        have hl' : l' = [] := hl'
        exact ⟨hacq, _, hres, Bool.eq_false_iff.mpr hgoes, by rw [hl']; rfl⟩
  | execute =>
      exact ⟨hacq, (stages_requests hl' fun _ _ hst => Stage.noConfusion hst).symm⟩

/-- A run that is in the call of `Acquire`, or in the one of `Release`. -/
theorem Sofar.inPool {c : Call} {e : Pool.Event} {g p : Pool.World} {cs : Multiset Call}
    {cfg : Pool.Config} (hs : Call.Step cfg g c e p cs) (h : Sofar rs r l (.inPool c)) :
    (∀ c' ∈ cs, Sofar (Phase.hear rs (.inPool c) (.pool e)) r l (Phase.after c')) ∧
      (cs = 0 → l = (Pipeline.run (Phase.hear rs (.inPool c) (.pool e)) r.job).requests) := by
  have h : l = if c.acquires then [] else (Pipeline.run rs r.job).requests := h
  cases hacq : c.acquires with
  | true =>
      rw [hacq, if_pos rfl] at h
      subst h
      rcases hs.acquiring hacq with
        ⟨c', rfl, hacq', hne⟩ | ⟨id, rfl, rfl, rfl⟩ | ⟨err, rfl, rfl, rfl⟩
      · have hhear : Phase.hear rs (.inPool c) (.pool e) = rs := by
          cases c with
          | acquireReturn res => exact absurd rfl (hne res)
          | _ => rfl
        refine ⟨fun c'' hc'' => ?_, fun hnil => absurd hnil (Multiset.singleton_ne_zero _)⟩
        cases Multiset.mem_singleton.mp hc''
        have hsofar : Sofar rs r [] (.inPool c') := (if_pos hacq').symm
        rw [hhear]
        cases c' with
        | holding id => cases hacq'
        | _ => exact hsofar
      · refine ⟨fun c'' hc'' => ?_, fun hnil => absurd hnil (Multiset.singleton_ne_zero _)⟩
        cases Multiset.mem_singleton.mp hc''
        exact ⟨rfl, rfl⟩
      · exact ⟨fun c'' hc'' => absurd hc'' (Multiset.notMem_zero _), fun _ => rfl⟩
  | false =>
      rw [hacq, if_neg Bool.false_ne_true] at h
      have hhear : Phase.hear rs (.inPool c) (.pool e) = rs := by
        cases c with
        | acquireReturn => cases hacq
        | _ => rfl
      rw [hhear]
      refine ⟨fun c' hc' => ?_, fun _ => h⟩
      have hnot := mt (hs.acquires hc') (by rw [hacq]; exact Bool.false_ne_true)
      rw [not_or] at hnot
      cases c' with
      | holding id => exact absurd ⟨id, rfl⟩ hnot.2
      | _ =>
          have hafter := Bool.eq_false_iff.mpr hnot.1
          exact h.trans (by rw [hafter]; rfl)

/-- What a run has asked for when it has gone on to these processes. -/
def Continues (rs : Pipeline.Replies) (r : Run) (l : List Request) (qs : Multiset Proc) : Prop :=
  (∀ ph, .run r ph ∈ qs → Sofar rs r l ph) ∧ (qs = 0 → l = (Pipeline.run rs r.job).requests)

theorem Sofar.continues (h : Sofar rs r l ph) : Continues rs r l {.run r ph} := by
  refine ⟨fun ph' hmem => ?_, fun hnil => absurd hnil (Multiset.singleton_ne_zero _)⟩
  cases Multiset.mem_singleton.mp hmem
  exact h

/-- One step of a run. -/
theorem Sofar.step {cfg : Config} {g g' : World} {qs : Multiset Proc}
    (hs : Proc.Step cfg g (.run r ph) e g' qs) (h : Sofar rs r l ph) :
    Continues (ph.hear rs e) r (l ++ r.asks rs.workDir ph e) qs := by
  cases hs with
  | @inPool r c e pool cs hs =>
      obtain ⟨hnext, hend⟩ := h.inPool hs
      have hasks : r.asks rs.workDir (.inPool c) (.pool e) = [] := rfl
      rw [hasks, List.append_nil]
      refine ⟨fun ph' hmem => ?_, fun hnil => hend (Multiset.map_eq_zero.mp hnil)⟩
      obtain ⟨c', hc', heq⟩ := Multiset.mem_map.mp hmem
      cases heq
      exact hnext c' hc'
  | track | trackNone =>
      obtain ⟨hacq, rfl⟩ := h
      exact Sofar.continues ⟨hacq, rfl⟩
  | @prepared r id st =>
      obtain ⟨hacq, hbefore⟩ := h
      obtain ⟨out, hout, hzero⟩ := exists_exitWith 0 (atStage rs st).mkdir
      have hnew := hbefore.update (f := fun a => { a with mkdir := exitWith 0 a.mkdir })
      have hprep := hnew.prepared ((congrArg _ (atStage_update _)).trans hout) hzero
      rw [workDir_update] at hprep
      exact Sofar.continues ⟨(acquire_update _).trans hacq, hprep⟩
  | @prepareErr r id st res hne =>
      obtain ⟨hacq, hbefore⟩ := h
      cases res with
      | error text =>
          have hnew := hbefore.update (f := fun a => { a with mkdir := .error text })
          have hreqs := hnew.unprepared fun out hout => by
            rw [atStage_update] at hout
            cases hout
          rw [workDir_update] at hreqs
          exact Sofar.continues ⟨(acquire_update _).trans hacq, hreqs.symm⟩
      | ok code =>
          have hnew := hbefore.update (f := fun a => { a with mkdir := exitWith code a.mkdir })
          have hreqs := hnew.unprepared fun out hout => by
            obtain ⟨out', hout', hcode⟩ := exists_exitWith code (atStage rs st).mkdir
            rw [atStage_update] at hout
            have heq : out' = out := Except.ok.inj (hout'.symm.trans hout)
            rw [← heq, hcode]
            rintro rfl
            exact hne rfl
          rw [workDir_update] at hreqs
          exact Sofar.continues ⟨(acquire_update _).trans hacq, hreqs.symm⟩
  | @copied r id st =>
      obtain ⟨hacq, hprep⟩ := h
      have hnew := hprep.update (f := fun a => { a with copyIn := .ok () }) rfl
      have hstaged := hnew.staged (congrArg _ (atStage_update _))
      rw [workDir_update] at hstaged
      exact Sofar.continues ⟨(acquire_update _).trans hacq, hstaged⟩
  | @copyErr r id text st hfiles =>
      obtain ⟨hacq, hprep⟩ := h
      have hnew := hprep.update (f := fun a => { a with copyIn := .error text }) rfl
      have hreqs := hnew.unstaged hfiles (congrArg _ (atStage_update _))
      rw [workDir_update] at hreqs
      exact Sofar.continues ⟨(acquire_update _).trans hacq, hreqs.symm⟩
  | exec =>
      obtain ⟨hacq, hstaged⟩ := h
      exact Sofar.continues ⟨hacq, l, hstaged, rfl⟩
  | @execErr r id text st =>
      obtain ⟨hacq, hstaged⟩ := h
      have hnew := hstaged.update (f := fun a => { a with exec := .error text }) rfl rfl
      have hreqs := hnew.failed (congrArg _ (atStage_update _))
      rw [workDir_update] at hreqs
      exact Sofar.continues ⟨(acquire_update _).trans hacq, hreqs.symm⟩
  | @waitErr r id text st =>
      obtain ⟨hacq, l, hstaged, rfl⟩ := h
      have hnew := hstaged.update (f := fun a => { a with exec := .error text }) rfl rfl
      have hreqs := hnew.failed (congrArg _ (atStage_update _))
      rw [workDir_update] at hreqs
      have hasks : r.asks rs.workDir (.wait id st) (.execErr text) = [] := rfl
      rw [hasks, List.append_nil]
      exact Sofar.continues ⟨(acquire_update _).trans hacq, hreqs.symm⟩
  | @waitRet r id st code dur =>
      obtain ⟨hacq, l, hstaged, rfl⟩ := h
      obtain ⟨out, hout, hcode⟩ := exists_exitWith code (atStage rs st).exec
      have hnew := hstaged.update
        (f := fun a => { a with exec := exitWith code a.exec, dur := dur }) rfl rfl
      have hnext := hnew.next ((acquire_update _).trans hacq)
        ((congrArg _ (atStage_update _)).trans hout)
      rw [workDir_update, atStage_update, hcode] at hnext
      have hasks : r.asks rs.workDir (.wait id st) (.execRet code dur) = [] := rfl
      rw [hasks, List.append_nil]
      exact hnext.continues
  | cleanup =>
      obtain ⟨hacq, rfl⟩ := h
      exact Sofar.continues (run_requests hacq).symm
  | untrack | untrackNone =>
      have h : l = (Pipeline.run rs r.job).requests := h
      exact Sofar.continues ((List.append_nil l).trans h)

/-! ## Whole histories -/

/-- `Run` begins with what it asks for before and in a stage. -/
theorem Before.prefix_stages (h : Before rs r id l st) :
    l ++ (inStage rs r id st).requests <+: (stages rs id r.job).requests := by
  cases st with
  | compile =>
      have h : l = [] := h
      rw [h, List.nil_append, stages_eq]
      exact Session.prefix_bind
        ((inStage rs r id .compile).mapError Pipeline.Error.compile) _
  | execute => rw [stages_requests h fun _ _ hst => Stage.noConfusion hst]

theorem Before.prefix_run (h : Before rs r id l st) (hacq : rs.acquire = .ok id) {m : List Request}
    (hm : m <+: (inStage rs r id st).requests) :
    l ++ m <+: (Pipeline.run rs r.job).requests := by
  rw [run_requests hacq]
  exact (((List.prefix_append_right_inj l).mpr hm).trans h.prefix_stages).trans
    (List.prefix_append _ _)

/-- At any point a run has asked for the beginning of what `Run` asks for. -/
theorem Sofar.prefix_run (h : Sofar rs r l ph) : l <+: (Pipeline.run rs r.job).requests := by
  cases ph with
  | inPool c =>
      have h : l = if c.acquires then [] else (Pipeline.run rs r.job).requests := h
      rw [h]
      split
      · exact List.nil_prefix
      · exact List.prefix_rfl
  | track id =>
      rw [h.2]
      exact List.nil_prefix
  | prepare id st =>
      obtain ⟨hacq, hbefore⟩ := h
      simpa using hbefore.prefix_run hacq List.nil_prefix
  | copyIn id st =>
      obtain ⟨hacq, -, l, hbefore, rfl⟩ := h
      exact hbefore.prefix_run hacq (Session.prefix_bind _ _)
  | exec id st =>
      obtain ⟨hacq, hstaged⟩ := h
      obtain ⟨l', hl', hreqs, -⟩ := hstaged.inStage
      exact (hreqs ▸ List.prefix_append l _).trans (hl'.prefix_run hacq List.prefix_rfl)
  | wait id st =>
      obtain ⟨hacq, l, hstaged, rfl⟩ := h
      obtain ⟨l', hl', hreqs, -⟩ := hstaged.inStage
      rw [hreqs]
      exact hl'.prefix_run hacq List.prefix_rfl
  | cleanup id =>
      obtain ⟨hacq, rfl⟩ := h
      rw [run_requests hacq]
      exact List.prefix_append _ _
  | untrack id =>
      have h : l = (Pipeline.run rs r.job).requests := h
      rw [h]

end

section
variable {cfg : Config} {ok : Soup World Proc → Label Proc Event → Prop}
  {h : Program.History World Proc Event} {s : Soup World Proc} {p : Proc} {e : Event}
  {job : JobId} {dir : String} {rs : Pipeline.Replies}

/-- The steps of other runs do not count. -/
theorem asked_of_ne (hne : p.job ≠ some job) :
    asked dir job ((s, .act p e) :: h) = asked dir job h := by
  cases p with
  | run r ph => exact if_neg fun heq => hne (congrArg some heq)
  | _ => rfl

theorem heard_of_ne (hne : p.job ≠ some job) :
    heard rs job ((s, .act p e) :: h) = heard rs job h := by
  cases p with
  | run r ph => exact if_neg fun heq => hne (congrArg some heq)
  | _ => rfl

theorem asked_self {r : Run} {ph : Phase} :
    asked dir r.id ((s, .act (.run r ph) e) :: h) = asked dir r.id h ++ r.asks dir ph e :=
  if_pos rfl

theorem heard_self {r : Run} {ph : Phase} :
    heard rs r.id ((s, .act (.run r ph) e) :: h) = ph.hear (heard rs r.id h) e :=
  if_pos rfl

/-- The run has been started in the history. -/
def Started (h : Program.History World Proc Event) (r : Run) : Prop :=
  ∃ s ctx, (s, .call (.run r (.inPool (.acquire ctx)))) ∈ h

/-- What the runs of a history have asked for. -/
structure Followed (rs : Pipeline.Replies) (h : Program.History World Proc Event)
    (s : Soup World Proc) : Prop where
  unborn : ∀ job, s.shared.runs ≤ job → asked rs.workDir job h = []
  born : ∀ r, Started h r → r.id < s.shared.runs
  same : ∀ r, Started h r → ∀ r' ph, .run r' ph ∈ s.procs → r'.id = r.id → r' = r
  sofar : ∀ r ph, .run r ph ∈ s.procs → Sofar (heard rs r.id h) r (asked rs.workDir r.id h) ph
  ended : ∀ r, Started h r → (∀ ph, .run r ph ∉ s.procs) →
    asked rs.workDir r.id h = (Pipeline.run (heard rs r.id h) r.job).requests

theorem started_call {r : Run} :
    Started ((s, .call p) :: h) r ↔
      (∃ ctx, p = .run r (.inPool (.acquire ctx))) ∨ Started h r := by
  simp [Started, exists_or, eq_comm]

theorem started_act {r : Run} : Started ((s, .act p e) :: h) r ↔ Started h r := by
  simp [Started]

theorem Followed.call {g g' : World} {ps : Multiset Proc}
    (ht : (processes cfg).system.Trace ok h ⟨g, ps⟩) (hi : Followed rs h ⟨g, ps⟩)
    (hc : Proc.Start cfg g p g') : Followed rs ((⟨g, ps⟩, .call p) :: h) ⟨g', p ::ₘ ps⟩ := by
  obtain ⟨hunborn, hborn, hsame, hsofar, hended⟩ := hi
  have hold (r : Run) (hgone : ∀ ph, .run r ph ∉ p ::ₘ ps) (ph : Phase) : .run r ph ∉ ps :=
    fun hmem => hgone ph (Multiset.mem_cons_of_mem hmem)
  cases hc with
  | close =>
      have hstart (r : Run) :
          Started ((⟨g, ps⟩, .call (.closing .cancel)) :: h) r ↔ Started h r := by
        simp [started_call]
      refine ⟨hunborn, fun r hr => hborn r ((hstart r).mp hr), fun r hr r' ph hmem => ?_,
        fun r ph hmem => ?_, fun r hr hgone => hended r ((hstart r).mp hr) (hold r hgone)⟩
      · exact hsame r ((hstart r).mp hr) r' ph ((Multiset.mem_cons.mp hmem).resolve_left nofun)
      · exact hsofar r ph ((Multiset.mem_cons.mp hmem).resolve_left nofun)
  | @run r₀ ctx _ hid =>
      have hbelow {q : Proc} {job : JobId} (hq : q ∈ ps) (hjob : q.job = some job) :
          job < g.runs :=
        (jobs_nodup ht.reach).2 job (jobs.mem_all.mpr (.inr ⟨q, hq, mem_jobs.mpr hjob⟩))
      refine ⟨fun job hjob => hunborn job ((Nat.le_succ _).trans hjob), fun r hr => ?_,
        fun r hr r' ph hmem heq => ?_, fun r ph hmem => ?_, fun r hr hgone => ?_⟩
      · rcases started_call.mp hr with ⟨ctx', heq⟩ | hr
        · cases heq
          exact hid.trans_lt (Nat.lt_succ_self _)
        · exact (hborn r hr).trans (Nat.lt_succ_self _)
      · rcases started_call.mp hr with ⟨ctx', hnew⟩ | hr
        · cases hnew
          rcases Multiset.mem_cons.mp hmem with hmem | hmem
          · cases hmem
            rfl
          · have hlt : r'.id < g.runs := hbelow hmem rfl
            exact absurd (heq.trans hid) hlt.ne
        · rcases Multiset.mem_cons.mp hmem with hmem | hmem
          · cases hmem
            have hlt : r.id < g.runs := hborn r hr
            exact absurd (heq.symm.trans hid) hlt.ne
          · exact hsame r hr r' ph hmem heq
      · rcases Multiset.mem_cons.mp hmem with hmem | hmem
        · cases hmem
          exact hunborn r₀.id hid.ge
        · exact hsofar r ph hmem
      · rcases started_call.mp hr with ⟨ctx', hnew⟩ | hr
        · cases hnew
          exact absurd (Multiset.mem_cons_self _ _) (hgone _)
        · exact hended r hr (hold r hgone)

/-- A run behind a step is the run that took it. -/
theorem Proc.Step.run_of_mem {g g' : World} {qs : Multiset Proc} {r : Run} {ph : Phase}
    (hs : Proc.Step cfg g p e g' qs) (hmem : .run r ph ∈ qs) : ∃ ph₀, p = .run r ph₀ := by
  cases p with
  | run r₀ ph₀ =>
      obtain ⟨ph', heq⟩ := hs.stays_run hmem
      cases heq
      exact ⟨ph₀, rfl⟩
  | _ =>
      cases mem_jobs.mp (Multiset.mem_of_le hs.jobs.1
        (Multiset.mem_bind.mpr ⟨_, hmem, mem_jobs.mpr rfl⟩))

theorem Followed.act {g g' : World} {qs ps : Multiset Proc}
    (ht : (processes cfg).system.Trace ok h ⟨g, p ::ₘ ps⟩) (hi : Followed rs h ⟨g, p ::ₘ ps⟩)
    (hs : Proc.Step cfg g p e g' qs) :
    Followed rs ((⟨g, p ::ₘ ps⟩, .act p e) :: h) ⟨g', qs + ps⟩ := by
  obtain ⟨hunborn, hborn, hsame, hsofar, hended⟩ := hi
  obtain ⟨-, hruns⟩ := hs.jobs
  have hself : p ∈ p ::ₘ ps := Multiset.mem_cons_self _ _
  refine ⟨fun job hjob => ?_, fun r hr => ?_, fun r hr r' ph hmem heq => ?_,
    fun r ph hmem => ?_, fun r hr hgone => ?_⟩
  · rw [show (Soup.mk g' (qs + ps)).shared.runs = g.runs from hruns] at hjob
    rw [asked_of_ne fun hp => ?_]
    · exact hunborn job hjob
    · exact absurd ((jobs_nodup ht.reach).2 job (jobs.mem_all.mpr
        (.inr ⟨p, hself, mem_jobs.mpr hp⟩))) (not_lt.mpr hjob)
  · exact (hborn r (started_act.mp hr)).trans_eq hruns.symm
  · rcases Multiset.mem_add.mp hmem with hmem | hmem
    · obtain ⟨ph₀, rfl⟩ := hs.run_of_mem hmem
      exact hsame r (started_act.mp hr) r' ph₀ hself heq
    · exact hsame r (started_act.mp hr) r' ph (Multiset.mem_cons_of_mem hmem) heq
  · rcases Multiset.mem_add.mp hmem with hmem | hmem
    · obtain ⟨ph₀, rfl⟩ := hs.run_of_mem hmem
      have hstep := (hsofar r ph₀ hself).step hs
      rw [workDir_heard] at hstep
      rw [asked_self, heard_self]
      exact hstep.1 ph hmem
    · have hne : p.job ≠ some r.id := fun hp => job_ne ht.reach hp hmem rfl
      rw [asked_of_ne hne, heard_of_ne hne]
      exact hsofar r ph (Multiset.mem_cons_of_mem hmem)
  · have hstarted := started_act.mp hr
    by_cases hp : p.job = some r.id
    · -- the step was the last one of the run
      obtain ⟨r', ph₀, rfl⟩ : ∃ r' ph₀, p = .run r' ph₀ := by
        cases p with
        | run r' ph₀ => exact ⟨r', ph₀, rfl⟩
        | _ => cases hp
      obtain rfl := hsame r hstarted r' ph₀ hself (Option.some.inj hp)
      have hnil : qs = 0 := Multiset.eq_zero_of_forall_notMem fun q hq => by
        obtain ⟨ph', rfl⟩ := hs.stays_run hq
        exact hgone ph' (Multiset.mem_add.mpr (.inl hq))
      have hstep := (hsofar r' ph₀ hself).step hs
      rw [workDir_heard] at hstep
      rw [asked_self, heard_self]
      exact hstep.2 hnil
    · rw [asked_of_ne hp, heard_of_ne hp]
      refine hended r hstarted fun ph hmem => ?_
      rcases Multiset.mem_cons.mp hmem with heq | hmem
      · exact hp (heq ▸ rfl)
      · exact hgone ph (Multiset.mem_add.mpr (.inr hmem))

theorem followed (rs : Pipeline.Replies) (ht : (processes cfg).system.Trace ok h s) :
    Followed rs h s := by
  refine Program.trace_invariant (fun s hs => ?_) (fun h g p g' ps ht hi _ hc => hi.call ht hc)
    (fun h g p e g' qs ps ht hi _ hs => ?_) ht
  · obtain ⟨-, -, rfl⟩ := hs
    have hnone : ∀ r, ¬ Started [] r := fun r ⟨_, _, hmem⟩ => by cases hmem
    refine ⟨fun _ _ => rfl, fun r hr => absurd hr (hnone r), fun r hr => absurd hr (hnone r),
      fun r ph hmem => ?_, fun r hr => absurd hr (hnone r)⟩
    simp [start] at hmem
  · exact hi.act ht hs

/-- In any history of an `Env`, whatever the other processes do, a run has asked the runtime for
the beginning of what `Pipeline.run` asks by itself under the replies that the run has heard, and
for all of it once it has returned.  The replies that it has not heard yet may be any. -/
theorem refines_run (rs : Pipeline.Replies) (ht : (processes cfg).system.Trace System.Any h s)
    {r : Run} (hr : Started h r) :
    asked rs.workDir r.id h <+: (Pipeline.run (heard rs r.id h) r.job).requests ∧
      ((∀ ph, .run r ph ∉ s.procs) →
        asked rs.workDir r.id h = (Pipeline.run (heard rs r.id h) r.job).requests) := by
  have hf := followed rs ht
  refine ⟨?_, hf.ended r hr⟩
  by_cases hgone : ∀ ph, .run r ph ∉ s.procs
  · rw [hf.ended r hr hgone]
  · push Not at hgone
    obtain ⟨ph, hmem⟩ := hgone
    exact (hf.sofar r ph hmem).prefix_run

end

/-- A job fails to compile and returns while another one compiles. -/
theorem refines_run_two : ∃ (rs : Pipeline.Replies) (h : Program.History World Proc Event)
    (s : Soup World Proc) (r r' : Run), (processes (Config.sized 2 0)).system.Trace System.Any h s ∧
      .run r' (.wait "b" .compile) ∈ s.procs ∧
      asked rs.workDir r.id h = (Pipeline.run (heard rs r.id h) r.job).requests := by
  let cfg := Config.sized 2 0
  let r (id : JobId) : Run := ⟨id, ⟨.rust, [("Cargo.toml", "")], 60000000000⟩, some cfg.grace⟩
  let rs : Pipeline.Replies := ⟨.ok "a", 0, "00", ⟨.ok ⟨"", "", 0⟩, .ok (), .ok ⟨"", "", 0⟩, 0⟩,
    ⟨.ok ⟨"", "", 0⟩, .ok (), .ok ⟨"", "", 0⟩, 0⟩⟩
  obtain ⟨h, s, ht, hlabels, hmem, hgone⟩ := exists_trace cfg (by decide) (fun _ _ => true)
    (Script.newEnv ++ (Pool.Script.acquireGrow cfg.pool "a").map (Script.inRun (r 0)) ++
      Script.compile (r 0) "a" ++
      (Pool.Script.acquireGrow cfg.pool "b").map (Script.inRun (r 1)) ++ Script.compile (r 1) "b" ++
      Script.compileFails (r 0) "a" ++ Script.unwind (r 0) "a" ++
      (Pool.Script.releaseSend "a").map (Script.inRun (r 0)))
    (fun s => .run (r 1) (.wait "b" .compile) ∈ s.procs ∧
      s.procs.countP (fun p => p.job = some 0) = 0)
    (by decide +kernel)
  have hstarted : Started h (r 0) := by
    have hcall : Label.call (Proc.run (r 0) (.inPool (.acquire none))) ∈ h.map Prod.snd := by
      rw [hlabels, List.mem_reverse]
      decide
    obtain ⟨⟨s', l⟩, hl, rfl⟩ := List.mem_map.mp hcall
    exact ⟨s', none, hl⟩
  have hany := ht.mono fun _ _ _ => trivial
  refine ⟨rs, h, s, r 0, r 1, hany, hmem, (refines_run rs hany hstarted).2 fun ph hph => ?_⟩
  exact Multiset.countP_eq_zero.mp hgone _ hph rfl

end Aicv.Env
