import Aicv.Time.Duration

/-!
# The time limit of a sandboxed command

`wrapWithTimeout` puts a command under `timeout`, with the limit in whole
seconds.  `timedOut` tells a kill by that wrapper from a death by another
signal.
-/

namespace Aicv.Sandbox

/-- `wrapWithTimeout`: the command to run and the limit in seconds.  A limit of
`0` is no limit. -/
def wrapWithTimeout (cmd : List String) (ttl : Duration) : List String × ℤ :=
  if ttl ≤ 0 then (cmd, 0)
  else
    let secs := if ⌈ttl.seconds⌉ < 1 then 1 else ⌈ttl.seconds⌉
    (["timeout", "-s", "KILL", toString secs] ++ cmd, secs)

/-- `timedOut`. -/
def timedOut (exitCode ttlSecs : ℤ) (dur : Duration) : Bool :=
  if ttlSecs ≤ 0 then false
  else
    let limit := Int64.ofInt ttlSecs * Duration.second
    let killedBySignal := exitCode = 137 ∨ exitCode = 143
    killedBySignal && decide (dur ≥ limit - 500000000)

/-- How long a command may run under a limit of `secs` seconds, in
nanoseconds. -/
def Permits (secs d : ℤ) : Prop := 0 ≤ d ∧ (0 < secs → d ≤ secs * 1000000000)

/-- What the timeout wrapper kills exits with a signal. -/
theorem timedOut_signal {exitCode ttlSecs : ℤ} {dur : Duration}
    (h : timedOut exitCode ttlSecs dur = true) : exitCode = 137 ∨ exitCode = 143 := by
  unfold timedOut at h
  split at h
  next => cases h
  next => simpa using (Bool.and_eq_true_iff.mp h).1

theorem timedOut_zero (ttlSecs : ℤ) (dur : Duration) : timedOut 0 ttlSecs dur = false := by
  rw [Bool.eq_false_iff]
  intro h
  simpa using timedOut_signal h

theorem limit_of_nonpos (cmd : List String) {ttl : Duration} (h : ttl ≤ 0) :
    (wrapWithTimeout cmd ttl).2 = 0 := by
  simp [wrapWithTimeout, h]

/-- A positive TTL gives a limit of at least a second. -/
theorem one_le_limit (cmd : List String) {ttl : Duration} (h : 0 < ttl) :
    1 ≤ (wrapWithTimeout cmd ttl).2 := by
  rw [wrapWithTimeout, if_neg (Int64.not_le.mpr h)]
  simp only
  split <;> omega

/-- The limit depends on the TTL alone. -/
theorem limit_eq (cmd cmd' : List String) (ttl : Duration) :
    (wrapWithTimeout cmd ttl).2 = (wrapWithTimeout cmd' ttl).2 := by
  unfold wrapWithTimeout
  split <;> rfl

/-- A TTL of whole seconds is its own limit. -/
theorem limit_of_dvd {cmd : List String} {ttl : Duration} {n : ℤ}
    (h : ttl.toInt = n * 1000000000) (hn : 1 ≤ n) : (wrapWithTimeout cmd ttl).2 = n := by
  have hpos : ¬ ttl ≤ 0 := by
    rw [Int64.le_iff_toInt_le, h, Int64.toInt_zero]
    omega
  rw [wrapWithTimeout, if_neg hpos, Duration.seconds_of_dvd h, Int.ceil_intCast]
  simp only
  rw [if_neg (by omega)]

/-- The limit is at most one second more than the whole seconds of the TTL. -/
theorem limit_le (cmd : List String) {ttl : Duration} (h : 0 < ttl) :
    (wrapWithTimeout cmd ttl).2 ≤ ttl.toInt / 1000000000 + 1 := by
  have hpos : 0 < ttl.toInt := Int64.lt_iff_toInt_lt.mp h
  rw [wrapWithTimeout, if_neg (Int64.not_le.mpr h)]
  simp only
  split
  · omega
  · exact Int.ceil_le.mpr (Duration.seconds_le hpos.le)

/-- The limit says how the command is wrapped. -/
theorem wrap_eq_iff (cmd : List String) (ttl : Duration) {n : ℤ} (hn : 0 < n) :
    wrapWithTimeout cmd ttl = (["timeout", "-s", "KILL", toString n] ++ cmd, n) ↔
      (wrapWithTimeout cmd ttl).2 = n := by
  refine ⟨fun h => by rw [h], fun h => ?_⟩
  unfold wrapWithTimeout at h ⊢
  split at h
  next => exact absurd h hn.ne
  next hpos =>
    rw [if_neg hpos]
    simp only at h ⊢
    rw [h]

end Aicv.Sandbox
