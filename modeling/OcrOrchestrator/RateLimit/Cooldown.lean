import OcrOrchestrator.RateLimit.Breaker
import Mathlib.Tactic.Linarith

/-!
# The cooldown of an open breaker

A breaker that has tripped admits nothing until its cooldown has elapsed, so whatever reaches
it in that time was admitted before.  The script only asks a report whether the breaker is
half-open: a report that lands while it is open is counted as if it were closed, and a failure
can trip it once more.

Operations are timed here, since what is said is about the time up to the end of the cooldown.
The key has a TTL that every operation renews.

## Main definitions

* `BreakerKey`, `Breaker.operate` — an operation on the key with its TTL.
* `Breaker.FrozenUntilCooldown` — the hash of an open breaker does not change, and the first
  operation after the cooldown finds it half-open.
* `Breaker.QuietUntilCooldown` — no report while the breaker is open, and no expiry.
-/

namespace OcrOrchestrator

/-- The breaker's key: the hash, and when Redis removes it. -/
structure BreakerKey where
  hash : BreakerHash
  expiresAt : ℚ

/-- An operation and the time its server reads. -/
structure TimedOp where
  op : BreakerOp
  now : ℚ

namespace BreakerOp

/-- The operations that report the outcome of a call. -/
def isReport : BreakerOp → Bool
  | success => true
  | failure => true
  | _ => false

end BreakerOp

namespace Breaker

/-- What an operation at this time can read. -/
def alive (now : ℚ) (key : BreakerKey) : Option BreakerHash :=
  if now ≤ key.expiresAt then some key.hash else none

/-- One operation: the hash it writes, and the TTL from now on. -/
def operate (cfg : BreakerConfig) (ttlMs : ℚ) (key : BreakerKey) (o : TimedOp) : BreakerKey :=
  ⟨(script cfg o.op o.now (alive o.now key)).2, o.now + ttlMs⟩

/-- The hash still is what the trip left. -/
structure Frozen (tripped h : BreakerHash) : Prop where
  state : h.state = .opened
  failures : h.failures = tripped.failures
  successes : h.successes = tripped.successes
  openedAt : h.openedAt = tripped.openedAt

/-- **An open breaker is frozen until its cooldown ends**: every operation before that leaves
it open, with the counters and the time of the trip, and the first operation after it finds
the breaker half-open. -/
def FrozenUntilCooldown (cfg : BreakerConfig) (ttlMs : ℚ) (tripped : BreakerHash) :
    BreakerKey → List TimedOp → Prop
  | _, [] => True
  | key, o :: os =>
    if o.now < tripped.openedAt + cfg.cooldownMs then
      Frozen tripped (operate cfg ttlMs key o).hash ∧
        FrozenUntilCooldown cfg ttlMs tripped (operate cfg ttlMs key o) os
    else (touch cfg o.now (alive o.now key)).state = .halfOpen

/-- No report arrives before the cooldown ends, and up to the first operation after it no
two successive ones are further apart than the TTL.  `last` is the time of the one before. -/
def QuietUntilCooldown (ttlMs endMs : ℚ) : ℚ → List TimedOp → Prop
  | _, [] => True
  | last, o :: os =>
    o.now ≤ last + ttlMs ∧
      (o.now < endMs → o.op.isReport = false ∧ QuietUntilCooldown ttlMs endMs o.now os)

section Operate
variable {cfg : BreakerConfig} {ttlMs now : ℚ} {tripped h : BreakerHash} {key : BreakerKey}
  {o : TimedOp} {op : BreakerOp}

/-- Before the end of the cooldown, an open breaker is found as it was left. -/
theorem touch_of_open (hopen : h.state = .opened) (hbefore : now < h.openedAt + cfg.cooldownMs) :
    touch cfg now (some h) = h := by
  have hleft : ¬ cfg.cooldownMs ≤ now - h.openedAt := by linarith
  simp [touch, load, rollWindow, endCooldown, hopen, hleft]

/-- After the cooldown it is found half-open. -/
theorem touch_of_cooled (hopen : h.state = .opened) (hafter : h.openedAt + cfg.cooldownMs ≤ now) :
    (touch cfg now (some h)).state = .halfOpen := by
  have hover : cfg.cooldownMs ≤ now - h.openedAt := by linarith
  simp [touch, load, rollWindow, endCooldown, hopen, hover]

/-- A missing key is a closed breaker. -/
theorem touch_none (cfg : BreakerConfig) (now : ℚ) : (touch cfg now none).state = .closed := by
  simp only [touch, load, rollWindow]
  split
  · simp [endCooldown]
  · simp [endCooldown]

/-- A breaker that is missing and open after the operation has been tripped by it. -/
theorem openedAt_of_missing (hopen : (script cfg op now none).2.state = .opened) :
    (script cfg op now none).2.openedAt = now := by
  have hclosed := touch_none cfg now
  revert hopen
  cases op with
  | allow => simp [script, branch, hclosed]
  | peek => simp [script, branch, hclosed]
  | success => simp [script, branch, hclosed]
  | failure =>
    simp only [script, branch, hclosed]
    split
    · exact fun _ => rfl
    · intro hopen
      cases hopen

/-- Before the end of the cooldown an operation that is no report changes nothing. -/
theorem script_of_open (hopen : h.state = .opened) (hbefore : now < h.openedAt + cfg.cooldownMs)
    (hop : op.isReport = false) : (script cfg op now (some h)).2 = h := by
  have hfound := touch_of_open hopen hbefore
  cases op with
  | allow => simp [script, branch, hfound, hopen]
  | peek => simp [script, branch, hfound, hopen]
  | success => cases hop
  | failure => cases hop

/-- A report always moves one of the counters. -/
theorem counters_of_report (hopen : h.state = .opened)
    (hbefore : now < h.openedAt + cfg.cooldownMs) (hop : op.isReport = true) :
    (script cfg op now (some h)).2.failures ≠ h.failures ∨
      (script cfg op now (some h)).2.successes ≠ h.successes := by
  have hfound := touch_of_open hopen hbefore
  cases op with
  | allow => cases hop
  | peek => cases hop
  | success =>
    right
    simp [script, branch, hfound, hopen]
  | failure =>
    left
    simp only [script, branch, hfound, hopen]
    split <;> simp

variable {last : ℚ}

/-- One operation before the end of the cooldown: the hash stays frozen if and only if the
key is still there and the operation is no report. -/
theorem frozen_operate_iff (hfrozen : Frozen tripped key.hash)
    (hkey : key.expiresAt = last + ttlMs) (hlast : tripped.openedAt ≤ last) (httl : 0 < ttlMs)
    (hbefore : o.now < tripped.openedAt + cfg.cooldownMs) :
    Frozen tripped (operate cfg ttlMs key o).hash ↔
      o.now ≤ last + ttlMs ∧ o.op.isReport = false := by
  have hbefore' : o.now < key.hash.openedAt + cfg.cooldownMs := by rwa [hfrozen.openedAt]
  by_cases halive : o.now ≤ last + ttlMs
  · have hread : alive o.now key = some key.hash := by
      rw [alive, hkey, if_pos halive]
    simp only [operate, hread, halive, true_and]
    cases hop : o.op.isReport with
    | false =>
      rw [script_of_open hfrozen.state hbefore' hop]
      exact iff_of_true hfrozen rfl
    | true =>
      refine iff_of_false (fun hstill => ?_) (by simp)
      rcases counters_of_report hfrozen.state hbefore' hop with hmoved | hmoved
      · exact hmoved (hstill.failures.trans hfrozen.failures.symm)
      · exact hmoved (hstill.successes.trans hfrozen.successes.symm)
  · have hread : alive o.now key = none := by
      rw [alive, hkey, if_neg halive]
    refine iff_of_false (fun hstill => ?_) fun h => halive h.1
    simp only [operate, hread] at hstill
    have hat := openedAt_of_missing hstill.state
    rw [hstill.openedAt] at hat
    exact halive (by linarith)

/-- The first operation after the cooldown finds the breaker half-open if and only if the key
is still there. -/
theorem halfOpen_iff (hfrozen : Frozen tripped key.hash) (hkey : key.expiresAt = last + ttlMs)
    (hafter : tripped.openedAt + cfg.cooldownMs ≤ now) :
    (touch cfg now (alive now key)).state = .halfOpen ↔ now ≤ last + ttlMs := by
  rw [alive, hkey]
  by_cases halive : now ≤ last + ttlMs
  · rw [if_pos halive]
    refine iff_of_true (touch_of_cooled hfrozen.state ?_) halive
    rwa [hfrozen.openedAt]
  · rw [if_neg halive, touch_none]
    exact iff_of_false (by decide) halive

end Operate

section Cooldown
variable {cfg : BreakerConfig} {ttlMs last : ℚ} {tripped : BreakerHash} {key : BreakerKey}
  {ops : List TimedOp}

theorem frozen_run_iff (hfrozen : Frozen tripped key.hash) (hkey : key.expiresAt = last + ttlMs)
    (hlast : tripped.openedAt ≤ last) (httl : 0 < ttlMs)
    (hops : ∀ o ∈ ops, tripped.openedAt ≤ o.now) :
    FrozenUntilCooldown cfg ttlMs tripped key ops ↔
      QuietUntilCooldown ttlMs (tripped.openedAt + cfg.cooldownMs) last ops := by
  induction ops generalizing key last with
  | nil => exact Iff.rfl
  | cons o os ih =>
    rw [FrozenUntilCooldown, QuietUntilCooldown]
    by_cases hbefore : o.now < tripped.openedAt + cfg.cooldownMs
    · have hstep := frozen_operate_iff hfrozen hkey hlast httl hbefore
      have hrest (hnext : Frozen tripped (operate cfg ttlMs key o).hash) :=
        ih hnext rfl (hops o List.mem_cons_self) fun p hp => hops p (List.mem_cons_of_mem _ hp)
      rw [if_pos hbefore]
      constructor
      · rintro ⟨hnext, hrun⟩
        obtain ⟨halive, hop⟩ := hstep.mp hnext
        exact ⟨halive, fun _ => ⟨hop, (hrest hnext).mp hrun⟩⟩
      · rintro ⟨halive, hquiet⟩
        obtain ⟨hop, hlater⟩ := hquiet hbefore
        have hnext := hstep.mpr ⟨halive, hop⟩
        exact ⟨hnext, (hrest hnext).mpr hlater⟩
    · rw [if_neg hbefore, halfOpen_iff hfrozen hkey (not_lt.mp hbefore)]
      exact ⟨fun halive => ⟨halive, fun h => absurd h hbefore⟩, fun h => h.1⟩

/-- **A breaker that has tripped is frozen until its cooldown ends** exactly when no report
arrives in that time and the key does not expire between two operations. -/
theorem frozenUntilCooldown_iff (cfg : BreakerConfig) (ttlMs : ℚ) (tripped : BreakerHash)
    (ops : List TimedOp) (httl : 0 < ttlMs) (hopen : tripped.state = .opened)
    (hops : ∀ o ∈ ops, tripped.openedAt ≤ o.now) :
    FrozenUntilCooldown cfg ttlMs tripped ⟨tripped, tripped.openedAt + ttlMs⟩ ops ↔
      QuietUntilCooldown ttlMs (tripped.openedAt + cfg.cooldownMs) tripped.openedAt ops :=
  frozen_run_iff ⟨hopen, rfl, rfl, rfl⟩ rfl le_rfl httl hops

/-- The hash that ten failures at time zero leave. -/
def tenFailures : BreakerHash :=
  (List.range 9).foldl (fun h _ => (script .default .failure 0 (some h)).2)
    (script .default .failure 0 none).2

theorem tenFailures_openedAt : tenFailures.openedAt = 0 := by
  decide +kernel

/-- Only requests for permission arrive, and the first one after five seconds is a probe. -/
theorem frozenUntilCooldown_requests :
    FrozenUntilCooldown .default 300000 tenFailures ⟨tenFailures, tenFailures.openedAt + 300000⟩
      [⟨.allow, 1000⟩, ⟨.peek, 4999⟩, ⟨.allow, 5000⟩] := by
  rw [frozenUntilCooldown_iff .default 300000 tenFailures _ (by norm_num) (by decide +kernel)
    (by decide +kernel)]
  norm_num [QuietUntilCooldown, tenFailures_openedAt, BreakerOp.isReport, BreakerConfig.default]

/-- An eleventh call, admitted before the trip, fails four seconds after it: the breaker trips
once more, and the permission asked for at five seconds is refused. -/
theorem not_frozenUntilCooldown_late_failure :
    ¬ ∀ (cfg : BreakerConfig) (ttlMs : ℚ) (tripped : BreakerHash) (ops : List TimedOp),
      0 < ttlMs → tripped.state = .opened → (∀ o ∈ ops, tripped.openedAt ≤ o.now) →
      FrozenUntilCooldown cfg ttlMs tripped ⟨tripped, tripped.openedAt + ttlMs⟩ ops := by
  intro hall
  have hfrozen := hall .default 300000 tenFailures [⟨.failure, 4000⟩, ⟨.allow, 5000⟩] (by norm_num)
    (by decide +kernel) (by decide +kernel)
  have hbefore : (4000 : ℚ) < tenFailures.openedAt + BreakerConfig.default.cooldownMs := by
    norm_num [tenFailures_openedAt, BreakerConfig.default]
  rw [FrozenUntilCooldown, if_pos hbefore] at hfrozen
  have hmoved : (operate .default 300000 ⟨tenFailures, tenFailures.openedAt + 300000⟩
      ⟨.failure, 4000⟩).hash.openedAt = 4000 := by decide +kernel
  have hkept := hfrozen.1.openedAt
  rw [hmoved, tenFailures_openedAt] at hkept
  norm_num at hkept

end Cooldown

end Breaker
end OcrOrchestrator
