import OcrOrchestrator.Lib.System
import Mathlib.Algebra.Order.Floor.Defs
import Mathlib.Algebra.Order.Floor.Ring
import Mathlib.Data.Rat.Floor
import Mathlib.Data.Finset.Card
import Mathlib.Tactic.Ring

/-!
# The circuit breaker

One Redis hash per endpoint holds the breaker, and one Lua script is everything that is
ever done to it, so an operation is a function on the hash.  The key carries a TTL and an
operator may delete it; a missing key reads as a closed breaker with empty counters.

Above the script stands a circuit: the hash together with the calls it has admitted and
that have not reported yet.  The script knows nothing of calls; which episode of
`HALF_OPEN` a call was admitted in, and which calls have reported what, is history kept
beside the hash.

## Main definitions

* `Breaker.script` — the four operations.
* `Circuit`, `Circuit.system` — admitted calls and their reports, arbitrarily late.
* `Circuit.ProbesDecide` — what an operation may do to a half-open breaker.
* `Circuit.reportsAreProbes` — no report reaches a half-open breaker from outside.
-/

namespace OcrOrchestrator

open Lib

inductive BreakerState where
  | closed
  | opened
  | halfOpen
  deriving DecidableEq

/-- The arguments of a `CircuitBreaker`, as its constructor accepts them. -/
structure BreakerConfig where
  windowMs : ℚ
  minVolume : ℕ
  failureRatio : ℚ
  cooldownMs : ℚ
  maxProbes : ℕ
  probeSuccesses : ℕ
  failureRatio_pos : 0 < failureRatio
  failureRatio_le_one : failureRatio ≤ 1
  minVolume_pos : 1 ≤ minVolume
  maxProbes_pos : 1 ≤ maxProbes
  probeSuccesses_pos : 1 ≤ probeSuccesses

/-- The defaults of the constructor. -/
def BreakerConfig.default : BreakerConfig where
  windowMs := 10000
  minVolume := 10
  failureRatio := 1 / 2
  cooldownMs := 5000
  maxProbes := 3
  probeSuccesses := 2
  failureRatio_pos := by norm_num
  failureRatio_le_one := by norm_num
  minVolume_pos := by norm_num
  maxProbes_pos := by norm_num
  probeSuccesses_pos := Nat.two_pos

/-- The hash under the breaker's key.  The script always writes all seven fields. -/
structure BreakerHash where
  state : BreakerState
  windowStart : ℚ
  failures : ℕ
  successes : ℕ
  openedAt : ℚ
  probes : ℕ
  probeOk : ℕ

inductive BreakerOp where
  | allow
  | peek
  | success
  | failure
  deriving DecidableEq

/-- What the script returns. -/
structure BreakerReply where
  allowed : Bool
  state : BreakerState
  retryAfterMs : ℤ
  failures : ℕ
  successes : ℕ

namespace Breaker

/-- `HMGET` with the script's defaults for a missing key. -/
def load (now : ℚ) : Option BreakerHash → BreakerHash
  | some h => h
  | none => ⟨.closed, now, 0, 0, 0, 0, 0⟩

/-- Roll the window while closed. -/
def rollWindow (cfg : BreakerConfig) (now : ℚ) (h : BreakerHash) : BreakerHash :=
  if h.state = .closed ∧ cfg.windowMs ≤ now - h.windowStart then
    { h with windowStart := now, failures := 0, successes := 0 }
  else h

/-- An `OPEN` breaker whose cooldown has elapsed becomes `HALF_OPEN` on the next touch. -/
def endCooldown (cfg : BreakerConfig) (now : ℚ) (h : BreakerHash) : BreakerHash :=
  if h.state = .opened ∧ cfg.cooldownMs ≤ now - h.openedAt then
    { h with state := .halfOpen, probes := 0, probeOk := 0 }
  else h

/-- The hash as every operation finds it, after the two lazy expiries. -/
def touch (cfg : BreakerConfig) (now : ℚ) (key : Option BreakerHash) : BreakerHash :=
  endCooldown cfg now (rollWindow cfg now (load now key))

/-- What is left of the cooldown, never negative. -/
def cooldownLeft (cfg : BreakerConfig) (now : ℚ) (h : BreakerHash) : ℚ :=
  max 0 ⌈cfg.cooldownMs - (now - h.openedAt)⌉

/-- The branch of each operation: is it allowed, the raw `retry_after_ms`, the hash to
write. -/
def branch (cfg : BreakerConfig) (now : ℚ) (h : BreakerHash) :
    BreakerOp → Bool × ℚ × BreakerHash
  | .allow =>
    match h.state with
    | .opened => (false, cooldownLeft cfg now h, h)
    | .halfOpen =>
      if h.probes < cfg.maxProbes then (true, 0, { h with probes := h.probes + 1 })
      else (false, ⌈cfg.cooldownMs / 4⌉, h)
    | .closed => (true, 0, h)
  | .peek =>
    match h.state with
    | .opened => (false, cooldownLeft cfg now h, h)
    | .halfOpen => (decide (h.probes < cfg.maxProbes), 0, h)
    | .closed => (true, 0, h)
  | .success =>
    match h.state with
    | .halfOpen =>
      if cfg.probeSuccesses ≤ h.probeOk + 1 then
        (true, 0, { h with
          state := .closed, windowStart := now, failures := 0, successes := 0,
          probes := 0, probeOk := 0 })
      else (true, 0, { h with probeOk := h.probeOk + 1, probes := h.probes - 1 })
    | _ => (true, 0, { h with successes := h.successes + 1 })
  | .failure =>
    match h.state with
    | .halfOpen =>
      (false, cfg.cooldownMs,
        { h with state := .opened, openedAt := now, probes := 0, probeOk := 0 })
    | _ =>
      let failures := h.failures + 1
      let total := failures + h.successes
      if cfg.minVolume ≤ total ∧ cfg.failureRatio ≤ (failures : ℚ) / total then
        (false, cfg.cooldownMs,
          { h with
            state := .opened, failures, openedAt := now, probes := 0, probeOk := 0 })
      else (false, 0, { h with failures })

/-- `_BREAKER_LUA`. -/
def script (cfg : BreakerConfig) (op : BreakerOp) (now : ℚ) (key : Option BreakerHash) :
    BreakerReply × BreakerHash :=
  let out := branch cfg now (touch cfg now key) op
  (⟨out.1, out.2.2.state, ⌊out.2.1⌋, out.2.2.failures, out.2.2.successes⟩, out.2.2)

end Breaker

/-! ## Calls and episodes -/

/-- How a call got past `allow`: while the breaker was closed, or as a probe of one
episode of `HALF_OPEN`. -/
inductive Admission where
  | whileClosed
  | probe (episode : ℕ)
  deriving DecidableEq

/-- The hash with the calls that were admitted and have not reported. -/
structure Circuit where
  hash : Option BreakerHash
  /-- How often the breaker has become half-open; the number of the current episode. -/
  episode : ℕ
  calls : ℕ → Option Admission
  /-- Calls are numbered in the order they are admitted. -/
  next : ℕ
  /-- The reports so far, latest first. -/
  reports : List (Admission × Bool)

namespace Circuit

/-- An operation on the breaker at a time its server reads, or the loss of the key, to
its TTL or to `reset`. -/
inductive Label where
  | allow (now : ℚ)
  | peek (now : ℚ)
  | report (call : ℕ) (ok : Bool) (now : ℚ)
  | drop

/-- The time of an operation. -/
def Label.time? : Label → Option ℚ
  | .allow now => some now
  | .peek now => some now
  | .report _ _ now => some now
  | .drop => none

/-- The operation a report asks for. -/
def reportOp : Bool → BreakerOp
  | true => .success
  | false => .failure

def empty : Circuit := ⟨none, 0, fun _ => none, 0, []⟩

/-- The stored state; a missing key is a closed breaker. -/
def state (w : Circuit) : BreakerState := (w.hash.map BreakerHash.state).getD .closed

/-- The hash as an operation at this time finds it. -/
def found (cfg : BreakerConfig) (now : ℚ) (w : Circuit) : BreakerHash :=
  Breaker.touch cfg now w.hash

/-- The episode an operation at this time belongs to: a new one if it is the first touch
after the cooldown. -/
def episodeAt (cfg : BreakerConfig) (now : ℚ) (w : Circuit) : ℕ :=
  if w.state = .opened ∧ (w.found cfg now).state = .halfOpen then w.episode + 1 else w.episode

/-- How a call admitted by this operation got in. -/
def admission (cfg : BreakerConfig) (now : ℚ) (w : Circuit) : Admission :=
  if (w.found cfg now).state = .halfOpen then .probe (w.episodeAt cfg now) else .whileClosed

def allow (cfg : BreakerConfig) (now : ℚ) (w : Circuit) : Circuit :=
  let out := Breaker.script cfg .allow now w.hash
  let w' := { w with hash := some out.2, episode := w.episodeAt cfg now }
  if out.1.allowed then
    { w' with
      calls := Function.update w.calls w.next (some (w.admission cfg now))
      next := w.next + 1 }
  else w'

def peek (cfg : BreakerConfig) (now : ℚ) (w : Circuit) : Circuit :=
  { w with
    hash := some (Breaker.script cfg .peek now w.hash).2
    episode := w.episodeAt cfg now }

def report (cfg : BreakerConfig) (t : ℕ) (a : Admission) (ok : Bool) (now : ℚ) (w : Circuit) :
    Circuit :=
  { w with
    hash := some (Breaker.script cfg (reportOp ok) now w.hash).2
    episode := w.episodeAt cfg now
    calls := Function.update w.calls t none
    reports := (a, ok) :: w.reports }

/-- One operation; only a call that was admitted can report, and only once. -/
def step (cfg : BreakerConfig) (w : Circuit) : Label → Option Circuit
  | .allow now => some (w.allow cfg now)
  | .peek now => some (w.peek cfg now)
  | .report t ok now => (w.calls t).map fun a => w.report cfg t a ok now
  | .drop => some { w with hash := none }

def system (cfg : BreakerConfig) : System Circuit Label := ⟨empty, step cfg⟩

/-- How many calls admitted as probes of an episode have not reported. -/
def outstanding (w : Circuit) (e : ℕ) : ℕ :=
  ((Finset.range w.next).filter fun t => w.calls t = some (.probe e)).card

/-- How many successes calls admitted as probes of an episode have reported. -/
def successesOf (w : Circuit) (e : ℕ) : ℕ := w.reports.count (.probe e, true)

/-- **Half-open decisions are made by probes.**  No episode has more calls outstanding
than there are slots; an operation that finds the breaker half-open closes it only when
probes of the episode have reported enough successes, and reopens it only as the failure
report of a probe of the episode. -/
structure ProbesDecide (cfg : BreakerConfig) (w : Circuit) (l : Label) (w' : Circuit) :
    Prop where
  bounded : ∀ e, w'.outstanding e ≤ cfg.maxProbes
  closes : ∀ now, l.time? = some now → (w.found cfg now).state = .halfOpen →
    w'.state = .closed → cfg.probeSuccesses ≤ w'.successesOf w'.episode
  reopens : ∀ now, l.time? = some now → (w.found cfg now).state = .halfOpen →
    w'.state = .opened →
      ∃ t, l = .report t false now ∧ w.calls t = some (.probe w'.episode)

/-- A report that finds the breaker half-open comes from a call admitted in this
episode. -/
def reportsAreProbes (cfg : BreakerConfig) (w : Circuit) : Label → Bool
  | .report t _ now =>
    (w.found cfg now).state ≠ .halfOpen || w.calls t = some (.probe (w.episodeAt cfg now))
  | _ => true

/-! ## What an operation finds -/

variable {cfg : BreakerConfig} {w w' : Circuit} {now : ℚ} {e t : ℕ} {a : Admission} {ok : Bool}

/-- A half-open hash is found as it was left. -/
theorem found_of_halfOpen {h : BreakerHash} (hw : w.hash = some h) (hs : h.state = .halfOpen) :
    w.found cfg now = h := by
  simp [found, Breaker.touch, Breaker.load, Breaker.rollWindow, Breaker.endCooldown, hw, hs]

/-- An operation that finds the breaker half-open is in an episode that was under way, or
starts one with both probe counters at zero. -/
theorem found_halfOpen (h : (w.found cfg now).state = .halfOpen) :
    (w.hash = some (w.found cfg now) ∧ w.episodeAt cfg now = w.episode) ∨
      ((w.found cfg now).probes = 0 ∧ (w.found cfg now).probeOk = 0 ∧
        w.episodeAt cfg now = w.episode + 1) := by
  cases hw : w.hash with
  | none =>
    simp [found, Breaker.touch, Breaker.load, Breaker.rollWindow, Breaker.endCooldown, hw] at h
  | some b =>
    cases hb : b.state with
    | closed =>
      simp [found, Breaker.touch, Breaker.load, Breaker.rollWindow, Breaker.endCooldown, hw,
        hb] at h
      split at h <;> simp [hb] at h
    | opened =>
      right
      have hopen : w.state = .opened := by simp [state, hw, hb]
      have hep : w.episodeAt cfg now = w.episode + 1 := if_pos ⟨hopen, h⟩
      revert h
      simp only [found, Breaker.touch, Breaker.load, Breaker.rollWindow, Breaker.endCooldown, hw,
        hb, reduceCtorEq, false_and, if_false, true_and]
      split
      · exact fun _ => ⟨rfl, rfl, hep⟩
      · intro h
        rw [hb] at h
        cases h
    | halfOpen =>
      left
      have hhalf : w.state ≠ .opened := by simp [state, hw, hb]
      rw [found_of_halfOpen hw hb]
      exact ⟨rfl, if_neg fun h => hhalf h.1⟩

theorem le_episodeAt : w.episode ≤ w.episodeAt cfg now := by
  unfold episodeAt
  split <;> omega

/-! ## Counting calls -/

/-- A call admitted as a probe of an episode is one more outstanding there. -/
theorem outstanding_admitted (hc : w'.calls = Function.update w.calls w.next (some a))
    (hn : w'.next = w.next + 1) :
    w'.outstanding e = w.outstanding e + if a = .probe e then 1 else 0 := by
  have hold : ∀ t ∈ Finset.range w.next,
      (w'.calls t = some (.probe e) ↔ w.calls t = some (.probe e)) := by
    intro t ht
    rw [hc, Function.update_of_ne (Finset.mem_range.mp ht).ne]
  have hnew : w'.calls w.next = some (.probe e) ↔ a = .probe e := by
    rw [hc, Function.update_self, Option.some.injEq]
  simp only [outstanding, hn, Finset.range_add_one, Finset.filter_insert, hnew,
    Finset.filter_congr hold]
  split
  · rw [Finset.card_insert_of_notMem (by simp)]
  · rfl

/-- A call that reports is one fewer outstanding in the episode it was a probe of. -/
theorem outstanding_report (hc : w'.calls = Function.update w.calls t none)
    (hn : w'.next = w.next) (ht : w.calls t = some a) (hlt : t < w.next) :
    w'.outstanding e + (if a = .probe e then 1 else 0) = w.outstanding e := by
  have herase : (Finset.range w.next).filter (fun u => w'.calls u = some (.probe e)) =
      ((Finset.range w.next).filter fun u => w.calls u = some (.probe e)).erase t := by
    ext u
    simp only [Finset.mem_filter, Finset.mem_erase, hc]
    by_cases hu : u = t
    · subst hu
      simp
    · simp [hu]
  simp only [outstanding, hn, herase]
  split
  · rename_i ha
    have hmem : t ∈ (Finset.range w.next).filter fun u => w.calls u = some (.probe e) := by
      simp [hlt, ht, ha]
    exact Finset.card_erase_add_one hmem
  · rename_i ha
    rw [Finset.erase_eq_of_notMem (by simp [ht, ha]), Nat.add_zero]

/-! ## The effect of each operation on a half-open breaker -/

section Branch
variable {h : BreakerHash}

theorem branch_allow_state : (Breaker.branch cfg now h .allow).2.2.state = h.state := by
  simp only [Breaker.branch]
  split
  · rfl
  · split <;> rfl
  · rfl

theorem branch_peek : (Breaker.branch cfg now h .peek).2.2 = h := by
  simp only [Breaker.branch]
  split <;> rfl

/-- A half-open breaker admits a call exactly when it has a slot, and takes the slot. -/
theorem branch_allow_halfOpen (hs : h.state = .halfOpen) :
    Breaker.branch cfg now h .allow =
      if h.probes < cfg.maxProbes then (true, 0, { h with probes := h.probes + 1 })
      else (false, (⌈cfg.cooldownMs / 4⌉ : ℚ), h) := by
  simp only [Breaker.branch, hs]

/-- A success that is not enough leaves a half-open breaker half-open with a slot free. -/
theorem branch_success_halfOpen (hs : h.state = .halfOpen) :
    Breaker.branch cfg now h .success =
      if cfg.probeSuccesses ≤ h.probeOk + 1 then
        (true, 0, { h with
          state := .closed, windowStart := now, failures := 0, successes := 0,
          probes := 0, probeOk := 0 })
      else (true, 0, { h with probeOk := h.probeOk + 1, probes := h.probes - 1 }) := by
  simp only [Breaker.branch, hs]

/-- A failure reopens a half-open breaker. -/
theorem branch_failure_halfOpen (cfg : BreakerConfig) (now : ℚ) (hs : h.state = .halfOpen) :
    (Breaker.branch cfg now h .failure).2.2.state = .opened := by
  simp only [Breaker.branch, hs]

/-- A report never makes a breaker half-open. -/
theorem branch_report_state (hs : h.state ≠ .halfOpen) :
    (Breaker.branch cfg now h (reportOp ok)).2.2.state ≠ .halfOpen := by
  cases ok with
  | true =>
    simp only [reportOp, Breaker.branch]
    exact hs
  | false =>
    simp only [reportOp, Breaker.branch]
    split
    · simp
    · exact hs

/-- After a report the breaker is half-open only if it was, the report is a success, and
more successes are needed. -/
theorem branch_report_halfOpen
    (hs : (Breaker.branch cfg now h (reportOp ok)).2.2.state = .halfOpen) :
    h.state = .halfOpen ∧ ok = true ∧ (Breaker.branch cfg now h (reportOp ok)).2.2 =
        { h with probeOk := h.probeOk + 1, probes := h.probes - 1 } := by
  by_cases hh : h.state = .halfOpen
  · cases ok with
    | false =>
      have hopen := branch_failure_halfOpen cfg now hh
      exact absurd (hopen.symm.trans hs) (by decide)
    | true =>
      change (Breaker.branch cfg now h .success).2.2.state = .halfOpen at hs
      change _ ∧ _ ∧ (Breaker.branch cfg now h .success).2.2 = _
      rw [branch_success_halfOpen hh] at hs ⊢
      split at hs
      · cases hs
      · rename_i hmore
        rw [if_neg hmore]
        exact ⟨hh, rfl, rfl⟩
  · exact absurd hs (branch_report_state hh)

end Branch

/-! ## Slots are never more than the probes outstanding -/

/-- The history is about the past, and a half-open breaker has no more slots taken than
calls of its episode are outstanding.  Late reports of other calls only free slots. -/
structure Tracked (w : Circuit) : Prop where
  calls_lt : ∀ t a, w.calls t = some a → t < w.next
  calls_old : ∀ t e, w.calls t = some (.probe e) → e ≤ w.episode
  reports_old : ∀ e ok, (.probe e, ok) ∈ w.reports → e ≤ w.episode
  slots_le : ∀ h, w.hash = some h → h.state = .halfOpen → h.probes ≤ w.outstanding w.episode

theorem Tracked.empty : Tracked Circuit.empty where
  calls_lt := by simp [Circuit.empty]
  calls_old := by simp [Circuit.empty]
  reports_old := by simp [Circuit.empty]
  slots_le := by simp [Circuit.empty]

/-- An episode that has not begun has no calls. -/
theorem Tracked.outstanding_eq_zero (h : Tracked w) (he : w.episode < e) :
    w.outstanding e = 0 := by
  simp only [outstanding, Finset.card_eq_zero, Finset.filter_eq_empty_iff]
  intro t _ ht
  have := h.calls_old t e ht
  omega

theorem Tracked.successesOf_eq_zero (h : Tracked w) (he : w.episode < e) :
    w.successesOf e = 0 := by
  simp only [successesOf, List.count_eq_zero]
  intro hmem
  have := h.reports_old e true hmem
  omega

/-- The bound on the slots as the next operation finds them. -/
theorem Tracked.found_slots_le (h : Tracked w) (hf : (w.found cfg now).state = .halfOpen) :
    (w.found cfg now).probes ≤ w.outstanding (w.episodeAt cfg now) := by
  rcases found_halfOpen hf with ⟨hw, he⟩ | ⟨hp, -, -⟩
  · rw [he]
    exact h.slots_le _ hw hf
  · omega

/-- Moving on to the episode of the next operation keeps the history in the past. -/
theorem Tracked.calls_old_episodeAt (h : Tracked w) (ht : w.calls t = some (.probe e)) :
    e ≤ w.episodeAt cfg now := (h.calls_old t e ht).trans le_episodeAt

theorem Tracked.reports_old_episodeAt (h : Tracked w) (hr : (.probe e, ok) ∈ w.reports) :
    e ≤ w.episodeAt cfg now := (h.reports_old e ok hr).trans le_episodeAt

theorem allow_of_refused (hall : (Breaker.script cfg .allow now w.hash).1.allowed = false) :
    w.allow cfg now = { w with
      hash := some (Breaker.script cfg .allow now w.hash).2
      episode := w.episodeAt cfg now } := by
  simp [Circuit.allow, hall]

theorem allow_of_allowed (hall : (Breaker.script cfg .allow now w.hash).1.allowed = true) :
    w.allow cfg now = { w with
      hash := some (Breaker.script cfg .allow now w.hash).2
      episode := w.episodeAt cfg now
      calls := Function.update w.calls w.next (some (w.admission cfg now))
      next := w.next + 1 } := by
  simp [Circuit.allow, hall]

theorem script_hash (op : BreakerOp) :
    (Breaker.script cfg op now w.hash).2 =
      (Breaker.branch cfg now (w.found cfg now) op).2.2 := rfl

theorem script_allowed (op : BreakerOp) :
    (Breaker.script cfg op now w.hash).1.allowed =
      (Breaker.branch cfg now (w.found cfg now) op).1 := rfl

/-- `allow` at a half-open breaker: the answer, the slots, and the state. -/
theorem script_allow_halfOpen (hf : (w.found cfg now).state = .halfOpen) :
    if (w.found cfg now).probes < cfg.maxProbes then
      (Breaker.script cfg .allow now w.hash).1.allowed = true ∧
        (Breaker.script cfg .allow now w.hash).2 =
          { w.found cfg now with probes := (w.found cfg now).probes + 1 }
    else
      (Breaker.script cfg .allow now w.hash).1.allowed = false ∧
        (Breaker.script cfg .allow now w.hash).2 = w.found cfg now := by
  rw [script_hash, script_allowed, branch_allow_halfOpen hf]
  split <;> exact ⟨rfl, rfl⟩

theorem Tracked.allow (h : Tracked w) : Tracked (w.allow cfg now) := by
  cases hall : (Breaker.script cfg .allow now w.hash).1.allowed with
  | false =>
    rw [allow_of_refused hall]
    refine ⟨h.calls_lt, fun _ _ => h.calls_old_episodeAt, fun _ _ => h.reports_old_episodeAt, ?_⟩
    intro b hb hs
    obtain rfl := Option.some.inj hb
    have hf : (w.found cfg now).state = .halfOpen := branch_allow_state.symm.trans hs
    have hspec := script_allow_halfOpen hf
    split at hspec
    · rw [hspec.1] at hall
      cases hall
    · rw [hspec.2]
      exact h.found_slots_le hf
  | true =>
    rw [allow_of_allowed hall]
    constructor
    · intro t a ht
      dsimp only at ht ⊢
      by_cases hnew : t = w.next
      · omega
      · rw [Function.update_of_ne hnew] at ht
        have := h.calls_lt t a ht
        omega
    · intro t e ht
      dsimp only at ht ⊢
      by_cases hnew : t = w.next
      · subst hnew
        rw [Function.update_self, Option.some.injEq] at ht
        simp only [admission] at ht
        split at ht
        · cases ht
          exact le_rfl
        · cases ht
      · rw [Function.update_of_ne hnew] at ht
        exact h.calls_old_episodeAt ht
    · exact fun _ _ => h.reports_old_episodeAt
    · intro b hb hs
      obtain rfl := Option.some.inj hb
      have hf : (w.found cfg now).state = .halfOpen := branch_allow_state.symm.trans hs
      have hslots := h.found_slots_le hf
      have hspec := script_allow_halfOpen hf
      split at hspec
      · have hadm : w.admission cfg now = .probe (w.episodeAt cfg now) := if_pos hf
        rw [hspec.2, outstanding_admitted (w := w) rfl rfl, if_pos hadm]
        exact Nat.succ_le_succ hslots
      · rw [hspec.1] at hall
        cases hall

theorem Tracked.peek (h : Tracked w) : Tracked (w.peek cfg now) := by
  refine ⟨h.calls_lt, fun _ _ => h.calls_old_episodeAt, fun _ _ => h.reports_old_episodeAt, ?_⟩
  intro b hb hs
  obtain rfl := Option.some.inj hb
  rw [script_hash, branch_peek] at hs ⊢
  exact h.found_slots_le hs

/-- A report frees at most one slot, and takes at most one call off the episode's list. -/
theorem Tracked.report (h : Tracked w) (ht : w.calls t = some a) :
    Tracked (w.report cfg t a ok now) := by
  constructor
  · intro u b hu
    refine h.calls_lt u b ?_
    by_cases hut : u = t
    · subst hut
      simp [Circuit.report] at hu
    · simpa [Circuit.report, Function.update_of_ne hut] using hu
  · intro u e hu
    refine h.calls_old_episodeAt (t := u) ?_
    by_cases hut : u = t
    · subst hut
      simp [Circuit.report] at hu
    · simpa [Circuit.report, Function.update_of_ne hut] using hu
  · intro e k hr
    rcases List.mem_cons.mp hr with hnew | hold
    · obtain ⟨rfl, -⟩ := Prod.mk.inj hnew
      exact h.calls_old_episodeAt ht
    · exact h.reports_old_episodeAt hold
  · intro b hb hs
    obtain rfl := Option.some.inj hb
    rw [script_hash] at hs ⊢
    obtain ⟨hf, -, hhash⟩ := branch_report_halfOpen hs
    have hslots := h.found_slots_le hf
    have hcount : (w.report cfg t a ok now).outstanding (w.episodeAt cfg now) +
        (if a = .probe (w.episodeAt cfg now) then 1 else 0) = w.outstanding (w.episodeAt cfg now) :=
      outstanding_report rfl rfl ht (h.calls_lt t a ht)
    rw [hhash]
    change (w.found cfg now).probes - 1 ≤
      (w.report cfg t a ok now).outstanding (w.episodeAt cfg now)
    split at hcount <;> omega

theorem Tracked.drop (h : Tracked w) : Tracked { w with hash := none } :=
  ⟨h.calls_lt, h.calls_old, h.reports_old, by simp⟩

theorem Tracked.step (h : Tracked w) {l : Label} (hstep : w.step cfg l = some w') :
    Tracked w' := by
  cases l with
  | allow now =>
    obtain rfl := Option.some.inj hstep
    exact h.allow
  | peek now =>
    obtain rfl := Option.some.inj hstep
    exact h.peek
  | report t ok now =>
    obtain ⟨a, ht, rfl⟩ := Option.map_eq_some_iff.mp hstep
    exact h.report ht
  | drop =>
    obtain rfl := Option.some.inj hstep
    exact h.drop

/-- In every state a circuit reaches, with reports arbitrarily late, a half-open breaker
has no more slots taken than probes of its episode are outstanding. -/
theorem tracked_of_reach {allow : Circuit → Label → Bool}
    (hw : (system cfg).Reach allow w) : Tracked w :=
  hw.invariant Tracked.empty fun _ _ _ h _ hstep => h.step hstep

/-- A call that is a probe of the episode an operation finds was one before it: an episode
that the operation starts has no calls yet. -/
theorem Tracked.probe_found (h : Tracked w) (hf : (w.found cfg now).state = .halfOpen)
    (ht : w.calls t = some (.probe (w.episodeAt cfg now))) :
    w.state = .halfOpen ∧ w.calls t = some (.probe w.episode) := by
  rcases found_halfOpen hf with ⟨hw, he⟩ | ⟨-, -, he⟩
  · rw [he] at ht
    exact ⟨by simp [state, hw, hf], ht⟩
  · have := h.calls_old t _ ht
    omega

/-- An operation other than a report leaves a half-open breaker half-open. -/
theorem state_allow : (w.allow cfg now).state = (w.found cfg now).state := by
  have hhash : (w.allow cfg now).hash = some (Breaker.script cfg .allow now w.hash).2 := by
    simp only [Circuit.allow]
    split <;> rfl
  rw [state, hhash]
  exact branch_allow_state

theorem state_peek : (w.peek cfg now).state = (w.found cfg now).state := by
  change (Breaker.script cfg .peek now w.hash).2.state = _
  rw [script_hash, branch_peek]

/-- A breaker that is half-open after a report was found half-open. -/
theorem state_report (hs : (w.report cfg t a ok now).state = .halfOpen) :
    (w.found cfg now).state = .halfOpen := by
  change (Breaker.script cfg (reportOp ok) now w.hash).2.state = .halfOpen at hs
  exact (branch_report_halfOpen hs).1

theorem episode_allow : (w.allow cfg now).episode = w.episodeAt cfg now := by
  simp only [Circuit.allow]
  split <;> rfl

/-- A success of a probe counts for its episode. -/
theorem successesOf_report :
    (w.report cfg t (.probe e) true now).successesOf e = w.successesOf e + 1 :=
  List.count_cons_self

/-! ## Exact accounts -/

/-- While every report to a half-open breaker is a probe's, its two counters are the
probes of the episode that are outstanding and the successes they have reported. -/
structure Exact (cfg : BreakerConfig) (w : Circuit) : Prop extends Tracked w where
  probes_eq : ∀ h, w.hash = some h → h.state = .halfOpen → h.probes = w.outstanding w.episode
  probeOk_eq : ∀ h, w.hash = some h → h.state = .halfOpen → h.probeOk = w.successesOf w.episode
  bounded : ∀ e, w.outstanding e ≤ cfg.maxProbes

theorem Exact.empty : Exact cfg Circuit.empty where
  toTracked := Tracked.empty
  probes_eq := by simp [Circuit.empty]
  probeOk_eq := by simp [Circuit.empty]
  bounded := by simp [Circuit.empty, outstanding]

/-- Both counters as the next operation finds them. -/
theorem Exact.found_eq (h : Exact cfg w) (hf : (w.found cfg now).state = .halfOpen) :
    (w.found cfg now).probes = w.outstanding (w.episodeAt cfg now) ∧
      (w.found cfg now).probeOk = w.successesOf (w.episodeAt cfg now) := by
  rcases found_halfOpen hf with ⟨hw, he⟩ | ⟨hp, hok, he⟩
  · rw [he]
    exact ⟨h.probes_eq _ hw hf, h.probeOk_eq _ hw hf⟩
  · rw [he, hp, hok, h.outstanding_eq_zero (by omega), h.successesOf_eq_zero (by omega)]
    exact ⟨rfl, rfl⟩

theorem Exact.allow (h : Exact cfg w) : Exact cfg (w.allow cfg now) := by
  have htracked : Tracked (w.allow cfg now) := h.toTracked.allow
  cases hall : (Breaker.script cfg .allow now w.hash).1.allowed with
  | false =>
    rw [allow_of_refused hall] at htracked ⊢
    have hsame : ∀ b, some (Breaker.script cfg .allow now w.hash).2 = some b →
        b.state = .halfOpen → (w.found cfg now).state = .halfOpen ∧ b = w.found cfg now := by
      intro b hb hs
      obtain rfl := Option.some.inj hb
      have hf : (w.found cfg now).state = .halfOpen := branch_allow_state.symm.trans hs
      have hspec := script_allow_halfOpen hf
      split at hspec
      · rw [hspec.1] at hall
        cases hall
      · exact ⟨hf, hspec.2⟩
    refine ⟨htracked, ?_, ?_, h.bounded⟩
    · intro b hb hs
      obtain ⟨hf, rfl⟩ := hsame b hb hs
      exact (h.found_eq hf).1
    · intro b hb hs
      obtain ⟨hf, rfl⟩ := hsame b hb hs
      exact (h.found_eq hf).2
  | true =>
    rw [allow_of_allowed hall] at htracked ⊢
    have hslot : (w.found cfg now).state = .halfOpen →
        (w.found cfg now).probes < cfg.maxProbes ∧
          (Breaker.script cfg .allow now w.hash).2 =
            { w.found cfg now with probes := (w.found cfg now).probes + 1 } := by
      intro hf
      have hspec := script_allow_halfOpen hf
      split at hspec
      · exact ⟨‹_›, hspec.2⟩
      · rw [hspec.1] at hall
        cases hall
    refine ⟨htracked, ?_, ?_, ?_⟩
    · intro b hb hs
      obtain rfl := Option.some.inj hb
      have hf : (w.found cfg now).state = .halfOpen := branch_allow_state.symm.trans hs
      have hadm : w.admission cfg now = .probe (w.episodeAt cfg now) := if_pos hf
      rw [(hslot hf).2, outstanding_admitted (w := w) rfl rfl, if_pos hadm]
      exact congrArg (· + 1) (h.found_eq hf).1
    · intro b hb hs
      obtain rfl := Option.some.inj hb
      have hf : (w.found cfg now).state = .halfOpen := branch_allow_state.symm.trans hs
      rw [(hslot hf).2]
      exact (h.found_eq hf).2
    · intro e
      rw [outstanding_admitted (w := w) rfl rfl]
      split
      · rename_i hadm
        simp only [admission] at hadm
        split at hadm
        · rename_i hf
          cases hadm
          have hfree := (hslot hf).1
          rw [(h.found_eq hf).1] at hfree
          exact hfree
        · cases hadm
      · exact h.bounded e

theorem Exact.peek (h : Exact cfg w) : Exact cfg (w.peek cfg now) := by
  refine ⟨h.toTracked.peek, ?_, ?_, h.bounded⟩
  · intro b hb hs
    obtain rfl := Option.some.inj hb
    rw [script_hash, branch_peek] at hs ⊢
    exact (h.found_eq hs).1
  · intro b hb hs
    obtain rfl := Option.some.inj hb
    rw [script_hash, branch_peek] at hs ⊢
    exact (h.found_eq hs).2

theorem Exact.report (h : Exact cfg w) (ht : w.calls t = some a)
    (hprobe : (w.found cfg now).state = .halfOpen → a = .probe (w.episodeAt cfg now)) :
    Exact cfg (w.report cfg t a ok now) := by
  have hcount : ∀ e, (w.report cfg t a ok now).outstanding e +
      (if a = .probe e then 1 else 0) = w.outstanding e := fun e =>
    outstanding_report rfl rfl ht (h.calls_lt t a ht)
  refine ⟨h.toTracked.report ht, ?_, ?_, ?_⟩
  · intro b hb hs
    obtain rfl := Option.some.inj hb
    rw [script_hash] at hs ⊢
    obtain ⟨hf, -, hhash⟩ := branch_report_halfOpen hs
    have hone := hcount (w.episodeAt cfg now)
    rw [if_pos (hprobe hf), ← (h.found_eq hf).1] at hone
    rw [hhash]
    exact Nat.sub_eq_of_eq_add hone.symm
  · intro b hb hs
    obtain rfl := Option.some.inj hb
    rw [script_hash] at hs ⊢
    obtain ⟨hf, rfl, hhash⟩ := branch_report_halfOpen hs
    rw [hhash, hprobe hf]
    exact (congrArg (· + 1) (h.found_eq hf).2).trans successesOf_report.symm
  · intro e
    have hle := hcount e
    have hbound := h.bounded e
    omega

theorem Exact.step (h : Exact cfg w) {l : Label} (hallow : reportsAreProbes cfg w l = true)
    (hstep : w.step cfg l = some w') : Exact cfg w' := by
  cases l with
  | allow now =>
    obtain rfl := Option.some.inj hstep
    exact h.allow
  | peek now =>
    obtain rfl := Option.some.inj hstep
    exact h.peek
  | report t ok now =>
    obtain ⟨a, ht, rfl⟩ := Option.map_eq_some_iff.mp hstep
    refine h.report ht fun hf => ?_
    simpa [reportsAreProbes, hf, ht] using hallow
  | drop =>
    obtain rfl := Option.some.inj hstep
    exact ⟨h.toTracked.drop, by simp, by simp, h.bounded⟩

theorem exact_of_reach (hw : (system cfg).Reach (reportsAreProbes cfg) w) : Exact cfg w :=
  hw.invariant Exact.empty fun _ _ _ h hallow hstep => h.step hallow hstep

/-- A half-open breaker closes on a success that completes the number needed. -/
theorem state_report_closed (hf : (w.found cfg now).state = .halfOpen)
    (hs : (w.report cfg t a ok now).state = .closed) :
    ok = true ∧ cfg.probeSuccesses ≤ (w.found cfg now).probeOk + 1 := by
  change (Breaker.branch cfg now (w.found cfg now) (reportOp ok)).2.2.state = .closed at hs
  cases ok with
  | false =>
    have hopen := branch_failure_halfOpen cfg now hf
    exact absurd (hopen.symm.trans hs) (by decide)
  | true =>
    rw [reportOp, branch_success_halfOpen hf] at hs
    split at hs
    · exact ⟨rfl, ‹_›⟩
    · exact absurd (hf.symm.trans hs) (by decide)

/-- A half-open breaker reopens on a failure. -/
theorem state_report_opened (hf : (w.found cfg now).state = .halfOpen)
    (hs : (w.report cfg t a ok now).state = .opened) : ok = false := by
  cases ok with
  | false => rfl
  | true =>
    change (Breaker.branch cfg now (w.found cfg now) .success).2.2.state = .opened at hs
    rw [branch_success_halfOpen hf] at hs
    split at hs
    · cases hs
    · exact absurd (hf.symm.trans hs) (by decide)

/-- **A half-open breaker is decided by its probes** in every run in which each report that
finds the breaker half-open comes from a call admitted in that episode. -/
theorem probesDecide_of_reach (cfg : BreakerConfig) (w w' : Circuit) (l : Label)
    (hw : (system cfg).Reach (reportsAreProbes cfg) w)
    (hallow : reportsAreProbes cfg w l = true) (hstep : w.step cfg l = some w') :
    ProbesDecide cfg w l w' := by
  have hexact := exact_of_reach hw
  refine ⟨(hexact.step hallow hstep).bounded, ?_, ?_⟩
  · intro now hnow hf hclosed
    cases l with
    | allow n =>
      obtain rfl := Option.some.inj hstep
      obtain rfl := Option.some.inj hnow
      rw [state_allow, hf] at hclosed
      cases hclosed
    | peek n =>
      obtain rfl := Option.some.inj hstep
      obtain rfl := Option.some.inj hnow
      rw [state_peek, hf] at hclosed
      cases hclosed
    | report t ok n =>
      obtain ⟨a, ht, rfl⟩ := Option.map_eq_some_iff.mp hstep
      obtain rfl := Option.some.inj hnow
      have ha : a = .probe (w.episodeAt cfg n) := by
        simpa [reportsAreProbes, hf, ht] using hallow
      obtain ⟨rfl, henough⟩ := state_report_closed hf hclosed
      rw [(hexact.found_eq hf).2] at henough
      subst ha
      exact henough.trans successesOf_report.ge
    | drop => cases hnow
  · intro now hnow hf hopened
    cases l with
    | allow n =>
      obtain rfl := Option.some.inj hstep
      obtain rfl := Option.some.inj hnow
      rw [state_allow, hf] at hopened
      cases hopened
    | peek n =>
      obtain rfl := Option.some.inj hstep
      obtain rfl := Option.some.inj hnow
      rw [state_peek, hf] at hopened
      cases hopened
    | report t ok n =>
      obtain ⟨a, ht, rfl⟩ := Option.map_eq_some_iff.mp hstep
      obtain rfl := Option.some.inj hnow
      have ha : a = .probe (w.episodeAt cfg n) := by
        simpa [reportsAreProbes, hf, ht] using hallow
      obtain rfl := state_report_opened hf hopened
      exact ⟨t, rfl, ht.trans (congrArg some ha)⟩
    | drop => cases hnow

/-- Eleven calls are admitted by a closed breaker, and ten of them fail: it opens. -/
def trip : List Label :=
  List.replicate 11 (.allow 0) ++ (List.range 10).map fun t => .report t false 1

/-- Two probes of the first episode succeed, one after the other. -/
theorem probesDecide_two_probes :
    ∃ w w', (system .default).Reach (reportsAreProbes .default) w ∧
      (w.found .default 7000).state = .halfOpen ∧ w'.state = .closed ∧
      ProbesDecide .default w (.report 12 true 7000) w' := by
  obtain ⟨w, hw, hq⟩ := System.exists_of_runAll (system .default) (reportsAreProbes .default)
    (fun w => (w.found .default 7000).state = .halfOpen &&
      reportsAreProbes .default w (.report 12 true 7000) &&
      (w.step .default (.report 12 true 7000)).any fun w' => w'.state = .closed)
    (trip ++ [.allow 6000, .allow 6000, .report 11 true 6500]) (by decide +kernel)
  simp only [Bool.and_eq_true, decide_eq_true_eq, Option.any_eq_true] at hq
  obtain ⟨⟨hf, hallow⟩, w', hstep, hclosed⟩ := hq
  exact ⟨w, w', hw, hf, hclosed, probesDecide_of_reach _ w w' _ hw hallow hstep⟩

/-- The eleventh call, admitted before the breaker opened, fails while a probe is under
way, and reopens the breaker. -/
theorem not_probesDecide_late_report :
    ¬ ∀ (cfg : BreakerConfig) (w w' : Circuit) (l : Label),
      (system cfg).Reach System.anyStep w → w.step cfg l = some w' →
        ProbesDecide cfg w l w' := by
  intro hall
  obtain ⟨w, hw, hq⟩ := System.exists_of_runAll (system .default) System.anyStep
    (fun w => (w.found .default 7000).state = .halfOpen &&
      w.calls 10 = some .whileClosed &&
      (w.step .default (.report 10 false 7000)).any fun w' => w'.state = .opened)
    (trip ++ [.allow 6000]) (by decide +kernel)
  simp only [Bool.and_eq_true, decide_eq_true_eq, Option.any_eq_true] at hq
  obtain ⟨⟨hf, hcall⟩, w', hstep, hopened⟩ := hq
  obtain ⟨t, hl, ht⟩ := (hall _ w w' _ hw hstep).reopens 7000 rfl hf hopened
  cases hl
  rw [hcall] at ht
  cases ht

end Circuit
end OcrOrchestrator
