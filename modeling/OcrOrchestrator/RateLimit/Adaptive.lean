import Mathlib.Algebra.Order.Floor.Ring
import Mathlib.Data.List.Sort
import Mathlib.Data.Rat.Floor
import Mathlib.Tactic.Linarith
import Mathlib.Tactic.NormNum
import Mathlib.Tactic.Positivity

/-!
# The AIMD rate controller

The controller moves the rate that is handed to the token bucket: down by a factor when the
endpoint is congested, up by a step after enough successes in a row.  It is one script over
one hash and one ring of latencies, so any number of replicas make a sequence of operations.

There are two congestion signals.  An explicit one (a 429 or a timeout) may push the rate
down to `min_rate`; a breach of the latency objective, seen in a success, only down to
`latency_min_rate`.  Both floors act on the same rate.

Rates and times are exact rationals.  The ring of latencies may expire at any time; the hash
does not.

## Main definitions

* `Aimd.script` — one operation.
* `Aimd.trace` — the operations of a run, each with what it found and what it left.
* `Aimd.breachesAboveFloor` — no latency breach lowers a rate that is below its floor.
-/

namespace OcrOrchestrator

/-- The arguments of an `AdaptiveRate`, as its constructor accepts them. -/
structure AimdConfig where
  maxRate : ℚ
  minRate : ℚ
  decreaseFactor : ℚ
  increaseStep : ℚ
  increaseAfter : ℕ
  refractoryMs : ℚ
  latencySloMs : ℚ
  latencyMinRate : ℚ
  latencySamples : ℕ
  latencyMinSamples : ℕ
  minRate_pos : 0 < minRate
  decreaseFactor_pos : 0 < decreaseFactor
  decreaseFactor_lt_one : decreaseFactor < 1
  increaseStep_pos : 0 < increaseStep
  increaseAfter_pos : 1 ≤ increaseAfter
  minRate_le : minRate ≤ latencyMinRate
  latencyMinRate_le : latencyMinRate ≤ maxRate

/-- The hash under the controller's key. -/
structure AimdHash where
  rate : ℚ
  successes : ℕ
  lastDecreaseAt : ℚ

/-- `on_success`, `on_congestion` and `current`. -/
inductive AimdOp where
  | success (latencyMs : ℚ)
  | congestion
  | read
  deriving DecidableEq

/-- What makes an operation a congested one. -/
inductive AimdSignal where
  | explicit
  | latency
  deriving DecidableEq

inductive AimdReason where
  | increase
  | decrease
  | decreaseLatency
  | refractory
  | atFloor
  | none
  deriving DecidableEq

/-- `RateVerdict`. -/
structure RateVerdict where
  rate : ℚ
  changed : Bool
  reason : AimdReason
  p95Ms : ℤ
  successes : ℕ

namespace Aimd

/-- `HMGET` with the script's defaults: a missing key starts at the advertised rate. -/
def load (cfg : AimdConfig) : Option AimdHash → AimdHash
  | some h => h
  | none => ⟨cfg.maxRate, 0, 0⟩

/-- `LTRIM key 0 (size - 1)`; for size 0 that is the whole list. -/
def ltrim (size : ℕ) (ring : List ℚ) : List ℚ := if size = 0 then ring else ring.take size

/-- The 95th percentile of the ring, if there are enough samples. -/
def p95 (cfg : AimdConfig) (ring : List ℚ) : Option ℚ :=
  if cfg.latencyMinSamples ≤ ring.length then
    (ring.insertionSort (· ≤ ·))[(max 1 ⌈(19 / 20 : ℚ) * ring.length⌉).toNat - 1]?
  else none

/-- A success is recorded in the ring, which then says how slow the endpoint is. -/
def observe (cfg : AimdConfig) (ring : List ℚ) : AimdOp → Option ℚ × List ℚ
  | .success latencyMs =>
    if 0 ≤ latencyMs ∧ 0 < cfg.latencySloMs then
      let ring := ltrim cfg.latencySamples (latencyMs :: ring)
      (p95 cfg ring, ring)
    else (none, ring)
  | _ => (none, ring)

/-- Is the operation a congested one, and why? -/
def signal? (cfg : AimdConfig) (p95 : Option ℚ) : AimdOp → Option AimdSignal
  | .congestion => some .explicit
  | _ =>
    if p95.any fun p => 0 ≤ p && decide (0 < cfg.latencySloMs) && decide (cfg.latencySloMs < p)
    then some .latency else none

/-- How far down each signal may push the rate. -/
def floor (cfg : AimdConfig) : AimdSignal → ℚ
  | .explicit => cfg.minRate
  | .latency => cfg.latencyMinRate

/-- The reason of a step that lowers the rate for a signal. -/
def decreased : AimdSignal → AimdReason
  | .explicit => .decrease
  | .latency => .decreaseLatency

/-- The congested branch: progress towards an increase is discarded, and outside the
refractory window the rate is cut, but not below the floor of the signal. -/
def slowDown (cfg : AimdConfig) (now : ℚ) (signal : AimdSignal) (h : AimdHash) :
    AimdReason × AimdHash :=
  if now - h.lastDecreaseAt < cfg.refractoryMs then (.refractory, { h with successes := 0 })
  else
    let newRate := max (h.rate * cfg.decreaseFactor) (floor cfg signal)
    (if newRate ≠ h.rate then decreased signal else .atFloor, ⟨newRate, 0, now⟩)

/-- The success branch: one more success, and after enough of them an additive increase. -/
def bank (cfg : AimdConfig) (h : AimdHash) : AimdReason × AimdHash :=
  if cfg.increaseAfter ≤ h.successes + 1 then
    if h.rate < cfg.maxRate then
      (.increase, { h with rate := min (h.rate + cfg.increaseStep) cfg.maxRate, successes := 0 })
    else (.none, { h with successes := 0 })
  else (.none, { h with successes := h.successes + 1 })

/-- The branch an operation takes on the hash it finds. -/
def branch (cfg : AimdConfig) (now : ℚ) (op : AimdOp) (signal : Option AimdSignal)
    (h : AimdHash) : AimdReason × AimdHash :=
  match signal, op with
  | some signal, _ => slowDown cfg now signal h
  | none, .success _ => bank cfg h
  | none, _ => (.none, h)

/-- `_AIMD_LUA`. -/
def script (cfg : AimdConfig) (op : AimdOp) (now : ℚ) (key : Option AimdHash) (ring : List ℚ) :
    RateVerdict × AimdHash × List ℚ :=
  let seen := observe cfg ring op
  let h := load cfg key
  let out := branch cfg now op (signal? cfg seen.1 op) h
  (⟨⌊out.2.rate * 1000 + 1 / 2⌋ / 1000, decide (out.2.rate ≠ h.rate), out.1,
    ⌊seen.1.getD (-1) + 1 / 2⌋, out.2.successes⟩, out.2, seen.2)

/-! ## Runs -/

/-- An operation at a time the server reads, or the expiry of the ring. -/
inductive Event where
  | op (op : AimdOp) (now : ℚ)
  | ringExpires

/-- The time of an operation. -/
def Event.time? : Event → Option ℚ
  | op _ now => some now
  | ringExpires => none

/-- What one operation found and left. -/
structure Step where
  op : AimdOp
  now : ℚ
  signal : Option AimdSignal
  before : AimdHash
  reason : AimdReason
  after : AimdHash

/-- The operation as the script performs it. -/
def perform (cfg : AimdConfig) (key : Option AimdHash) (ring : List ℚ) (op : AimdOp) (now : ℚ) :
    Step :=
  let signal := signal? cfg (observe cfg ring op).1 op
  ⟨op, now, signal, load cfg key, (script cfg op now key ring).1.reason,
    (script cfg op now key ring).2.1⟩

/-- The operations of a run, from a hash and a ring on. -/
def trace (cfg : AimdConfig) : Option AimdHash → List ℚ → List Event → List Step
  | _, _, [] => []
  | key, _, .ringExpires :: es => trace cfg key [] es
  | key, ring, .op op now :: es =>
    perform cfg key ring op now ::
      trace cfg (some (script cfg op now key ring).2.1) (script cfg op now key ring).2.2 es

/-- The script took the congested branch. -/
def Step.congested (x : Step) : Bool := x.signal.isSome

/-- A success that is not congested. -/
def Step.banks (x : Step) : Bool :=
  x.signal.isNone && match x.op with
    | .success _ => true
    | _ => false

/-- The step lowers the rate. -/
def Step.lowers (x : Step) : Bool := decide (x.after.rate < x.before.rate)

/-- What an operation can do. -/
inductive Performed (cfg : AimdConfig) : Step → Prop where
  | refractory (op : AimdOp) (now : ℚ) (signal : AimdSignal) (h : AimdHash)
      (hin : now - h.lastDecreaseAt < cfg.refractoryMs) :
      Performed cfg ⟨op, now, some signal, h, .refractory, { h with successes := 0 }⟩
  | cut (op : AimdOp) (now : ℚ) (signal : AimdSignal) (h : AimdHash) (reason : AimdReason)
      (hout : cfg.refractoryMs ≤ now - h.lastDecreaseAt) (hreason : reason ≠ .increase) :
      Performed cfg ⟨op, now, some signal, h, reason,
        ⟨max (h.rate * cfg.decreaseFactor) (floor cfg signal), 0, now⟩⟩
  | increase (latencyMs now : ℚ) (h : AimdHash) (hearned : cfg.increaseAfter ≤ h.successes + 1)
      (hlow : h.rate < cfg.maxRate) :
      Performed cfg ⟨.success latencyMs, now, none, h, .increase,
        { h with rate := min (h.rate + cfg.increaseStep) cfg.maxRate, successes := 0 }⟩
  | full (latencyMs now : ℚ) (h : AimdHash) :
      Performed cfg ⟨.success latencyMs, now, none, h, .none, { h with successes := 0 }⟩
  | bank (latencyMs now : ℚ) (h : AimdHash) :
      Performed cfg ⟨.success latencyMs, now, none, h, .none,
        { h with successes := h.successes + 1 }⟩
  | read (now : ℚ) (h : AimdHash) : Performed cfg ⟨.read, now, none, h, .none, h⟩

section Step
variable {cfg : AimdConfig} {x : Step}

theorem performed_slowDown (op : AimdOp) (now : ℚ) (signal : AimdSignal) (h : AimdHash) :
    Performed cfg ⟨op, now, some signal, h, (slowDown cfg now signal h).1,
      (slowDown cfg now signal h).2⟩ := by
  unfold slowDown
  split
  · rename_i hin
    exact .refractory op now signal h hin
  · rename_i hout
    refine .cut op now signal h _ (not_lt.mp hout) ?_
    dsimp only
    split
    · cases signal <;> simp [decreased]
    · simp

theorem performed_bank (latencyMs now : ℚ) (h : AimdHash) :
    Performed cfg ⟨.success latencyMs, now, none, h, (bank cfg h).1, (bank cfg h).2⟩ := by
  unfold bank
  split
  · rename_i hearned
    split
    · rename_i hlow
      exact .increase latencyMs now h hearned hlow
    · exact .full latencyMs now h
  · exact .bank latencyMs now h

/-- **Every operation** is one of the cases. -/
theorem performed_perform (cfg : AimdConfig) (key : Option AimdHash) (ring : List ℚ)
    (op : AimdOp) (now : ℚ) : Performed cfg (perform cfg key ring op now) := by
  unfold perform script branch
  dsimp only
  cases hsignal : signal? cfg (observe cfg ring op).1 op with
  | some signal => exact performed_slowDown op now signal _
  | none =>
    cases op with
    | success latencyMs => exact performed_bank latencyMs now _
    | congestion => cases hsignal
    | read => exact .read now _

/-- The rate is between the hard floor and the advertised rate. -/
def Within (cfg : AimdConfig) (h : AimdHash) : Prop :=
  cfg.minRate ≤ h.rate ∧ h.rate ≤ cfg.maxRate

theorem within_load_none (cfg : AimdConfig) : Within cfg (load cfg none) :=
  ⟨cfg.minRate_le.trans cfg.latencyMinRate_le, le_refl _⟩

theorem Performed.within (hx : Performed cfg x) (h : Within cfg x.before) :
    Within cfg x.after := by
  have hmin := cfg.minRate_le
  have hmax := cfg.latencyMinRate_le
  cases hx with
  | refractory => exact h
  | cut op now signal g reason hout hreason =>
    obtain ⟨hlow, hhigh⟩ := h
    have hpos : 0 < g.rate := cfg.minRate_pos.trans_le hlow
    have hcut : g.rate * cfg.decreaseFactor ≤ g.rate :=
      mul_le_of_le_one_right hpos.le cfg.decreaseFactor_lt_one.le
    have hfloor : cfg.minRate ≤ floor cfg signal ∧ floor cfg signal ≤ cfg.maxRate := by
      cases signal
      · exact ⟨le_refl _, hmin.trans hmax⟩
      · exact ⟨hmin, hmax⟩
    exact ⟨hfloor.1.trans (le_max_right _ _), max_le (hcut.trans hhigh) hfloor.2⟩
  | increase latencyMs now g hearned hlow =>
    have hstep := cfg.increaseStep_pos
    refine ⟨le_min ?_ (hmin.trans hmax), min_le_right _ _⟩
    have hg : cfg.minRate ≤ g.rate := h.1
    linarith
  | full => exact h
  | bank => exact h
  | read => exact h

/-- A step that lowers the rate is a cut outside the refractory window. -/
theorem Performed.of_lowers (hx : Performed cfg x) (h : x.lowers = true) :
    cfg.refractoryMs ≤ x.now - x.before.lastDecreaseAt ∧ x.after.lastDecreaseAt = x.now := by
  simp only [Step.lowers, decide_eq_true_eq] at h
  cases hx with
  | cut op now signal g reason hout hreason => exact ⟨hout, rfl⟩
  | increase latencyMs now g hearned hlow =>
    have hstep := cfg.increaseStep_pos
    have hup : g.rate ≤ min (g.rate + cfg.increaseStep) cfg.maxRate :=
      le_min (by linarith) hlow.le
    exact absurd h (not_lt.mpr hup)
  | refractory => exact absurd h (lt_irrefl _)
  | full => exact absurd h (lt_irrefl _)
  | bank => exact absurd h (lt_irrefl _)
  | read => exact absurd h (lt_irrefl _)

/-- The time of the last decrease is kept or set to now. -/
theorem Performed.lastDecreaseAt (hx : Performed cfg x) :
    x.after.lastDecreaseAt = x.before.lastDecreaseAt ∨ x.after.lastDecreaseAt = x.now := by
  cases hx with
  | cut => exact .inr rfl
  | _ => exact .inl rfl

/-- The count of successes grows with a success that is not congested, and only then. -/
theorem Performed.successes_le (hx : Performed cfg x) :
    x.after.successes ≤ x.before.successes + if x.banks then 1 else 0 := by
  cases hx with
  | bank => exact le_refl _
  | read => exact le_refl _
  | _ => exact Nat.zero_le _

/-- After an increase or a congested step the count starts again. -/
theorem Performed.successes_eq_zero (hx : Performed cfg x)
    (h : x.reason = .increase ∨ x.congested = true) : x.after.successes = 0 := by
  cases hx with
  | bank =>
    rcases h with h | h
    · cases h
    · cases h
  | read =>
    rcases h with h | h
    · cases h
    · cases h
  | _ => rfl

/-- An increase is the last of enough successes. -/
theorem Performed.of_increase (hx : Performed cfg x) (h : x.reason = .increase) :
    x.banks = true ∧ cfg.increaseAfter ≤ x.before.successes + 1 := by
  cases hx with
  | increase latencyMs now g hearned hlow => exact ⟨rfl, hearned⟩
  | cut op now signal g reason hout hreason => exact absurd h hreason
  | _ => cases h

end Step

/-! ## Pacing -/

section Trace
variable {cfg : AimdConfig} {key : Option AimdHash} {ring : List ℚ} {es : List Event}

/-- The times of the operations do not decrease. -/
def Chronological (es : List Event) : Prop := (es.filterMap Event.time?).Pairwise (· ≤ ·)

theorem performed_of_mem {x : Step} (hx : x ∈ trace cfg key ring es) : Performed cfg x := by
  induction es generalizing key ring with
  | nil => cases hx
  | cons e es ih =>
    cases e with
    | ringExpires => exact ih hx
    | op op now =>
      rcases List.mem_cons.mp hx with rfl | hx
      · exact performed_perform cfg key ring op now
      · exact ih hx

theorem within_of_mem {x : Step} (hkey : Within cfg (load cfg key))
    (hx : x ∈ trace cfg key ring es) : Within cfg x.before ∧ Within cfg x.after := by
  induction es generalizing key ring with
  | nil => cases hx
  | cons e es ih =>
    cases e with
    | ringExpires => exact ih hkey hx
    | op op now =>
      have hafter := (performed_perform cfg key ring op now).within hkey
      rcases List.mem_cons.mp hx with rfl | hx
      · exact ⟨hkey, hafter⟩
      · refine ih ?_ hx
        exact hafter

/-- A step that lowers the rate comes a refractory time after the last decrease. -/
theorem lastDecreaseAt_add_le {x : Step} (hes : Chronological es)
    (hlast : ∀ t ∈ es.filterMap Event.time?, (load cfg key).lastDecreaseAt ≤ t)
    (hx : x ∈ trace cfg key ring es) (hlowers : x.lowers = true) :
    (load cfg key).lastDecreaseAt + cfg.refractoryMs ≤ x.now := by
  induction es generalizing key ring with
  | nil => cases hx
  | cons e es ih =>
    cases e with
    | ringExpires => exact ih hes hlast hx
    | op op now =>
      have hperf := performed_perform cfg key ring op now
      obtain ⟨hfirst, hrest⟩ := List.pairwise_cons.mp hes
      rcases List.mem_cons.mp hx with rfl | hx
      · have hout : cfg.refractoryMs ≤ now - (load cfg key).lastDecreaseAt :=
          (hperf.of_lowers hlowers).1
        change (load cfg key).lastDecreaseAt + cfg.refractoryMs ≤ now
        linarith
      · -- the time of the last decrease has been kept or has moved up to `now`
        have hold : (load cfg key).lastDecreaseAt ≤ now := hlast now List.mem_cons_self
        have hle : (load cfg key).lastDecreaseAt ≤
            (load cfg (some (script cfg op now key ring).2.1)).lastDecreaseAt := by
          rcases hperf.lastDecreaseAt with hkept | hset
          · exact hkept.ge
          · exact hold.trans hset.ge
        have hlast' : ∀ t ∈ es.filterMap Event.time?,
            (load cfg (some (script cfg op now key ring).2.1)).lastDecreaseAt ≤ t := by
          intro t ht
          rcases hperf.lastDecreaseAt with hkept | hset
          · exact hkept.le.trans (hlast t (List.mem_cons_of_mem _ ht))
          · exact hset.le.trans (hfirst t ht)
        exact (add_le_add_left hle _).trans (ih hrest hlast' hx)

/-- Steps that lower the rate are a refractory time apart. -/
theorem pairwise_lowers (hes : Chronological es) :
    ((trace cfg key ring es).filter Step.lowers).Pairwise
      fun x y => x.now + cfg.refractoryMs ≤ y.now := by
  rw [List.pairwise_filter]
  induction es generalizing key ring with
  | nil => exact List.Pairwise.nil
  | cons e es ih =>
    cases e with
    | ringExpires => exact ih hes
    | op op now =>
      obtain ⟨hfirst, hrest⟩ := List.pairwise_cons.mp hes
      refine List.pairwise_cons.mpr ⟨fun y hy hx hlowers => ?_, ih hrest⟩
      have hset := ((performed_perform cfg key ring op now).of_lowers hx).2
      have hset' : (load cfg (some (script cfg op now key ring).2.1)).lastDecreaseAt = now := hset
      have hapart := lastDecreaseAt_add_le hrest (fun t ht => hset'.le.trans (hfirst t ht)) hy
        hlowers
      rw [hset'] at hapart
      exact hapart

/-- Up to the next increase there are enough successes, counting those that were there. -/
theorem increaseAfter_le {mid post : List Step} {y : Step}
    (h : trace cfg key ring es = mid ++ y :: post) (hy : y.reason = .increase) :
    cfg.increaseAfter ≤ (load cfg key).successes + (mid ++ [y]).countP Step.banks := by
  induction es generalizing key ring mid with
  | nil =>
    simp only [trace] at h
    exact absurd h (by simp)
  | cons e es ih =>
    cases e with
    | ringExpires => exact ih h
    | op op now =>
      have hperf := performed_perform cfg key ring op now
      cases mid with
      | nil =>
        obtain ⟨rfl, -⟩ := List.cons.inj h
        obtain ⟨hbanks, hearned⟩ := hperf.of_increase hy
        rw [List.nil_append, List.countP_singleton, if_pos hbanks]
        exact hearned
      | cons x mid =>
        obtain ⟨rfl, hrest⟩ := List.cons.inj h
        have hle := hperf.successes_le
        have hnext := ih hrest
        rw [List.cons_append, List.countP_cons]
        change cfg.increaseAfter ≤ (perform cfg key ring op now).after.successes + _ at hnext
        change _ ≤ (load cfg key).successes + _ at hle
        omega

/-- What follows a step is the trace from what it left. -/
theorem trace_after {pre post : List Step} {x : Step}
    (h : trace cfg key ring es = pre ++ x :: post) :
    ∃ ring' es', trace cfg (some x.after) ring' es' = post := by
  induction es generalizing key ring pre with
  | nil =>
    simp only [trace] at h
    exact absurd h (by simp)
  | cons e es ih =>
    cases e with
    | ringExpires => exact ih h
    | op op now =>
      cases pre with
      | nil =>
        obtain ⟨rfl, hrest⟩ := List.cons.inj h
        exact ⟨_, _, hrest⟩
      | cons y pre => exact ih (List.cons.inj h).2

end Trace

/-- **Range and pacing** of a run: the rate stays in its range, decreases are a refractory
time apart, and every increase after a congested step or another increase is earned: from
that step on, up to and including the increase, there are enough successes. -/
structure Paced (cfg : AimdConfig) (steps : List Step) : Prop where
  range : ∀ x ∈ steps, cfg.minRate ≤ x.after.rate ∧ x.after.rate ≤ cfg.maxRate
  apart : (steps.filter Step.lowers).Pairwise fun x y => x.now + cfg.refractoryMs ≤ y.now
  earned : ∀ pre x mid y post, steps = pre ++ x :: (mid ++ y :: post) →
    (x.reason = .increase ∨ x.congested = true) → y.reason = .increase →
    cfg.increaseAfter ≤ (mid ++ [y]).countP Step.banks

theorem paced_trace (cfg : AimdConfig) (es : List Event) (hes : Chronological es) :
    Paced cfg (trace cfg none [] es) where
  range := by
    intro x hx
    exact (within_of_mem (within_load_none cfg) hx).2
  apart := pairwise_lowers hes
  earned := by
    intro pre x mid y post h hx hy
    have hperf : Performed cfg x :=
      performed_of_mem (by rw [h]; exact List.mem_append_right _ List.mem_cons_self)
    obtain ⟨ring', es', hrest⟩ := trace_after h
    have hearned := increaseAfter_le hrest hy
    have hzero : (load cfg (some x.after)).successes = 0 := hperf.successes_eq_zero hx
    rw [hzero, Nat.zero_add] at hearned
    exact hearned

/-- A controller that may go from ten per second down to one, by latency down to five. -/
def tenPerSecond : AimdConfig where
  maxRate := 10
  minRate := 1
  decreaseFactor := 7 / 10
  increaseStep := 1
  increaseAfter := 2
  refractoryMs := 1000
  latencySloMs := 4500
  latencyMinRate := 5
  latencySamples := 100
  latencyMinSamples := 1
  minRate_pos := by norm_num
  decreaseFactor_pos := by norm_num
  decreaseFactor_lt_one := by norm_num
  increaseStep_pos := by norm_num
  increaseAfter_pos := by norm_num
  minRate_le := by norm_num
  latencyMinRate_le := by norm_num

/-- Two rejections in one refractory window, two fast successes, and a third rejection. -/
def shortOutage : List Event :=
  [.op .congestion 2000, .op .congestion 2500, .op (.success 100) 3000, .op (.success 100) 3100,
    .op .congestion 3200]

theorem paced_shortOutage :
    (trace tenPerSecond none [] shortOutage).map (fun x => x.after.rate) = [7, 7, 7, 8, 28 / 5] ∧
      Paced tenPerSecond (trace tenPerSecond none [] shortOutage) :=
  ⟨by decide +kernel, paced_trace tenPerSecond shortOutage (by unfold Chronological; decide +kernel)⟩

/-! ## Congestion never raises the rate -/

/-- A latency breach that is acted on finds the rate at its own floor or above. -/
def breachesAboveFloor (cfg : AimdConfig) (x : Step) : Prop :=
  x.signal = some .latency → cfg.refractoryMs ≤ x.now - x.before.lastDecreaseAt →
    cfg.latencyMinRate ≤ x.before.rate

/-- The increase `x` comes after `pre`, at whose end there are, together with it, enough
successes without a congested step or another increase between them. -/
def Earned (cfg : AimdConfig) (pre : List Step) (x : Step) : Prop :=
  ∃ older mid, pre = older ++ mid ∧ (∀ y ∈ mid, y.congested = false ∧ y.reason ≠ .increase) ∧
    cfg.increaseAfter ≤ (mid ++ [x]).countP Step.banks

/-- **A congested step never raises the rate**, and the rate rises only by increases that
are earned. -/
def RisesEarned (cfg : AimdConfig) (steps : List Step) : Prop :=
  ∀ pre x post, steps = pre ++ x :: post →
    (x.congested = true → x.after.rate ≤ x.before.rate) ∧
      (x.before.rate < x.after.rate → x.reason = .increase ∧ Earned cfg pre x)

section Rises
variable {cfg : AimdConfig} {x : Step}

/-- The successes that are counted are at the end of what has happened. -/
def Counted (done : List Step) (successes : ℕ) : Prop :=
  ∃ older mid, done = older ++ mid ∧ (∀ y ∈ mid, y.congested = false ∧ y.reason ≠ .increase) ∧
    successes ≤ mid.countP Step.banks

theorem Performed.counted (hx : Performed cfg x) {done : List Step}
    (h : Counted done x.before.successes) : Counted (done ++ [x]) x.after.successes := by
  by_cases hreset : x.reason = .increase ∨ x.congested = true
  · exact ⟨done ++ [x], [], by simp, by simp, by rw [hx.successes_eq_zero hreset]; exact Nat.zero_le _⟩
  · obtain ⟨older, mid, rfl, hmid, hle⟩ := h
    rw [not_or, Bool.not_eq_true] at hreset
    refine ⟨older, mid ++ [x], by simp, ?_, ?_⟩
    · intro y hy
      rcases List.mem_append.mp hy with hy | hy
      · exact hmid y hy
      · obtain rfl := List.mem_singleton.mp hy
        exact ⟨hreset.2, hreset.1⟩
    · have hstep := hx.successes_le
      rw [List.countP_append, List.countP_singleton]
      omega

theorem counted_before {key : Option AimdHash} {ring : List ℚ} {es : List Event}
    {done mid post : List Step} (hdone : Counted done (load cfg key).successes)
    (h : trace cfg key ring es = mid ++ x :: post) : Counted (done ++ mid) x.before.successes := by
  induction es generalizing key ring done mid with
  | nil =>
    simp only [trace] at h
    exact absurd h (by simp)
  | cons e es ih =>
    cases e with
    | ringExpires => exact ih hdone h
    | op op now =>
      cases mid with
      | nil =>
        obtain ⟨rfl, -⟩ := List.cons.inj h
        rw [List.append_nil]
        exact hdone
      | cons y mid =>
        obtain ⟨rfl, hrest⟩ := List.cons.inj h
        rw [List.append_cons]
        refine ih ?_ hrest
        exact (performed_perform cfg key ring op now).counted hdone

/-- A cut raises the rate exactly when it is below the floor of its signal. -/
theorem Performed.congested_le_iff (hx : Performed cfg x) (hmin : cfg.minRate ≤ x.before.rate)
    (h : x.congested = true) :
    x.after.rate ≤ x.before.rate ↔ breachesAboveFloor cfg x := by
  cases hx with
  | refractory op now signal g hin =>
    refine ⟨fun _ _ hout => absurd hin (not_lt.mpr hout), fun _ => le_refl _⟩
  | cut op now signal g reason hout hreason =>
    have hpos : 0 < g.rate := cfg.minRate_pos.trans_le hmin
    have hcut : g.rate * cfg.decreaseFactor ≤ g.rate :=
      mul_le_of_le_one_right hpos.le cfg.decreaseFactor_lt_one.le
    constructor
    · intro hle hsignal _
      obtain rfl := Option.some.inj hsignal
      exact (le_max_right _ _).trans hle
    · intro habove
      refine max_le hcut ?_
      cases signal
      · exact hmin
      · exact habove rfl hout
  | increase => cases h
  | full => cases h
  | bank => cases h
  | read => cases h

/-- Only an increase raises the rate without congestion. -/
theorem Performed.reason_of_rises (hx : Performed cfg x) (h : x.congested = false)
    (hrises : x.before.rate < x.after.rate) : x.reason = .increase := by
  cases hx with
  | increase => rfl
  | refractory => cases h
  | cut => cases h
  | _ => exact absurd hrises (lt_irrefl _)

/-- **Congestion never raises the rate** exactly in the runs in which every latency breach
that is acted on finds the rate at the latency floor or above. -/
theorem risesEarned_iff (cfg : AimdConfig) (es : List Event) :
    RisesEarned cfg (trace cfg none [] es) ↔
      ∀ x ∈ trace cfg none [] es, breachesAboveFloor cfg x := by
  have hle : ∀ x ∈ trace cfg none [] es, x.congested = true →
      (x.after.rate ≤ x.before.rate ↔ breachesAboveFloor cfg x) := fun x hx hcongested =>
    (performed_of_mem hx).congested_le_iff (within_of_mem (within_load_none cfg) hx).1.1 hcongested
  constructor
  · intro hrises x hx hsignal
    obtain ⟨pre, post, hsplit⟩ := List.append_of_mem hx
    have hcongested : x.congested = true := by simp [Step.congested, hsignal]
    exact (hle x hx hcongested).mp ((hrises pre x post hsplit).1 hcongested) hsignal
  · intro habove pre x post hsplit
    have hx : x ∈ trace cfg none [] es := by
      rw [hsplit]
      exact List.mem_append_right _ List.mem_cons_self
    refine ⟨fun hcongested => (hle x hx hcongested).mpr (habove x hx), fun hup => ?_⟩
    have hcalm : x.congested = false := by
      by_contra hcongested
      rw [Bool.not_eq_false] at hcongested
      exact absurd ((hle x hx hcongested).mpr (habove x hx)) (not_le.mpr hup)
    have hreason := (performed_of_mem hx).reason_of_rises hcalm hup
    obtain ⟨hbanks, hearned⟩ := (performed_of_mem hx).of_increase hreason
    refine ⟨hreason, ?_⟩
    have hnone : Counted [] (load cfg none).successes := ⟨[], [], rfl, by simp, le_refl _⟩
    obtain ⟨older, mid, hpre, hmid, hcount⟩ := counted_before hnone hsplit
    refine ⟨older, mid, hpre, hmid, ?_⟩
    rw [List.countP_append, List.countP_singleton, if_pos hbanks]
    omega

/-- Three rejections a second apart, then a success that took five seconds. -/
def slowSuccess : List Event :=
  [.op .congestion 1000, .op .congestion 2000, .op .congestion 3000, .op (.success 5000) 4000]

/-- The rejections push the rate below the latency floor, and the slow success lifts it. -/
theorem not_risesEarned_slow_success :
    ¬ ∀ (cfg : AimdConfig) (es : List Event), Chronological es →
      RisesEarned cfg (trace cfg none [] es) := by
  intro hall
  have hrises := hall tenPerSecond slowSuccess (by unfold Chronological; decide +kernel)
  have hlifted : (trace tenPerSecond none [] slowSuccess).any
      (fun x => x.congested && decide (x.before.rate < x.after.rate)) = true := by decide +kernel
  obtain ⟨x, hx, hlift⟩ := List.any_eq_true.mp hlifted
  simp only [Bool.and_eq_true, decide_eq_true_eq] at hlift
  obtain ⟨pre, post, hsplit⟩ := List.append_of_mem hx
  exact absurd ((hrises pre x post hsplit).1 hlift.1) (not_le.mpr hlift.2)

end Rises

end Aimd
end OcrOrchestrator
