import Mathlib.Algebra.Order.Floor.Ring
import Mathlib.Data.Rat.Floor
import Mathlib.Tactic.Linarith
import Mathlib.Tactic.Positivity
import Mathlib.Tactic.FieldSimp

/-!
# The token bucket

The bucket of an endpoint is one Redis hash, a balance and the time it was last brought up
to date, and one Lua script.  The script never makes a caller poll: a call that finds no
token takes one on credit, the balance goes negative, and the answer says when the slot
starts.  A call that would have to wait longer than it is willing to takes nothing.

The rate is an argument of every call.  A slot is promised in milliseconds at the rate of
the call that reserved it, but the debt is kept in tokens and is paid off at the rates of
the calls that come later.

Arithmetic is exact.  A run is the list of the calls in the order the server executes them.

## Main definitions

* `Bucket.script` — one call.
* `Bucket.starts` — the start times of the slots a run grants.
* `Bucket.RisesWhenPaid`, `Bucket.PaidAtGrantRate` — how the rate may move while there is
  a debt.
-/

namespace OcrOrchestrator

/-- The hash under the bucket's key. -/
structure BucketHash where
  tokens : ℚ
  ts : ℚ
  deriving DecidableEq

/-- The arguments of one call, with the time the server reads. -/
structure Request where
  now : ℚ
  rate : ℚ
  cost : ℚ
  maxWaitMs : ℚ

/-- The answer of `try_acquire`. -/
structure Acquisition where
  granted : Bool
  waitMs : ℤ
  tokens : ℚ

/-- The arguments of a `TokenBucketLimiter`, as its constructor accepts them. -/
structure BucketConfig where
  rate : ℚ
  burst : ℕ
  rate_pos : 0 < rate
  burst_pos : 0 < burst

namespace Bucket

/-- First use, or the key expired while idle: start full. -/
def load (burst : ℕ) (now : ℚ) : Option BucketHash → BucketHash
  | some h => h
  | none => ⟨burst, now⟩

/-- Lazy refill from the elapsed time; a clock that does not advance adds nothing. -/
def refill (burst : ℕ) (q : Request) (h : BucketHash) : BucketHash :=
  if 0 < q.now - h.ts then ⟨min burst (h.tokens + (q.now - h.ts) * q.rate / 1000), q.now⟩ else h

/-- The reply carries the balance rounded down to thousandths. -/
def reply (granted : Bool) (waitMs : ℤ) (h : BucketHash) : Acquisition :=
  ⟨granted, waitMs, ⌊h.tokens * 1000⌋ / 1000⟩

/-- `_BUCKET_LUA`. -/
def script (burst : ℕ) (q : Request) (key : Option BucketHash) : Acquisition × BucketHash :=
  let h := refill burst q (load burst q.now key)
  if q.cost ≤ h.tokens then
    let h' := { h with tokens := h.tokens - q.cost }
    (reply true 0 h', h')
  else
    let waitMs := ⌈(q.cost - h.tokens) * 1000 / q.rate⌉
    if (waitMs : ℚ) ≤ q.maxWaitMs then
      let h' := { h with tokens := h.tokens - q.cost }
      (reply true waitMs h', h')
    else (reply false waitMs h, h)

/-- `try_acquire`: the configured rate unless the call brings its own. -/
def tryAcquire (cfg : BucketConfig) (cost maxWaitS : ℚ) (rate : Option ℚ) (now : ℚ)
    (key : Option BucketHash) : Acquisition × BucketHash :=
  script cfg.burst ⟨now, rate.getD cfg.rate, cost, maxWaitS * 1000⟩ key

/-- The start times of the slots that a list of calls is granted, in the order of the
calls. -/
def starts (burst : ℕ) : Option BucketHash → List Request → List ℚ
  | _, [] => []
  | key, q :: qs =>
    let out := script burst q key
    (if out.1.granted then [q.now + out.1.waitMs] else []) ++ starts burst (some out.2) qs

/-- The hash after a list of calls. -/
def after (burst : ℕ) : Option BucketHash → List Request → Option BucketHash
  | key, [] => key
  | key, q :: qs => after burst (some (script burst q key).2) qs

/-! ## One call of cost one -/

section Call
variable {burst : ℕ} {q : Request} {key : Option BucketHash} {h : BucketHash}

/-- The hash as a call finds it once the elapsed time is credited. -/
def found (burst : ℕ) (q : Request) (key : Option BucketHash) : BucketHash :=
  refill burst q (load burst q.now key)

theorem refill_ts (hts : h.ts ≤ q.now) : (refill burst q h).ts = q.now := by
  unfold refill
  split
  · rfl
  · linarith

/-- The balance found is at most the stored one plus the refill, and at most the burst. -/
theorem refill_tokens_le (burst : ℕ) (hts : h.ts ≤ q.now) (hr : 0 ≤ q.rate) :
    (refill burst q h).tokens ≤ h.tokens + (q.now - h.ts) * q.rate / 1000 := by
  unfold refill
  split
  · exact min_le_right _ _
  · have : 0 ≤ (q.now - h.ts) * q.rate / 1000 := by
      have := sub_nonneg.mpr hts
      positivity
    linarith

theorem refill_tokens_le_burst (hb : h.tokens ≤ burst) : (refill burst q h).tokens ≤ burst := by
  unfold refill
  split
  · exact min_le_left _ _
  · exact hb

/-- A call that is not granted leaves the balance at its refilled value. -/
theorem script_refused (h : (script burst q key).1.granted = false) :
    (script burst q key).2 = found burst q key := by
  simp only [script, found] at h ⊢
  split at h
  · simp [reply] at h
  · rename_i hcost
    split at h
    · simp [reply] at h
    · rename_i hwait
      rw [if_neg hcost, if_neg hwait]

/-- A call that is granted takes its cost, on credit if it has to wait, and the wait is
the time the debt takes at the rate of the call, rounded up. -/
theorem script_granted (h : (script burst q key).1.granted = true) :
    (script burst q key).2.tokens = (found burst q key).tokens - q.cost ∧
      (script burst q key).2.ts = (found burst q key).ts ∧
      (script burst q key).1.waitMs =
        if 0 ≤ (script burst q key).2.tokens then 0
        else ⌈-(script burst q key).2.tokens * 1000 / q.rate⌉ := by
  simp only [script, found] at h ⊢
  split at h
  · rename_i hcost
    rw [if_pos hcost]
    refine ⟨rfl, rfl, ?_⟩
    dsimp only [reply]
    rw [if_pos (sub_nonneg.mpr hcost)]
  · rename_i hcost
    rw [if_neg hcost]
    split at h
    · rename_i hwait
      rw [if_pos hwait]
      refine ⟨rfl, rfl, ?_⟩
      dsimp only [reply]
      rw [if_neg (not_le.mpr (sub_neg.mpr (not_le.mp hcost))), neg_sub]
    · simp [reply] at h

/-- The debt is paid off by the start of the slot, at the rate of the call. -/
theorem neg_tokens_le_wait (h : (script burst q key).1.granted = true) (hr : 0 < q.rate) :
    -(script burst q key).2.tokens ≤ q.rate * (script burst q key).1.waitMs / 1000 := by
  obtain ⟨-, -, hwait⟩ := script_granted h
  split at hwait
  · rename_i hpos
    rw [hwait]
    simpa using hpos
  · have hceil := Int.le_ceil (-(script burst q key).2.tokens * 1000 / q.rate)
    rw [← hwait, div_le_iff₀ hr] at hceil
    linarith

/-- A slot that has to be waited for starts less than a millisecond after the debt would
be paid off. -/
theorem tokens_lt_of_wait (h : (script burst q key).1.granted = true) (hr : 0 < q.rate)
    (hneg : (script burst q key).2.tokens < 0) :
    (script burst q key).2.tokens < -(q.rate * ((script burst q key).1.waitMs - 1) / 1000) := by
  obtain ⟨-, -, hwait⟩ := script_granted h
  rw [if_neg (not_le.mpr hneg)] at hwait
  have hceil := Int.ceil_lt_add_one (-(script burst q key).2.tokens * 1000 / q.rate)
  rw [← hwait, ← sub_lt_iff_lt_add, lt_div_iff₀ hr] at hceil
  linarith

/-- A slot that needs no waiting leaves a balance that is not negative. -/
theorem waitMs_eq_zero (h : (script burst q key).1.granted = true)
    (hpos : 0 ≤ (script burst q key).2.tokens) : (script burst q key).1.waitMs = 0 := by
  rw [(script_granted h).2.2, if_pos hpos]

end Call

/-! ## Slots since a slot -/

/-- A slot that was granted: the rate of its call and its start. -/
structure Slot where
  rate : ℚ
  start : ℚ
  deriving DecidableEq

/-- The last slot granted, once another call has been served. -/
def lastSlot (burst : ℕ) (q : Request) (key : Option BucketHash) (last : Option Slot) :
    Option Slot :=
  if (script burst q key).1.granted then some ⟨q.rate, q.now + (script burst q key).1.waitMs⟩
  else last

/-- The balance after a slot at `s` and `n` further slots.  Either the debt of that slot
has been paid off, and the account runs at the highest rate; or it has not, and then no slot
since has been granted at a rate above `ρ`, the one at which the slot was promised. -/
def Since (burst : ℕ) (R s : ℚ) (n : ℕ) (h : BucketHash) (last : Slot) : Prop :=
  n + h.tokens ≤ burst - 1 + R * (h.ts - s + 1) / 1000 ∨
    (h.tokens < 0 ∧ ∃ ρ, 0 < ρ ∧ last.rate ≤ ρ ∧ ρ ≤ R ∧
      n ≤ ρ * (last.start - s + 1) / 1000 ∧ n + h.tokens ≤ ρ * (h.ts - s + 1) / 1000)

section Since
variable {burst : ℕ} {R s : ℚ} {n : ℕ} {q : Request} {h : BucketHash} {last last' : Slot}

/-- The slots taken so far, when the next call has been served. -/
def taken (burst : ℕ) (q : Request) (key : Option BucketHash) (n : ℕ) : ℕ :=
  if (script burst q key).1.granted then n + 1 else n

/-- Slots and balance together only grow by the refill. -/
theorem taken_add_tokens (burst : ℕ) (hcost : q.cost = 1) (hts : h.ts ≤ q.now) (hr : 0 ≤ q.rate) :
    (taken burst q (some h) n : ℚ) + (script burst q (some h)).2.tokens ≤
      n + h.tokens + (q.now - h.ts) * q.rate / 1000 := by
  have hle : (found burst q (some h)).tokens ≤ _ := refill_tokens_le burst hts hr
  simp only [load] at hle
  unfold taken
  cases hg : (script burst q (some h)).1.granted with
  | false =>
    rw [script_refused hg, if_neg (by simp)]
    linarith
  | true =>
    rw [(script_granted hg).1, hcost, if_pos rfl]
    push_cast
    linarith

theorem script_ts (burst : ℕ) (hts : h.ts ≤ q.now) : (script burst q (some h)).2.ts = q.now := by
  have hfound : (found burst q (some h)).ts = q.now := refill_ts hts
  cases hg : (script burst q (some h)).1.granted with
  | false => rw [script_refused hg, hfound]
  | true => rw [(script_granted hg).2.1, hfound]

/-- A call leaves at most the burst beside the slots there were before it. -/
theorem taken_add_tokens_le_burst (hcost : q.cost = 1) (hfull : h.tokens ≤ burst) :
    (taken burst q (some h) n : ℚ) + (script burst q (some h)).2.tokens ≤ n + burst := by
  have hle : (found burst q (some h)).tokens ≤ burst := refill_tokens_le_burst hfull
  unfold taken
  cases hg : (script burst q (some h)).1.granted with
  | false =>
    rw [script_refused hg, if_neg (by simp)]
    linarith
  | true =>
    rw [(script_granted hg).1, hcost, if_pos rfl]
    push_cast
    linarith

/-- A call at a rate no higher than `ρ` leaves no more slots than `ρ` allows up to the last. -/
theorem taken_le_of_debt {ρ : ℚ} (hr : 0 < q.rate) (hρ : q.rate ≤ ρ)
    (hlast : lastSlot burst q (some h) (some last) = some last')
    (hn : n ≤ ρ * (last.start - s + 1) / 1000)
    (hneg : (script burst q (some h)).2.tokens < 0)
    (hsum : (taken burst q (some h) n : ℚ) + (script burst q (some h)).2.tokens ≤
      ρ * (q.now - s + 1) / 1000) :
    (taken burst q (some h) n : ℚ) ≤ ρ * (last'.start - s + 1) / 1000 ∧
      (last' = last ∨ last'.rate = q.rate) := by
  unfold taken lastSlot at *
  cases hg : (script burst q (some h)).1.granted with
  | false =>
    simp only [hg, Bool.false_eq_true, if_false] at hlast ⊢
    obtain rfl := Option.some.inj hlast
    exact ⟨hn, .inl rfl⟩
  | true =>
    simp only [hg, if_true] at hlast hsum ⊢
    obtain rfl := Option.some.inj hlast
    refine ⟨?_, .inr rfl⟩
    have hpaid := neg_tokens_le_wait hg hr
    have hwait : (0 : ℚ) ≤ (script burst q (some h)).1.waitMs :=
      nonneg_of_mul_nonneg_right (by linarith) hr
    have : q.rate * (script burst q (some h)).1.waitMs ≤
        ρ * (script burst q (some h)).1.waitMs := by gcongr
    dsimp only
    linarith

theorem Since.step (hsince : Since burst R s n h last) (hburst : 0 < burst)
    (hcost : q.cost = 1) (hts : h.ts ≤ q.now) (hr : 0 < q.rate) (hR : q.rate ≤ R)
    (hlast : lastSlot burst q (some h) (some last) = some last')
    (hpaid : h.tokens < 0 → q.now < last.start + 1000 / R → q.rate ≤ last.rate) :
    Since burst R s (taken burst q (some h) n) (script burst q (some h)).2 last' := by
  have hgrow := taken_add_tokens burst (n := n) hcost hts hr.le
  have hb : (1 : ℚ) ≤ burst := by exact_mod_cast hburst
  have hRpos : 0 < R := hr.trans_le hR
  have helapsed : 0 ≤ q.now - h.ts := sub_nonneg.mpr hts
  unfold Since
  rw [script_ts burst hts]
  rcases hsince with hpos | ⟨hneg, ρ, hρpos, hrate, hρR, hn, hdebt⟩
  · left
    have : (q.now - h.ts) * q.rate ≤ (q.now - h.ts) * R := by gcongr
    linarith
  rcases le_or_gt (last.start + 1000 / R) q.now with hover | hbefore
  · -- a whole token at `R` has passed since the last slot, so the bucket may be full
    left
    have hfull : (taken burst q (some h) n : ℚ) + (script burst q (some h)).2.tokens ≤
        n + burst := taken_add_tokens_le_burst hcost (hneg.le.trans (Nat.cast_nonneg burst))
    have hreached : 0 ≤ last.start - s + 1 := by
      have : (0 : ℚ) ≤ n := Nat.cast_nonneg n
      exact nonneg_of_mul_nonneg_right (by linarith) hρpos
    have hslow : ρ * (last.start - s + 1) ≤ R * (last.start - s + 1) := by gcongr
    have htoken : R * (last.start + 1000 / R - s + 1) ≤ R * (q.now - s + 1) := by gcongr
    have hone : R * (last.start + 1000 / R - s + 1) = R * (last.start - s + 1) + 1000 := by
      field_simp
      ring
    linarith
  · have hρ : q.rate ≤ ρ := (hpaid hneg hbefore).trans hrate
    have : (q.now - h.ts) * q.rate ≤ (q.now - h.ts) * ρ := by gcongr
    have hsum : (taken burst q (some h) n : ℚ) + (script burst q (some h)).2.tokens ≤
        ρ * (q.now - s + 1) / 1000 := by linarith
    rcases lt_or_ge (script burst q (some h)).2.tokens 0 with hstill | hover
    · obtain ⟨hn', hgranted⟩ := taken_le_of_debt hr hρ hlast hn hstill hsum
      refine .inr ⟨hstill, ρ, hρpos, ?_, hρR, hn', hsum⟩
      rcases hgranted with rfl | hgranted
      · exact hrate
      · rwa [hgranted]
    · -- the debt is paid off, so the slot's start is at most a millisecond away
      left
      have hn : (0 : ℚ) ≤ taken burst q (some h) n := Nat.cast_nonneg _
      have hreached : 0 ≤ q.now - s + 1 := nonneg_of_mul_nonneg_right (by linarith) hρpos
      have : ρ * (q.now - s + 1) ≤ R * (q.now - s + 1) := by gcongr
      linarith

/-- The number of slots since `s`, when the latest of them has this start and no more is owed
than is paid by then at the highest rate. -/
theorem Since.taken_le (hsince : Since burst R s n h last)
    (hdebt : -h.tokens ≤ R * (last.start - h.ts) / 1000) (hburst : 0 < burst) :
    (n : ℚ) ≤ burst - 1 + R * (last.start - s + 1) / 1000 := by
  have hb : (1 : ℚ) ≤ burst := by exact_mod_cast hburst
  rcases hsince with hpos | ⟨-, ρ, hρpos, -, hρR, hle, -⟩
  · linarith
  · have hn : (0 : ℚ) ≤ n := Nat.cast_nonneg n
    have hreached : 0 ≤ last.start - s + 1 := nonneg_of_mul_nonneg_right (by linarith) hρpos
    have : ρ * (last.start - s + 1) ≤ R * (last.start - s + 1) := by gcongr
    linarith

end Since

/-! ## Rate conformance -/

/-- The calls of a client whose rate is steered: cost one, a rate of its own for every
call, a clock that does not run backwards. -/
structure Steered (R : ℚ) (qs : List Request) : Prop where
  cost : ∀ q ∈ qs, q.cost = 1
  rate_pos : ∀ q ∈ qs, 0 < q.rate
  rate_le : ∀ q ∈ qs, q.rate ≤ R
  clock : qs.Pairwise fun q q' => q.now ≤ q'.now

/-- The number of slots that start in the window `[a, a + T]`. -/
def slotsIn (a T : ℚ) (ss : List ℚ) : ℕ := ss.countP fun s => a ≤ s ∧ s ≤ a + T

/-- A call that finds a debt stored, and comes before a whole token at the highest rate has
passed since the start of the last slot, does not pass a higher rate than the call that was
granted this slot.  (The refill credits the time since the call before at the new rate, so that
it is not enough that the slot has started.) -/
def RisesWhenPaid (burst : ℕ) (R : ℚ) : Option BucketHash → Option Slot → List Request → Prop
  | _, _, [] => True
  | key, last, q :: qs =>
    (∀ h ∈ key, ∀ p ∈ last, h.tokens < 0 → q.now < p.start + 1000 / R → q.rate ≤ p.rate) ∧
      RisesWhenPaid burst R (some (script burst q key).2) (lastSlot burst q key last) qs

instance decidableRisesWhenPaid (burst : ℕ) (R : ℚ) : (key : Option BucketHash) →
    (last : Option Slot) → (qs : List Request) → Decidable (RisesWhenPaid burst R key last qs)
  | _, _, [] => .isTrue trivial
  | key, last, q :: qs =>
    @instDecidableAnd _ _ inferInstance
      (decidableRisesWhenPaid burst R (some (script burst q key).2) (lastSlot burst q key last) qs)

section Conformance
variable {burst : ℕ} {R a T s : ℚ} {n : ℕ} {q : Request} {qs : List Request} {h : BucketHash}
  {last : Slot}

theorem Steered.tail (hqs : Steered R (q :: qs)) : Steered R qs where
  cost := fun p hp => hqs.cost p (List.mem_cons_of_mem _ hp)
  rate_pos := fun p hp => hqs.rate_pos p (List.mem_cons_of_mem _ hp)
  rate_le := fun p hp => hqs.rate_le p (List.mem_cons_of_mem _ hp)
  clock := (List.pairwise_cons.mp hqs.clock).2

theorem slotsIn_starts_cons (key : Option BucketHash) :
    slotsIn a T (starts burst key (q :: qs)) =
      (if (script burst q key).1.granted ∧ a ≤ q.now + (script burst q key).1.waitMs ∧
          q.now + (script burst q key).1.waitMs ≤ a + T then 1 else 0) +
        slotsIn a T (starts burst (some (script burst q key).2) qs) := by
  simp only [starts, slotsIn, List.countP_append]
  congr 1
  cases (script burst q key).1.granted
  · simp
  · simp [List.countP_cons]

theorem waitMs_nonneg {key : Option BucketHash} (hg : (script burst q key).1.granted = true)
    (hr : 0 < q.rate) : (0 : ℚ) ≤ (script burst q key).1.waitMs := by
  rcases le_or_gt 0 (script burst q key).2.tokens with hpos | hneg
  · rw [waitMs_eq_zero hg hpos]
    simp
  · have hdebt := neg_tokens_le_wait hg hr
    exact nonneg_of_mul_nonneg_right (by linarith) hr

/-- After a slot that starts in the window, the window holds at most as many further ones
as the account allows. -/
theorem Since.slotsIn_le (hburst : 0 < burst) (hs : a ≤ s) (hqs : Steered R qs)
    (hts : ∀ q ∈ qs, h.ts ≤ q.now) (hrises : RisesWhenPaid burst R (some h) (some last) qs)
    (hsince : Since burst R s n h last) :
    slotsIn a T (starts burst (some h) qs) = 0 ∨
      (n : ℚ) + slotsIn a T (starts burst (some h) qs) ≤ burst - 1 + R * (T + 1) / 1000 := by
  induction qs generalizing n h last with
  | nil => exact .inl rfl
  | cons q qs ih =>
    have hq : q ∈ q :: qs := List.mem_cons_self
    have hr := hqs.rate_pos q hq
    have hR := hqs.rate_le q hq
    obtain ⟨last', hlast⟩ : ∃ last', lastSlot burst q (some h) (some last) = some last' := by
      unfold lastSlot
      split
      · exact ⟨_, rfl⟩
      · exact ⟨_, rfl⟩
    have hstep := hsince.step hburst (hqs.cost q hq) (hts q hq) hr hR hlast
      (hrises.1 h rfl last rfl)
    have hnow := script_ts burst (hts q hq)
    have hlater : ∀ p ∈ qs, (script burst q (some h)).2.ts ≤ p.now := by
      rw [hnow]
      exact (List.pairwise_cons.mp hqs.clock).1
    have hrest := ih hqs.tail hlater (hlast ▸ hrises.2) hstep
    rw [slotsIn_starts_cons]
    unfold taken at hstep hrest
    unfold lastSlot at hlast
    cases hg : (script burst q (some h)).1.granted with
    | false =>
      rw [hg] at hrest
      simpa using hrest
    | true =>
      rw [hg, if_pos rfl] at hrest hstep hlast
      obtain rfl := Option.some.inj hlast
      by_cases hin : a ≤ q.now + (script burst q (some h)).1.waitMs ∧
          q.now + (script burst q (some h)).1.waitMs ≤ a + T
      · right
        have hRpos : 0 < R := hr.trans_le hR
        have hwait : (0 : ℚ) ≤ (script burst q (some h)).1.waitMs := waitMs_nonneg hg hr
        have howed : -(script burst q (some h)).2.tokens ≤
            R * (q.now + (script burst q (some h)).1.waitMs -
              (script burst q (some h)).2.ts) / 1000 := by
          have hpaid := neg_tokens_le_wait hg hr
          have : q.rate * (script burst q (some h)).1.waitMs ≤
              R * (script burst q (some h)).1.waitMs := by gcongr
          rw [hnow]
          linarith
        have hmine := hstep.taken_le howed hburst
        have hspan : R * (q.now + (script burst q (some h)).1.waitMs - s + 1) ≤ R * (T + 1) := by
          have := hin.2
          gcongr
          linarith
        rw [if_pos ⟨rfl, hin⟩]
        push_cast at hmine hrest ⊢
        rcases hrest with hzero | hle
        · rw [hzero]
          push_cast
          linarith
        · linarith
      · rw [if_neg fun hc => hin hc.2, Nat.zero_add]
        rcases hrest with hzero | hle
        · exact .inl hzero
        · right
          push_cast at hle
          linarith

/-- The account is opened by a granted slot. -/
theorem Since.start {key : Option BucketHash} (hcost : q.cost = 1) (hr : 0 < q.rate)
    (hR : q.rate ≤ R) (hts : (found burst q key).ts = q.now)
    (hfull : (found burst q key).tokens ≤ burst)
    (hg : (script burst q key).1.granted = true) :
    Since burst R (q.now + (script burst q key).1.waitMs) 0 (script burst q key).2
      ⟨q.rate, q.now + (script burst q key).1.waitMs⟩ := by
  obtain ⟨htokens, hnow, -⟩ := script_granted hg
  rw [hts] at hnow
  rcases le_or_gt 0 (script burst q key).2.tokens with hpos | hneg
  · left
    rw [waitMs_eq_zero hg hpos, hnow]
    have hRpos : 0 < R := hr.trans_le hR
    rw [htokens, hcost]
    push_cast
    have : 0 ≤ R * (q.now - (q.now + 0) + 1) / 1000 := by
      have : q.now - (q.now + 0) + 1 = 1 := by ring
      rw [this]
      positivity
    linarith
  · refine .inr ⟨hneg, q.rate, hr, le_rfl, hR, ?_, ?_⟩
    · push_cast
      rw [sub_self]
      positivity
    have hlt := tokens_lt_of_wait hg hr hneg
    rw [hnow]
    push_cast
    have : q.rate * (q.now - (q.now + (script burst q key).1.waitMs) + 1) =
        -(q.rate * ((script burst q key).1.waitMs - 1)) := by ring
    rw [this]
    linarith

theorem found_ts (burst : ℕ) {key : Option BucketHash} (hts : ∀ h ∈ key, h.ts ≤ q.now) :
    (found burst q key).ts = q.now := by
  cases key with
  | none => exact refill_ts le_rfl
  | some h => exact refill_ts (hts h rfl)

theorem found_tokens_le {key : Option BucketHash} (hfull : ∀ h ∈ key, h.tokens ≤ burst) :
    (found burst q key).tokens ≤ burst := by
  cases key with
  | none => exact refill_tokens_le_burst le_rfl
  | some h => exact refill_tokens_le_burst (hfull h rfl)

/-- A call leaves the balance at most at what it found. -/
theorem script_le_found (burst : ℕ) (key : Option BucketHash) (hcost : 0 ≤ q.cost) :
    (script burst q key).2.ts = (found burst q key).ts ∧
      (script burst q key).2.tokens ≤ (found burst q key).tokens := by
  cases hg : (script burst q key).1.granted with
  | false =>
    rw [script_refused hg]
    exact ⟨rfl, le_rfl⟩
  | true =>
    obtain ⟨htokens, hnow, -⟩ := script_granted hg
    exact ⟨hnow, by linarith⟩

theorem slotsIn_le_of_risesWhenPaid {key : Option BucketHash} (last : Option Slot)
    (hburst : 0 < burst) (hR : 0 < R) (hT : 0 ≤ T) (hqs : Steered R qs)
    (hts : ∀ h ∈ key, ∀ q ∈ qs, h.ts ≤ q.now) (hfull : ∀ h ∈ key, h.tokens ≤ burst)
    (hrises : RisesWhenPaid burst R key last qs) :
    (slotsIn a T (starts burst key qs) : ℚ) ≤ burst + R * (T + 1) / 1000 := by
  induction qs generalizing key last with
  | nil =>
    simp only [starts, slotsIn, List.countP_nil, Nat.cast_zero]
    positivity
  | cons q qs ih =>
    have hq : q ∈ q :: qs := List.mem_cons_self
    have hr := hqs.rate_pos q hq
    have hcost := hqs.cost q hq
    have hnow := found_ts burst fun h hh => hts h hh q hq
    have hle := found_tokens_le (q := q) hfull
    obtain ⟨hnow', hle'⟩ := script_le_found burst (q := q) key
      (by rw [hcost]; exact zero_le_one)
    have hlater : ∀ p ∈ qs, (script burst q key).2.ts ≤ p.now := by
      rw [hnow', hnow]
      exact (List.pairwise_cons.mp hqs.clock).1
    rw [slotsIn_starts_cons]
    split
    · rename_i hin
      -- the first slot of the window opens an account for the rest of it
      have hsince := Since.start hcost hr (hqs.rate_le q hq) hnow hle hin.1
      have hopened : lastSlot burst q key last =
          some ⟨q.rate, q.now + (script burst q key).1.waitMs⟩ := if_pos hin.1
      have hrest := hsince.slotsIn_le (T := T) hburst hin.2.1 hqs.tail hlater
        (hopened ▸ hrises.2)
      rcases hrest with hzero | hrest
      · rw [hzero]
        have hb : (1 : ℚ) ≤ burst := by exact_mod_cast hburst
        have : 0 ≤ R * (T + 1) / 1000 := by positivity
        push_cast
        linarith
      · push_cast at hrest ⊢
        linarith
    · have hrest := @ih (some (script burst q key).2) (lastSlot burst q key last) hqs.tail
        (by simpa using hlater) (by simpa using hle'.trans hle) hrises.2
      simpa using hrest

/-- **Rate conformance** of a bucket whose rate is steered, when the rate is raised only
once the debt of the reserved slots is paid. -/
theorem slotsIn_starts_le (cfg : BucketConfig) (R T a : ℚ) (qs : List Request) (hR : 0 < R)
    (hT : 0 ≤ T) (hqs : Steered R qs) (hrises : RisesWhenPaid cfg.burst R none none qs) :
    (slotsIn a T (starts cfg.burst none qs) : ℚ) ≤ cfg.burst + R * (T + 1) / 1000 :=
  slotsIn_le_of_risesWhenPaid none cfg.burst_pos hR hT hqs (by simp) (by simp) hrises

/-- A bucket of one token at ten per second. -/
def oneToken : BucketConfig := ⟨10, 1, by norm_num, by norm_num⟩

/-- `n` calls at one time and rate. -/
def burstOf (n : ℕ) (now rate : ℚ) : List Request := List.replicate n ⟨now, rate, 1, 30000⟩

/-- Three calls at the full rate are served in turn; the rate is then lowered, and raised again
to what it was an hour later. -/
theorem slotsIn_starts_le_lowered :
    (slotsIn 0 3600200 (starts 1 none (burstOf 3 0 10 ++ burstOf 2 0 7 ++ burstOf 3 3600000 10)) :
      ℚ) ≤ (1 : ℕ) + 10 * (3600200 + 1) / 1000 := by
  refine slotsIn_starts_le oneToken 10 3600200 0 _ (by norm_num) (by norm_num) ?_ ?_
  · constructor <;> decide +kernel
  · decide +kernel

/-- Slots that have been reserved at one per second for 0 and 1000 ms have started when a call at
ten per second comes a millisecond later, and is served at once: the whole second is credited at
the new rate. -/
example : starts 1 none (burstOf 2 0 1 ++ burstOf 1 1001 10) = [0, 1000, 1001] := by decide +kernel

/-- Four slots are reserved at one per second, and then, the rate having been raised to
ten, twenty-seven more: the two schedules overlap. -/
theorem not_slotsIn_starts_le_raised :
    ¬ ∀ (cfg : BucketConfig) (R T a : ℚ) (qs : List Request), 0 < R → 0 ≤ T → Steered R qs →
      (slotsIn a T (starts cfg.burst none qs) : ℚ) ≤ cfg.burst + R * (T + 1) / 1000 := by
  intro hall
  have hle := hall oneToken 10 2000 1000 (burstOf 4 0 1 ++ burstOf 27 0 10) (by norm_num)
    (by norm_num) (by constructor <;> decide +kernel)
  have hcount : slotsIn 1000 2000 (starts 1 none (burstOf 4 0 1 ++ burstOf 27 0 10)) = 24 := by
    decide +kernel
  rw [show oneToken.burst = 1 from rfl, hcount] at hle
  norm_num at hle

end Conformance

/-! ## The backlog -/

/-- A call of cost one at this time and rate gets a slot at most the time of one token
away, if it is willing to wait that long. -/
def ServedNext (burst : ℕ) (key : Option BucketHash) (now rate : ℚ) : Prop :=
  ∀ maxWaitMs : ℚ, ⌈1000 / rate⌉ ≤ maxWaitMs →
    (script burst ⟨now, rate, 1, maxWaitMs⟩ key).1.granted = true ∧
      (script burst ⟨now, rate, 1, maxWaitMs⟩ key).1.waitMs ≤ ⌈1000 / rate⌉

/-- A call that finds a debt, the elapsed time being credited, passes at least the rate of the
call that was granted the last slot. -/
def PaysAtGrantRate (burst : ℕ) (key : Option BucketHash) (last : Option ℚ) (q : Request) : Prop :=
  ∀ r ∈ last, (found burst q key).tokens < 0 → r ≤ q.rate

instance (burst : ℕ) (key : Option BucketHash) (last : Option ℚ) (q : Request) :
    Decidable (PaysAtGrantRate burst key last q) :=
  inferInstanceAs (Decidable (∀ r ∈ last, _ → _))

/-- The calls since the last granted one, and the new call `p`, pay at its rate.  `last` is this
rate. -/
def PaidAtGrantRate (burst : ℕ) (p : Request) :
    Option BucketHash → Option ℚ → List Request → Prop
  | key, last, [] => PaysAtGrantRate burst key last p
  | key, last, q :: qs =>
    if (script burst q key).1.granted then
      PaidAtGrantRate burst p (some (script burst q key).2) (some q.rate) qs
    else
      (starts burst (some (script burst q key).2) qs = [] → PaysAtGrantRate burst key last q) ∧
      PaidAtGrantRate burst p (some (script burst q key).2) last qs

instance decidablePaidAtGrantRate (burst : ℕ) (p : Request) : (key : Option BucketHash) →
    (last : Option ℚ) → (qs : List Request) → Decidable (PaidAtGrantRate burst p key last qs)
  | key, last, [] => inferInstanceAs (Decidable (PaysAtGrantRate burst key last p))
  | key, last, q :: qs =>
    have := decidablePaidAtGrantRate burst p (some (script burst q key).2) (some q.rate) qs
    have := decidablePaidAtGrantRate burst p (some (script burst q key).2) last qs
    inferInstanceAs (Decidable (ite _ _ _))

section Backlog
variable {burst : ℕ} {R now rate : ℚ} {q : Request} {qs : List Request} {key : Option BucketHash}

/-- The debt left by the last granted call is paid by `now` at that call's rate. -/
def Promise (now : ℚ) (key : Option BucketHash) (last : Option ℚ) : Prop :=
  ∀ h ∈ key, 0 ≤ h.tokens ∨
    ∃ r ∈ last, 0 < r ∧ 0 ≤ h.tokens + r * (now - h.ts) / 1000

/-- A call that finds no debt finds a slot at most the time of one token away. -/
theorem servedNext_of_found (hr : 0 < rate)
    (hpos : ∀ maxWaitMs, 0 ≤ (found burst ⟨now, rate, 1, maxWaitMs⟩ key).tokens) :
    ServedNext burst key now rate := by
  intro maxWaitMs hmax
  have hpos := hpos maxWaitMs
  simp only [script]
  change 0 ≤ (refill burst ⟨now, rate, 1, maxWaitMs⟩ (load burst now key)).tokens at hpos
  split
  · refine ⟨rfl, ?_⟩
    exact Int.ceil_nonneg (by positivity)
  · have hle : ⌈(1 - (refill burst ⟨now, rate, 1, maxWaitMs⟩ (load burst now key)).tokens) *
        1000 / rate⌉ ≤ ⌈1000 / rate⌉ := by
      apply Int.ceil_mono
      gcongr
      linarith
    have hwait : ((⌈(1 - (refill burst ⟨now, rate, 1, maxWaitMs⟩
        (load burst now key)).tokens) * 1000 / rate⌉ : ℤ) : ℚ) ≤ maxWaitMs :=
      (Int.cast_le.mpr hle).trans hmax
    rw [if_pos hwait]
    exact ⟨rfl, hle⟩

/-- Refilling at the promised rate or a higher one keeps the promise. -/
theorem refill_promise (burst : ℕ) {h : BucketHash} {r : ℚ} (hts : h.ts ≤ q.now)
    (hrate : r ≤ q.rate) (hpay : 0 ≤ h.tokens + r * (now - h.ts) / 1000) :
    0 ≤ (refill burst q h).tokens ∨
      0 ≤ (refill burst q h).tokens + r * (now - (refill burst q h).ts) / 1000 := by
  have helapsed : 0 ≤ q.now - h.ts := sub_nonneg.mpr hts
  unfold refill
  split
  · dsimp only
    rcases le_total (burst : ℚ) (h.tokens + (q.now - h.ts) * q.rate / 1000) with hfull | hpart
    · left
      rw [min_eq_left hfull]
      positivity
    · right
      rw [min_eq_right hpart]
      have : (q.now - h.ts) * r ≤ (q.now - h.ts) * q.rate := by gcongr
      linarith
  · exact .inr hpay

theorem le_refill_tokens {h : BucketHash} (hts : h.ts ≤ q.now) (hr : 0 ≤ q.rate)
    (hpos : 0 ≤ h.tokens) : 0 ≤ (refill burst q h).tokens := by
  have helapsed : 0 ≤ q.now - h.ts := sub_nonneg.mpr hts
  unfold refill
  split
  · exact le_min (by positivity) (by positivity)
  · exact hpos

/-- A call that pays at the grant's rate finds nothing owed, or keeps the promise. -/
theorem Promise.found {last : Option ℚ} (hpromise : Promise now key last) (hr : 0 < q.rate)
    (hts : ∀ h ∈ key, h.ts ≤ q.now) (hpaid : PaysAtGrantRate burst key last q) :
    Promise now (some (found burst q key)) last := by
  intro f hf
  obtain rfl := Option.some.inj hf
  rcases lt_or_ge (Bucket.found burst q key).tokens 0 with hneg | hpos
  · cases key with
    | none => exact absurd (le_refill_tokens le_rfl hr.le (Nat.cast_nonneg burst)) (not_le.mpr hneg)
    | some h =>
      obtain hpos | ⟨r, hlast, hrpos, hpay⟩ := hpromise h rfl
      · exact .inl (le_refill_tokens (hts h rfl) hr.le hpos)
      · rcases refill_promise burst (hts h rfl) (hpaid r hlast hneg) hpay with hpos | hlater
        · exact .inl hpos
        · exact .inr ⟨r, hlast, hrpos, hlater⟩
  · exact .inl hpos

/-- The promise covers the debt a new call would find. -/
theorem Promise.servedNext {last : Option ℚ} (hpromise : Promise now key last) (hr : 0 < rate)
    (hts : ∀ h ∈ key, h.ts ≤ now)
    (hpaid : PaysAtGrantRate burst key last ⟨now, rate, 1, 0⟩) :
    ServedNext burst key now rate := by
  refine servedNext_of_found hr fun maxWaitMs => ?_
  have hnow : (Bucket.found burst ⟨now, rate, 1, maxWaitMs⟩ key).ts = now := found_ts burst hts
  have hkept := hpromise.found (q := ⟨now, rate, 1, maxWaitMs⟩) hr hts hpaid
  obtain hpos | ⟨r, -, -, hpay⟩ := hkept _ rfl
  · exact hpos
  · rw [hnow] at hpay
    linarith

/-- A granted slot that has started by `now` is a promise at the rate of its call. -/
theorem promise_of_granted (hr : 0 < q.rate) (hts : ∀ h ∈ key, h.ts ≤ q.now)
    (hg : (script burst q key).1.granted = true)
    (hstart : q.now + (script burst q key).1.waitMs ≤ now) :
    Promise now (some (script burst q key).2) (some q.rate) := by
  intro h hh
  obtain rfl := Option.some.inj hh
  refine .inr ⟨q.rate, rfl, hr, ?_⟩
  have hdebt := neg_tokens_le_wait hg hr
  rw [(script_granted hg).2.1, found_ts burst hts]
  have : q.rate * (script burst q key).1.waitMs ≤ q.rate * (now - q.now) := by
    gcongr
    linarith
  linarith

theorem servedNext_of_promise {last : Option ℚ} (hr : 0 < rate)
    (hts : ∀ h ∈ key, h.ts ≤ now) (hqts : ∀ h ∈ key, ∀ q ∈ qs, h.ts ≤ q.now)
    (hqs : Steered R qs) (hbefore : ∀ q ∈ qs, q.now ≤ now)
    (hstarts : ∀ s ∈ starts burst key qs, s ≤ now)
    (hpaid : PaidAtGrantRate burst ⟨now, rate, 1, 0⟩ key last qs)
    (hpromise : starts burst key qs = [] → Promise now key last) :
    ServedNext burst (after burst key qs) now rate := by
  induction qs generalizing key last with
  | nil => exact (hpromise rfl).servedNext hr hts hpaid
  | cons q qs ih =>
    have hq : q ∈ q :: qs := List.mem_cons_self
    have hkey : ∀ h ∈ key, h.ts ≤ q.now := fun h hh => hqts h hh q hq
    have hcost : 0 ≤ q.cost := by
      rw [hqs.cost q hq]
      exact zero_le_one
    have hnow : (script burst q key).2.ts = q.now := by
      rw [(script_le_found burst key hcost).1, found_ts burst hkey]
    have hlater : ∀ h ∈ some (script burst q key).2, ∀ p ∈ qs, h.ts ≤ p.now := by
      intro h hh p hp
      obtain rfl := Option.some.inj hh
      rw [hnow]
      exact (List.pairwise_cons.mp hqs.clock).1 p hp
    have hby : ∀ h ∈ some (script burst q key).2, h.ts ≤ now := by
      intro h hh
      obtain rfl := Option.some.inj hh
      rw [hnow]
      exact hbefore q hq
    have hrest : ∀ last, (∀ s ∈ starts burst (some (script burst q key).2) qs, s ≤ now) →
        PaidAtGrantRate burst ⟨now, rate, 1, 0⟩ (some (script burst q key).2) last qs →
        (starts burst (some (script burst q key).2) qs = [] →
          Promise now (some (script burst q key).2) last) →
        ServedNext burst (after burst (some (script burst q key).2) qs) now rate := fun last =>
      ih hby hlater hqs.tail fun p hp => hbefore p (List.mem_cons_of_mem _ hp)
    simp only [starts, PaidAtGrantRate] at hstarts hpaid hpromise
    cases hg : (script burst q key).1.granted with
    | true =>
      simp only [hg, if_true, List.singleton_append, List.mem_cons, forall_eq_or_imp] at hstarts
      simp only [hg, if_true] at hpaid
      exact hrest _ hstarts.2 hpaid fun _ => promise_of_granted (hqs.rate_pos q hq) hkey hg hstarts.1
    | false =>
      simp only [hg, Bool.false_eq_true, if_false, List.nil_append] at hstarts hpromise hpaid
      refine hrest _ hstarts hpaid.2 fun hnone => ?_
      rw [script_refused hg]
      exact (hpromise hnone).found (hqs.rate_pos q hq) hkey (hpaid.1 hnone)

/-- **The negative balance is the promised backlog** when the calls since the last grant
that find a debt pay it off at least at the rate of that grant: once every granted slot has started, a call
waits for at most one token. -/
theorem servedNext_of_started (cfg : BucketConfig) (R now rate : ℚ) (qs : List Request)
    (hqs : Steered R qs) (hbefore : ∀ q ∈ qs, q.now ≤ now) (hr : 0 < rate)
    (hstarts : ∀ s ∈ starts cfg.burst none qs, s ≤ now)
    (hpaid : PaidAtGrantRate cfg.burst ⟨now, rate, 1, 0⟩ none none qs) :
    ServedNext cfg.burst (after cfg.burst none qs) now rate :=
  servedNext_of_promise hr (by simp) (by simp) hqs hbefore hstarts hpaid fun _ h hh => by
    simp at hh

/-- Eleven calls at ten per second, and one that will not wait and is refused. -/
def elevenAndARefusal : List Request := burstOf 11 0 10 ++ [⟨500, 10, 1, 0⟩]

theorem elevenAndARefusal_steered : Steered 10 elevenAndARefusal := by
  constructor <;> decide +kernel

/-- After a second all slots have started, and the next call at that rate gets one within a tenth
of a second; and so does a call at one per second that comes when it finds the debt paid. -/
theorem servedNext_of_started_same_rate :
    ServedNext 1 (after 1 none elevenAndARefusal) 1000 10 ∧
      ServedNext 1 (after 1 none elevenAndARefusal) 10000 1 :=
  ⟨servedNext_of_started oneToken 10 1000 10 elevenAndARefusal elevenAndARefusal_steered
    (by decide +kernel) (by norm_num) (by decide +kernel) (by decide +kernel),
  servedNext_of_started oneToken 10 10000 1 elevenAndARefusal elevenAndARefusal_steered
    (by decide +kernel) (by norm_num) (by decide +kernel) (by decide +kernel)⟩

/-- Eleven calls, and as soon as they have all started a call at one per second: ten tokens that have been
used are charged to it again, and it is refused. -/
theorem not_servedNext_lowered :
    ¬ ∀ (cfg : BucketConfig) (R now rate : ℚ) (qs : List Request), Steered R qs →
      (∀ q ∈ qs, q.now ≤ now) → 0 < rate → rate ≤ R →
      (∀ s ∈ starts cfg.burst none qs, s ≤ now) →
        ServedNext cfg.burst (after cfg.burst none qs) now rate := by
  intro hall
  have hserved := hall oneToken 10 1000 1 (burstOf 11 0 10) (by constructor <;> decide +kernel)
    (by decide +kernel) (by norm_num) (by norm_num) (by decide +kernel) 1000
    (by decide +kernel)
  have hrefused : (script 1 ⟨1000, 1, 1, 1000⟩ (after 1 none (burstOf 11 0 10))).1.granted =
      false := by decide +kernel
  exact absurd hserved.1 (by rw [show oneToken.burst = 1 from rfl, hrefused]; decide)

end Backlog
end Bucket
end OcrOrchestrator
