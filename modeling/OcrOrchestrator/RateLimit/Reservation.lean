import OcrOrchestrator.RateLimit.Bucket

/-!
# Reservations at a fixed rate

A bucket whose callers all pass the same rate, with any costs and any wait budgets.  Its key
has a TTL, which every call renews; a call that comes later than that finds no key and
starts from a full bucket.  The reset is harmless if the bucket would have been full again
by then, and not otherwise.

## Main definitions

* `BucketKey`, `Bucket.calls` — the calls of a run, each with the key it came upon.
* `Bucket.Reserves` — the balance is bounded, a refusal takes nothing, and reservations are
  served in order and at the rate.
* `Bucket.expiresFull` — a key expires only when the bucket would be full.
-/

namespace OcrOrchestrator

/-- The bucket's key: the hash, and when Redis removes it. -/
structure BucketKey where
  hash : BucketHash
  expiresAt : ℚ

namespace Bucket

/-- What a call at this time can read. -/
def alive (now : ℚ) : Option BucketKey → Option BucketHash
  | some k => if now ≤ k.expiresAt then some k.hash else none
  | none => none

/-- One call, with the key the call before it left. -/
structure Call where
  request : Request
  key : Option BucketKey
  reply : Acquisition
  after : BucketHash

namespace Call

/-- The hash the call finds once the elapsed time is credited. -/
def found (burst : ℕ) (x : Call) : BucketHash :=
  Bucket.found burst x.request (alive x.request.now x.key)

/-- When the slot of a granted call starts. -/
def start (x : Call) : ℚ := x.request.now + x.reply.waitMs

end Call

/-- `try_acquire` with the TTL of the key. -/
def call (burst : ℕ) (key : Option BucketKey) (q : Request) : Call :=
  let out := script burst q (alive q.now key)
  ⟨q, key, out.1, out.2⟩

/-- The calls of a run, from a key on.  Each one renews the key. -/
def calls (burst : ℕ) (ttlMs : ℚ) : Option BucketKey → List Request → List Call
  | _, [] => []
  | key, q :: qs =>
    call burst key q :: calls burst ttlMs (some ⟨(call burst key q).after, q.now + ttlMs⟩) qs

/-- A key that has expired was full: the time since the call before it would have refilled
the bucket. -/
def expiresFull (burst : ℕ) (x : Call) : Prop :=
  ∀ k ∈ x.key, k.expiresAt < x.request.now →
    (burst : ℚ) ≤ k.hash.tokens + (x.request.now - k.hash.ts) * x.request.rate / 1000

/-- Calls at one rate, of positive cost, with wait budgets up to `M`, on a clock that does
not run backwards. -/
structure FixedRate (r M : ℚ) (qs : List Request) : Prop where
  rate : ∀ q ∈ qs, q.rate = r
  cost : ∀ q ∈ qs, 0 < q.cost
  maxWait : ∀ q ∈ qs, q.maxWaitMs ≤ M
  clock : qs.Pairwise fun q q' => q.now ≤ q'.now

/-- **Reservations**: the balance is bounded by the wait budget and the burst; a refused call
leaves the refilled balance; and a call that is granted after one that has to wait starts
after it, by the time its own cost takes at the rate, up to a millisecond. -/
structure Reserves (burst : ℕ) (r M : ℚ) (xs : List Call) : Prop where
  balance : ∀ x ∈ xs, -(M * r / 1000) ≤ x.after.tokens ∧ x.after.tokens ≤ burst
  refused : ∀ x ∈ xs, x.reply.granted = false → x.after = x.found burst
  spaced : xs.Pairwise fun x y =>
    x.reply.granted = true → 0 < x.reply.waitMs → y.reply.granted = true →
      x.start + 1000 * y.request.cost / r - 1 ≤ y.start

/-! ## One call -/

section Call
variable {burst : ℕ} {r M ttlMs : ℚ} {q : Request} {qs : List Request} {key : Option BucketKey}
  {k : BucketKey}

theorem FixedRate.tail (hqs : FixedRate r M (q :: qs)) : FixedRate r M qs where
  rate := fun p hp => hqs.rate p (List.mem_cons_of_mem _ hp)
  cost := fun p hp => hqs.cost p (List.mem_cons_of_mem _ hp)
  maxWait := fun p hp => hqs.maxWait p (List.mem_cons_of_mem _ hp)
  clock := (List.pairwise_cons.mp hqs.clock).2

/-- The key that a run has reached: its time is over for no later call, and its balance is
within the bounds. -/
structure KeyWithin (burst : ℕ) (r M : ℚ) (qs : List Request) (k : BucketKey) : Prop where
  ts_le : ∀ q ∈ qs, k.hash.ts ≤ q.now
  low : -(M * r / 1000) ≤ k.hash.tokens
  high : k.hash.tokens ≤ burst

/-- A bucket that was full when its key expired is found as if it had been kept. -/
theorem found_alive (hfull : expiresFull burst (call burst (some k) q)) (hts : k.hash.ts ≤ q.now)
    (hhigh : k.hash.tokens ≤ burst) :
    Bucket.found burst q (alive q.now (some k)) = Bucket.found burst q (some k.hash) := by
  by_cases halive : q.now ≤ k.expiresAt
  · rw [alive, if_pos halive]
  · have hrefilled : (burst : ℚ) ≤ k.hash.tokens + (q.now - k.hash.ts) * q.rate / 1000 :=
      hfull k rfl (not_le.mp halive)
    have hnone : alive q.now (some k) = none := if_neg halive
    have hempty : Bucket.found burst q none = ⟨burst, q.now⟩ := by simp [Bucket.found, refill, load]
    rw [hnone, hempty, Bucket.found, load, refill]
    split
    · rw [min_eq_left hrefilled]
    · rename_i hstill
      have hnow : k.hash.ts = q.now := by linarith
      rw [hnow, sub_self, zero_mul, zero_div, add_zero] at hrefilled
      rw [← hnow, ← le_antisymm hhigh hrefilled]

/-- The balance a call finds: at most the one before it and the refill, at least the one
before it, or the burst. -/
theorem found_tokens (hfull : expiresFull burst (call burst (some k) q))
    (hts : k.hash.ts ≤ q.now) (hhigh : k.hash.tokens ≤ burst) (hr : 0 ≤ q.rate) :
    k.hash.tokens ≤ ((call burst (some k) q).found burst).tokens ∧
      ((call burst (some k) q).found burst).tokens ≤
        k.hash.tokens + (q.now - k.hash.ts) * q.rate / 1000 := by
  have heq : (call burst (some k) q).found burst = Bucket.found burst q (some k.hash) :=
    found_alive hfull hts hhigh
  rw [heq]
  refine ⟨?_, refill_tokens_le burst hts hr⟩
  rw [Bucket.found, load, refill]
  split
  · rename_i hpos
    have hcredit : 0 ≤ (q.now - k.hash.ts) * q.rate / 1000 := by positivity
    exact le_min hhigh (by linarith)
  · exact le_refl _

/-- A granted call does not wait for longer than its budget. -/
theorem waitMs_le {h : Option BucketHash} (hg : (script burst q h).1.granted = true)
    (hneg : (script burst q h).2.tokens < 0) : ((script burst q h).1.waitMs : ℚ) ≤ q.maxWaitMs := by
  simp only [script] at hg hneg ⊢
  split
  · rename_i hcost
    rw [if_pos hcost] at hneg
    exact absurd hneg (not_lt.mpr (sub_nonneg.mpr hcost))
  · rename_i hcost
    rw [if_neg hcost] at hg
    split
    · assumption
    · rename_i hwait
      rw [if_neg hwait] at hg
      cases hg

/-- Nothing a call can read is outside the bounds of the key. -/
theorem alive_tokens_le (hkey : ∀ k ∈ key, KeyWithin burst r M (q :: qs) k) :
    ∀ h ∈ alive q.now key, h.ts ≤ q.now ∧ h.tokens ≤ burst := by
  intro h hh
  cases key with
  | none => cases hh
  | some k =>
    have hk := hkey k rfl
    simp only [alive] at hh
    split at hh
    · obtain rfl := Option.some.inj hh
      exact ⟨hk.ts_le q List.mem_cons_self, hk.high⟩
    · cases hh

theorem call_ts (hkey : ∀ k ∈ key, KeyWithin burst r M (q :: qs) k) (hcost : 0 ≤ q.cost) :
    (call burst key q).after.ts = q.now := by
  have hts : ∀ h ∈ alive q.now key, h.ts ≤ q.now := fun h hh => (alive_tokens_le hkey h hh).1
  exact (script_le_found burst _ hcost).1.trans (found_ts burst hts)

/-- The balance a call leaves is within the bounds: a refused call leaves what it finds, and
a granted one owes no more than its wait budget. -/
theorem call_balance (hM : 0 ≤ M) (hr : 0 < r) (hqs : FixedRate r M (q :: qs))
    (hkey : ∀ k ∈ key, KeyWithin burst r M (q :: qs) k)
    (hfull : expiresFull burst (call burst key q)) :
    -(M * r / 1000) ≤ (call burst key q).after.tokens ∧
      (call burst key q).after.tokens ≤ burst := by
  have hq : q ∈ q :: qs := List.mem_cons_self
  have hrate : 0 < q.rate := by rwa [hqs.rate q hq]
  have hdebt : 0 ≤ M * r / 1000 := by positivity
  have hhigh : (call burst key q).after.tokens ≤ burst := by
    refine (script_le_found burst _ (hqs.cost q hq).le).2.trans (found_tokens_le fun h hh => ?_)
    exact (alive_tokens_le hkey h hh).2
  refine ⟨?_, hhigh⟩
  cases hg : (call burst key q).reply.granted with
  | true =>
    rcases le_or_gt 0 (call burst key q).after.tokens with hpos | hneg
    · linarith
    · have howed := neg_tokens_le_wait hg hrate
      have hbudget : ((call burst key q).reply.waitMs : ℚ) ≤ M :=
        (waitMs_le hg hneg).trans (hqs.maxWait q hq)
      rw [hqs.rate q hq] at howed
      have hscaled : r * ((call burst key q).reply.waitMs : ℚ) ≤ r * M := by gcongr
      change -(call burst key q).after.tokens ≤ r * (call burst key q).reply.waitMs / 1000 at howed
      linarith
  | false =>
    have hleft : (call burst key q).after = (call burst key q).found burst := script_refused hg
    rw [hleft]
    cases key with
    | none =>
      have hstart : ((call burst none q).found burst).tokens = burst := by
        simp [Call.found, call, alive, Bucket.found, refill, load]
      rw [hstart]
      have : (0 : ℚ) ≤ burst := Nat.cast_nonneg _
      linarith
    | some k =>
      have hk := hkey k rfl
      exact hk.low.trans (found_tokens hfull (hk.ts_le q hq) hk.high hrate.le).1

/-- The key that a call leaves is within the bounds again. -/
theorem KeyWithin.call (hM : 0 ≤ M) (hr : 0 < r) (hqs : FixedRate r M (q :: qs))
    (hkey : ∀ k ∈ key, KeyWithin burst r M (q :: qs) k)
    (hfull : expiresFull burst (call burst key q)) (expiresAt : ℚ) :
    KeyWithin burst r M qs ⟨(Bucket.call burst key q).after, expiresAt⟩ where
  ts_le := by
    rw [call_ts hkey (hqs.cost q List.mem_cons_self).le]
    exact (List.pairwise_cons.mp hqs.clock).1
  low := (call_balance hM hr hqs hkey hfull).1
  high := (call_balance hM hr hqs hkey hfull).2

end Call

/-! ## A run -/

section Run
variable {burst : ℕ} {r M ttlMs : ℚ} {qs : List Request} {key : Option BucketKey}
  {k : BucketKey} {x y : Call}

/-- A call of a run is one of its requests, served from the key it came upon. -/
theorem eq_call_of_mem (hx : x ∈ calls burst ttlMs key qs) :
    x.request ∈ qs ∧ x = call burst x.key x.request := by
  induction qs generalizing key with
  | nil => cases hx
  | cons q qs ih =>
    rcases List.mem_cons.mp hx with rfl | hx
    · exact ⟨List.mem_cons_self, rfl⟩
    · exact ⟨List.mem_cons_of_mem _ (ih hx).1, (ih hx).2⟩

/-- Whatever happens in between, a later call finds at most the balance of the key and the
refill since. -/
theorem found_tokens_le_since (hM : 0 ≤ M) (hr : 0 < r) (hqs : FixedRate r M qs)
    (hk : KeyWithin burst r M qs k)
    (hfull : ∀ x ∈ calls burst ttlMs (some k) qs, expiresFull burst x)
    (hy : y ∈ calls burst ttlMs (some k) qs) :
    (y.found burst).tokens ≤ k.hash.tokens + (y.request.now - k.hash.ts) * r / 1000 := by
  induction qs generalizing k with
  | nil => cases hy
  | cons q qs ih =>
    have hq : q ∈ q :: qs := List.mem_cons_self
    have hkey : ∀ k' ∈ some k, KeyWithin burst r M (q :: qs) k' := by
      intro k' hk'
      obtain rfl := Option.some.inj hk'
      exact hk
    have hrate : 0 ≤ q.rate := by
      rw [hqs.rate q hq]
      exact hr.le
    have hhead : expiresFull burst (call burst (some k) q) := hfull _ List.mem_cons_self
    have hfound := (found_tokens hhead (hk.ts_le q hq) hk.high hrate).2
    rw [hqs.rate q hq] at hfound
    rcases List.mem_cons.mp hy with rfl | hy
    · exact hfound
    · have hlater := ih hqs.tail (KeyWithin.call hM hr hqs hkey hhead _)
        (fun x hx => hfull x (List.mem_cons_of_mem _ hx)) hy
      have hleft : (call burst (some k) q).after.tokens ≤
          ((call burst (some k) q).found burst).tokens :=
        (script_le_found burst _ (hqs.cost q hq).le).2
      rw [call_ts hkey (hqs.cost q hq).le] at hlater
      linarith

/-- A slot that has to be waited for leaves a negative balance, and the next slots wait for
it to be paid off. -/
theorem start_spaced (hr : 0 < r) {kx ky : Option BucketKey} {p q : Request} (hp : p.rate = r)
    (hq : q.rate = r) (hts : (call burst kx p).after.ts = p.now)
    (hfound : ((call burst ky q).found burst).tokens ≤
      (call burst kx p).after.tokens + (q.now - (call burst kx p).after.ts) * r / 1000)
    (hx : (call burst kx p).reply.granted = true) (hwait : 0 < (call burst kx p).reply.waitMs)
    (hy : (call burst ky q).reply.granted = true) :
    (call burst kx p).start + 1000 * q.cost / r - 1 ≤ (call burst ky q).start := by
  have hneg : (call burst kx p).after.tokens < 0 := by
    by_contra hpos
    have hzero : (call burst kx p).reply.waitMs = 0 := waitMs_eq_zero hx (not_lt.mp hpos)
    omega
  have hdebt := tokens_lt_of_wait hx (by rwa [hp]) hneg
  have hpaid := neg_tokens_le_wait hy (by rwa [hq])
  have htaken : (call burst ky q).after.tokens = ((call burst ky q).found burst).tokens - q.cost :=
    (script_granted hy).1
  rw [hp] at hdebt
  rw [hq] at hpaid
  rw [hts] at hfound
  change (call burst kx p).after.tokens <
    -(r * ((call burst kx p).reply.waitMs - 1) / 1000) at hdebt
  change -(call burst ky q).after.tokens ≤ r * (call burst ky q).reply.waitMs / 1000 at hpaid
  change p.now + ((call burst kx p).reply.waitMs : ℚ) + 1000 * q.cost / r - 1 ≤
    q.now + ((call burst ky q).reply.waitMs : ℚ)
  have hsum : 1000 * q.cost ≤ (q.now + (call burst ky q).reply.waitMs -
      (p.now + (call burst kx p).reply.waitMs) + 1) * r := by linarith
  have hdiv := (div_le_iff₀ hr).mpr hsum
  linarith

theorem calls_reserves (hM : 0 ≤ M) (hr : 0 < r) (hqs : FixedRate r M qs)
    (hkey : ∀ k ∈ key, KeyWithin burst r M qs k)
    (hfull : ∀ x ∈ calls burst ttlMs key qs, expiresFull burst x) :
    Reserves burst r M (calls burst ttlMs key qs) := by
  induction qs generalizing key with
  | nil => exact ⟨by simp [calls], by simp [calls], by simp [calls]⟩
  | cons q qs ih =>
    have hq : q ∈ q :: qs := List.mem_cons_self
    have hhead : expiresFull burst (call burst key q) := hfull _ List.mem_cons_self
    have hrest : ∀ x ∈ calls burst ttlMs (some ⟨(call burst key q).after, q.now + ttlMs⟩) qs,
        expiresFull burst x := fun x hx => hfull x (List.mem_cons_of_mem _ hx)
    have hk := KeyWithin.call hM hr hqs hkey hhead (q.now + ttlMs)
    have htail := ih hqs.tail (by simpa using hk) hrest
    refine ⟨?_, ?_, ?_⟩
    · intro x hx
      rcases List.mem_cons.mp hx with rfl | hx
      · exact call_balance hM hr hqs hkey hhead
      · exact htail.balance x hx
    · intro x hx hrefused
      rcases List.mem_cons.mp hx with rfl | hx
      · exact script_refused hrefused
      · exact htail.refused x hx hrefused
    · refine List.pairwise_cons.mpr ⟨?_, htail.spaced⟩
      intro y hy hgx hwait hgy
      obtain ⟨hyq, hycall⟩ := eq_call_of_mem hy
      have hfound := found_tokens_le_since hM hr hqs.tail hk hrest hy
      rw [hycall] at hgy hfound ⊢
      exact start_spaced hr (hqs.rate q hq) (hqs.rate _ (List.mem_cons_of_mem _ hyq))
        (call_ts hkey (hqs.cost q hq).le) hfound hgx hwait hgy

/-- A TTL that covers the longest wait and the refill of the whole bucket lets no debt
expire. -/
theorem expiresFull_of_ttl (hM : 0 ≤ M) (hr : 0 < r) (hqs : FixedRate r M qs)
    (hkey : ∀ k ∈ key, KeyWithin burst r M qs k ∧ k.expiresAt = k.hash.ts + ttlMs)
    (httl : M + 1000 * burst / r ≤ ttlMs) :
    ∀ x ∈ calls burst ttlMs key qs, expiresFull burst x := by
  induction qs generalizing key with
  | nil => simp [calls]
  | cons q qs ih =>
    have hq : q ∈ q :: qs := List.mem_cons_self
    have hwithin : ∀ k ∈ key, KeyWithin burst r M (q :: qs) k := fun k hk => (hkey k hk).1
    have hhead : expiresFull burst (call burst key q) := by
      intro k hk hexpired
      obtain ⟨hin, hat⟩ := hkey k hk
      change k.expiresAt < q.now at hexpired
      change (burst : ℚ) ≤ k.hash.tokens + (q.now - k.hash.ts) * q.rate / 1000
      rw [hat] at hexpired
      rw [hqs.rate q hq]
      have hidle : M + 1000 * burst / r ≤ q.now - k.hash.ts := by linarith
      have hrefill : (M + 1000 * burst / r) * r ≤ (q.now - k.hash.ts) * r := by gcongr
      have hsum : (M + 1000 * burst / r) * r = M * r + 1000 * burst := by
        field_simp
      have := hin.low
      linarith
    intro x hx
    rcases List.mem_cons.mp hx with rfl | hx
    · exact hhead
    · refine ih hqs.tail ?_ x hx
      intro k hk
      obtain rfl := Option.some.inj hk
      refine ⟨KeyWithin.call hM hr hqs hwithin hhead _, ?_⟩
      exact congrArg (· + ttlMs) (call_ts hwithin (hqs.cost q hq).le).symm

/-- **The bucket at a fixed rate** keeps its balance within the wait budget and the burst,
takes nothing from a refused call, and serves reservations in order and at the rate, as long
as its key does not expire while the bucket is short of its burst. -/
theorem reserves_of_expiresFull (cfg : BucketConfig) (ttlMs r M : ℚ) (qs : List Request)
    (hr : 0 < r) (hM : 0 ≤ M) (hqs : FixedRate r M qs)
    (hfull : ∀ x ∈ calls cfg.burst ttlMs none qs, expiresFull cfg.burst x) :
    Reserves cfg.burst r M (calls cfg.burst ttlMs none qs) :=
  calls_reserves hM hr hqs (by simp) hfull

/-- Three calls at once and a fourth a second later, each ready to wait for 30 seconds. -/
def shortIdle : List Request := burstOf 3 0 1 ++ burstOf 1 1001 1

theorem shortIdle_fixedRate : FixedRate 1 30000 shortIdle := by
  constructor <;> decide +kernel

/-- With a TTL of five minutes the fourth call queues behind the other three. -/
theorem reserves_shortIdle :
    Reserves 1 1 30000 (calls 1 300000 none shortIdle) := by
  refine reserves_of_expiresFull oneToken 300000 1 30000 shortIdle (by norm_num) (by norm_num)
    shortIdle_fixedRate ?_
  refine expiresFull_of_ttl (by norm_num) (by norm_num) shortIdle_fixedRate (by simp) ?_
  norm_num [oneToken]

/-- With a TTL of a second the key is gone when the fourth call comes, and the two slots that
have been promised with it: the fourth call starts before the third. -/
theorem not_reserves_expired_debt :
    ¬ ∀ (cfg : BucketConfig) (ttlMs r M : ℚ) (qs : List Request), 0 < ttlMs → 0 < r → 0 ≤ M →
      FixedRate r M qs → Reserves cfg.burst r M (calls cfg.burst ttlMs none qs) := by
  intro hall
  have hreserves := hall oneToken 1000 1 30000 shortIdle (by norm_num) (by norm_num)
    (by norm_num) shortIdle_fixedRate
  have hspaced := hreserves.spaced
  revert hspaced
  decide +kernel

end Run

end Bucket
end OcrOrchestrator
