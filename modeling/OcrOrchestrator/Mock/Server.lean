import OcrOrchestrator.Mock.SingleFlight
import Mathlib.Algebra.Order.Floor.Ring
import Mathlib.Data.Rat.Floor
import Mathlib.Tactic.Linarith
import Mathlib.Tactic.GCongr

/-!
# The mock as a server

Both endpoints of `mock_model/main.py` on one idempotency store, with what `_execute` does before
and after it waits: chaos, the bucket, the random failure, and the counters.  The clock and the
random numbers are inputs of a step; the clock may go on within one.  Times and the numbers of the
bucket are rational where the code has doubles.

A request keeps the counters it has begun with, so one that is under way at a reset is not counted
when it ends.  Counters are looked at here between two resets: requests carry the number of resets
before them.

## Main definitions

* `TokenBucket`, `ChaosController`, `Endpoint.enter` — what is done before a request waits.
* `Server`, `Server.step` — any number of requests to both endpoints.
* `Server.Census` — the counters are those of what the requests have come to.
* `Server.admitted` — the executions that the bucket has let in.
* `census_of_reach`, `admitted_le_of_reach` — the counters are right, and the rate is kept.
-/

namespace OcrOrchestrator
namespace Mock

open Lib

/-! ## What is done before a request waits -/

/-- `TokenBucket`. -/
structure TokenBucket where
  rate : ℚ
  burst : ℕ
  tokens : ℚ
  lastRefill : ℚ

namespace TokenBucket

/-- `_refill`. -/
def refill (b : TokenBucket) (now : ℚ) : TokenBucket :=
  if 0 < now - b.lastRefill then
    { b with tokens := min b.burst (b.tokens + (now - b.lastRefill) * b.rate), lastRefill := now }
  else b

/-- `acquire`: the seconds until there are enough tokens, 0 if there are. -/
def acquire (b : TokenBucket) (now : ℚ) (cost : ℚ) : ℚ × TokenBucket :=
  let b := b.refill now
  if cost ≤ b.tokens then (0, { b with tokens := b.tokens - cost })
  else ((cost - b.tokens) / b.rate, b)

/-- `remaining`. -/
def remaining (b : TokenBucket) (now : ℚ) : ℤ × TokenBucket :=
  let b := b.refill now
  (⌊b.tokens⌋, b)

end TokenBucket

/-- `ChaosRule`. -/
structure ChaosRule where
  status : ℕ
  ratio : ℚ
  extraLatencyMs : ℚ
  expiresAt : ℚ

/-- `active`, for the rule of an endpoint: it is dropped once it has expired. -/
def activeRule (now : ℚ) (rule : Option ChaosRule) : Option ChaosRule :=
  rule.filter fun r => ¬ max 0 (r.expiresAt - now) ≤ 0

/-- `LAYOUT` and `VLM`. -/
inductive Kind where
  | layout
  | vlm
  deriving DecidableEq

/-- What has been answered with an error. -/
inductive Cause where
  | rateLimitedByChaos
  | chaosFailure
  | rateLimitExceeded
  | modelFailure
  deriving DecidableEq

/-- The `detail` of the error, after the name of the endpoint. -/
def Cause.detail : Cause → String
  | rateLimitedByChaos => " rate limited (chaos)"
  | chaosFailure => " chaos failure"
  | rateLimitExceeded => " rate limit exceeded"
  | modelFailure => " model failure"

/-- `_rate_limit_headers`. -/
structure RateLimitHeaders where
  retryAfter : ℤ
  retryAfterMs : ℤ
  limit : ℚ
  burst : ℕ
  remaining : ℤ
  deriving DecidableEq

def rateLimitHeaders (waitS : ℚ) (b : TokenBucket) (now : ℚ) : RateLimitHeaders × TokenBucket :=
  (⟨max 1 ⌈waitS⌉, ⌊waitS * 1000⌋, b.rate, b.burst, (b.remaining now).1⟩, (b.remaining now).2)

/-- An `HTTPException` of the mock. -/
structure HttpError where
  status : ℕ
  cause : Cause
  headers : Option RateLimitHeaders
  deriving DecidableEq

/-- `EndpointStats`. -/
@[ext]
structure EndpointStats where
  requests : ℕ := 0
  executions : ℕ := 0
  replays : ℕ := 0
  rateLimited : ℕ := 0
  injectedFailures : ℕ := 0
  chaosRejections : ℕ := 0
  deriving DecidableEq

/-- Counters add up. -/
instance : Add EndpointStats where
  add c d := ⟨c.requests + d.requests, c.executions + d.executions, c.replays + d.replays,
    c.rateLimited + d.rateLimited, c.injectedFailures + d.injectedFailures,
    c.chaosRejections + d.chaosRejections⟩

/-- What the mock keeps for one of the endpoints. -/
structure Endpoint where
  bucket : TokenBucket
  chaos : Option ChaosRule
  stats : EndpointStats
  failureRate : ℚ

/-- An endpoint that nobody has called: its bucket is full. -/
structure Endpoint.Fresh (e : Endpoint) : Prop where
  rate_pos : 0 < e.bucket.rate
  burst_pos : 0 < e.bucket.burst
  full : e.bucket.tokens = e.bucket.burst
  stats : e.stats = {}

/-- `st.requests += 1`. -/
def Endpoint.called (e : Endpoint) : Endpoint :=
  { e with stats.requests := e.stats.requests + 1 }

/-- The readings of the clock in a stretch, and the number that `roll` draws. -/
structure Readings where
  activeAt : ℚ
  rollAt : ℚ
  die : ℚ
  acquireAt : ℚ
  headersAt : ℚ

/-- `roll`, after `active`. -/
def Endpoint.faulted (e : Endpoint) (x : Readings) : Option ChaosRule :=
  (activeRule x.activeAt e.chaos).bind fun _ =>
    (activeRule x.rollAt (activeRule x.activeAt e.chaos)).filter fun r => x.die < r.ratio

/-- The rule that is left after `active` and `roll`. -/
def Endpoint.chaosAfter (e : Endpoint) (x : Readings) : Option ChaosRule :=
  (activeRule x.activeAt e.chaos).bind fun r => activeRule x.rollAt (some r)

/-- `_execute`, up to its sleep: the error it raises, if it does. -/
def Endpoint.enter (e : Endpoint) (x : Readings) : Option HttpError × Endpoint :=
  let e' := { e with chaos := e.chaosAfter x }
  match (e.faulted x).filter fun r => 400 ≤ r.status with
  | some rule =>
    if rule.status = 429 then
      let h := rateLimitHeaders 1 e.bucket x.headersAt
      (some ⟨429, .rateLimitedByChaos, some h.1⟩, { e' with
        bucket := h.2
        stats.chaosRejections := e.stats.chaosRejections + 1
        stats.rateLimited := e.stats.rateLimited + 1 })
    else
      (some ⟨rule.status, .chaosFailure, none⟩, { e' with
        stats.chaosRejections := e.stats.chaosRejections + 1
        stats.injectedFailures := e.stats.injectedFailures + 1 })
  | none =>
    let a := e.bucket.acquire x.acquireAt 1
    if 0 < a.1 then
      let h := rateLimitHeaders a.1 a.2 x.headersAt
      (some ⟨429, .rateLimitExceeded, some h.1⟩, { e' with
        bucket := h.2
        stats.rateLimited := e.stats.rateLimited + 1 })
    else (none, { e' with bucket := a.2 })

/-! ## The server -/

/-- Where a request went, and how many resets there had been. -/
structure Tag where
  kind : Kind
  epoch : ℕ
  deriving DecidableEq

structure Server (B : Type) where
  service : Service B HttpError
  tags : List Tag
  endpoints : Kind → Endpoint
  epoch : ℕ

namespace Server
variable {B : Type}

inductive Label (B : Type) where
  | request (kind : Kind) (now : ℚ) (key : Option String) (x : Readings)
  /-- The sleep of an execution is over. -/
  | conclude (i : ℕ) (now : ℚ) (die : ℚ) (body : B)
  /-- An execution is cancelled in its sleep. -/
  | abort (i : ℕ)
  | woken (i : ℕ)
  | cancel (i : ℕ)
  | setChaos (kind : Kind) (rule : ChaosRule)
  | clearChaos (kind : Kind)
  | callCounts (kind : Kind) (now : ℚ)
  | reset

/-- Does the request get as far as `_execute`? -/
def executes (s : Service B HttpError) (now : ℚ) (key : Option String) : Bool :=
  match key.filter (· ≠ "") with
  | none => true
  | some k =>
    match s.idem.get now k with
    | (some _, _) => false
    | (none, idem) => (idem.begin k).1.1

/-- Change one of the endpoints. -/
def setEndpoint (s : Server B) (kind : Kind) (e : Endpoint) : Server B :=
  { s with endpoints := Function.update s.endpoints kind e }

/-- Count for a request, unless there has been a reset. -/
def count (s : Server B) (t : Tag) (f : EndpointStats → EndpointStats) : Server B :=
  if t.epoch = s.epoch then
    s.setEndpoint t.kind { s.endpoints t.kind with stats := f (s.endpoints t.kind).stats }
  else s

def step (s : Server B) : Label B → Option (Server B)
  | .request kind now key x =>
    let e := (s.endpoints kind).called
    let tags := s.tags ++ [⟨kind, s.epoch⟩]
    if executes s.service now key then
      let r := e.enter x
      some { s.setEndpoint kind r.2 with service := s.service.handle now key r.1, tags }
    else
      let e := { e with stats.replays := e.stats.replays + 1 }
      some { s.setEndpoint kind e with service := s.service.handle now key none, tags }
  | .conclude i now die body =>
    match s.tags[i]? with
    | none => none
    | some t =>
      if die < (s.endpoints t.kind).failureRate then
        (s.service.step (.failed i (.raised ⟨500, .modelFailure, none⟩))).map fun service =>
          { s.count t fun c => { c with injectedFailures := c.injectedFailures + 1 } with service }
      else
        (s.service.step (.executed i now body)).map fun service =>
          { s.count t fun c => { c with executions := c.executions + 1 } with service }
  | .abort i => (s.service.step (.failed i .cancelled)).map fun service => { s with service }
  | .woken i => (s.service.step (.woken i)).map fun service => { s with service }
  | .cancel i => (s.service.step (.cancel i)).map fun service => { s with service }
  | .setChaos kind rule => some (s.setEndpoint kind { s.endpoints kind with chaos := some rule })
  | .clearChaos kind => some (s.setEndpoint kind { s.endpoints kind with chaos := none })
  | .callCounts kind now => some (s.setEndpoint kind
      { s.endpoints kind with bucket := ((s.endpoints kind).bucket.remaining now).2 })
  | .reset => (s.service.step .reset).map fun service => { s with
      service
      endpoints := fun kind => { s.endpoints kind with stats := {}, chaos := none }
      epoch := s.epoch + 1 }

/-- A server that has just started. -/
def start (ttl : ℚ) (maxEntries : ℕ) (endpoints : Kind → Endpoint) : Server B :=
  ⟨⟨.init ttl maxEntries, []⟩, [], endpoints, 0⟩

/-- The runs from a state on. -/
def runs (s : Server B) : System (Server B) (Label B) := ⟨s, step⟩

/-! ## The census -/

/-- Is it a request that executes? -/
def Executing (r : Request B HttpError) : Bool :=
  match r.role with
  | .unkeyed | .leader _ _ => true
  | _ => false

/-- The error that an execution was answered with. -/
def errorOf (r : Request B HttpError) : Option HttpError :=
  match r.outcome with
  | .raised (.raised e) => if Executing r then some e else none
  | _ => none

/-- Has an execution returned a body? -/
def Succeeded (r : Request B HttpError) : Bool :=
  match r.outcome with
  | .returned _ => Executing r
  | _ => false

/-- The requests, each with its tag. -/
def ledger (s : Server B) : List (Request B HttpError × Tag) := s.service.requests.zip s.tags

/-- A count of requests, by their tag and by what they have come to. -/
def among (l : List (Request B HttpError × Tag)) (q : Tag → Bool) (p : Request B HttpError → Bool) :
    ℕ := l.countP fun x => q x.2 && p x.1

/-- The counters that requests with a tag amount to, by what they have come to. -/
def census (l : List (Request B HttpError × Tag)) (t : Tag) : EndpointStats where
  requests := among l (fun t' => t' = t) fun _ => true
  executions := among l (fun t' => t' = t) Succeeded
  replays := among l (fun t' => t' = t) fun r => !Executing r
  rateLimited := among l (fun t' => t' = t) fun r => (errorOf r).any fun e => e.status = 429
  injectedFailures := among l (fun t' => t' = t) fun r => (errorOf r).any fun e => e.status ≠ 429
  chaosRejections := among l (fun t' => t' = t) fun r => (errorOf r).any fun e =>
    e.cause = .rateLimitedByChaos ∨ e.cause = .chaosFailure

/-- **The counters of an endpoint** are those of the requests since the last reset. -/
def Census (s : Server B) (kind : Kind) : Prop :=
  (s.endpoints kind).stats = census s.ledger ⟨kind, s.epoch⟩

/-- Was it let in by the bucket? -/
def LetIn (r : Request B HttpError) : Bool :=
  Executing r && (errorOf r).all fun e => e.cause = .modelFailure

/-- The executions that the bucket has let in, of all time. -/
def admitted (s : Server B) (kind : Kind) : ℕ := among s.ledger (fun t => t.kind = kind) LetIn

/-! ### What a step does to the requests -/

section
variable {s s' : Service B HttpError}

/-- A request that comes in: it executes, and may have been refused, or it does not. -/
theorem handle_requests (s : Service B HttpError) (now : ℚ) (key : Option String)
    (refusal : Option HttpError) : ∃ r : Request B HttpError,
      (s.handle now key refusal).requests = s.requests ++ [r] ∧
        Executing r = executes s now key ∧
          (executes s now key = true → r.outcome = Service.started refusal) := by
  unfold Service.handle executes
  cases hkey : key.filter (· ≠ "") with
  | none => exact ⟨_, rfl, rfl, fun _ => rfl⟩
  | some k =>
    simp only
    rcases s.idem.get now k with ⟨_ | body, idem⟩
    · simp only
      rcases idem.begin k with ⟨⟨_ | _, h⟩, idem'⟩
      · exact ⟨_, rfl, rfl, by simp⟩
      · exact ⟨_, rfl, rfl, fun _ => rfl⟩
    · exact ⟨_, rfl, rfl, by simp⟩

/-- The role of a request that executes. -/
def ExecutingRole (role : Role) : Prop := role = .unkeyed ∨ ∃ key h, role = .leader key h

theorem ExecutingRole.executing {role : Role} (h : ExecutingRole role) (o : Outcome B HttpError) :
    Executing ⟨role, o⟩ = true := by
  rcases h with rfl | ⟨key, h, rfl⟩ <;> rfl

/-- The execution that a step brings to its end, and what it comes to. -/
def settled : Mock.Label B HttpError → Option (ℕ × Outcome B HttpError)
  | .executed i _ body => some (i, .returned (some body))
  | .failed i error => some (i, .raised error)
  | _ => none

/-- An execution that ends was under way. -/
theorem requests_of_settled {l : Mock.Label B HttpError} {i : ℕ} {o : Outcome B HttpError}
    (hl : settled l = some (i, o)) (hstep : s.step l = some s') :
    ∃ role, ExecutingRole role ∧ s.requests[i]? = some ⟨role, .running⟩ ∧
      s'.requests = s.requests.set i ⟨role, o⟩ := by
  cases l with
  | executed | failed =>
    cases hl
    simp only [Service.step] at hstep
    split at hstep
    · rename_i key h hi
      obtain rfl := Option.some.inj hstep
      exact ⟨_, .inr ⟨key, h, rfl⟩, hi, rfl⟩
    · rename_i hi
      obtain rfl := Option.some.inj hstep
      exact ⟨_, .inl rfl, hi, rfl⟩
    · cases hstep
  | _ => cases hl

/-- A follower that goes on. -/
theorem requests_of_follower {l : Mock.Label B HttpError} {i : ℕ} (hl : l = .woken i ∨ l = .cancel i)
    (hstep : s.step l = some s') :
    ∃ key h o o', s.requests[i]? = some ⟨.follower key h, o⟩ ∧
      s'.requests = s.requests.set i ⟨.follower key h, o'⟩ := by
  rcases hl with rfl | rfl
  · simp only [Service.step] at hstep
    split at hstep
    · rename_i key h hi
      split at hstep
      · split at hstep
        · obtain rfl := Option.some.inj hstep
          exact ⟨key, h, _, _, hi, rfl⟩
        · cases hstep
      · cases hstep
    · cases hstep
  · simp only [Service.step] at hstep
    split at hstep
    · rename_i key h hi
      obtain rfl := Option.some.inj hstep
      exact ⟨key, h, _, _, hi, rfl⟩
    · cases hstep

end

/-! ### The ledger -/

section
variable {α β : Type} {l : List α} {m : List β} {i : ℕ} {x y : α} {b : β} {p : α → Bool}

theorem countP_set_add (hx : l[i]? = some x) :
    (l.set i y).countP p + (if p x then 1 else 0) = l.countP p + if p y then 1 else 0 := by
  induction l generalizing i with
  | nil => cases hx
  | cons a l ih =>
    cases i with
    | zero =>
      obtain rfl := Option.some.inj hx
      simp only [List.set_cons_zero, List.countP_cons]
      omega
    | succ i =>
      have htail := ih (i := i) hx
      simp only [List.set_cons_succ, List.countP_cons]
      omega

theorem zip_set (hb : m[i]? = some b) : (l.set i y).zip m = (l.zip m).set i (y, b) := by
  induction l generalizing m i with
  | nil => rfl
  | cons a l ih =>
    cases m with
    | nil => cases hb
    | cons c m =>
      cases i with
      | zero =>
        obtain rfl := Option.some.inj hb
        rfl
      | succ i =>
        have htail := ih (m := m) (i := i) hb
        simp only [List.set_cons_succ, List.zip_cons_cons, htail]

end

section
variable {s : Server B} {kind : Kind} {r r' : Request B HttpError} {t : Tag} {i : ℕ}
  {p : Request B HttpError → Bool}

/-- Every request has its tag, and none is from after the last reset. -/
structure Tagged (s : Server B) : Prop where
  length : s.service.requests.length = s.tags.length
  epoch_le : ∀ t ∈ s.tags, t.epoch ≤ s.epoch

/-- A request that comes in. -/
theorem among_append (h : s.Tagged) (q : Tag → Bool) (p : Request B HttpError → Bool) :
    among ((s.service.requests ++ [r]).zip (s.tags ++ [t])) q p =
      among s.ledger q p + if q t && p r then 1 else 0 := by
  rw [List.zip_append h.length, among, List.countP_append]
  simp [among, ledger]

/-- A request that goes on. -/
theorem among_set (r' : Request B HttpError) (hr : s.service.requests[i]? = some r)
    (ht : s.tags[i]? = some t) (q : Tag → Bool) (p : Request B HttpError → Bool) :
    among ((s.service.requests.set i r').zip s.tags) q p + (if q t && p r then 1 else 0) =
      among s.ledger q p + if q t && p r' then 1 else 0 := by
  have hledger : s.ledger[i]? = some (r, t) := by
    rw [ledger, List.getElem?_zip_eq_some]
    exact ⟨hr, ht⟩
  rw [zip_set ht]
  exact countP_set_add (p := fun x : Request B HttpError × Tag => q x.2 && p x.1) hledger

theorem Tagged.tag (h : s.Tagged) (hr : s.service.requests[i]? = some r) :
    ∃ t, s.tags[i]? = some t := by
  have hlt := (List.getElem?_eq_some_iff.mp hr).1
  rw [h.length] at hlt
  exact ⟨_, List.getElem?_eq_getElem hlt⟩

end

/-! ### The counters -/

/-- What an error costs. -/
def charge (c : EndpointStats) (e : HttpError) : EndpointStats := { c with
  rateLimited := c.rateLimited + if e.status = 429 then 1 else 0
  injectedFailures := c.injectedFailures + if e.status = 429 then 0 else 1
  chaosRejections := c.chaosRejections +
    if e.cause = .rateLimitedByChaos ∨ e.cause = .chaosFailure then 1 else 0 }

theorem enter_stats (e : Endpoint) (x : Readings) :
    (e.enter x).2.stats = (e.enter x).1.elim e.stats (charge e.stats) := by
  unfold Endpoint.enter
  split
  next rule hrule =>
    split
    next => simp [charge]
    next hstatus => simp [charge, hstatus]
  next =>
    simp only
    split
    next => simp [charge]
    next => rfl

/-- No refusal is a failure of the model. -/
theorem enter_cause {e : Endpoint} {x : Readings} {err : HttpError} (h : (e.enter x).1 = some err) :
    err.cause ≠ .modelFailure := by
  unfold Endpoint.enter at h
  split at h
  · split at h <;> obtain rfl := Option.some.inj h <;> simp
  · simp only at h
    split at h
    · obtain rfl := Option.some.inj h
      simp
    · cases h

section
variable {s s' : Server B} {kind kind' : Kind} {r r' : Request B HttpError} {t : Tag} {i : ℕ}

/-- The counters of a request, by what it has come to. -/
def counters (r : Request B HttpError) : EndpointStats where
  requests := 1
  executions := if Succeeded r then 1 else 0
  replays := if Executing r then 0 else 1
  rateLimited := if (errorOf r).any fun e => e.status = 429 then 1 else 0
  injectedFailures := if (errorOf r).any fun e => e.status ≠ 429 then 1 else 0
  chaosRejections := if (errorOf r).any fun e =>
    e.cause = .rateLimitedByChaos ∨ e.cause = .chaosFailure then 1 else 0

theorem add_stats (c d : EndpointStats) : c + d = ⟨c.requests + d.requests,
    c.executions + d.executions, c.replays + d.replays, c.rateLimited + d.rateLimited,
    c.injectedFailures + d.injectedFailures, c.chaosRejections + d.chaosRejections⟩ := rfl

theorem census_append (h : s.Tagged) (t t' : Tag) :
    census ((s.service.requests ++ [r]).zip (s.tags ++ [t])) t' =
      if t = t' then census s.ledger t' + counters r else census s.ledger t' := by
  by_cases htag : t = t'
  · rw [if_pos htag, add_stats]
    ext <;> simp only [census, counters, among_append h, htag, decide_true, Bool.true_and]
    · rfl
    · cases Executing r <;> rfl
  · rw [if_neg htag]
    ext <;> simp [census, among_append h, htag]

/-- The census after a request has gone on, against the census before. -/
theorem census_set (r' : Request B HttpError) (hr : s.service.requests[i]? = some r)
    (ht : s.tags[i]? = some t) (t' : Tag) :
    census ((s.service.requests.set i r').zip s.tags) t' +
        (if t = t' then counters r else {}) =
      census s.ledger t' + (if t = t' then counters r' else {}) := by
  have hset := fun p => among_set r' hr ht (fun x => x = t') p
  by_cases htag : t = t'
  · simp only [htag, decide_true, Bool.true_and] at hset
    rw [if_pos htag, if_pos htag, add_stats, add_stats]
    ext <;> simp only [census, counters]
    · exact hset fun _ => true
    · exact hset Succeeded
    · have hreplays := hset fun r => !Executing r
      cases hex : Executing r <;> cases hex' : Executing r' <;> simpa [hex, hex'] using hreplays
    · exact hset _
    · exact hset _
    · exact hset _
  · simp only [htag, decide_false, Bool.false_and] at hset
    rw [if_neg htag, if_neg htag, add_stats, add_stats]
    ext <;> simp only [census] <;> exact hset _

/-- An execution that was answered with an error. -/
theorem counters_raised {role : Role} {e : HttpError}
    (hr : Executing (⟨role, .raised (.raised e)⟩ : Request B HttpError) = true) :
    counters (⟨role, .raised (.raised e)⟩ : Request B HttpError) = charge { requests := 1 } e := by
  by_cases hstatus : e.status = 429
  · simp [counters, Succeeded, errorOf, hr, charge, hstatus]
  · simp [counters, Succeeded, errorOf, hr, charge, hstatus]

/-- An execution in its sleep. -/
theorem counters_running {role : Role}
    (hr : Executing (⟨role, .running⟩ : Request B HttpError) = true) :
    counters (⟨role, .running⟩ : Request B HttpError) = { requests := 1 } := by
  simp [counters, Succeeded, errorOf, hr]

/-- A request that executes, at the end of its first stretch. -/
theorem counters_started {refusal : Option HttpError} (hr : Executing r = true)
    (ho : r.outcome = Service.started refusal) :
    counters r = refusal.elim { requests := 1 } (charge { requests := 1 }) := by
  obtain ⟨role, o⟩ := r
  obtain rfl : o = Service.started refusal := ho
  cases refusal with
  | none => exact counters_running hr
  | some e => exact counters_raised hr

theorem add_charge (c : EndpointStats) (refusal : Option HttpError) :
    refusal.elim { c with requests := c.requests + 1 }
        (charge { c with requests := c.requests + 1 }) =
      c + refusal.elim { requests := 1 } (charge { requests := 1 }) := by
  cases refusal <;> simp [charge, add_stats]

/-- A request that does not execute. -/
theorem counters_replayed (hr : Executing r = false) :
    counters r = { requests := 1, replays := 1 } := by
  have herror : errorOf r = none := by
    unfold errorOf
    split <;> simp [hr]
  have hsucceeded : Succeeded r = false := by
    unfold Succeeded
    split <;> simp [hr]
  simp [counters, herror, hsucceeded, hr]

theorem add_right_cancel_stats {c d x : EndpointStats} (h : c + x = d + x) : c = d := by
  simp only [add_stats, EndpointStats.mk.injEq, Nat.add_right_cancel_iff] at h
  ext
  · exact h.1
  · exact h.2.1
  · exact h.2.2.1
  · exact h.2.2.2.1
  · exact h.2.2.2.2.1
  · exact h.2.2.2.2.2

/-- The counters are right, for both endpoints. -/
structure Sound (s : Server B) : Prop extends s.Tagged where
  census : ∀ kind, s.Census kind

theorem sound_start (ttl : ℚ) (maxEntries : ℕ) {endpoints : Kind → Endpoint}
    (hfresh : ∀ kind, (endpoints kind).Fresh) :
    (start (B := B) ttl maxEntries endpoints).Sound where
  length := rfl
  epoch_le := by simp [start]
  census kind := (hfresh kind).stats

theorem endpoints_setEndpoint (s : Server B) (kind : Kind) (e : Endpoint) (kind' : Kind) :
    (s.setEndpoint kind e).endpoints kind' = if kind' = kind then e else s.endpoints kind' := by
  by_cases hkind : kind' = kind
  · subst hkind
    simp [setEndpoint]
  · simp [setEndpoint, hkind]

/-- A step that leaves requests and counters alone. -/
theorem Sound.endpoint (h : s.Sound) (e : Endpoint) (hstats : e.stats = (s.endpoints kind).stats) :
    (s.setEndpoint kind e).Sound where
  length := h.length
  epoch_le := h.epoch_le
  census kind' := by
    have hcensus := h.census kind'
    change ((s.setEndpoint kind e).endpoints kind').stats = Server.census s.ledger ⟨kind', s.epoch⟩
    rw [endpoints_setEndpoint]
    split
    next hkind =>
      rw [hstats, ← hkind]
      exact hcensus
    next => exact hcensus

/-- A request that comes in, and is counted. -/
theorem Sound.arrive (h : s.Sound) {service : Service B HttpError}
    (hservice : service.requests = s.service.requests ++ [r]) (e : Endpoint)
    (he : e.stats = (s.endpoints kind).stats + counters r) :
    ({ s.setEndpoint kind e with service, tags := s.tags ++ [⟨kind, s.epoch⟩] } :
      Server B).Sound where
  length := by simp [hservice, h.length]
  epoch_le t ht := by
    rcases List.mem_append.mp ht with hold | hnew
    · exact h.epoch_le t hold
    · rw [List.mem_singleton.mp hnew]
      exact le_refl _
  census kind' := by
    have hcensus := h.census kind'
    change ((s.setEndpoint kind e).endpoints kind').stats =
      Server.census (service.requests.zip (s.tags ++ [⟨kind, s.epoch⟩])) ⟨kind', s.epoch⟩
    rw [endpoints_setEndpoint, hservice, census_append h.toTagged]
    by_cases hkind : kind' = kind
    · subst hkind
      rw [if_pos rfl, if_pos rfl, he, hcensus]
    · have htag : (⟨kind, s.epoch⟩ : Tag) ≠ ⟨kind', s.epoch⟩ := by
        intro heq
        exact hkind (Tag.mk.inj heq).1.symm
      rw [if_neg hkind, if_neg htag]
      exact hcensus

/-- A request that goes on, and costs something. -/
theorem Sound.goOn (h : s.Sound) (hr : s.service.requests[i]? = some r)
    (ht : s.tags[i]? = some t) {service : Service B HttpError}
    (hservice : service.requests = s.service.requests.set i r') (delta : EndpointStats)
    (hdelta : counters r' = counters r + delta) {f : EndpointStats → EndpointStats}
    (hf : ∀ c, f c = c + delta) : ({ s.count t f with service } : Server B).Sound := by
  have hsame : (s.count t f).tags = s.tags ∧ (s.count t f).epoch = s.epoch := by
    unfold count
    split <;> exact ⟨rfl, rfl⟩
  refine ⟨⟨?_, ?_⟩, fun kind => ?_⟩
  · simp [hservice, hsame, h.length]
  · intro t' ht'
    rw [hsame.1] at ht'
    simpa only [hsame.2] using h.epoch_le t' ht'
  · have hcensus := h.census kind
    have hset := census_set r' hr ht ⟨kind, s.epoch⟩
    unfold Census at *
    simp only [ledger, hservice, hsame]
    by_cases htag : t = ⟨kind, s.epoch⟩
    · have hstats : ((s.count t f).endpoints kind).stats = f (s.endpoints kind).stats := by
        simp [count, htag, setEndpoint]
      rw [if_pos htag, if_pos htag, hdelta] at hset
      apply add_right_cancel_stats (x := counters r)
      rw [hset, hstats, hf, hcensus]
      simp only [add_stats, EndpointStats.mk.injEq]
      omega
    · have hstats : ((s.count t f).endpoints kind).stats = (s.endpoints kind).stats := by
        unfold count
        split
        · next hepoch =>
          have hkind : kind ≠ t.kind := by
            rintro rfl
            exact htag (by rw [← hepoch])
          simp [setEndpoint, Function.update_of_ne hkind]
        · rfl
      rw [if_neg htag, if_neg htag] at hset
      rw [hstats, hcensus]
      exact (add_right_cancel_stats hset).symm

/-- A request that goes on, and costs nothing. -/
theorem Sound.goOn_free (h : s.Sound) (hr : s.service.requests[i]? = some r)
    {service : Service B HttpError} (hservice : service.requests = s.service.requests.set i r')
    (hsame : counters r' = counters r) : ({ s with service } : Server B).Sound := by
  obtain ⟨t, ht⟩ := h.tag hr
  refine ⟨⟨by simp [hservice, h.length], h.epoch_le⟩, fun kind => ?_⟩
  have hset := census_set r' hr ht ⟨kind, s.epoch⟩
  rw [hsame] at hset
  have hcensus := h.census kind
  unfold Census at *
  simp only [ledger, hservice]
  rw [hcensus]
  exact (add_right_cancel_stats hset).symm

/-- No request is from after the last reset. -/
theorem Tagged.census_next (h : s.Tagged) (kind : Kind) :
    Server.census s.ledger ⟨kind, s.epoch + 1⟩ = {} := by
  have hnone : ∀ p, among s.ledger (fun t => t = ⟨kind, s.epoch + 1⟩) p = 0 := by
    intro p
    rw [among, List.countP_eq_zero]
    rintro ⟨r, t⟩ hmem hp
    have hle := h.epoch_le t (List.of_mem_zip hmem).2
    simp only [Bool.and_eq_true, decide_eq_true_eq] at hp
    rw [hp.1] at hle
    exact absurd hle (by simp)
  simp only [Server.census, hnone]

/-- **One step** keeps the counters right. -/
theorem Sound.step (h : s.Sound) {l : Label B} (hstep : s.step l = some s') : s'.Sound := by
  cases l with
  | request kind now key x =>
    simp only [Server.step] at hstep
    split at hstep
    next hex =>
      obtain rfl := Option.some.inj hstep
      obtain ⟨r, hrequests, hr, ho⟩ := handle_requests s.service now key
        ((s.endpoints kind).called.enter x).1
      refine h.arrive hrequests _ ?_
      rw [enter_stats, counters_started (hr.trans hex) (ho hex)]
      exact add_charge _ _
    next hex =>
      obtain rfl := Option.some.inj hstep
      obtain ⟨r, hrequests, hr, -⟩ := handle_requests s.service now key none
      refine h.arrive hrequests _ ?_
      rw [counters_replayed (hr.trans (by simpa using hex))]
      rfl
  | conclude i now die body =>
    simp only [Server.step] at hstep
    split at hstep
    next => cases hstep
    next t ht =>
      split at hstep
      next =>
        obtain ⟨service, hservice, rfl⟩ := Option.map_eq_some_iff.mp hstep
        obtain ⟨role, hrole, hr, hset⟩ := requests_of_settled rfl hservice
        refine h.goOn hr ht hset { injectedFailures := 1 } ?_ fun c => rfl
        rw [counters_raised (hrole.executing _), counters_running (hrole.executing _)]
        rfl
      next =>
        obtain ⟨service, hservice, rfl⟩ := Option.map_eq_some_iff.mp hstep
        obtain ⟨role, hrole, hr, hset⟩ := requests_of_settled rfl hservice
        refine h.goOn hr ht hset { executions := 1 } ?_ fun c => rfl
        have hex : Executing (⟨role, .returned (some body)⟩ : Request B HttpError) = true :=
          hrole.executing _
        rw [counters_running (hrole.executing _)]
        simp [counters, Succeeded, errorOf, hex, add_stats]
  | abort i =>
    obtain ⟨service, hservice, rfl⟩ := Option.map_eq_some_iff.mp hstep
    obtain ⟨role, hrole, hr, hset⟩ := requests_of_settled rfl hservice
    refine h.goOn_free hr hset ?_
    have hex : Executing (⟨role, .raised .cancelled⟩ : Request B HttpError) = true :=
      hrole.executing _
    rw [counters_running (hrole.executing _)]
    simp [counters, Succeeded, errorOf, hex]
  | woken i =>
    obtain ⟨service, hservice, rfl⟩ := Option.map_eq_some_iff.mp hstep
    obtain ⟨key, hd, o, o', hr, hset⟩ := requests_of_follower (.inl rfl) hservice
    refine h.goOn_free hr hset ?_
    rw [counters_replayed rfl, counters_replayed rfl]
  | cancel i =>
    obtain ⟨service, hservice, rfl⟩ := Option.map_eq_some_iff.mp hstep
    obtain ⟨key, hd, o, o', hr, hset⟩ := requests_of_follower (.inr rfl) hservice
    refine h.goOn_free hr hset ?_
    rw [counters_replayed rfl, counters_replayed rfl]
  | setChaos kind rule =>
    obtain rfl := Option.some.inj hstep
    exact h.endpoint _ rfl
  | clearChaos kind =>
    obtain rfl := Option.some.inj hstep
    exact h.endpoint _ rfl
  | callCounts kind now =>
    obtain rfl := Option.some.inj hstep
    exact h.endpoint _ rfl
  | reset =>
    simp only [Server.step, Service.step, Option.map_some] at hstep
    obtain rfl := Option.some.inj hstep
    refine ⟨⟨h.length, fun t ht => Nat.le_succ_of_le (h.epoch_le t ht)⟩, fun kind => ?_⟩
    exact (h.toTagged.census_next kind).symm

/-- **The counters are right** in every state that any interleaving reaches: each is the number
of requests since the last reset that have come to what it stands for. -/
theorem census_of_reach {ttl : ℚ} {maxEntries : ℕ} {endpoints : Kind → Endpoint}
    (hfresh : ∀ kind, (endpoints kind).Fresh) {s : Server B}
    (hs : (start ttl maxEntries endpoints).runs.Reach System.anyStep s) (kind : Kind) :
    s.Census kind := by
  have hsound : s.Sound := hs.invariant (sound_start ttl maxEntries hfresh)
    fun _ _ _ h _ hstep => h.step hstep
  exact hsound.census kind

/-- Ten executions a second, one at once. -/
def tenASecond : Kind → Endpoint := fun _ => ⟨⟨10, 1, 1, 0⟩, none, {}, 1 / 20⟩

theorem fresh_tenASecond (kind : Kind) : (tenASecond kind).Fresh :=
  ⟨by norm_num [tenASecond], by simp [tenASecond], rfl, rfl⟩

/-- A call of the VLM that meets no chaos. -/
def callAt (now : ℚ) : Label Unit := .request .vlm now none ⟨now, now, 0, now, now⟩

theorem census_rejected : ∃ s : Server Unit,
    (start 300 10 tenASecond).runs.Reach System.anyStep s ∧
      (s.endpoints .vlm).stats = ⟨2, 1, 0, 1, 0, 0⟩ ∧ s.Census .vlm := by
  obtain ⟨s, hs, hq⟩ := System.exists_of_runAll (start 300 10 tenASecond).runs System.anyStep
    (fun s => (s.endpoints .vlm).stats = ⟨2, 1, 0, 1, 0, 0⟩)
    [callAt 0, callAt (1 / 20), .conclude 0 2 (1 / 2) ()] (by decide +kernel)
  exact ⟨s, hs, of_decide_eq_true hq, census_of_reach fresh_tenASecond hs .vlm⟩

end

end Server

/-! ## The rate -/

/-- From one state of a bucket to another `n` tokens have been taken. -/
structure TokenBucket.Spends (b b' : TokenBucket) (n : ℕ) : Prop where
  rate_eq : b'.rate = b.rate
  burst_eq : b'.burst = b.burst
  last_le : b.lastRefill ≤ b'.lastRefill
  gain_nonneg : 0 ≤ b.rate * (b'.lastRefill - b.lastRefill)
  spent : n + b'.tokens ≤ b.tokens + b.rate * (b'.lastRefill - b.lastRefill)
  kept : min (b.burst : ℚ) (b.tokens + b.rate * (b'.lastRefill - b.lastRefill)) ≤ n + b'.tokens
  nonneg : 0 ≤ b.tokens → 0 ≤ b'.tokens
  le_burst : b.tokens ≤ b.burst → b'.tokens ≤ b'.burst

namespace TokenBucket
variable {b b' b'' : TokenBucket} {n m : ℕ}

theorem Spends.refl (b : TokenBucket) : b.Spends b 0 :=
  ⟨rfl, rfl, le_refl _, by simp, by simp, by simp, id, id⟩

theorem Spends.trans (h : b.Spends b' n) (h' : b'.Spends b'' m) : b.Spends b'' (n + m) where
  rate_eq := h'.rate_eq.trans h.rate_eq
  burst_eq := h'.burst_eq.trans h.burst_eq
  last_le := h.last_le.trans h'.last_le
  gain_nonneg := by
    have hfirst := h.gain_nonneg
    have hsecond := h'.gain_nonneg
    rw [h.rate_eq] at hsecond
    linarith
  spent := by
    have hfirst := h.spent
    have hsecond := h'.spent
    rw [h.rate_eq] at hsecond
    push_cast
    linarith
  kept := by
    have hfirst := h.kept
    have hsecond := h'.kept
    have hgain := h'.gain_nonneg
    rw [h.rate_eq, h.burst_eq] at hsecond
    rw [h.rate_eq] at hgain
    have hfull := min_le_left (b.burst : ℚ) (b.tokens + b.rate * (b''.lastRefill - b.lastRefill))
    have hrefilled := min_le_right (b.burst : ℚ)
      (b.tokens + b.rate * (b''.lastRefill - b.lastRefill))
    push_cast
    rcases min_le_iff.mp hsecond with hb | hb
    · have hn : (0 : ℚ) ≤ n := Nat.cast_nonneg n
      linarith
    · rcases min_le_iff.mp hfirst with hb' | hb' <;> linarith
  nonneg := h'.nonneg ∘ h.nonneg
  le_burst := h'.le_burst ∘ h.le_burst

/-- A refill takes nothing. -/
theorem spends_refill (hrate : 0 ≤ b.rate) (now : ℚ) : b.Spends (b.refill now) 0 := by
  unfold refill
  split
  next hlater =>
    have hgain : 0 ≤ (now - b.lastRefill) * b.rate := mul_nonneg hlater.le hrate
    refine ⟨rfl, rfl, by simpa using hlater.le, ?_, ?_, ?_, fun htokens => ?_,
      fun _ => min_le_left _ _⟩
    · rw [mul_comm]
      exact hgain
    · have hmin := min_le_right (b.burst : ℚ) (b.tokens + (now - b.lastRefill) * b.rate)
      simp only [Nat.cast_zero, zero_add]
      linarith [mul_comm b.rate (now - b.lastRefill)]
    · simp only [Nat.cast_zero, zero_add, mul_comm b.rate]
      exact le_refl _
    · exact le_min (Nat.cast_nonneg _) (add_nonneg htokens hgain)
  next => exact .refl b

/-- An acquisition takes one token if it does not have to wait. -/
theorem spends_acquire (hrate : 0 < b.rate) (now : ℚ) :
    b.Spends (b.acquire now 1).2 (if 0 < (b.acquire now 1).1 then 0 else 1) := by
  have hrefill := spends_refill hrate.le now
  unfold acquire
  by_cases henough : 1 ≤ (b.refill now).tokens
  · simp only [henough, if_true, lt_irrefl, if_false]
    refine ⟨hrefill.rate_eq, hrefill.burst_eq, hrefill.last_le, hrefill.gain_nonneg, ?_, ?_,
      fun _ => ?_, fun hb => ?_⟩
    · have hspent := hrefill.spent
      push_cast at hspent ⊢
      linarith
    · have hkept := hrefill.kept
      push_cast at hkept ⊢
      linarith
    · simpa using henough
    · exact (sub_le_self _ zero_le_one).trans (hrefill.le_burst hb)
  · have hwait : 0 < (1 - (b.refill now).tokens) / (b.refill now).rate := by
      rw [hrefill.rate_eq]
      exact div_pos (by linarith) hrate
    simp only [henough, if_false, hwait, if_true]
    exact hrefill

end TokenBucket

theorem TokenBucket.lastRefill_refill (b : TokenBucket) (now : ℚ) :
    (b.refill now).lastRefill = max b.lastRefill now := by
  unfold TokenBucket.refill
  split
  next h => exact (max_eq_right (sub_pos.mp h).le).symm
  next h => exact (max_eq_left (not_lt.mp fun hlt => h (sub_pos.mpr hlt))).symm

/-- The milliseconds that a bucket asks for before the next token, as the header has them. -/
def TokenBucket.hintMs (b : TokenBucket) : ℤ := ⌊(1 - b.tokens) / b.rate * 1000⌋

/-- Before that time is over there is no token. -/
theorem TokenBucket.Spends.early {b b' : TokenBucket} {n : ℕ} (h : b.Spends b' n)
    (hrate : 0 < b.rate) (htokens : 0 ≤ b.tokens)
    (hearly : b'.lastRefill - b.lastRefill < (b.hintMs : ℚ) / 1000) : n = 0 := by
  have hfloor : (b.hintMs : ℚ) ≤ (1 - b.tokens) / b.rate * 1000 := Int.floor_le _
  have hwait : b'.lastRefill - b.lastRefill < (1 - b.tokens) / b.rate := by linarith
  rw [lt_div_iff₀ hrate, mul_comm] at hwait
  have hspent := h.spent
  have hleft := h.nonneg htokens
  have hless : (n : ℚ) < 1 := by linarith
  exact Nat.lt_one_iff.mp (by exact_mod_cast hless)

/-- A millisecond later there is one. -/
theorem TokenBucket.Spends.late {b b' : TokenBucket} (h : b.Spends b' 0) (hrate : 0 < b.rate)
    (hburst : 0 < b.burst)
    (hlate : ((b.hintMs : ℚ) + 1) / 1000 ≤ b'.lastRefill - b.lastRefill) : 1 ≤ b'.tokens := by
  have hfloor : (1 - b.tokens) / b.rate * 1000 < b.hintMs + 1 := Int.lt_floor_add_one _
  have hwait : (1 - b.tokens) / b.rate < b'.lastRefill - b.lastRefill := by linarith
  rw [div_lt_iff₀ hrate, mul_comm] at hwait
  have hone : (1 : ℚ) ≤ b.burst := by exact_mod_cast hburst
  have hkept := h.kept
  rw [Nat.cast_zero, zero_add] at hkept
  exact (le_min hone (by linarith)).trans hkept

/-- The bucket has refused: the hint is what it takes to have a token, in whole milliseconds. -/
theorem Endpoint.enter_exceeded {e : Endpoint} {x : Readings} {status : ℕ} {hd : RateLimitHeaders}
    (h : (e.enter x).1 = some ⟨status, .rateLimitExceeded, some hd⟩) :
    (e.bucket.refill x.acquireAt).tokens < 1 ∧
      hd.retryAfterMs = (e.bucket.refill x.acquireAt).hintMs ∧
      (e.enter x).2.bucket = (e.bucket.refill x.acquireAt).refill x.headersAt := by
  unfold Endpoint.enter at *
  split at h
  next =>
    split at h <;> simp at h
  next hnone =>
    simp only at h
    unfold TokenBucket.acquire at *
    by_cases henough : 1 ≤ (e.bucket.refill x.acquireAt).tokens
    · simp [henough] at h
    · simp only [henough, if_false] at h ⊢
      split at h
      next hwait =>
        simp only [Option.some.injEq, HttpError.mk.injEq, true_and] at h
        obtain ⟨-, rfl⟩ := h
        refine ⟨not_le.mp henough, rfl, ?_⟩
        rw [if_pos hwait]
        rfl
      next => cases h

/-- With a token in the bucket a request is let in, unless there is chaos. -/
theorem Endpoint.enter_eq_none {e : Endpoint} {x : Readings}
    (hcalm : ∀ rule ∈ e.faulted x, rule.status < 400)
    (henough : 1 ≤ (e.bucket.refill x.acquireAt).tokens) : (e.enter x).1 = none := by
  have hfilter : ((e.faulted x).filter fun r => 400 ≤ r.status) = none := by
    rw [Option.filter_eq_none_iff]
    intro rule hrule
    simpa using hcalm rule hrule
  unfold Endpoint.enter TokenBucket.acquire
  rw [hfilter]
  simp [henough]

theorem Endpoint.enter_spends {e : Endpoint} (hrate : 0 < e.bucket.rate) (x : Readings) :
    e.bucket.Spends (e.enter x).2.bucket (if (e.enter x).1 = none then 1 else 0) := by
  unfold Endpoint.enter
  split
  next rule hrule =>
    split
    next => exact TokenBucket.spends_refill hrate.le _
    next => exact .refl _
  next =>
    have hacquire := TokenBucket.spends_acquire hrate x.acquireAt
    simp only
    split
    next hwait =>
      rw [if_pos hwait] at hacquire
      refine hacquire.trans (m := 0) (TokenBucket.spends_refill ?_ x.headersAt)
      rw [hacquire.rate_eq]
      exact hrate.le
    next hwait =>
      rw [if_neg hwait] at hacquire
      exact hacquire

namespace Server
variable {B : Type} {s s' : Server B} {kind : Kind} {r r' : Request B HttpError} {t : Tag} {i : ℕ}

theorem letIn_started {refusal : Option HttpError} (hr : Executing r = true)
    (ho : r.outcome = Service.started refusal)
    (hcause : ∀ e ∈ refusal, e.cause ≠ .modelFailure) :
    LetIn r = decide (refusal = none) := by
  obtain ⟨role, o⟩ := r
  obtain rfl : o = Service.started refusal := ho
  cases refusal with
  | none =>
    have hex : Executing (⟨role, .running⟩ : Request B HttpError) = true := hr
    simp [LetIn, errorOf, Service.started, hex]
  | some e =>
    have hex : Executing (⟨role, .raised (.raised e)⟩ : Request B HttpError) = true := hr
    simp [LetIn, errorOf, Service.started, hex, hcause e rfl]

/-- A request that comes in counts if it is let in. -/
theorem admitted_arrive (h : s.Tagged) {kind' : Kind} {service : Service B HttpError}
    (hservice : service.requests = s.service.requests ++ [r]) (e : Endpoint) :
    ({ s.setEndpoint kind' e with service, tags := s.tags ++ [⟨kind', s.epoch⟩] } :
      Server B).admitted kind = s.admitted kind + if kind' = kind ∧ LetIn r then 1 else 0 := by
  rw [admitted, ledger, hservice]
  refine (among_append h _ _).trans ?_
  simp only [Bool.and_eq_true, decide_eq_true_eq]
  rfl

/-- A request that goes on has been let in or not. -/
theorem admitted_goOn (h : s.Tagged) (hr : s.service.requests[i]? = some r)
    {service : Service B HttpError} (hservice : service.requests = s.service.requests.set i r')
    (hin : LetIn r' = LetIn r) : ({ s with service } : Server B).admitted kind =
      s.admitted kind := by
  obtain ⟨t, ht⟩ := h.tag hr
  have hset := among_set r' hr ht (fun t => t.kind = kind) LetIn
  rw [hin] at hset
  rw [admitted, ledger, hservice]
  exact Nat.add_right_cancel hset

/-- A change of one endpoint spends what it takes from the bucket there. -/
theorem setEndpoint_spends {kind' : Kind} {e : Endpoint} {n : ℕ}
    (h : kind' = kind → (s.endpoints kind').bucket.Spends e.bucket n) :
    (s.endpoints kind).bucket.Spends ((s.setEndpoint kind' e).endpoints kind).bucket
      (if kind' = kind then n else 0) := by
  rw [endpoints_setEndpoint]
  by_cases hkind : kind = kind'
  · subst hkind
    rw [if_pos rfl, if_pos rfl]
    exact h rfl
  · rw [if_neg hkind, if_neg (Ne.symm hkind)]
    exact .refl _

theorem setEndpoint_spends_zero {kind' : Kind} {e : Endpoint}
    (h : kind' = kind → (s.endpoints kind').bucket.Spends e.bucket 0) :
    (s.endpoints kind).bucket.Spends ((s.setEndpoint kind' e).endpoints kind).bucket 0 := by
  have hspends := setEndpoint_spends h
  rw [ite_self] at hspends
  exact hspends

/-- Between two states the bucket gives what is let in. -/
def Pays (s s' : Server B) (kind : Kind) : Prop :=
  ∃ n, s'.admitted kind = s.admitted kind + n ∧
    (s.endpoints kind).bucket.Spends (s'.endpoints kind).bucket n

/-- A change of one endpoint that admits nothing. -/
theorem Pays.setEndpoint {kind' : Kind} {e : Endpoint}
    (h : kind' = kind → (s.endpoints kind').bucket.Spends e.bucket 0) :
    s.Pays (s.setEndpoint kind' e) kind :=
  ⟨0, rfl, setEndpoint_spends_zero h⟩

/-- A request that goes on. -/
theorem Pays.goOn (h : s.Tagged) (hr : s.service.requests[i]? = some r)
    {service : Service B HttpError} (hservice : service.requests = s.service.requests.set i r')
    (hin : LetIn r' = LetIn r) : s.Pays { s with service } kind :=
  ⟨0, admitted_goOn h hr hservice hin, .refl _⟩

/-- What is counted for a request takes nothing. -/
theorem Pays.count (h : s.Tagged) (hr : s.service.requests[i]? = some r)
    {service : Service B HttpError} (hservice : service.requests = s.service.requests.set i r')
    (hin : LetIn r' = LetIn r) (f : EndpointStats → EndpointStats) :
    s.Pays { s.count t f with service } kind := by
  unfold Server.count
  split
  next => exact ⟨0, admitted_goOn h hr hservice hin, setEndpoint_spends_zero fun _ => .refl _⟩
  next => exact .goOn h hr hservice hin

/-- A request at the door. -/
theorem pays_request (h : s.Tagged) (hrate : 0 < (s.endpoints kind).bucket.rate)
    {kind' : Kind} {now : ℚ} {key : Option String} {x : Readings}
    (hstep : s.step (.request kind' now key x) = some s') : s.Pays s' kind := by
  simp only [Server.step] at hstep
  split at hstep
  next hex =>
    obtain rfl := Option.some.inj hstep
    obtain ⟨r, hrequests, hr, ho⟩ := handle_requests s.service now key
      ((s.endpoints kind').called.enter x).1
    have hin := letIn_started (hr.trans hex) (ho hex) fun err herr => enter_cause herr
    refine ⟨_, admitted_arrive h hrequests _, ?_⟩
    simp only [hin, decide_eq_true_eq, ite_and]
    refine setEndpoint_spends fun hkind => ?_
    subst hkind
    exact Endpoint.enter_spends (e := (s.endpoints kind').called) hrate x
  next hex =>
    obtain rfl := Option.some.inj hstep
    obtain ⟨r, hrequests, hr, -⟩ := handle_requests s.service now key none
    have hout : LetIn r = false := by simp [LetIn, hr, hex]
    refine ⟨0, ?_, setEndpoint_spends_zero fun _ => .refl _⟩
    rw [admitted_arrive h hrequests, hout]
    simp

/-- A sleep that is over. -/
theorem pays_conclude (h : s.Tagged) {i : ℕ} {now die : ℚ} {body : B}
    (hstep : s.step (.conclude i now die body) = some s') : s.Pays s' kind := by
  simp only [Server.step] at hstep
  split at hstep
  next => cases hstep
  next t ht =>
    split at hstep <;>
    · obtain ⟨service, hservice, rfl⟩ := Option.map_eq_some_iff.mp hstep
      obtain ⟨role, hrole, hr, hset⟩ := requests_of_settled rfl hservice
      exact .count h hr hset (by simp [LetIn, errorOf, hrole.executing]) _

/-- **What one step takes** from a bucket is what it admits. -/
theorem step_spends (h : s.Tagged) (hrate : 0 < (s.endpoints kind).bucket.rate)
    {l : Label B} (hstep : s.step l = some s') : s.Pays s' kind := by
  cases l with
  | request kind' now key x => exact pays_request h hrate hstep
  | conclude i now die body => exact pays_conclude h hstep
  | abort i =>
    obtain ⟨service, hservice, rfl⟩ := Option.map_eq_some_iff.mp hstep
    obtain ⟨role, hrole, hr, hset⟩ := requests_of_settled rfl hservice
    exact .goOn h hr hset (by simp [LetIn, errorOf, hrole.executing])
  | woken i =>
    obtain ⟨service, hservice, rfl⟩ := Option.map_eq_some_iff.mp hstep
    obtain ⟨key, hd, o, o', hr, hset⟩ := requests_of_follower (.inl rfl) hservice
    exact .goOn h hr hset rfl
  | cancel i =>
    obtain ⟨service, hservice, rfl⟩ := Option.map_eq_some_iff.mp hstep
    obtain ⟨key, hd, o, o', hr, hset⟩ := requests_of_follower (.inr rfl) hservice
    exact .goOn h hr hset rfl
  | setChaos kind' rule | clearChaos kind' =>
    obtain rfl := Option.some.inj hstep
    exact .setEndpoint fun _ => .refl _
  | callCounts kind' now =>
    obtain rfl := Option.some.inj hstep
    exact .setEndpoint fun hkind =>
      TokenBucket.spends_refill (hkind ▸ hrate.le) now
  | reset =>
    simp only [Server.step, Service.step, Option.map_some] at hstep
    obtain rfl := Option.some.inj hstep
    exact ⟨0, rfl, .refl _⟩

theorem Sound.run (h : s.Sound) (hs : s.runs.Reach System.anyStep s') : s'.Sound :=
  hs.invariant h fun _ _ _ h _ hstep => h.step hstep

/-- **What a run takes** from a bucket is what it admits. -/
theorem run_spends (kind : Kind) (h : s.Sound) (hrate : 0 < (s.endpoints kind).bucket.rate)
    (hs : s.runs.Reach System.anyStep s') : s.Pays s' kind := by
  induction hs with
  | init => exact ⟨0, rfl, .refl _⟩
  | step hs _ hstep ih =>
    obtain ⟨n, hadmitted, hspends⟩ := ih
    have hrate' := hspends.rate_eq ▸ hrate
    obtain ⟨m, hadmitted', hspends'⟩ := step_spends (h.run hs).toTagged hrate' hstep
    exact ⟨n + m, by omega, hspends.trans hspends'⟩

/-- **The rate is kept**, whatever the interleaving: from any state of a run to any later one the
bucket lets in its burst at most, and what it is refilled with in between. -/
theorem admitted_le_of_reach {ttl : ℚ} {maxEntries : ℕ} {endpoints : Kind → Endpoint}
    (hfresh : ∀ kind, (endpoints kind).Fresh)
    (hs : (start ttl maxEntries endpoints).runs.Reach System.anyStep s)
    (hs' : s.runs.Reach System.anyStep s') (kind : Kind) :
    (s'.admitted kind : ℚ) ≤ s.admitted kind + (endpoints kind).bucket.burst +
      (endpoints kind).bucket.rate * ((s'.endpoints kind).bucket.lastRefill -
        (s.endpoints kind).bucket.lastRefill) := by
  have hstart := sound_start (B := B) ttl maxEntries hfresh
  have hfull := (hfresh kind).full
  obtain ⟨m, -, hbefore⟩ := run_spends kind hstart (hfresh kind).rate_pos hs
  have hrate : (s.endpoints kind).bucket.rate = (endpoints kind).bucket.rate := hbefore.rate_eq
  have hburst : (s.endpoints kind).bucket.burst = (endpoints kind).bucket.burst :=
    hbefore.burst_eq
  obtain ⟨n, hadmitted, hspends⟩ := run_spends kind (hstart.run hs)
    (by rw [hrate]; exact (hfresh kind).rate_pos) hs'
  have hleft : 0 ≤ (s'.endpoints kind).bucket.tokens := by
    refine hspends.nonneg (hbefore.nonneg ?_)
    exact hfull.symm ▸ Nat.cast_nonneg _
  have hheld := hbefore.le_burst hfull.le
  have hspent := hspends.spent
  rw [hburst] at hheld
  rw [hrate] at hspent
  rw [hadmitted]
  push_cast
  linarith

theorem admitted_le_twice : ∃ s : Server Unit,
    (start 300 10 tenASecond).runs.Reach System.anyStep s ∧ s.admitted .vlm = 2 ∧
      (s.admitted .vlm : ℚ) ≤ (0 : ℕ) + (1 : ℕ) +
        10 * ((s.endpoints .vlm).bucket.lastRefill - 0) := by
  obtain ⟨s, hs, hq⟩ := System.exists_of_runAll (start 300 10 tenASecond).runs System.anyStep
    (fun s => s.admitted .vlm = 2) [callAt 0, callAt (1 / 20), callAt (1 / 10)]
    (by decide +kernel)
  exact ⟨s, hs, of_decide_eq_true hq, admitted_le_of_reach fresh_tenASecond .init hs .vlm⟩

/-- A request that is let in. -/
theorem admitted_request (h : s.Tagged) {now : ℚ} {key : Option String} {x : Readings}
    (hex : executes s.service now key = true)
    (hin : ((s.endpoints kind).called.enter x).1 = none) :
    ∃ s', s.step (.request kind now key x) = some s' ∧
      s'.admitted kind = s.admitted kind + 1 := by
  refine ⟨_, if_pos hex, ?_⟩
  obtain ⟨r, hrequests, hr, ho⟩ := handle_requests s.service now key none
  rw [hin, admitted, ledger, hrequests]
  refine (among_append h _ _).trans ?_
  rw [letIn_started (hr.trans hex) (ho hex) fun err herr => nomatch herr]
  simp [admitted]

/-- A request that is answered with an error at once has got it from `Endpoint.enter`. -/
theorem refused_request {now : ℚ} {key : Option String} {x : Readings} {e : HttpError}
    (hstep : s.step (.request kind now key x) = some s')
    (hrefused : s'.service.requests.getLast?.bind errorOf = some e) :
    ((s.endpoints kind).called.enter x).1 = some e ∧
      s'.endpoints kind = ((s.endpoints kind).called.enter x).2 := by
  simp only [Server.step] at hstep
  split at hstep
  next hex =>
    obtain rfl := Option.some.inj hstep
    obtain ⟨⟨role, o⟩, hrequests, hr, ho⟩ := handle_requests s.service now key
      ((s.endpoints kind).called.enter x).1
    obtain rfl := ho hex
    refine ⟨?_, (endpoints_setEndpoint _ _ _ _).trans (if_pos rfl)⟩
    rw [hrequests, List.getLast?_concat] at hrefused
    generalize ((s.endpoints kind).called.enter x).1 = refusal at *
    cases refusal with
    | none => simp [errorOf, Service.started] at hrefused
    | some e' =>
      have hex' : Executing (⟨role, .raised (.raised e')⟩ : Request B HttpError) = true :=
        hr.trans hex
      simpa [errorOf, Service.started, hex'] using hrefused
  next hex =>
    obtain rfl := Option.some.inj hstep
    obtain ⟨r, hrequests, hr, -⟩ := handle_requests s.service now key none
    rw [hrequests, List.getLast?_concat, Option.bind_some, errorOf] at hrefused
    simp [hr, hex] at hrefused
    split at hrefused <;> cases hrefused

/-- **A hint is exact**, to the millisecond, whatever comes between: before it has passed the
bucket lets nobody in, and a millisecond later it lets a request in, if nobody was before. -/
theorem hint_exact {ttl : ℚ} {maxEntries : ℕ} {endpoints : Kind → Endpoint}
    (hfresh : ∀ kind, (endpoints kind).Fresh) {s₀ s₁ s₂ : Server B}
    (hs₀ : (start ttl maxEntries endpoints).runs.Reach System.anyStep s₀)
    {now : ℚ} {key : Option String} {x : Readings} {hd : RateLimitHeaders}
    (hstep : s₀.step (.request kind now key x) = some s₁)
    (hrefused : s₁.service.requests.getLast?.bind errorOf =
      some ⟨429, .rateLimitExceeded, some hd⟩)
    (hs₂ : s₁.runs.Reach System.anyStep s₂) :
    ((s₂.endpoints kind).bucket.lastRefill < x.acquireAt + (hd.retryAfterMs : ℚ) / 1000 →
      s₂.admitted kind = s₁.admitted kind) ∧
    (s₂.admitted kind = s₁.admitted kind → ∀ now' key' x',
      executes s₂.service now' key' = true →
      (∀ rule ∈ (s₂.endpoints kind).faulted x', rule.status < 400) →
      (s₁.endpoints kind).bucket.lastRefill + ((hd.retryAfterMs : ℚ) + 1) / 1000 ≤ x'.acquireAt →
      ∃ s₃, s₂.step (.request kind now' key' x') = some s₃ ∧
        s₃.admitted kind = s₂.admitted kind + 1) := by
  have hstart := sound_start (B := B) ttl maxEntries hfresh
  have hsound := (hstart.run hs₀).step hstep
  obtain ⟨m, -, hbefore⟩ := run_spends kind hstart (hfresh kind).rate_pos hs₀
  have hrate₀ : 0 < (s₀.endpoints kind).bucket.rate :=
    hbefore.rate_eq.symm ▸ (hfresh kind).rate_pos
  have hburst₀ : 0 < (s₀.endpoints kind).bucket.burst :=
    hbefore.burst_eq.symm ▸ (hfresh kind).burst_pos
  obtain ⟨hentered, hendpoint⟩ := refused_request hstep hrefused
  obtain ⟨hlow, hhint, hbucket⟩ := Endpoint.enter_exceeded hentered
  -- the bucket when it refused, and what has happened to it since
  set b := (s₀.endpoints kind).called.bucket.refill x.acquireAt with hb
  have hrefill : (s₀.endpoints kind).bucket.Spends b 0 :=
    TokenBucket.spends_refill hrate₀.le x.acquireAt
  have hrate : 0 < b.rate := hrefill.rate_eq.symm ▸ hrate₀
  have hheaders : b.Spends (s₁.endpoints kind).bucket 0 := by
    rw [hendpoint, hbucket]
    exact TokenBucket.spends_refill hrate.le _
  have hrate₁ : 0 < (s₁.endpoints kind).bucket.rate := hheaders.rate_eq.symm ▸ hrate
  obtain ⟨n, hadmitted, hrun⟩ := run_spends kind hsound hrate₁ hs₂
  have hsince := hheaders.trans hrun
  rw [hhint]
  constructor
  · intro hearly
    have htokens : 0 ≤ b.tokens := by
      refine hrefill.nonneg (hbefore.nonneg ?_)
      exact (hfresh kind).full.symm ▸ Nat.cast_nonneg _
    have hclock : x.acquireAt ≤ b.lastRefill :=
      (TokenBucket.lastRefill_refill _ _).symm ▸ le_max_right _ _
    have hnone := hsince.early hrate htokens (by linarith)
    omega
  · intro hsame now' key' x' hex hcalm hlate
    obtain rfl : n = 0 := by omega
    have hrefill' := TokenBucket.spends_refill (hrun.rate_eq.symm ▸ hrate₁).le x'.acquireAt
    have hclock : x'.acquireAt ≤ ((s₂.endpoints kind).bucket.refill x'.acquireAt).lastRefill :=
      (TokenBucket.lastRefill_refill _ _).symm ▸ le_max_right _ _
    have hone := (hsince.trans hrefill').late hrate (hrefill.burst_eq.symm ▸ hburst₀)
      (by linarith [hheaders.last_le])
    exact admitted_request (hsound.run hs₂).toTagged hex (Endpoint.enter_eq_none hcalm hone)

/-- Two calls at once: the second is to come back after 100 ms, and is let in after 101. -/
theorem hint_exact_twoCalls : ∃ s s' : Server Unit,
    s.service.requests.getLast?.bind errorOf =
      some ⟨429, .rateLimitExceeded, some ⟨1, 100, 10, 1, 0⟩⟩ ∧
        s.step (callAt (101 / 1000)) = some s' ∧ s'.admitted .vlm = s.admitted .vlm + 1 := by
  obtain ⟨s₀, hs₀, hq⟩ := System.exists_of_runAll (start 300 10 tenASecond).runs System.anyStep
    (fun s => (s.step (callAt 0)).any fun s₁ => s₁.service.requests.getLast?.bind errorOf =
        some ⟨429, .rateLimitExceeded, some ⟨1, 100, 10, 1, 0⟩⟩ ∧
      (s₁.endpoints .vlm).faulted ⟨101 / 1000, 101 / 1000, 0, 101 / 1000, 101 / 1000⟩ = none ∧
        (s₁.endpoints .vlm).bucket.lastRefill = 0) [callAt 0] (by decide +kernel)
  obtain ⟨s₁, hstep, hq⟩ := (Option.any_eq_true _ _).mp hq
  obtain ⟨hrefused, hcalm, hlast⟩ := of_decide_eq_true hq
  obtain ⟨s₂, hstep', hin⟩ := (hint_exact fresh_tenASecond hs₀ hstep hrefused .init).2 rfl
    (101 / 1000) none ⟨101 / 1000, 101 / 1000, 0, 101 / 1000, 101 / 1000⟩ rfl
    (fun rule hrule => by simp [runs, hcalm] at hrule)
    (by rw [hlast]; norm_num)
  exact ⟨s₁, s₂, hrefused, hstep', hin⟩

end Server
end Mock
end OcrOrchestrator
