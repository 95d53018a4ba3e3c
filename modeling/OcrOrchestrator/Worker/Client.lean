import OcrOrchestrator.Lib.Protocol
import OcrOrchestrator.RateLimit.Breaker
import OcrOrchestrator.RateLimit.Bucket
import OcrOrchestrator.Values

/-!
# Model calls behind a shared breaker

`post` is one attempt of `ModelClient` at a model endpoint, as a program over what it
awaits: the breaker, the rate controller, the token bucket, its own sleep and the HTTP
request.  Any number of attempts run against one breaker and interleave at every command.
The breaker is the circuit of `RateLimit.Breaker`; what the controller, the bucket and the
endpoint answer is arbitrary, and every Redis command may raise, before or after it took
effect.

The slot an attempt holds is history: its number in the circuit, from the moment `allow`
admitted it until it has reported.

## Main definitions

* `post` — one attempt.
* `Clients`, `Clients.system` — any number of attempts on one breaker.
* `Clients.ProbeOutstanding` — a half-open breaker that refuses everybody waits for an
  attempt that is going to report.
* `Clients.probesServed` — no attempt is turned away between its admission as a probe and
  its report.
-/

namespace OcrOrchestrator

open Lib

/-- Exceptions of one attempt, as far as `classify` tells them apart. -/
inductive CallExn where
  | circuitOpen (retryAfterS : ℚ)
  | rateLimitTimeout (retryAfterS waitedS : ℚ)
  | httpStatusError (status : ℕ)
  | timeoutException
  | transportError
  | other
  deriving DecidableEq

inductive Disposition where
  | retry
  | permanent
  | saturated
  | circuitOpen
  deriving DecidableEq

/-- Statuses worth another attempt. -/
def retryableStatuses : List ℕ := [408, 425, 429, 500, 502, 503, 504]

def classify : CallExn → Disposition
  | .circuitOpen _ => .circuitOpen
  | .rateLimitTimeout _ _ => .saturated
  | .httpStatusError status => if status ∈ retryableStatuses then .retry else .permanent
  | .timeoutException => .retry
  | .transportError => .retry
  | .other => .permanent

inductive Congestion where
  | rejected
  | timeout
  deriving DecidableEq

/-- What the endpoint answered, and how long it took. -/
structure HttpResponse where
  status : ℕ
  elapsedMs : ℚ
  /-- The decoded body, if it is JSON. -/
  body : Option Json

/-- What an attempt can await. -/
inductive CallCmd where
  | allow
  | recordSuccess
  | recordFailure
  | current
  | onSuccess (latencyMs : ℚ)
  | onCongestion (kind : Congestion)
  | tryAcquire (cost maxWaitS : ℚ) (rate : Option ℚ)
  | sleep (waitMs : ℤ)
  | request
  deriving DecidableEq

/-- What each command answers; a sleep answers the seconds slept, jitter included. -/
abbrev CallRet : CallCmd → Type
  | .allow => BreakerReply
  | .recordSuccess => BreakerReply
  | .recordFailure => BreakerReply
  | .current => ℚ
  | .onSuccess _ => Unit
  | .onCongestion _ => Unit
  | .tryAcquire _ _ _ => Acquisition
  | .sleep _ => ℚ
  | .request => HttpResponse

abbrev Call (α : Type) := Prog CallCmd CallRet CallExn α

/-- Await one command. -/
def awaitCall (c : CallCmd) : Call (CallRet c) := Prog.perform c

structure CallConfig where
  /-- `rate_limit_max_wait_s`. -/
  maxWaitS : ℚ
  /-- Is there an AIMD controller for the endpoint? -/
  adaptive : Bool

/-- `TokenBucketLimiter.acquire`: one Redis call and at most one sleep. -/
def acquire (cfg : CallConfig) (rate : Option ℚ) : Call ℚ := do
  let result ← awaitCall (.tryAcquire 1 cfg.maxWaitS rate)
  if !result.granted then Prog.raise (.rateLimitTimeout (result.waitMs / 1000) 0)
  else if result.waitMs ≤ 0 then pure 0
  else awaitCall (.sleep result.waitMs)

/-- `AdaptiveRate.current`, if there is a controller. -/
def currentRate (cfg : CallConfig) : Call (Option ℚ) :=
  if cfg.adaptive then do
    let rate ← awaitCall .current
    pure (some rate)
  else pure none

/-- The request and `raise_for_status`. -/
def sendRequest : Call HttpResponse := do
  let response ← awaitCall .request
  if 200 ≤ response.status ∧ response.status < 300 then pure response
  else Prog.raise (.httpStatusError response.status)

/-- Only load signals steer the rate. -/
def reportCongestion (cfg : CallConfig) (exc : CallExn) : Call Unit :=
  if cfg.adaptive then
    match exc with
    | .httpStatusError status =>
      if status = 429 then awaitCall (.onCongestion .rejected) else pure ()
    | .timeoutException => awaitCall (.onCongestion .timeout)
    | _ => pure ()
  else pure ()

/-- The `except BaseException` block around the request. -/
def onException (cfg : CallConfig) (exc : CallExn) : Call HttpResponse := do
  reportCongestion cfg exc
  if classify exc ≠ .saturated then
    let _ ← awaitCall .recordFailure
    Prog.raise exc
  else Prog.raise exc

/-- Latency is fed in on success only. -/
def reportLatency (cfg : CallConfig) (response : HttpResponse) : Call Unit :=
  if cfg.adaptive then awaitCall (.onSuccess response.elapsedMs) else pure ()

/-- What follows the admission by the breaker. -/
def postAdmitted (cfg : CallConfig) : Call Json := do
  let rate ← currentRate cfg
  let _ ← acquire cfg rate
  let response ← sendRequest.tryCatch (onException cfg)
  reportLatency cfg response
  let _ ← awaitCall .recordSuccess
  match response.body with
  | some body => pure body
  | none => Prog.raise .other

/-- `ModelClient._post`. -/
def post (cfg : CallConfig) : Call Json := do
  let verdict ← awaitCall .allow
  if !verdict.allowed then Prog.raise (.circuitOpen (verdict.retryAfterMs / 1000))
  else postAdmitted cfg

/-! ## Any number of attempts on one breaker -/

/-- What comes back from the network: a response, or what the transport raised. -/
inductive HttpOutcome where
  | response (r : HttpResponse)
  | timeout
  | transportError
  | other

def HttpOutcome.toExcept : HttpOutcome → Except CallExn HttpResponse
  | response r => .ok r
  | timeout => .error .timeoutException
  | transportError => .error .transportError
  | other => .error .other

/-- Everything about one command that the program and the breaker do not decide. -/
structure CallOracle where
  now : ℚ
  rate : ℚ
  acquisition : Acquisition
  sleptS : ℚ
  http : HttpOutcome
  /-- Does the command raise, and if so, after it took effect? -/
  fault : Option Bool

/-- An attempt in progress. -/
structure Attempt where
  /-- Its number in the circuit while it owes the breaker a report. -/
  slot : Option ℕ
  prog : Call Json

structure Clients where
  circuit : Circuit
  attempts : ℕ → Option Attempt
  /-- Attempts are numbered in the order they start. -/
  started : ℕ

namespace Clients

inductive Label where
  | start
  | run (i : ℕ) (o : CallOracle)
  | peek (now : ℚ)
  | drop

def empty : Clients := ⟨Circuit.empty, fun _ => none, 0⟩

/-- A report of the attempt that holds this slot.  One without a slot reaches the hash all
the same. -/
def record (cfg : BreakerConfig) (slot : Option ℕ) (ok : Bool) (now : ℚ) (w : Circuit) :
    Circuit :=
  match slot.bind fun t => (w.calls t).map fun a => (t, a) with
  | some (t, a) => w.report cfg t a ok now
  | none => { w with
      hash := some (Breaker.script cfg (Circuit.reportOp ok) now w.hash).2
      episode := w.episodeAt cfg now }

/-- The answer of a command, the slot afterwards and the circuit afterwards, if the command
does not raise. -/
def apply (cfg : BreakerConfig) (o : CallOracle) (slot : Option ℕ) (w : Circuit) :
    (c : CallCmd) → Except CallExn (CallRet c) × Option ℕ × Circuit
  | .allow =>
    let reply := (Breaker.script cfg .allow o.now w.hash).1
    (.ok reply, if reply.allowed then some w.next else slot, w.allow cfg o.now)
  | .recordSuccess =>
    (.ok (Breaker.script cfg .success o.now w.hash).1, none, record cfg slot true o.now w)
  | .recordFailure =>
    (.ok (Breaker.script cfg .failure o.now w.hash).1, none, record cfg slot false o.now w)
  | .current => (.ok o.rate, slot, w)
  | .onSuccess _ => (.ok (), slot, w)
  | .onCongestion _ => (.ok (), slot, w)
  | .tryAcquire _ _ _ => (.ok o.acquisition, slot, w)
  | .sleep _ => (.ok o.sleptS, slot, w)
  | .request => (o.http.toExcept, slot, w)

/-- One command, which may raise before or after it took effect. -/
def exec (cfg : BreakerConfig) (o : CallOracle) (slot : Option ℕ) (w : Circuit) (c : CallCmd) :
    Except CallExn (CallRet c) × Option ℕ × Circuit :=
  match o.fault with
  | none => apply cfg o slot w c
  | some false => (.error .other, slot, w)
  | some true => (.error .other, (apply cfg o slot w c).2)

/-- An attempt that returned or raised is gone. -/
def resume (s : Clients) (i : ℕ) (slot : Option ℕ) (prog : Call Json) (w : Circuit) : Clients :=
  { s with
    circuit := w
    attempts := Function.update s.attempts i
      (match prog with
      | .call _ _ => some ⟨slot, prog⟩
      | _ => none) }

def step (cfg : BreakerConfig) (call : CallConfig) (s : Clients) : Label → Option Clients
  | .start => some { s with
      attempts := Function.update s.attempts s.started (some ⟨none, post call⟩)
      started := s.started + 1 }
  | .run i o =>
    match s.attempts i with
    | none => none
    | some a =>
      match a.prog with
      | .call c k =>
        let out := exec cfg o a.slot s.circuit c
        some (s.resume i out.2.1 (k out.1) out.2.2)
      | _ => none
  | .peek now => some { s with circuit := s.circuit.peek cfg now }
  | .drop => some { s with circuit := { s.circuit with hash := none } }

def system (cfg : BreakerConfig) (call : CallConfig) : System Clients Label :=
  ⟨empty, step cfg call⟩

/-- Is the command a report to the breaker? -/
def IsReport (c : CallCmd) : Prop := c = .recordSuccess ∨ c = .recordFailure

/-- The answer does not turn the attempt away: the command does not raise, unless it is the
request, and the bucket grants a slot.  What the transport raises is not one of the two
refusals of the client itself. -/
def Served : (c : CallCmd) → Except CallExn (CallRet c) → Prop
  | .request, .ok _ => True
  | .request, .error e => classify e ≠ .saturated
  | .tryAcquire _ _ _, .ok result => result.granted = true
  | _, .ok _ => True
  | _, .error _ => False

/-- The attempt is going to report, whatever the endpoint does, unless it is turned away. -/
def WillReport (p : Call Json) : Prop := p.Must Served IsReport

/-- **No probe slot is lost**: a half-open breaker whose slots are all taken has admitted an
attempt that is still in progress and is going to report. -/
def ProbeOutstanding (cfg : BreakerConfig) (s : Clients) : Prop :=
  ∀ h, s.circuit.hash = some h → h.state = .halfOpen → h.probes = cfg.maxProbes →
    ∃ i a t, s.attempts i = some a ∧ a.slot = some t ∧ (s.circuit.calls t).isSome ∧
      WillReport a.prog

/-- Does the attempt hold a slot of the current half-open episode? -/
def holdsProbe (s : Clients) (a : Attempt) : Bool :=
  s.circuit.state = .halfOpen && a.slot.any fun t =>
    s.circuit.calls t = some (.probe s.circuit.episode)

/-- No attempt is turned away while it holds a slot of a half-open breaker, and the answer
of `allow` is not lost. -/
def probesServed (s : Clients) : Label → Bool
  | .run i o =>
    match s.attempts i with
    | none => true
    | some a =>
      match a.prog with
      | .call .allow _ => o.fault ≠ some true
      | .call .request _ => true
      | .call (.tryAcquire _ _ _) _ =>
        (o.fault = none && o.acquisition.granted) || !s.holdsProbe a
      | .call _ _ => o.fault = none || !s.holdsProbe a
      | _ => true
  | _ => true

/-! ## The attempt alone -/

/-- Before `allow`, between admission and report, and nothing left to await. -/
inductive CallPhase where
  | asking
  | holding
  | ended

def talksToBreaker : CallCmd → Bool
  | .allow => true
  | .recordSuccess => true
  | .recordFailure => true
  | _ => false

inductive Move : CallPhase → (c : CallCmd) → Except CallExn (CallRet c) → CallPhase → Prop where
  | admitted {v : BreakerReply} (hv : v.allowed = true) : Move .asking .allow (.ok v) .holding
  | refused {v : BreakerReply} (hv : v.allowed = false) : Move .asking .allow (.ok v) .ended
  | lost {e : CallExn} : Move .asking .allow (.error e) .ended
  | success {r : Except CallExn BreakerReply} : Move .holding .recordSuccess r .ended
  | failure {r : Except CallExn BreakerReply} : Move .holding .recordFailure r .ended
  | other {c : CallCmd} {r : Except CallExn (CallRet c)} (hc : talksToBreaker c = false) :
      Move .holding c r .holding

def protocol : Protocol CallCmd CallRet CallExn CallPhase where
  may := fun _ _ => True
  move := Move

/-- The program makes the moves of an attempt from this phase on. -/
abbrev At {α : Type} (φ : CallPhase) (p : Call α) : Prop := p.Follows protocol (fun _ _ => True) φ

/-- The program stays between admission and report. -/
abbrev Holds {α : Type} (p : Call α) : Prop :=
  p.Follows protocol (fun _ φ => φ = .holding) .holding

theorem holds_await {c : CallCmd} (hc : talksToBreaker c = false) : Holds (awaitCall c) :=
  Prog.Follows.perform fun _ _ => ⟨.holding, .other hc, rfl⟩

theorem holds_currentRate (call : CallConfig) : Holds (currentRate call) := by
  unfold currentRate
  split
  · refine Prog.Follows.bind (holds_await rfl) ?_ ?_
    · rintro a φ rfl
      exact rfl
    · rintro e φ rfl
      exact rfl
  · exact rfl

theorem holds_acquire (call : CallConfig) (rate : Option ℚ) : Holds (acquire call rate) := by
  refine Prog.Follows.bind (holds_await rfl) ?_ ?_
  · rintro result φ rfl
    split
    · exact rfl
    · split
      · exact rfl
      · exact holds_await rfl
  · rintro e φ rfl
    exact rfl

theorem holds_sendRequest : Holds sendRequest := by
  refine Prog.Follows.bind (holds_await rfl) ?_ ?_
  · rintro response φ rfl
    split <;> exact rfl
  · rintro e φ rfl
    exact rfl

theorem holds_reportCongestion (call : CallConfig) (exc : CallExn) :
    Holds (reportCongestion call exc) := by
  unfold reportCongestion
  split
  · split
    · split
      · exact holds_await rfl
      · exact rfl
    · exact holds_await rfl
    · exact rfl
  · exact rfl

theorem holds_reportLatency (call : CallConfig) (response : HttpResponse) :
    Holds (reportLatency call response) := by
  unfold reportLatency
  split
  · exact holds_await rfl
  · exact rfl

theorem at_ended_report {c : CallCmd} (hc : IsReport c) :
    (awaitCall c).Follows protocol (fun _ φ => φ = .ended) .holding := by
  refine Prog.Follows.perform fun r _ => ?_
  rcases hc with rfl | rfl
  · exact ⟨.ended, .success, rfl⟩
  · exact ⟨.ended, .failure, rfl⟩

/-- The handler never returns: it reports, unless it is told not to, and raises. -/
theorem follows_onException (call : CallConfig) (exc : CallExn) :
    (onException call exc).Follows protocol
      (fun r φ => (∃ e, r = .error e) ∨ φ = .holding) .holding := by
  refine Prog.Follows.bind (holds_reportCongestion call exc) ?_ ?_
  · rintro a φ rfl
    split
    · refine Prog.Follows.bind (at_ended_report (.inr rfl)) ?_ ?_
      · rintro v φ rfl
        exact .inl ⟨exc, rfl⟩
      · rintro e φ rfl
        exact .inl ⟨e, rfl⟩
    · exact .inl ⟨exc, rfl⟩
  · rintro e φ rfl
    exact .inr rfl

theorem at_holding_postAdmitted (call : CallConfig) : At .holding (postAdmitted call) := by
  refine Prog.Follows.bind (holds_currentRate call) ?_ fun _ _ _ => trivial
  rintro rate φ rfl
  refine Prog.Follows.bind (holds_acquire call rate) ?_ fun _ _ _ => trivial
  rintro waited φ rfl
  refine Prog.Follows.bind (m := fun r φ => (∃ e, r = .error e) ∨ φ = .holding) ?_ ?_
    fun _ _ _ => trivial
  · refine Prog.Follows.tryCatch holds_sendRequest ?_ ?_
    · rintro a φ rfl
      exact .inr rfl
    · rintro e φ rfl
      exact follows_onException call e
  · rintro response φ hφ
    obtain ⟨e, he⟩ | rfl := hφ
    · cases he
    refine Prog.Follows.bind (holds_reportLatency call response) ?_ fun _ _ _ => trivial
    rintro u φ rfl
    refine Prog.Follows.bind (at_ended_report (.inl rfl)) ?_ fun _ _ _ => trivial
    rintro v φ rfl
    split <;> trivial

theorem must_await {c : CallCmd} (hc : IsReport c) : (awaitCall c).Must Served IsReport :=
  Prog.Must.perform hc

/-- One command that is answered, and then a program that reports. -/
theorem must_await_bind {α : Type} {c : CallCmd} {f : CallRet c → Call α}
    (hok : ∀ a, Served c (.ok a) → (f a).Must Served IsReport)
    (herr : ∀ e, ¬ Served c (.error e)) : (awaitCall c >>= f).Must Served IsReport := by
  refine .inr fun r hr => ?_
  cases r with
  | ok a => exact hok a hr
  | error e => exact absurd hr (herr e)

theorem classify_httpStatusError (status : ℕ) :
    classify (.httpStatusError status) ≠ .saturated := by
  simp only [classify]
  split <;> decide

/-- The handler reports every exception of the transport. -/
theorem must_onException (call : CallConfig) {exc : CallExn} (hexc : classify exc ≠ .saturated) :
    (onException call exc).Must Served IsReport := by
  have hreport : (do
      let _ ← awaitCall .recordFailure
      Prog.raise exc : Call HttpResponse).Must Served IsReport :=
    (must_await (.inr rfl)).bind
  unfold onException reportCongestion
  rw [if_pos hexc]
  split
  · split
    · split
      · exact must_await_bind (fun _ _ => hreport) fun _ h => h
      · exact hreport
    · exact must_await_bind (fun _ _ => hreport) fun _ h => h
    · exact hreport
  · exact hreport

/-- What follows the request reports its success. -/
theorem must_sent (call : CallConfig) (response : HttpResponse) : (do
    reportLatency call response
    let _ ← awaitCall .recordSuccess
    match response.body with
    | some body => pure body
    | none => Prog.raise .other : Call Json).Must Served IsReport := by
  unfold reportLatency
  split
  · exact must_await_bind (fun _ _ => (must_await (.inl rfl)).bind) fun _ h => h
  · exact (must_await (.inl rfl)).bind

/-- Once the bucket has granted the slot and the controller has answered, an attempt that
was admitted reports, whatever the endpoint does. -/
theorem willReport_postAdmitted (call : CallConfig) : WillReport (postAdmitted call) := by
  have hrequest : (do
      let response ← sendRequest.tryCatch (onException call)
      reportLatency call response
      let _ ← awaitCall .recordSuccess
      match response.body with
      | some body => pure body
      | none => Prog.raise .other : Call Json).Must Served IsReport := by
    refine Prog.Must.perform_tryCatch ?_ fun e he => (must_onException call he).bind
    intro response _
    split
    · exact must_sent call response
    · exact (must_onException call (classify_httpStatusError _)).bind
  have hacquire : ∀ rate, (do
      let _ ← acquire call rate
      let response ← sendRequest.tryCatch (onException call)
      reportLatency call response
      let _ ← awaitCall .recordSuccess
      match response.body with
      | some body => pure body
      | none => Prog.raise .other : Call Json).Must Served IsReport := by
    intro rate
    refine Prog.Must.perform_bind ?_ fun _ h => h
    intro result hgranted
    have hg : result.granted = true := hgranted
    rw [hg]
    by_cases hwait : result.waitMs ≤ 0
    · simpa [hwait] using hrequest
    · simpa [hwait] using
        must_await_bind (c := .sleep result.waitMs) (fun _ _ => hrequest) fun _ h => h
  unfold WillReport postAdmitted currentRate
  split
  · exact Prog.Must.perform_bind (fun rate _ => hacquire (some rate)) fun _ h => h
  · exact hacquire none

/-! ## Attempts and their slots -/

variable {cfg : BreakerConfig} {call : CallConfig} {s s' : Clients} {o : CallOracle}

/-- Nothing is left to await. -/
def Ended (p : Call Json) : Prop := ∀ c k, p ≠ .call c k

theorem ended_of_at {p : Call Json} (h : At .ended p) : Ended p := by
  rintro c k rfl
  obtain ⟨φ, hmove, -⟩ := h (.error .other) trivial
  cases hmove

/-- What one command of an attempt between admission and report does: nothing to the
circuit; or the attempt is over, and it has reported or could not. -/
theorem exec_holding (cfg : BreakerConfig) (o : CallOracle) {c : CallCmd}
    {k : Except CallExn (CallRet c) → Call Json} {t : ℕ} {a : Admission} {w : Circuit} (hat : At .holding (.call c k)) (ht : w.calls t = some a) :
    ((exec cfg o (some t) w c).2 = (some t, w) ∧ At .holding (k (exec cfg o (some t) w c).1) ∧
        talksToBreaker c = false) ∨
      (Ended (k (exec cfg o (some t) w c).1) ∧ IsReport c ∧
        (((exec cfg o (some t) w c).2.2 = w ∧ o.fault = some false) ∨
          ∃ ok, (exec cfg o (some t) w c).2.2 = w.report cfg t a ok o.now)) := by
  obtain ⟨φ, hmove, hk⟩ := hat (exec cfg o (some t) w c).1 trivial
  generalize hr : (exec cfg o (some t) w c).1 = r at hmove hk ⊢
  have hreport : ∀ ok, record cfg (some t) ok o.now w = w.report cfg t a ok o.now := by
    intro ok
    simp [record, ht]
  cases hmove with
  | success =>
    refine .inr ⟨ended_of_at hk, .inl rfl, ?_⟩
    rcases hf : o.fault with _ | _ | _
    · exact .inr ⟨true, by simp [exec, apply, hf, hreport]⟩
    · exact .inl ⟨by simp [exec, hf], rfl⟩
    · exact .inr ⟨true, by simp [exec, apply, hf, hreport]⟩
  | failure =>
    refine .inr ⟨ended_of_at hk, .inr rfl, ?_⟩
    rcases hf : o.fault with _ | _ | _
    · exact .inr ⟨false, by simp [exec, apply, hf, hreport]⟩
    · exact .inl ⟨by simp [exec, hf], rfl⟩
    · exact .inr ⟨false, by simp [exec, apply, hf, hreport]⟩
  | other hc =>
    refine .inl ⟨?_, hk, hc⟩
    rcases hf : o.fault with _ | _ | _ <;> cases c <;> simp_all [exec, apply, talksToBreaker]

/-- What an attempt does with the answer of `allow`. -/
def afterAllow (call : CallConfig) : Except CallExn BreakerReply → Call Json
  | .ok verdict =>
    if !verdict.allowed then Prog.raise (.circuitOpen (verdict.retryAfterMs / 1000))
    else postAdmitted call
  | .error e => Prog.raise e

theorem post_eq (call : CallConfig) : post call = .call .allow (afterAllow call) := by
  unfold post awaitCall Prog.perform
  rw [Prog.call_bind]
  congr 1
  funext r
  cases r <;> rfl

/-- Every attempt is before `allow` or holds a slot that the circuit has on its list, and no
two hold the same. -/
structure Sound (call : CallConfig) (s : Clients) : Prop where
  tracked : s.circuit.Tracked
  attempts_lt : ∀ i a, s.attempts i = some a → i < s.started
  phase : ∀ i a, s.attempts i = some a → (a.slot = none ∧ a.prog = post call) ∨
    ∃ t, a.slot = some t ∧ (s.circuit.calls t).isSome ∧ At .holding a.prog
  distinct : ∀ i j a b t, s.attempts i = some a → s.attempts j = some b →
    a.slot = some t → b.slot = some t → i = j

/-- One command of an attempt: it stays between admission and report; it is admitted; it is
turned away at the breaker; or it is over, having reported or failed to. -/
inductive Ran (cfg : BreakerConfig) (call : CallConfig) (s : Clients) (i : ℕ) (o : CallOracle)
    (s' : Clients) : Prop where
  | kept {t : ℕ} {c : CallCmd} {k : Except CallExn (CallRet c) → Call Json}
      (ha : s.attempts i = some ⟨some t, .call c k⟩) (hc : talksToBreaker c = false)
      (hat : At .holding (k (exec cfg o (some t) s.circuit c).1))
      (hs' : s' = s.resume i (some t) (k (exec cfg o (some t) s.circuit c).1) s.circuit)
  | admitted (ha : s.attempts i = some ⟨none, post call⟩)
      (hallowed : (Breaker.script cfg .allow o.now s.circuit.hash).1.allowed = true)
      (hs' : s' = s.resume i (some s.circuit.next) (postAdmitted call)
        (s.circuit.allow cfg o.now))
  | turnedAway {w : Circuit} (ha : s.attempts i = some ⟨none, post call⟩)
      (hw : w = s.circuit ∨ (w = s.circuit.allow cfg o.now ∧
        ((Breaker.script cfg .allow o.now s.circuit.hash).1.allowed = false ∨
          o.fault = some true)))
      (hs' : s' = { s with circuit := w, attempts := Function.update s.attempts i none })
  | finished {t : ℕ} {a : Admission} {c : CallCmd} {k : Except CallExn (CallRet c) → Call Json}
      {w : Circuit} (ha : s.attempts i = some ⟨some t, .call c k⟩)
      (ht : s.circuit.calls t = some a) (hc : IsReport c)
      (hw : (w = s.circuit ∧ o.fault = some false) ∨
        ∃ ok, w = s.circuit.report cfg t a ok o.now)
      (hs' : s' = { s with circuit := w, attempts := Function.update s.attempts i none })

theorem resume_of_ended {i : ℕ} {slot : Option ℕ} {p : Call Json} {w : Circuit} (hp : Ended p) :
    s.resume i slot p w =
      { s with circuit := w, attempts := Function.update s.attempts i none } := by
  cases p with
  | ret a => rfl
  | raise e => rfl
  | call c k => exact absurd rfl (hp c k)

theorem Sound.ran (hs : Sound call s) {i : ℕ} (hstep : step cfg call s (.run i o) = some s') :
    Ran cfg call s i o s' := by
  simp only [step] at hstep
  split at hstep
  · cases hstep
  · rename_i a ha
    rcases hs.phase i a ha with ⟨hslot, hprog⟩ | ⟨t, hslot, hcall, hat⟩
    · obtain ⟨slot, prog⟩ := a
      subst hslot hprog
      simp only [post_eq, Option.some.injEq] at hstep
      subst hstep
      rcases hf : o.fault with _ | _ | _
      · cases hall : (Breaker.script cfg .allow o.now s.circuit.hash).1.allowed with
        | true =>
          refine .admitted ha hall ?_
          simp [exec, apply, hf, hall, afterAllow]
        | false =>
          refine .turnedAway ha (.inr ⟨rfl, .inl hall⟩) ?_
          rw [resume_of_ended (by simp [exec, apply, hf, hall, afterAllow, Ended])]
          simp [exec, apply, hf]
      · refine .turnedAway ha (.inl rfl) ?_
        rw [resume_of_ended (by simp [exec, hf, afterAllow, Ended])]
        simp [exec, hf]
      · refine .turnedAway ha (.inr ⟨rfl, .inr hf⟩) ?_
        rw [resume_of_ended (by simp [exec, hf, afterAllow, Ended])]
        simp [exec, apply, hf]
    · obtain ⟨slot, prog⟩ := a
      subst hslot
      split at hstep
      · rename_i c k hprog
        dsimp only at hprog hat
        subst hprog
        obtain rfl := Option.some.inj hstep
        obtain ⟨adm, ht⟩ := Option.isSome_iff_exists.mp hcall
        rcases exec_holding cfg o hat ht with ⟨hout, hat', hc⟩ | ⟨hend, hc, hw⟩
        · refine .kept ha hc hat' ?_
          dsimp only
          rw [hout]
        · refine .finished ha ht hc hw ?_
          exact resume_of_ended hend
      · cases hstep

/-- Seen from the breaker, every step is one of the circuit's or none. -/
theorem Sound.circuit_step (hs : Sound call s) {l : Label} (hstep : step cfg call s l = some s') :
    s'.circuit = s.circuit ∨ ∃ m, s.circuit.step cfg m = some s'.circuit := by
  cases l with
  | start =>
    obtain rfl := Option.some.inj hstep
    exact .inl rfl
  | run i o =>
    cases hs.ran hstep with
    | kept _ _ _ hs' => exact .inl (by rw [hs']; rfl)
    | admitted _ _ hs' => exact .inr ⟨.allow o.now, by rw [hs']; rfl⟩
    | turnedAway _ hw hs' =>
      rw [hs']
      rcases hw with hw | ⟨hw, -⟩
      · exact .inl hw
      · exact .inr ⟨.allow o.now, congrArg some hw.symm⟩
    | finished _ ht _ hw hs' =>
      rw [hs']
      rcases hw with ⟨hw, -⟩ | ⟨ok, hw⟩
      · exact .inl hw
      · exact .inr ⟨.report _ ok o.now, by rw [Circuit.step, ht, hw]; rfl⟩
  | peek now =>
    obtain rfl := Option.some.inj hstep
    exact .inr ⟨.peek now, rfl⟩
  | drop =>
    obtain rfl := Option.some.inj hstep
    exact .inr ⟨.drop, rfl⟩

/-- A step takes no other attempt's call off the circuit's list. -/
theorem Sound.calls_isSome (hs : Sound call s) {i : ℕ} (hran : Ran cfg call s i o s') {j t : ℕ}
    {b : Attempt} (hj : s.attempts j = some b) (hji : j ≠ i) (ht : b.slot = some t)
    (hcall : (s.circuit.calls t).isSome) : (s'.circuit.calls t).isSome := by
  have hallow : ((s.circuit.allow cfg o.now).calls t).isSome := by
    unfold Circuit.allow
    dsimp only
    split
    · dsimp only
      by_cases htn : t = s.circuit.next
      · rw [htn, Function.update_self]
        rfl
      · rwa [Function.update_of_ne htn]
    · exact hcall
  cases hran with
  | kept _ _ _ hs' => rwa [hs']
  | admitted _ _ hs' => rwa [hs']
  | turnedAway _ hw hs' =>
    rw [hs']
    rcases hw with rfl | ⟨rfl, -⟩
    · exact hcall
    · exact hallow
  | @finished u _ _ _ _ ha _ _ hw hs' =>
    rw [hs']
    rcases hw with ⟨rfl, -⟩ | ⟨ok, rfl⟩
    · exact hcall
    · have htu : t ≠ u := by
        rintro rfl
        exact hji (hs.distinct j i _ _ t hj ha ht rfl)
      simpa [Circuit.report, Function.update_of_ne htu] using hcall

/-- The attempt that ran was there, and the others stay as they are. -/
theorem Ran.attempts {i : ℕ} (hran : Ran cfg call s i o s') :
    (∃ a, s.attempts i = some a) ∧ (∀ j, j ≠ i → s'.attempts j = s.attempts j) ∧
      s'.started = s.started := by
  cases hran with
  | kept ha _ _ hs' =>
    rw [hs']
    exact ⟨⟨_, ha⟩, fun j hj => Function.update_of_ne hj _ _, rfl⟩
  | admitted ha _ hs' =>
    rw [hs']
    exact ⟨⟨_, ha⟩, fun j hj => Function.update_of_ne hj _ _, rfl⟩
  | turnedAway ha _ hs' =>
    rw [hs']
    exact ⟨⟨_, ha⟩, fun j hj => Function.update_of_ne hj _ _, rfl⟩
  | finished ha _ _ _ hs' =>
    rw [hs']
    exact ⟨⟨_, ha⟩, fun j hj => Function.update_of_ne hj _ _, rfl⟩

theorem eq_of_resume {i : ℕ} {slot : Option ℕ} {p : Call Json} {w : Circuit} {b : Attempt}
    (h : (s.resume i slot p w).attempts i = some b) : b = ⟨slot, p⟩ := by
  simp only [resume, Function.update_self] at h
  split at h
  · exact (Option.some.inj h).symm
  · cases h

/-- The attempt that ran, if it goes on: it holds a slot that it held before or that is new,
and the circuit has it on its list. -/
theorem Sound.ran_self (hs : Sound call s) {i : ℕ} (hran : Ran cfg call s i o s') {b : Attempt}
    (hb : s'.attempts i = some b) :
    ∃ t, b.slot = some t ∧ (s'.circuit.calls t).isSome ∧ At .holding b.prog ∧
      ((∃ a, s.attempts i = some a ∧ a.slot = some t) ∨ t = s.circuit.next) := by
  cases hran with
  | @kept t _ _ ha _ hat hs' =>
    subst hs'
    obtain rfl := eq_of_resume hb
    refine ⟨t, rfl, ?_, hat, .inl ⟨_, ha, rfl⟩⟩
    rcases hs.phase i _ ha with ⟨hnone, -⟩ | ⟨u, hslot, hcall, -⟩
    · cases hnone
    · cases hslot
      exact hcall
  | admitted ha hallowed hs' =>
    subst hs'
    obtain rfl := eq_of_resume hb
    refine ⟨s.circuit.next, rfl, ?_, at_holding_postAdmitted call, .inr rfl⟩
    simp only [resume]
    rw [Circuit.allow_of_allowed hallowed]
    simp
  | turnedAway _ _ hs' =>
    subst hs'
    simp at hb
  | finished _ _ _ _ hs' =>
    subst hs'
    simp at hb

/-- A slot that an attempt holds has been given out. -/
theorem Sound.slot_lt (hs : Sound call s) {j t : ℕ} {b : Attempt} (hj : s.attempts j = some b)
    (ht : b.slot = some t) : t < s.circuit.next := by
  rcases hs.phase j b hj with ⟨hnone, -⟩ | ⟨u, hslot, hcall, -⟩
  · rw [ht] at hnone
    cases hnone
  · obtain rfl := Option.some.inj (ht.symm.trans hslot)
    obtain ⟨a, ha⟩ := Option.isSome_iff_exists.mp hcall
    exact hs.tracked.calls_lt t a ha

theorem Sound.run (hs : Sound call s) {i : ℕ} (hstep : step cfg call s (.run i o) = some s') :
    Sound call s' := by
  have hran := hs.ran hstep
  obtain ⟨⟨a₀, ha₀⟩, hothers, hstarted⟩ := hran.attempts
  constructor
  · rcases hs.circuit_step hstep with hsame | ⟨m, hm⟩
    · rw [hsame]
      exact hs.tracked
    · exact hs.tracked.step hm
  · intro j b hj
    rw [hstarted]
    by_cases hji : j = i
    · subst hji
      exact hs.attempts_lt j a₀ ha₀
    · rw [hothers j hji] at hj
      exact hs.attempts_lt j b hj
  · intro j b hj
    by_cases hji : j = i
    · subst hji
      obtain ⟨t, hslot, hcall, hat, -⟩ := hs.ran_self hran hj
      exact .inr ⟨t, hslot, hcall, hat⟩
    · rw [hothers j hji] at hj
      rcases hs.phase j b hj with hasking | ⟨t, hslot, hcall, hat⟩
      · exact .inl hasking
      · exact .inr ⟨t, hslot, hs.calls_isSome hran hj hji hslot hcall, hat⟩
  · -- a slot is held by the attempt that held it before, or is new and its own
    have hself : ∀ j b t, s'.attempts j = some b → b.slot = some t →
        (∃ a, s.attempts j = some a ∧ a.slot = some t) ∨ (j = i ∧ t = s.circuit.next) := by
      intro j b t hj ht
      by_cases hji : j = i
      · subst hji
        obtain ⟨u, hslot, -, -, hheld⟩ := hs.ran_self hran hj
        obtain rfl := Option.some.inj (ht.symm.trans hslot)
        exact hheld.imp_right fun hnext => ⟨rfl, hnext⟩
      · rw [hothers j hji] at hj
        exact .inl ⟨b, hj, ht⟩
    intro j k b d t hj hk hbt hdt
    rcases hself j b t hj hbt with ⟨a, ha, hat⟩ | ⟨rfl, hnext⟩ <;>
      rcases hself k d t hk hdt with ⟨a', ha', hat'⟩ | ⟨rfl, hnext'⟩
    · exact hs.distinct j k a a' t ha ha' hat hat'
    · have := hs.slot_lt ha hat
      omega
    · have := hs.slot_lt ha' hat'
      omega
    · rfl

theorem Sound.empty : Sound call Clients.empty where
  tracked := .empty
  attempts_lt := by simp [Clients.empty]
  phase := by simp [Clients.empty]
  distinct := by simp [Clients.empty]

theorem Sound.start (hs : Sound call s) (hstep : step cfg call s .start = some s') :
    Sound call s' := by
  obtain rfl := Option.some.inj hstep
  have hcases : ∀ j b, Function.update s.attempts s.started (some ⟨none, post call⟩) j = some b →
      (j = s.started ∧ b = ⟨none, post call⟩) ∨ s.attempts j = some b := by
    intro j b hj
    by_cases hnew : j = s.started
    · subst hnew
      rw [Function.update_self] at hj
      exact .inl ⟨rfl, (Option.some.inj hj).symm⟩
    · rw [Function.update_of_ne hnew] at hj
      exact .inr hj
  refine ⟨hs.tracked, ?_, ?_, ?_⟩
  · intro j b hj
    rcases hcases j b hj with ⟨rfl, -⟩ | hold
    · exact Nat.lt_succ_self _
    · exact Nat.lt_succ_of_lt (hs.attempts_lt j b hold)
  · intro j b hj
    rcases hcases j b hj with ⟨-, rfl⟩ | hold
    · exact .inl ⟨rfl, rfl⟩
    · exact hs.phase j b hold
  · intro j k b d t hj hk hbt hdt
    rcases hcases j b hj with ⟨-, rfl⟩ | hj
    · cases hbt
    · rcases hcases k d hk with ⟨-, rfl⟩ | hk
      · cases hdt
      · exact hs.distinct j k b d t hj hk hbt hdt

theorem Sound.step (hs : Sound call s) {l : Label} (hstep : step cfg call s l = some s') :
    Sound call s' := by
  cases l with
  | start => exact hs.start hstep
  | run i o => exact hs.run hstep
  | peek now =>
    obtain rfl := Option.some.inj hstep
    exact ⟨hs.tracked.peek, hs.attempts_lt, hs.phase, hs.distinct⟩
  | drop =>
    obtain rfl := Option.some.inj hstep
    exact ⟨hs.tracked.drop, hs.attempts_lt, hs.phase, hs.distinct⟩

theorem sound_of_reach {allow : Clients → Label → Bool}
    (hs : (system cfg call).Reach allow s) : Sound call s :=
  hs.invariant Sound.empty fun _ _ _ h _ hstep => h.step hstep

/-- **Clients refine the circuit**: whatever any number of attempts do, their breaker only
goes through states of a circuit with calls that report late or never. -/
theorem circuit_reach {allow : Clients → Label → Bool} (hs : (system cfg call).Reach allow s) :
    (Circuit.system cfg).Reach System.anyStep s.circuit :=
  hs.simulate (fun s => s.circuit) rfl fun _ _ _ hreach _ hstep =>
    ((sound_of_reach hreach).circuit_step hstep).imp_right fun ⟨m, hm⟩ => ⟨m, rfl, hm⟩

/-! ## Probes that are served report -/

/-- Every probe of the current episode that is outstanding is an attempt in progress that is
going to report. -/
def Attended (s : Clients) : Prop :=
  s.circuit.state = .halfOpen → ∀ t, s.circuit.calls t = some (.probe s.circuit.episode) →
    ∃ i a, s.attempts i = some a ∧ a.slot = some t ∧ WillReport a.prog

/-- An answer that the condition allows a probe does not turn it away. -/
theorem served_of_probesServed {i t : ℕ} {c : CallCmd} {k : Except CallExn (CallRet c) → Call Json}
    (hallow : probesServed s (.run i o) = true)
    (ha : s.attempts i = some ⟨some t, .call c k⟩) (hc : talksToBreaker c = false)
    (hhalf : s.circuit.state = .halfOpen)
    (ht : s.circuit.calls t = some (.probe s.circuit.episode)) :
    Served c (exec cfg o (some t) s.circuit c).1 := by
  have hprobe : s.holdsProbe ⟨some t, .call c k⟩ = true := by simp [holdsProbe, hhalf, ht]
  simp only [probesServed, ha] at hallow
  cases c with
  | allow => cases hc
  | recordSuccess => cases hc
  | recordFailure => cases hc
  | request =>
    rcases hf : o.fault with _ | _ | _
    · cases hh : o.http <;> simp [exec, apply, hf, hh, HttpOutcome.toExcept, Served, classify]
    · simp [exec, hf, Served, classify]
    · simp [exec, hf, Served, classify]
  | tryAcquire cost maxWaitS rate =>
    have hg : o.fault = none ∧ o.acquisition.granted = true := by simpa [hprobe] using hallow
    simp [exec, apply, hg.1, hg.2, Served]
  | current =>
    have hf : o.fault = none := by simpa [hprobe] using hallow
    simp [exec, apply, hf, Served]
  | onSuccess latencyMs =>
    have hf : o.fault = none := by simpa [hprobe] using hallow
    simp [exec, apply, hf, Served]
  | onCongestion kind =>
    have hf : o.fault = none := by simpa [hprobe] using hallow
    simp [exec, apply, hf, Served]
  | sleep waitMs =>
    have hf : o.fault = none := by simpa [hprobe] using hallow
    simp [exec, apply, hf, Served]

/-- An attempt that is going to report is still there after its step. -/
theorem resume_of_willReport {i : ℕ} {slot : Option ℕ} {p : Call Json} {w : Circuit}
    (hp : WillReport p) : (s.resume i slot p w).attempts i = some ⟨slot, p⟩ := by
  cases p with
  | ret a => exact hp.elim
  | raise e => exact hp.elim
  | call c k => exact Function.update_self i _ s.attempts

/-- Attempts other than the one that ran attend to their probes as before. -/
theorem Ran.attended_other {i : ℕ} (hran : Ran cfg call s i o s') (hatt : Attended s) {t : ℕ}
    (hhalf : s.circuit.state = .halfOpen)
    (ht : s.circuit.calls t = some (.probe s.circuit.episode))
    (hi : ∀ a, s.attempts i = some a → a.slot ≠ some t) :
    ∃ j a, s'.attempts j = some a ∧ a.slot = some t ∧ WillReport a.prog := by
  obtain ⟨j, a, hj, hslot, hwill⟩ := hatt hhalf t ht
  have hji : j ≠ i := by
    rintro rfl
    exact hi a hj hslot
  exact ⟨j, a, (hran.attempts.2.1 j hji).trans hj, hslot, hwill⟩

theorem Attended.run (hatt : Attended s) (hs : Sound call s) {i : ℕ}
    (hallow : probesServed s (.run i o) = true)
    (hstep : step cfg call s (.run i o) = some s') : Attended s' := by
  have hran := hs.ran hstep
  have hother := fun t => hran.attended_other (t := t) hatt
  intro hhalf t ht
  cases hran with
  | @kept u c k ha hc hat hs' =>
    subst hs'
    by_cases htu : t = u
    · subst htu
      obtain ⟨j, a, hj, hslot, hwill⟩ := hatt hhalf t ht
      obtain rfl := hs.distinct j i a _ t hj ha hslot rfl
      obtain rfl := Option.some.inj (ha.symm.trans hj)
      -- a command that is not a report and does not turn the probe away
      have hwill' : WillReport (k (exec cfg o (some t) s.circuit c).1) := by
        rcases hwill with hreport | hnext
        · rcases hreport with rfl | rfl <;> cases hc
        · exact hnext _ (served_of_probesServed hallow ha hc hhalf ht)
      exact ⟨j, _, resume_of_willReport hwill', rfl, hwill'⟩
    · refine hother t hhalf ht fun a ha' => ?_
      obtain rfl := Option.some.inj (ha.symm.trans ha')
      exact fun h => htu (Option.some.inj h).symm
  | admitted ha hallowed hs' =>
    subst hs'
    change (s.circuit.allow cfg o.now).state = .halfOpen at hhalf
    change (s.circuit.allow cfg o.now).calls t =
      some (.probe (s.circuit.allow cfg o.now).episode) at ht
    by_cases htn : t = s.circuit.next
    · subst htn
      exact ⟨i, _, resume_of_willReport (willReport_postAdmitted call), rfl,
        willReport_postAdmitted call⟩
    · rw [Circuit.state_allow] at hhalf
      rw [Circuit.episode_allow, Circuit.allow_of_allowed hallowed] at ht
      have hold : s.circuit.calls t = some (.probe (s.circuit.episodeAt cfg o.now)) := by
        simpa [Function.update_of_ne htn] using ht
      obtain ⟨hhalf', ht'⟩ := hs.tracked.probe_found hhalf hold
      refine hother t hhalf' ht' fun a ha' => ?_
      obtain rfl := Option.some.inj (ha.symm.trans ha')
      simp
  | turnedAway ha hw hs' =>
    subst hs'
    have hfree : ∀ a, s.attempts i = some a → a.slot ≠ some t := by
      intro a ha'
      obtain rfl := Option.some.inj (ha.symm.trans ha')
      simp
    rcases hw with rfl | ⟨rfl, hrefused | hfault⟩
    · exact hother t hhalf ht hfree
    · change (s.circuit.allow cfg o.now).state = .halfOpen at hhalf
      change (s.circuit.allow cfg o.now).calls t =
        some (.probe (s.circuit.allow cfg o.now).episode) at ht
      rw [Circuit.state_allow] at hhalf
      rw [Circuit.episode_allow, Circuit.allow_of_refused hrefused] at ht
      obtain ⟨hhalf', ht'⟩ := hs.tracked.probe_found hhalf ht
      exact hother t hhalf' ht' hfree
    · rw [post_eq] at ha
      simp [probesServed, ha, hfault] at hallow
  | @finished u adm c k w ha hcall hc hw hs' =>
    subst hs'
    rcases hw with ⟨rfl, hfault⟩ | ⟨ok, rfl⟩
    · refine hother t hhalf ht fun a ha' => ?_
      obtain rfl := Option.some.inj (ha.symm.trans ha')
      intro hut
      obtain rfl := Option.some.inj hut
      have hprobe : s.holdsProbe ⟨some u, .call c k⟩ = true := by
        change s.circuit.state = .halfOpen at hhalf
        change s.circuit.calls u = some (.probe s.circuit.episode) at ht
        simp [holdsProbe, hhalf, ht]
      rcases hc with rfl | rfl <;> simp [probesServed, ha, hfault, hprobe] at hallow
    · have htu : t ≠ u := by
        rintro rfl
        simp [Circuit.report] at ht
      have hold : s.circuit.calls t = some (.probe (s.circuit.episodeAt cfg o.now)) := by
        simpa [Circuit.report, Function.update_of_ne htu] using ht
      obtain ⟨hhalf', ht'⟩ := hs.tracked.probe_found (Circuit.state_report hhalf) hold
      refine hother t hhalf' ht' fun a ha' => ?_
      obtain rfl := Option.some.inj (ha.symm.trans ha')
      exact fun h => htu (Option.some.inj h).symm

theorem Attended.step (hatt : Attended s) (hs : Sound call s) {l : Label}
    (hallow : probesServed s l = true) (hstep : step cfg call s l = some s') : Attended s' := by
  cases l with
  | start =>
    obtain rfl := Option.some.inj hstep
    intro hhalf t ht
    obtain ⟨i, a, hi, hslot, hwill⟩ := hatt hhalf t ht
    have hlt := hs.attempts_lt i a hi
    exact ⟨i, a, (Function.update_of_ne hlt.ne _ _).trans hi, hslot, hwill⟩
  | run i o => exact hatt.run hs hallow hstep
  | peek now =>
    obtain rfl := Option.some.inj hstep
    intro hhalf t ht
    change (s.circuit.peek cfg now).state = .halfOpen at hhalf
    rw [Circuit.state_peek] at hhalf
    obtain ⟨hhalf', ht'⟩ := hs.tracked.probe_found hhalf ht
    exact hatt hhalf' t ht'
  | drop =>
    obtain rfl := Option.some.inj hstep
    intro hhalf
    simp [Circuit.state] at hhalf

theorem attended_of_reach (hs : (system cfg call).Reach probesServed s) : Attended s := by
  have hboth : Sound call s ∧ Attended s := by
    refine @System.Reach.invariant _ _ _ _ (fun s => Sound call s ∧ Attended s) ?_ ?_ _ hs
    · refine ⟨.empty, fun hhalf => ?_⟩
      simp [system, Clients.empty, Circuit.empty, Circuit.state] at hhalf
    · exact fun _ _ _ h hallow hstep => ⟨h.1.step hstep, h.2.step h.1 hallow hstep⟩
  exact hboth.2

/-- **No probe slot leaks** in any run in which no attempt is turned away between its
admission as a probe and its report. -/
theorem probeOutstanding_of_reach (cfg : BreakerConfig) (call : CallConfig) (s : Clients)
    (hs : (system cfg call).Reach probesServed s) : ProbeOutstanding cfg s := by
  intro h hh hhalf hfull
  have hstate : s.circuit.state = .halfOpen := by simp [Circuit.state, hh, hhalf]
  -- the clients' breaker is a circuit's, and there every slot taken is a probe outstanding
  have hslots := (Circuit.tracked_of_reach (circuit_reach hs)).slots_le h hh hhalf
  have hpos : 0 < s.circuit.outstanding s.circuit.episode := by
    have := cfg.maxProbes_pos
    omega
  obtain ⟨t, ht⟩ := Finset.card_pos.mp hpos
  have hcall := (Finset.mem_filter.mp ht).2
  obtain ⟨i, a, hi, hslot, hwill⟩ := attended_of_reach hs hstate t hcall
  exact ⟨i, a, t, hi, hslot, by rw [hcall]; rfl, hwill⟩

/-- A bucket at ten per second that has promised forty seconds of slots. -/
def saturatedBucket (now : ℚ) : Acquisition :=
  (Bucket.tryAcquire Bucket.oneToken 1 30 (some 10) now (some ⟨-400, now⟩)).1

/-- The commands are answered at this time, and the endpoint does not respond. -/
def unreachable (now : ℚ) : CallOracle := ⟨now, 10, ⟨true, 0, 0⟩, 0, .transportError, none⟩

/-- The same, with a bucket that has no slot within the wait budget. -/
def saturated (now : ℚ) : CallOracle := { unreachable now with acquisition := saturatedBucket now }

/-- The next attempt starts and has `n` commands answered. -/
def attempt (i n : ℕ) (o : CallOracle) : List Label := .start :: List.replicate n (.run i o)

/-- Ten attempts at an endpoint that does not respond open the breaker. -/
def outage : List Label := ((List.range 10).map fun i => attempt i 5 (unreachable 0)).flatten

/-- Is the breaker half-open with all its slots taken? -/
def full (s : Clients) : Bool :=
  s.circuit.hash.any fun h => h.state = .halfOpen && h.probes = 3

/-- After the cooldown three attempts are admitted as probes and are waiting for the
endpoint. -/
theorem probeOutstanding_three_probes :
    ∃ s, (system .default ⟨30, true⟩).Reach probesServed s ∧ s.full = true ∧
      ProbeOutstanding .default s := by
  obtain ⟨s, hs, hfull⟩ := System.exists_of_runAll (system .default ⟨30, true⟩) probesServed full
    (outage ++ attempt 10 3 (unreachable 6000) ++ attempt 11 3 (unreachable 6000) ++
      attempt 12 3 (unreachable 6000)) (by decide +kernel)
  exact ⟨s, hs, hfull, probeOutstanding_of_reach _ _ s hs⟩

/-- After the cooldown three attempts are admitted as probes and refused by the bucket: the
breaker is half-open, has no free slot, and nobody is in progress. -/
theorem not_probeOutstanding_saturated :
    ¬ ∀ (cfg : BreakerConfig) (call : CallConfig) (s : Clients),
      (system cfg call).Reach System.anyStep s → ProbeOutstanding cfg s := by
  intro hall
  obtain ⟨s, hs, hq⟩ := System.exists_of_runAll (system .default ⟨30, true⟩) System.anyStep
    (fun s => s.full && (List.range s.started).all fun i => (s.attempts i).isNone)
    (outage ++ attempt 10 3 (saturated 6000) ++ attempt 11 3 (saturated 6000) ++
      attempt 12 3 (saturated 6000)) (by decide +kernel)
  simp only [full, Bool.and_eq_true, Option.any_eq_true, decide_eq_true_eq, List.all_eq_true,
    List.mem_range, Option.isNone_iff_eq_none] at hq
  obtain ⟨⟨h, hh, hhalf, hprobes⟩, hnone⟩ := hq
  obtain ⟨i, a, t, hi, -⟩ := hall _ _ s hs h hh hhalf hprobes
  have hlt := (sound_of_reach hs).attempts_lt i a hi
  rw [hnone i hlt] at hi
  cases hi

end Clients
end OcrOrchestrator
