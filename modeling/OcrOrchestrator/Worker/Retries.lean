import OcrOrchestrator.Lib.Dict
import OcrOrchestrator.Worker.Client
import Mathlib.Tactic.Linarith
import Mathlib.Tactic.Positivity
import Mathlib.Tactic.GCongr

/-!
# Retries

`_post_with_retries` of `ModelClient`: a failed attempt is repeated after a while, if its failure
is one that passes.  The attempts are those of `post`, command by command; between two of them the
client reads the headers of the response, draws its jitter and sleeps.

What a run has done is read off its log, newest entry first.  A program that is cancelled stops
anywhere, so what is proved holds of the log of every run so far and not of complete runs only.
The counters of the client are left out, and so are headers that `float` reads as an infinity.

## Main definitions

* `postWithRetries` — the loop; `retryAfterMs`, `backoffDelayS` — what it waits for.
* `Allowed` — when a command may be issued, given the log.
* `Restrained` — what is wanted of a log.
* `restrained_of_after` — every run has such a log.
-/

namespace OcrOrchestrator

open Lib

structure RetryConfig where
  call : CallConfig
  maxAttempts : ℕ
  backoffBaseMs : ℚ
  backoffMaxMs : ℚ
  /-- `float` of a header, `none` for a `ValueError`. -/
  float : String → Option ℚ
  maxAttempts_pos : 0 < maxAttempts
  backoffBaseMs_pos : 0 < backoffBaseMs
  backoffMaxMs_pos : 0 < backoffMaxMs

/-- What the loop can await or ask for. -/
inductive RetryCmd where
  | call (c : CallCmd)
  /-- The headers of the response that the exception carries. -/
  | headers
  | uniform (lo hi : ℚ)
  | sleep (delayS : ℚ)
  deriving DecidableEq

abbrev RetryRet : RetryCmd → Type
  | .call c => CallRet c
  | .headers => Dict String String
  | .uniform _ _ => ℚ
  | .sleep _ => Unit

abbrev Retry (α : Type) := Prog RetryCmd RetryRet CallExn α

/-- An attempt, as a part of the loop. -/
def liftCall {α : Type} : Call α → Retry α
  | .ret a => .ret a
  | .raise e => .raise e
  | .call c k => .call (.call c) fun r => liftCall (k r)

/-- `retry_after_ms`, for the headers of a response. -/
def retryAfterMs (float : String → Option ℚ) (headers : Dict String String) : Option ℚ :=
  match (headers.get "x-retry-after-ms").bind float with
  | some precise => some (max 0 precise)
  | none => ((headers.get "retry-after").bind float).map fun seconds => max 0 (seconds * 1000)

/-- `retry_after_ms`. -/
def retryHint (cfg : RetryConfig) : CallExn → Retry (Option ℚ)
  | .httpStatusError _ => do
    let headers ← Prog.perform (C := RetryCmd) .headers
    pure (retryAfterMs cfg.float headers)
  | _ => pure none

/-- The ceiling of the jitter. -/
def RetryConfig.ceilingMs (cfg : RetryConfig) (attempt : ℕ) : ℚ :=
  min cfg.backoffMaxMs (cfg.backoffBaseMs * 2 ^ attempt)

/-- `backoff_delay_s`. -/
def backoffDelayS (cfg : RetryConfig) (attempt : ℕ) (hint : Option ℚ) : Retry ℚ := do
  let delayMs ← Prog.perform (C := RetryCmd) (.uniform 0 (cfg.ceilingMs attempt))
  match hint with
  | none => pure (delayMs / 1000)
  | some hint => do
    let jitter ← Prog.perform (C := RetryCmd) (.uniform 0 cfg.backoffBaseMs)
    pure ((max delayMs hint + jitter) / 1000)

/-- The loop from an attempt on, with so many iterations to come. -/
def attemptsFrom (cfg : RetryConfig) : ℕ → ℕ → Retry Json
  | 0, _ => .raise .other
  | left + 1, attempt =>
    (liftCall (post cfg.call)).tryCatch fun exc =>
      match classify exc with
      | .saturated => .raise exc
      | .circuitOpen => .raise exc
      | .permanent => .raise exc
      | .retry =>
        if attempt + 1 = cfg.maxAttempts then .raise exc
        else do
          let hint ← retryHint cfg exc
          let delayS ← backoffDelayS cfg attempt hint
          Prog.perform (C := RetryCmd) (.sleep delayS)
          attemptsFrom cfg left (attempt + 1)

/-- `_post_with_retries`. -/
def postWithRetries (cfg : RetryConfig) : Retry Json := attemptsFrom cfg cfg.maxAttempts 0

/-! ## Logs -/

/-- The commands that were answered, newest first. -/
abbrev RetryLog := List ((c : RetryCmd) × Except CallExn (RetryRet c))

/-- What the commands answer: only a request fails in a way that passes, and a draw is from its
interval. -/
def Honest : (c : RetryCmd) → Except CallExn (RetryRet c) → Prop
  | .call .request, _ => True
  | .call _, .error e => e = .other
  | .call _, .ok _ => True
  | .headers, .error _ => False
  | .headers, .ok _ => True
  | .uniform _ _, .error _ => False
  | .uniform lo hi, .ok x => lo ≤ x ∧ x ≤ hi
  | .sleep _, .error e => e = .other
  | .sleep _, .ok _ => True

namespace RetryLog

/-- Attempts that have begun. -/
def attempts (log : RetryLog) : ℕ := log.countP fun e => e.1 = .call .allow

/-- Requests that were sent. -/
def requests (log : RetryLog) : ℕ := log.countP fun e => e.1 = .call .request

/-- What came back for the request of the last attempt. -/
def lastResponse : RetryLog → Option (Except CallExn HttpResponse)
  | [] => none
  | ⟨.call .allow, _⟩ :: _ => none
  | ⟨.call .request, r⟩ :: _ => some r
  | _ :: log => lastResponse log

/-- The headers that were read after the last attempt. -/
def lastHeaders : RetryLog → Option (Dict String String)
  | [] => none
  | ⟨.call _, _⟩ :: _ => none
  | ⟨.headers, r⟩ :: _ => r.toOption
  | _ :: log => lastHeaders log

end RetryLog

/-- The failure of a request, if it is one. -/
def failureOf : Except CallExn HttpResponse → Option CallExn
  | .ok response =>
    if 200 ≤ response.status ∧ response.status < 300 then none
    else some (.httpStatusError response.status)
  | .error e => some e

/-- A delay before the next attempt, in seconds: no less than what the server asked for, and no
more than that or the ceiling, and jitter. -/
def RetryConfig.Within (cfg : RetryConfig) (attempt : ℕ) (hint : Option ℚ) (delayS : ℚ) : Prop :=
  match hint with
  | none => 0 ≤ delayS ∧ delayS ≤ cfg.ceilingMs attempt / 1000
  | some hint => hint / 1000 ≤ delayS ∧
      delayS ≤ (max (cfg.ceilingMs attempt) hint + cfg.backoffBaseMs) / 1000

/-- Which commands may be issued after which log: an attempt begins the log or follows a sleep,
there is one request in an attempt, and a sleep follows an attempt whose request has failed in a
way that passes, unless it was the last one, and honours the headers of its response. -/
def Allowed (cfg : RetryConfig) (log : RetryLog) : RetryCmd → Prop
  | .call .allow => log.attempts < cfg.maxAttempts ∧
      (log = [] ∨ ∃ delayS older, log = ⟨.sleep delayS, .ok ()⟩ :: older)
  | .call .request => log.requests < log.attempts
  | .sleep delayS => log.attempts < cfg.maxAttempts ∧
      ∃ e, (log.lastResponse.bind failureOf) = some e ∧ classify e = .retry ∧
        ((∃ status, e = .httpStatusError status) → log.lastHeaders.isSome) ∧
        cfg.Within (log.attempts - 1) (log.lastHeaders.bind (retryAfterMs cfg.float)) delayS
  | _ => True

/-- What comes out of the loop: the body of the last response, or the exception of an attempt
or of a sleep; one that passes comes out after the last attempt only. -/
def ComesOut (cfg : RetryConfig) (r : Except CallExn Json) (log : RetryLog) : Prop :=
  match r with
  | .ok body => ∃ response, log.lastResponse = some (.ok response) ∧
      failureOf (.ok response) = none ∧ response.body = some body
  | .error e => classify e = .retry →
      log.attempts = cfg.maxAttempts ∧ (log.lastResponse.bind failureOf) = some e

/-- **What is wanted of the log** of a run so far, and of its end if it has ended. -/
structure Restrained (cfg : RetryConfig) (log : RetryLog) (rest : Retry Json) : Prop where
  allowed : ∀ newer c r older, log = newer ++ ⟨c, r⟩ :: older → Allowed cfg older c
  attempts_le : log.attempts ≤ cfg.maxAttempts
  requests_le : log.requests ≤ log.attempts
  returned : ∀ body, rest = .ret body → ComesOut cfg (.ok body) log
  raised : ∀ e, rest = .raise e → ComesOut cfg (.error e) log

/-! ## One attempt -/

section
variable {α β : Type}

theorem liftCall_bind (p : Call α) (f : α → Call β) :
    liftCall (p >>= f) = liftCall p >>= fun a => liftCall (f a) := by
  induction p with
  | ret a => rfl
  | raise e => rfl
  | call c k ih => exact congrArg (Prog.call (RetryCmd.call c)) (funext ih)

theorem liftCall_tryCatch (p : Call α) (h : CallExn → Call α) :
    liftCall (p.tryCatch h) = (liftCall p).tryCatch fun e => liftCall (h e) := by
  induction p with
  | ret a => rfl
  | raise e => rfl
  | call c k ih => exact congrArg (Prog.call (RetryCmd.call c)) (funext ih)

theorem liftCall_await (c : CallCmd) :
    liftCall (awaitCall c) = Prog.perform (C := RetryCmd) (.call c) := by
  refine congrArg (Prog.call (RetryCmd.call c)) (funext fun r => ?_)
  cases r <;> rfl

end

namespace RetryLog
variable {log : RetryLog} {k n : ℕ} {ans : Option (Except CallExn HttpResponse)}

/-- The log is within its `k`-th attempt, has at most `n` requests, and the attempt has got this
answer. -/
structure Midway (k n : ℕ) (ans : Option (Except CallExn HttpResponse)) (log : RetryLog) :
    Prop where
  attempts_eq : log.attempts = k
  requests_le : log.requests ≤ n
  lastResponse_eq : log.lastResponse = ans
  lastHeaders_eq : log.lastHeaders = none

theorem Midway.call (h : Midway k n ans log) {c : CallCmd} (hallow : c ≠ .allow)
    (hrequest : c ≠ .request) (r : Except CallExn (CallRet c)) :
    Midway k n ans (⟨.call c, r⟩ :: log) := by
  refine ⟨?_, ?_, ?_, rfl⟩
  · simpa [attempts, hallow] using h.attempts_eq
  · simpa [requests, hrequest] using h.requests_le
  · rw [← h.lastResponse_eq]
    cases c with
    | allow => exact absurd rfl hallow
    | request => exact absurd rfl hrequest
    | _ => rfl

end RetryLog

section Attempt
variable {cfg : RetryConfig} {log : RetryLog} {k n : ℕ}
  {ans : Option (Except CallExn HttpResponse)}

open RetryLog

/-- The protocol of the loop. -/
abbrev RetryConfig.protocol (cfg : RetryConfig) : Protocol RetryCmd RetryRet CallExn RetryLog :=
  Protocol.honest Honest (Allowed cfg)

/-- A part of an attempt that asks the endpoint nothing: what it raises does not pass. -/
def Steady {α : Type} (k n : ℕ) (ans : Option (Except CallExn HttpResponse))
    (r : Except CallExn α) (log : RetryLog) : Prop :=
  Midway k n ans log ∧ ∀ e, r = .error e → classify e ≠ .retry

theorem follows_call (h : Midway k n ans log) {c : CallCmd} (hallow : c ≠ .allow)
    (hrequest : c ≠ .request) : (Prog.perform (C := RetryCmd) (E := CallExn) (.call c) :
      Retry (CallRet c)).Follows cfg.protocol (Steady k n ans) log := by
  refine Prog.Follows.perform fun r hr => ⟨⟨.call c, r⟩ :: log, ⟨?_, rfl⟩, ?_, ?_⟩
  · cases c with
    | allow => exact absurd rfl hallow
    | request => exact absurd rfl hrequest
    | _ => trivial
  · exact h.call hallow hrequest r
  · rintro e rfl
    have hother : e = .other := by
      cases c with
      | request => exact absurd rfl hrequest
      | _ => exact hr
    rw [hother]
    decide

theorem follows_pure {α : Type} (h : Midway k n ans log) (a : α) :
    (pure a : Retry α).Follows cfg.protocol (Steady k n ans) log :=
  ⟨h, fun _ he => by cases he⟩

theorem follows_raise {α : Type} (h : Midway k n ans log) {e : CallExn}
    (he : classify e ≠ .retry) :
    (Prog.raise e : Retry α).Follows cfg.protocol (Steady k n ans) log := by
  refine ⟨h, ?_⟩
  rintro e' ⟨⟩
  exact he

/-- A steady part, and what follows it. -/
theorem Steady.bind {α β : Type} {p : Retry α} {f : α → Retry β}
    {post : Except CallExn β → RetryLog → Prop}
    (h : p.Follows cfg.protocol (Steady k n ans) log)
    (hok : ∀ a log', Midway k n ans log' → (f a).Follows cfg.protocol post log')
    (herr : ∀ e log', Steady (α := β) k n ans (.error e) log' → post (.error e) log') :
    (p >>= f).Follows cfg.protocol post log :=
  h.bind (fun a log' hm => hok a log' hm.1) fun e log' hm =>
    herr e log' ⟨hm.1, fun e' he' => hm.2 e' (by cases he'; rfl)⟩

theorem follows_currentRate (call : CallConfig) (h : Midway k n ans log) :
    (liftCall (currentRate call)).Follows cfg.protocol (Steady k n ans) log := by
  rw [currentRate]
  split
  · rw [liftCall_bind, liftCall_await]
    exact Steady.bind (follows_call h (by simp) (by simp)) (fun a _ ha => follows_pure ha _)
      fun _ _ he => he
  · exact follows_pure h _

theorem follows_acquire (call : CallConfig) (rate : Option ℚ) (h : Midway k n ans log) :
    (liftCall (acquire call rate)).Follows cfg.protocol (Steady k n ans) log := by
  rw [acquire, liftCall_bind, liftCall_await]
  refine Steady.bind (follows_call h (by simp) (by simp)) (fun result log' hlog => ?_)
    fun _ _ he => he
  split
  · exact follows_raise hlog (by simp [classify])
  · split
    · exact follows_pure hlog _
    · rw [liftCall_await]
      exact follows_call hlog (by simp) (by simp)

theorem follows_reportLatency (call : CallConfig) (response : HttpResponse)
    (h : Midway k n ans log) :
    (liftCall (reportLatency call response)).Follows cfg.protocol (Steady k n ans) log := by
  rw [reportLatency]
  split
  · rw [liftCall_await]
    exact follows_call h (by simp) (by simp)
  · exact follows_pure h _

theorem follows_reportCongestion (call : CallConfig) (exc : CallExn) (h : Midway k n ans log) :
    (liftCall (reportCongestion call exc)).Follows cfg.protocol (Steady k n ans) log := by
  have hreport : ∀ kind, (liftCall (awaitCall (.onCongestion kind))).Follows cfg.protocol
      (Steady k n ans) log := by
    intro kind
    rw [liftCall_await]
    exact follows_call h (by simp) (by simp)
  unfold reportCongestion
  by_cases hadaptive : call.adaptive = true
  · rw [if_pos hadaptive]
    cases exc with
    | httpStatusError status =>
      by_cases hstatus : status = 429
      · simp only [if_pos hstatus]
        exact hreport .rejected
      · simp only [if_neg hstatus]
        exact follows_pure h _
    | timeoutException => exact hreport .timeout
    | _ => exact follows_pure h _
  · rw [if_neg hadaptive]
    exact follows_pure h _

/-- What the request of an attempt has come to. -/
def Requested (k n : ℕ) (r : Except CallExn HttpResponse) (log : RetryLog) : Prop :=
  ∃ a, Midway k n (some a) log ∧
    match r with
    | .ok response => a = .ok response ∧ failureOf a = none
    | .error e => classify e = .retry → failureOf a = some e

theorem follows_sendRequest (h : Midway k n none log) (hn : n < k) :
    (liftCall sendRequest).Follows cfg.protocol
      (fun r log' => ∃ a, Midway k (n + 1) (some a) log' ∧
        match r with
        | .ok response => a = .ok response ∧ failureOf a = none
        | .error e => failureOf a = some e) log := by
  have hat : ∀ r : Except CallExn HttpResponse,
      Midway k (n + 1) (some r) (⟨.call .request, r⟩ :: log) := by
    intro r
    refine ⟨?_, ?_, rfl, rfl⟩
    · simpa [attempts] using h.attempts_eq
    · simpa [requests] using h.requests_le
  have hallowed : Allowed cfg log (.call .request) := by
    have hle := h.requests_le
    have heq := h.attempts_eq
    change log.requests < log.attempts
    omega
  rw [sendRequest, liftCall_bind, liftCall_await]
  refine Prog.Follows.perform_bind (fun response _ => ⟨_, ⟨hallowed, rfl⟩, ?_⟩)
    fun e _ => ⟨_, ⟨hallowed, rfl⟩, .error e, hat _, rfl⟩
  by_cases hstatus : 200 ≤ response.status ∧ response.status < 300
  · rw [if_pos hstatus]
    exact ⟨.ok response, hat _, rfl, by simp [failureOf, hstatus]⟩
  · rw [if_neg hstatus]
    exact ⟨.ok response, hat _, by simp [failureOf, hstatus]⟩

theorem follows_onException (call : CallConfig) {exc : CallExn} {a : Except CallExn HttpResponse}
    (h : Midway k n (some a) log) (ha : failureOf a = some exc) :
    (liftCall (onException call exc)).Follows cfg.protocol (Requested k n) log := by
  have hsteady : ∀ e log', Steady (α := HttpResponse) k n (some a) (.error e) log' →
      Requested k n (.error e) log' := fun e log' he =>
    ⟨a, he.1, fun hretry => absurd hretry (he.2 e rfl)⟩
  rw [onException, liftCall_bind]
  refine Steady.bind (follows_reportCongestion call exc h) (fun _ log' hlog => ?_) hsteady
  split
  · rw [liftCall_bind, liftCall_await]
    refine Steady.bind (follows_call hlog (by simp) (by simp)) (fun _ log'' hlog' => ?_) hsteady
    exact ⟨a, hlog', fun _ => ha⟩
  · exact ⟨a, hlog, fun _ => ha⟩

/-- What an attempt has come to. -/
structure Attempted (k : ℕ) (r : Except CallExn Json) (log : RetryLog) : Prop where
  attempts_eq : log.attempts = k
  requests_le : log.requests ≤ k
  lastHeaders_eq : log.lastHeaders = none
  comes : match r with
    | .ok body => ∃ response, log.lastResponse = some (.ok response) ∧
        failureOf (.ok response) = none ∧ response.body = some body
    | .error e => classify e = .retry → (log.lastResponse.bind failureOf) = some e

theorem Steady.attempted {e : CallExn} (h : Steady (α := Json) k n ans (.error e) log)
    (hn : n ≤ k) : Attempted k (.error e) log where
  attempts_eq := h.1.attempts_eq
  requests_le := h.1.requests_le.trans hn
  lastHeaders_eq := h.1.lastHeaders_eq
  comes hretry := absurd hretry (h.2 e rfl)

theorem follows_postAdmitted (call : CallConfig) (h : Midway k n none log) (hn : n < k) :
    (liftCall (postAdmitted call)).Follows cfg.protocol (Attempted k) log := by
  have hsteady : ∀ n ans, n ≤ k → ∀ e log', Steady (α := Json) k n ans (.error e) log' →
      Attempted k (.error e) log' := fun n ans hle e log' he => he.attempted hle
  rw [postAdmitted, liftCall_bind]
  refine Steady.bind (follows_currentRate call h) (fun rate log₁ h₁ => ?_)
    (hsteady n none (Nat.le_of_lt hn))
  rw [liftCall_bind]
  refine Steady.bind (follows_acquire call rate h₁) (fun _ log₂ h₂ => ?_)
    (hsteady n none (Nat.le_of_lt hn))
  rw [liftCall_bind, liftCall_tryCatch]
  have hrequest : ((liftCall sendRequest).tryCatch fun e => liftCall (onException call e)).Follows
      cfg.protocol (Requested k (n + 1)) log₂ := by
    refine (follows_sendRequest h₂ hn).tryCatch ?_ ?_
    · rintro response log' ⟨a, hat, ha⟩
      exact ⟨a, hat, ha⟩
    · rintro e log' ⟨a, hat, ha⟩
      exact follows_onException call hat ha
  refine hrequest.bind ?_ ?_
  · rintro response log₃ ⟨a, h₃, rfl, hnone⟩
    rw [liftCall_bind]
    refine Steady.bind (follows_reportLatency call response h₃) (fun _ log₄ h₄ => ?_)
      (hsteady (n + 1) _ hn)
    rw [liftCall_bind, liftCall_await]
    refine Steady.bind (follows_call h₄ (by simp) (by simp)) (fun _ log₅ h₅ => ?_)
      (hsteady (n + 1) _ hn)
    cases hbody : response.body with
    | some body =>
      exact ⟨h₅.attempts_eq, h₅.requests_le.trans hn, h₅.lastHeaders_eq,
        ⟨response, h₅.lastResponse_eq, hnone, hbody⟩⟩
    | none =>
      exact ⟨h₅.attempts_eq, h₅.requests_le.trans hn, h₅.lastHeaders_eq,
        fun hretry => absurd hretry (by decide)⟩
  · rintro e log₃ ⟨a, h₃, hcomes⟩
    refine ⟨h₃.attempts_eq, h₃.requests_le.trans hn, h₃.lastHeaders_eq, fun hretry => ?_⟩
    rw [h₃.lastResponse_eq]
    exact hcomes hretry

/-- **One attempt** of the loop. -/
theorem follows_post (call : CallConfig) (hallowed : Allowed cfg log (.call .allow))
    (hk : log.attempts = k) (hrequests : log.requests ≤ k) :
    (liftCall (post call)).Follows cfg.protocol (Attempted (k + 1)) log := by
  have hat : ∀ r : Except CallExn BreakerReply,
      Midway (k + 1) k none (⟨.call .allow, r⟩ :: log) := by
    intro r
    refine ⟨?_, ?_, rfl, rfl⟩
    · simpa [attempts] using hk
    · simpa [requests] using hrequests
  rw [post, liftCall_bind, liftCall_await]
  refine Prog.Follows.perform_bind (fun verdict _ => ⟨_, ⟨hallowed, rfl⟩, ?_⟩)
    fun e he => ⟨_, ⟨hallowed, rfl⟩, ?_⟩
  · split
    · exact Steady.attempted ⟨hat _, by rintro e ⟨⟩; simp [classify]⟩ (Nat.le_succ k)
    · exact follows_postAdmitted call (hat _) (Nat.lt_succ_self k)
  · obtain rfl : e = .other := he
    exact Steady.attempted ⟨hat _, by rintro e ⟨⟩; decide⟩ (Nat.le_succ k)

end Attempt

/-! ## The loop -/

section Loop
variable {cfg : RetryConfig} {log : RetryLog} {k : ℕ} {e : CallExn}
  {headers : Option (Dict String String)}

/-- The `k`-th attempt has failed in a way that passes, and these headers have been read. -/
structure Pausing (k : ℕ) (e : CallExn) (headers : Option (Dict String String))
    (log : RetryLog) : Prop where
  attempts_eq : log.attempts = k
  requests_le : log.requests ≤ k
  failure_eq : (log.lastResponse.bind failureOf) = some e
  lastHeaders_eq : log.lastHeaders = headers

theorem Pausing.uniform (h : Pausing k e headers log) {lo hi : ℚ} (r : Except CallExn ℚ) :
    Pausing k e headers (⟨.uniform lo hi, r⟩ :: log) where
  attempts_eq := by simpa [RetryLog.attempts] using h.attempts_eq
  requests_le := by simpa [RetryLog.requests] using h.requests_le
  failure_eq := h.failure_eq
  lastHeaders_eq := h.lastHeaders_eq

/-- The hint is that of the response, if the failure has one. -/
theorem follows_retryHint (h : Pausing k e none log) :
    (retryHint cfg e).Follows cfg.protocol
      (fun r log' => ∃ headers, Pausing k e headers log' ∧
        ((∃ status, e = .httpStatusError status) → headers.isSome) ∧
          r = .ok (headers.bind (retryAfterMs cfg.float))) log := by
  cases e with
  | httpStatusError status =>
    refine Prog.Follows.perform_bind (fun hs _ => ⟨_, ⟨trivial, rfl⟩, ?_⟩) fun e he => he.elim
    refine ⟨some hs, ⟨?_, ?_, h.failure_eq, rfl⟩, by simp, rfl⟩
    · simpa [RetryLog.attempts] using h.attempts_eq
    · simpa [RetryLog.requests] using h.requests_le
  | _ => exact ⟨none, h, by simp, rfl⟩

/-- The delay is within its bounds. -/
theorem follows_backoffDelayS (h : Pausing k e headers log) (attempt : ℕ) (hint : Option ℚ) :
    (backoffDelayS cfg attempt hint).Follows cfg.protocol
      (fun r log' => Pausing k e headers log' ∧ ∃ delayS, r = .ok delayS ∧
        cfg.Within attempt hint delayS) log := by
  refine Prog.Follows.perform_bind (fun x hx => ⟨_, ⟨trivial, rfl⟩, ?_⟩) fun e he => he.elim
  obtain ⟨hlow, hhigh⟩ : 0 ≤ x ∧ x ≤ cfg.ceilingMs attempt := hx
  cases hint with
  | none =>
    refine ⟨h.uniform _, _, rfl, ?_, ?_⟩
    · positivity
    · gcongr
  | some hint =>
    refine Prog.Follows.perform_bind (fun y hy => ⟨_, ⟨trivial, rfl⟩, ?_⟩) fun e he => he.elim
    obtain ⟨hlow', hhigh'⟩ : 0 ≤ y ∧ y ≤ cfg.backoffBaseMs := hy
    refine ⟨(h.uniform _).uniform _, _, rfl, ?_, ?_⟩
    · have hle : hint ≤ max x hint + y := by
        linarith [le_max_right x hint]
      gcongr
    · gcongr

/-- The loop, from an attempt on. -/
theorem follows_attemptsFrom (cfg : RetryConfig) (left attempt : ℕ) (log : RetryLog)
    (hleft : attempt + left = cfg.maxAttempts) (hattempts : log.attempts = attempt)
    (hrequests : log.requests ≤ attempt)
    (hhead : log = [] ∨ ∃ delayS older, log = ⟨.sleep delayS, .ok ()⟩ :: older) :
    (attemptsFrom cfg left attempt).Follows cfg.protocol (ComesOut cfg) log := by
  induction left generalizing attempt log with
  | zero => exact fun hretry => absurd hretry (by decide)
  | succ left ih =>
    have hallowed : Allowed cfg log (.call .allow) := ⟨by omega, hhead⟩
    refine (follows_post cfg.call hallowed hattempts hrequests).tryCatch
      (fun body log' h => h.comes) fun e log' h => ?_
    have hcomes := h.comes
    cases hclass : classify e with
    | saturated => exact fun hretry => absurd (hclass.symm.trans hretry) (by decide)
    | circuitOpen => exact fun hretry => absurd (hclass.symm.trans hretry) (by decide)
    | permanent => exact fun hretry => absurd (hclass.symm.trans hretry) (by decide)
    | retry =>
      have hfailure := hcomes hclass
      simp only
      split
      next hlast => exact fun _ => ⟨h.attempts_eq.trans hlast, hfailure⟩
      next hmore =>
        have hpause : Pausing (attempt + 1) e none log' :=
          ⟨h.attempts_eq, h.requests_le, hfailure, h.lastHeaders_eq⟩
        refine (follows_retryHint hpause).bind ?_ ?_
        · rintro hint log₁ ⟨headers, h₁, hread, hhint⟩
          obtain rfl := Except.ok.inj hhint
          refine (follows_backoffDelayS h₁ attempt _).bind ?_ ?_
          · rintro delayS log₂ ⟨h₂, _, hdelay, hwithin⟩
            obtain rfl := Except.ok.inj hdelay
            have hsleep : Allowed cfg log₂ (.sleep delayS) := by
              refine ⟨by rw [h₂.attempts_eq]; omega, e, h₂.failure_eq, hclass, ?_, ?_⟩
              · rw [h₂.lastHeaders_eq]
                exact hread
              · rw [h₂.lastHeaders_eq, h₂.attempts_eq]
                exact hwithin
            refine Prog.Follows.perform_bind (fun _ _ => ⟨_, ⟨hsleep, rfl⟩, ?_⟩)
              fun e he => ⟨_, ⟨hsleep, rfl⟩, ?_⟩
            · refine ih (attempt + 1) _ (by omega) ?_ ?_ (.inr ⟨delayS, log₂, rfl⟩)
              · simpa [RetryLog.attempts] using h₂.attempts_eq
              · simpa [RetryLog.requests] using h₂.requests_le
            · obtain rfl : e = .other := he
              exact fun hretry => absurd hretry (by decide)
          · rintro e' log₂ ⟨-, _, hdelay, -⟩
            cases hdelay
        · rintro e' log₁ ⟨headers, -, -, hhint⟩
          cases hhint

/-- The counts of a log whose commands were all allowed. -/
theorem counts_le (hallowed : ∀ newer c r older, log = newer ++ ⟨c, r⟩ :: older →
    Allowed cfg older c) : log.attempts ≤ cfg.maxAttempts ∧ log.requests ≤ log.attempts := by
  induction log with
  | nil => exact ⟨Nat.zero_le _, le_refl _⟩
  | cons x older ih =>
    obtain ⟨c, r⟩ := x
    obtain ⟨hattempts, hrequests⟩ := ih fun newer c' r' older' heq =>
      hallowed (⟨c, r⟩ :: newer) c' r' older' (by rw [heq]; rfl)
    have hc := hallowed [] c r older rfl
    by_cases hallow : c = .call .allow
    · subst hallow
      have hlt : RetryLog.attempts older < cfg.maxAttempts := hc.1
      simp only [RetryLog.attempts, RetryLog.requests, List.countP_cons] at *
      simp only [decide_true, if_true, reduceCtorEq, RetryCmd.call.injEq, decide_false,
        Bool.false_eq_true, if_false]
      omega
    · by_cases hrequest : c = .call .request
      · subst hrequest
        have hlt : RetryLog.requests older < RetryLog.attempts older := hc
        simp only [RetryLog.attempts, RetryLog.requests, List.countP_cons] at *
        simp only [decide_true, if_true, reduceCtorEq, RetryCmd.call.injEq, decide_false,
          Bool.false_eq_true, if_false]
        omega
      · simpa [RetryLog.attempts, RetryLog.requests, hallow, hrequest] using
          And.intro hattempts hrequests

end Loop

/-- **Every run of the loop**, also one that is cut short: no more attempts than configured, at
most one request in each, another attempt only after a sleep that honours the response, and only
after a failure that passes. -/
theorem restrained_of_after (cfg : RetryConfig) (log : RetryLog) (rest : Retry Json)
    (hrun : (postWithRetries cfg).After log rest) (hlog : ∀ e ∈ log, Honest e.1 e.2) :
    Restrained cfg log rest := by
  have hfollows : (postWithRetries cfg).Follows cfg.protocol (ComesOut cfg) [] :=
    follows_attemptsFrom cfg cfg.maxAttempts 0 [] (by omega) rfl (Nat.zero_le _) (.inl rfl)
  have hallowed : ∀ newer c r older, log = newer ++ ⟨c, r⟩ :: older → Allowed cfg older c :=
    fun newer c r older heq => hrun.allowed_honest hlog hfollows heq
  have hrest := hrun.follows_honest hlog hfollows
  obtain ⟨hattempts, hrequests⟩ := counts_le hallowed
  refine ⟨hallowed, hattempts, hrequests, ?_, ?_⟩
  · rintro body rfl
    exact hrest
  · rintro e rfl
    exact hrest

/-- A closed breaker. -/
def closedReply : BreakerReply := ⟨true, .closed, 0, 0, 0⟩

/-- Two attempts, and no rate controller. -/
def twoAttempts : RetryConfig where
  call := ⟨30, false⟩
  maxAttempts := 2
  backoffBaseMs := 200
  backoffMaxMs := 5000
  float s := if s = "33" then some 33 else none
  maxAttempts_pos := Nat.two_pos
  backoffBaseMs_pos := by norm_num
  backoffMaxMs_pos := by norm_num

/-- A request is rejected with a precise hint and repeated after 40 ms. -/
theorem restrained_rejected : ∃ log : RetryLog,
    log.attempts = 2 ∧ log.requests = 2 ∧ Restrained twoAttempts log (.ret .null) := by
  have hrun := (((((((((((((Prog.After.start (p := postWithRetries twoAttempts)).answer
    (.ok closedReply)).answer (.ok ⟨true, 0, 0⟩)).answer
    (.ok ⟨429, 3, none⟩)).answer (.ok closedReply)).answer
    (.ok [("x-retry-after-ms", "33")])).answer (.ok 20)).answer (.ok 7)).answer
    (.ok ())).answer (.ok closedReply)).answer (.ok ⟨true, 0, 0⟩)).answer
    (.ok ⟨200, 40, some .null⟩)).answer (.ok closedReply))
  refine ⟨_, rfl, rfl, restrained_of_after _ _ _ hrun ?_⟩
  simp only [List.forall_mem_cons, Honest, RetryConfig.ceilingMs, twoAttempts, true_and]
  norm_num

end OcrOrchestrator
