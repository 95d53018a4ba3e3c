import OcrOrchestrator.Lib.System
import Mathlib.Data.List.Count
import Mathlib.Data.Nat.Notation

/-!
# Subscriber slots

A replica serves a bounded number of streams.  `stream_results` takes a slot and returns a
response; `_events`, the generator of its body, gives the slot back in a `finally`.  Between the
two lies the first step of the generator: a generator that is dropped before it has not entered
the `try`, and runs nothing.

Requests and connections are interleaved; what a body sends is the subject of `Api/Stream`.

## Main definitions

* `SubscriberSlots` — the counter.
* `Connection`, `Service` — where each request is, and the counter they share.

## Main results

* `Accounted.step` — the counter counts the responses that are open or were dropped.
* `slots_conserved` — it counts the open ones, if none is dropped.
-/

namespace OcrOrchestrator

open Lib

namespace Sse

/-! ## The counter -/

/-- `SubscriberSlots`. -/
structure SubscriberSlots where
  limit : ℕ
  active : ℕ
  refused : ℕ
  peak : ℕ
deriving DecidableEq

namespace SubscriberSlots

def init (limit : ℕ) : SubscriberSlots := ⟨limit, 0, 0, 0⟩

/-- `acquire`. -/
def acquire (t : SubscriberSlots) : Bool × SubscriberSlots :=
  if t.limit ≤ t.active then (false, { t with refused := t.refused + 1 })
  else (true, { t with active := t.active + 1, peak := max t.peak (t.active + 1) })

/-- `release`. -/
def release (t : SubscriberSlots) : SubscriberSlots := { t with active := t.active - 1 }

end SubscriberSlots

/-! ## Requests and their connections -/

/-- Why a request is answered with an error. -/
inductive Refusal where
  /-- 404. -/
  | unknownJob
  /-- 503, with the counter and `Retry-After`. -/
  | tooManySubscribers (stats : SubscriberSlots) (retryAfter : ℕ)
  /-- The job could not be read. -/
  | storeFailed
deriving DecidableEq

/-- Where a request is. -/
inductive Connection where
  /-- `get_job` comes next. -/
  | validating
  | refused (r : Refusal)
  /-- A response has been returned; its body has not been advanced. -/
  | fresh
  /-- The body is in its `try`: it runs, waits for Redis or has sent a frame. -/
  | running
  /-- The body has sent the gap frame of a Redis error. -/
  | closing
  | ended
  /-- The response was dropped before its body was advanced. -/
  | dropped
deriving DecidableEq

/-- A response that has been accepted and has not ended. -/
def Connection.isOpen : Connection → Bool
  | .fresh | .running | .closing => true
  | _ => false

/-- What `get_job` says. -/
inductive Lookup where
  | found
  | missing
  | fails

/-- What can happen to an accepted response. -/
inductive BodyEvent where
  /-- The body is advanced for the first time. -/
  | start
  | frame
  /-- The body has nothing more to send. -/
  | finish
  | redisError
  /-- The client is gone, the task is cancelled, or another exception escapes. -/
  | abort

/-- The requests of a replica, in the order they came in, and its counter. -/
structure Service where
  slots : SubscriberSlots
  connections : List Connection
deriving DecidableEq

inductive ServiceLabel where
  | request
  | lookup (i : ℕ) (r : Lookup)
  | body (i : ℕ) (e : BodyEvent)

namespace Service

/-- `str(int(settings.sse_retry_ms / 1000) or 1)`. -/
def retryAfter (retryMs : ℕ) : ℕ := if retryMs / 1000 = 0 then 1 else retryMs / 1000

/-- `stream_results`, from the reply of `get_job` on. -/
def streamResults (retryMs : ℕ) (t : SubscriberSlots) : Lookup → SubscriberSlots × Connection
  | .missing => (t, .refused .unknownJob)
  | .fails => (t, .refused .storeFailed)
  | .found =>
    if t.acquire.1 then (t.acquire.2, .fresh)
    else (t.acquire.2, .refused (.tooManySubscribers t.acquire.2 (retryAfter retryMs)))

/-- `_events`: what an event makes of the counter and the response.  The `finally` runs when the
`try` is left. -/
def events (t : SubscriberSlots) : Connection → BodyEvent → Option (SubscriberSlots × Connection)
  | .fresh, .start => some (t, .running)
  | .fresh, .abort => some (t, .dropped)
  | .running, .frame => some (t, .running)
  | .running, .redisError => some (t, .closing)
  | .running, .finish | .running, .abort => some (t.release, .ended)
  | .closing, .finish | .closing, .abort => some (t.release, .ended)
  | _, _ => none

def step (retryMs : ℕ) (s : Service) : ServiceLabel → Option Service
  | .request => some { s with connections := s.connections ++ [.validating] }
  | .lookup i r =>
    if s.connections[i]? = some .validating then
      let out := streamResults retryMs s.slots r
      some ⟨out.1, s.connections.set i out.2⟩
    else none
  | .body i e =>
    s.connections[i]?.bind fun c => (events s.slots c e).map fun out =>
      ⟨out.1, s.connections.set i out.2⟩

/-- The connections currently open. -/
def openCount (s : Service) : ℕ := s.connections.countP Connection.isOpen

/-- A replica that serves at most `limit` streams. -/
def system (limit retryMs : ℕ) : System Service ServiceLabel := ⟨⟨.init limit, []⟩, step retryMs⟩

/-- No response is dropped before its body is first advanced. -/
def advancesFirst (s : Service) : ServiceLabel → Bool
  | .body i .abort => s.connections[i]? ≠ some .fresh
  | _ => true

/-! ## What the counter counts -/

/-- A response whose slot has not been given back. -/
def holdsSlot (c : Connection) : Bool := c.isOpen || c = .dropped

/-- The counter counts these, and never passes the limit. -/
structure Accounted (limit : ℕ) (s : Service) : Prop where
  limit_eq : s.slots.limit = limit
  active_eq : s.slots.active = s.connections.countP holdsSlot
  active_le : s.slots.active ≤ s.slots.peak
  peak_le : s.slots.peak ≤ limit

variable {limit retryMs : ℕ} {s s' : Service} {l : ServiceLabel}

theorem countP_set (p : Connection → Bool) {cs : List Connection} {i : ℕ} {c : Connection}
    (h : cs[i]? = some c) (c' : Connection) :
    (cs.set i c').countP p + (if p c then 1 else 0) = cs.countP p + if p c' then 1 else 0 := by
  obtain ⟨hi, rfl⟩ := List.getElem?_eq_some_iff.1 h
  have hle : (if p cs[i] then 1 else 0) ≤ cs.countP p := by
    by_cases hp : p cs[i] = true
    · have hpos := List.countP_pos_iff.2 ⟨cs[i], List.getElem_mem hi, hp⟩
      simp only [hp, if_true]
      omega
    · simp [hp]
  rw [List.countP_set hi]
  omega

theorem Accounted.init : Accounted limit (system limit retryMs).init where
  limit_eq := rfl
  active_eq := rfl
  active_le := Nat.le_refl _
  peak_le := Nat.zero_le _

/-- A step of one connection keeps the account if the counter moves with the connection. -/
theorem Accounted.set (h : Accounted limit s) {i : ℕ} {c c' : Connection} {t : SubscriberSlots}
    (hi : s.connections[i]? = some c) (hlimit : t.limit = limit)
    (hactive : t.active + (if holdsSlot c then 1 else 0) =
      s.slots.active + if holdsSlot c' then 1 else 0)
    (hle : t.active ≤ t.peak) (hpeak : t.peak ≤ limit) :
    Accounted limit ⟨t, s.connections.set i c'⟩ where
  limit_eq := hlimit
  active_eq := by
    have hcount := countP_set holdsSlot hi c'
    have heq := h.active_eq
    simp only
    omega
  active_le := hle
  peak_le := hpeak

theorem Accounted.request (h : Accounted limit s) :
    Accounted limit { s with connections := s.connections ++ [.validating] } where
  limit_eq := h.limit_eq
  active_eq := by simpa [holdsSlot, Connection.isOpen] using h.active_eq
  active_le := h.active_le
  peak_le := h.peak_le

/-- A request takes a slot, or is turned away. -/
theorem Accounted.lookup (h : Accounted limit s) {i : ℕ}
    (hi : s.connections[i]? = some .validating) (r : Lookup) :
    Accounted limit ⟨(streamResults retryMs s.slots r).1,
      s.connections.set i (streamResults retryMs s.slots r).2⟩ := by
  have hlimit := h.limit_eq
  have hle := h.active_le
  have hpeak := h.peak_le
  cases r with
  | missing => exact h.set hi hlimit rfl hle hpeak
  | fails => exact h.set hi hlimit rfl hle hpeak
  | found =>
    by_cases hfull : s.slots.limit ≤ s.slots.active
    · have hno : s.slots.acquire = (false, { s.slots with refused := s.slots.refused + 1 }) :=
        if_pos hfull
      simp only [streamResults, hno, Bool.false_eq_true, if_false]
      exact h.set hi hlimit rfl hle hpeak
    · have hyes : s.slots.acquire = (true, { s.slots with
          active := s.slots.active + 1, peak := max s.slots.peak (s.slots.active + 1) }) :=
        if_neg hfull
      simp only [streamResults, hyes, if_true]
      exact h.set hi hlimit rfl (Nat.le_max_right _ _) (by simp only; omega)

/-- An open response gives its slot back when its body leaves the `try`. -/
theorem Accounted.body (h : Accounted limit s) {i : ℕ} {c : Connection}
    (hi : s.connections[i]? = some c) {e : BodyEvent} {out : SubscriberSlots × Connection}
    (hout : events s.slots c e = some out) :
    Accounted limit ⟨out.1, s.connections.set i out.2⟩ := by
  have hlimit := h.limit_eq
  have hle := h.active_le
  have hpeak := h.peak_le
  have hrelease : holdsSlot c = true →
      Accounted limit ⟨s.slots.release, s.connections.set i .ended⟩ := by
    intro hc
    have hmem : c ∈ s.connections := List.mem_of_getElem? hi
    have hpos : 0 < s.connections.countP holdsSlot := List.countP_pos_iff.2 ⟨c, hmem, hc⟩
    have heq := h.active_eq
    refine h.set hi hlimit ?_ ?_ hpeak
    · have hended : holdsSlot .ended = false := rfl
      simp only [SubscriberSlots.release, hc, hended, if_true, Bool.false_eq_true, if_false]
      omega
    · exact Nat.le_trans (Nat.sub_le _ _) hle
  cases c <;> cases e <;> simp only [events, Option.some.injEq, reduceCtorEq] at hout <;> subst hout
  case running.finish | running.abort | closing.finish | closing.abort => exact hrelease rfl
  all_goals exact h.set hi hlimit rfl hle hpeak

theorem Accounted.step (h : Accounted limit s) (hstep : step retryMs s l = some s') :
    Accounted limit s' := by
  cases l with
  | request =>
    obtain rfl := Option.some.inj hstep
    exact h.request
  | lookup i r =>
    simp only [Service.step, Option.ite_none_right_eq_some, Option.some.injEq] at hstep
    obtain ⟨hi, rfl⟩ := hstep
    exact h.lookup hi r
  | body i e =>
    simp only [Service.step, Option.bind_eq_some_iff, Option.map_eq_some_iff] at hstep
    obtain ⟨c, hi, out, hout, rfl⟩ := hstep
    exact h.body hi hout

theorem accounted_of_reach {allow : Service → ServiceLabel → Bool}
    (hs : (system limit retryMs).Reach allow s) : Accounted limit s :=
  hs.invariant Accounted.init fun _ _ _ h _ hstep => h.step hstep

/-! ## Dropped responses -/

/-- Nothing makes a dropped response but dropping it. -/
theorem not_dropped_step (h : .dropped ∉ s.connections) (hallow : advancesFirst s l = true)
    (hstep : step retryMs s l = some s') : .dropped ∉ s'.connections := by
  have hset : ∀ i c, c ≠ .dropped → .dropped ∉ s.connections.set i c := by
    intro i c hc hmem
    rcases List.mem_or_eq_of_mem_set hmem with hold | hnew
    · exact h hold
    · exact hc hnew.symm
  cases l with
  | request =>
    obtain rfl := Option.some.inj hstep
    simpa using h
  | lookup i r =>
    simp only [Service.step, Option.ite_none_right_eq_some, Option.some.injEq] at hstep
    obtain ⟨-, rfl⟩ := hstep
    refine hset i _ ?_
    cases r with
    | missing => simp [streamResults]
    | fails => simp [streamResults]
    | found =>
      simp only [streamResults]
      split <;> simp
  | body i e =>
    simp only [Service.step, Option.bind_eq_some_iff, Option.map_eq_some_iff] at hstep
    obtain ⟨c, hi, out, hout, rfl⟩ := hstep
    refine hset i _ ?_
    cases c <;> cases e <;>
      simp only [events, Option.some.injEq, reduceCtorEq] at hout <;> subst hout <;>
        simp [advancesFirst, hi] at hallow ⊢

theorem not_dropped_of_reach (hs : (system limit retryMs).Reach advancesFirst s) :
    .dropped ∉ s.connections := by
  induction hs with
  | init => simp [system]
  | step _ hallow hstep ih => exact not_dropped_step ih hallow hstep

/-- **Slots are conserved as long as every response is advanced.**  The counter is the number of
open connections and never passes the limit; with none open it is zero. -/
theorem slots_conserved (limit retryMs : ℕ) (s : Service)
    (hs : (system limit retryMs).Reach advancesFirst s) :
    s.slots.active = s.openCount ∧ s.slots.active ≤ limit ∧
      ((∀ c ∈ s.connections, c.isOpen = false) → s.slots.active = 0) := by
  have haccounted := accounted_of_reach hs
  have hnone := not_dropped_of_reach hs
  have hopen : s.slots.active = s.openCount := by
    rw [haccounted.active_eq, openCount]
    refine List.countP_congr fun c hc => ?_
    have hne : c ≠ .dropped := fun heq => hnone (heq ▸ hc)
    simp [holdsSlot, hne]
  refine ⟨hopen, Nat.le_trans haccounted.active_le haccounted.peak_le, fun hclosed => ?_⟩
  rw [hopen, openCount, List.countP_eq_zero]
  intro c hc
  simp [hclosed c hc]

/-- One client reads to the end, and one goes away in between. -/
def twoClients : List ServiceLabel :=
  [.request, .request, .lookup 1 .found, .lookup 0 .found, .body 0 .start, .body 1 .start,
    .body 0 .frame, .body 1 .abort, .body 0 .finish]

theorem slots_conserved_twoClients : ∃ s, (system 64 2000).Reach advancesFirst s ∧
    s.slots.peak = 2 ∧ s.slots.active = s.openCount ∧ s.slots.active ≤ 64 ∧
      ((∀ c ∈ s.connections, c.isOpen = false) → s.slots.active = 0) := by
  obtain ⟨s, hs, hpeak⟩ := System.exists_of_runAll (system 64 2000) advancesFirst
    (fun s => s.slots.peak = 2) twoClients (by decide)
  exact ⟨s, hs, of_decide_eq_true hpeak, slots_conserved 64 2000 s hs⟩

/-- A response is dropped before its body is advanced: nothing is open, and a slot is taken. -/
theorem dropped_response_leaks : ¬ ∀ limit retryMs s,
    (system limit retryMs).Reach System.anyStep s →
      s.slots.active = s.openCount ∧ s.slots.active ≤ limit ∧
        ((∀ c ∈ s.connections, c.isOpen = false) → s.slots.active = 0) := by
  intro h
  obtain ⟨s, hs, hq⟩ := System.exists_of_runAll (system 1 2000) System.anyStep
    (fun s => s.slots.active ≠ s.openCount) [.request, .lookup 0 .found, .body 0 .abort] (by decide)
  exact of_decide_eq_true hq (h 1 2000 s hs).1

end Service
end Sse
end OcrOrchestrator
