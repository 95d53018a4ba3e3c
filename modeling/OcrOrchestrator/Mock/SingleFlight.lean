import OcrOrchestrator.Mock.Idempotency
import OcrOrchestrator.Lib.System

/-!
# Single flight

`_handle` of `mock_model/main.py`.  A request runs without interruption up to an `await` and
from it on: a leader waits for its execution, a follower for the event of its leader.  Each such
stretch is one step, and the steps of any number of requests are interleaved.

What `_execute` does is left open: it may fail at once, or wait and then return a body, fail or
be cancelled.  An empty key is no key.  The counters of `Stats` are left out.

## Main definitions

* `Service`, `Service.step` — the store, and every request so far.
* `Coherent` — how requests, handles and cache fit together.

## Main results

* `Coherent.step` — every step keeps it.
* `Replays.step` — while a response stays cached it is replayed.
* `single_flight` — one execution at a time, no second one, no forgotten follower.
-/

namespace OcrOrchestrator
namespace Mock

open Lib

/-- What a request has become. -/
inductive Role where
  | unkeyed
  /-- It was answered from the cache. -/
  | replay (key : String)
  | leader (key : String) (handle : ℕ)
  | follower (key : String) (handle : ℕ)
deriving DecidableEq

/-- The key a request carries. -/
def Role.key : Role → Option String
  | .unkeyed => none
  | .replay key | .leader key _ | .follower key _ => some key

/-- How far a request is.  A follower returns what its handle holds. -/
inductive Outcome (B E : Type) where
  | running
  | returned (body : Option B)
  | raised (error : Failure E)
  /-- A follower that was cancelled itself. -/
  | cancelled
deriving DecidableEq

structure Request (B E : Type) where
  role : Role
  outcome : Outcome B E
deriving DecidableEq

/-- The store, and the requests in the order they came in. -/
structure Service (B E : Type) where
  idem : IdempotencyStore B E
  requests : List (Request B E)

inductive Label (B E : Type) where
  /-- A request comes in; `refusal` is an error that `_execute` raises before it waits. -/
  | request (now : ℚ) (key : Option String) (refusal : Option E)
  | executed (i : ℕ) (now : ℚ) (body : B)
  | failed (i : ℕ) (error : Failure E)
  /-- A follower goes on, its event is set. -/
  | woken (i : ℕ)
  /-- A follower is cancelled. -/
  | cancel (i : ℕ)
  | reset

namespace Service
variable {B E : Type}

/-- The end of the first stretch of a request that executes. -/
def started (refusal : Option E) : Outcome B E :=
  refusal.elim .running fun error => .raised (.raised error)

/-- `_handle`, up to its first `await`. -/
def handle (s : Service B E) (now : ℚ) (key : Option String) (refusal : Option E) : Service B E :=
  match key.filter (· ≠ "") with
  | none => { s with requests := s.requests ++ [⟨.unkeyed, started refusal⟩] }
  | some key =>
    match s.idem.get now key with
    | (some body, idem) => ⟨idem, s.requests ++ [⟨.replay key, .returned (some body)⟩]⟩
    | (none, idem) =>
      match idem.begin key with
      | ((false, h), idem) => ⟨idem, s.requests ++ [⟨.follower key h, .running⟩]⟩
      | ((true, h), idem) =>
        ⟨refusal.elim idem fun error => idem.abandon key (.raised error),
          s.requests ++ [⟨.leader key h, started refusal⟩]⟩

/-- What a leader does with a body, up to its `return`. -/
def record (idem : IdempotencyStore B E) (now : ℚ) (key : String) (body : B) :
    IdempotencyStore B E :=
  ((idem.recordExecution key).2.put now key body).finish key body

/-- The outcome of a follower that goes on. -/
def joined (x : InFlight B E) : Outcome B E :=
  match IdempotencyStore.join x with
  | .ok body => .returned body
  | .error error => .raised error

def step (s : Service B E) : Label B E → Option (Service B E)
  | .request now key refusal => some (s.handle now key refusal)
  | .executed i now body =>
    match s.requests[i]? with
    | some ⟨.leader key h, .running⟩ =>
      some ⟨record s.idem now key body, s.requests.set i ⟨.leader key h, .returned (some body)⟩⟩
    | some ⟨.unkeyed, .running⟩ =>
      some { s with requests := s.requests.set i ⟨.unkeyed, .returned (some body)⟩ }
    | _ => none
  | .failed i error =>
    match s.requests[i]? with
    | some ⟨.leader key h, .running⟩ =>
      some ⟨s.idem.abandon key error, s.requests.set i ⟨.leader key h, .raised error⟩⟩
    | some ⟨.unkeyed, .running⟩ =>
      some { s with requests := s.requests.set i ⟨.unkeyed, .raised error⟩ }
    | _ => none
  | .woken i =>
    match s.requests[i]? with
    | some ⟨.follower key h, .running⟩ =>
      match s.idem.handles[h]? with
      | some x =>
        if x.event then
          some { s with requests := s.requests.set i ⟨.follower key h, joined x⟩ }
        else none
      | none => none
    | _ => none
  | .cancel i =>
    match s.requests[i]? with
    | some ⟨.follower key h, .running⟩ =>
      some { s with requests := s.requests.set i ⟨.follower key h, .cancelled⟩ }
    | _ => none
  | .reset => some { s with idem := s.idem.reset }

/-- The mock. -/
def system (ttl : ℚ) (maxEntries : ℕ) : System (Service B E) (Label B E) :=
  ⟨⟨.init ttl maxEntries, []⟩, step⟩

/-! ## How requests, handles and cache fit together -/

/-- What a handle holds, given the outcome of its leader. -/
def Settles : Outcome B E → InFlight B E → Prop
  | .running, x => x.event = false ∧ x.result = none ∧ x.error = none
  | .returned r, x => x.event = true ∧ x.result = r ∧ x.error = none ∧ r.isSome
  | .raised error, x => x.event = true ∧ x.error = some error
  | .cancelled, _ => False

/-- What a handle holds, given the outcome of a follower. -/
def Received : Outcome B E → InFlight B E → Prop
  | .running, _ => True
  | .returned r, x => x.event = true ∧ x.result = r ∧ x.error = none
  | .raised error, x => x.event = true ∧ x.error = some error
  | .cancelled, _ => True

/-- A key is in flight just while it has a leader that runs, then it is not cached; a handle
has one leader, and holds what its leader has come to. -/
structure Coherent (s : Service B E) : Prop where
  running : ∀ (i : ℕ) key h, s.requests[i]? = some ⟨.leader key h, .running⟩ →
    s.idem.inflight.get key = some h
  led : ∀ key h, s.idem.inflight.get key = some h →
    ∃ i : ℕ, s.requests[i]? = some ⟨.leader key h, .running⟩
  single : ∀ (i j : ℕ) key key' h o o', s.requests[i]? = some ⟨.leader key h, o⟩ →
    s.requests[j]? = some ⟨.leader key' h, o'⟩ → i = j
  uncached : ∀ key h, s.idem.inflight.get key = some h → s.idem.cache.get key = none
  settled : ∀ (i : ℕ) key h o, s.requests[i]? = some ⟨.leader key h, o⟩ →
    ∃ x, s.idem.handles[h]? = some x ∧ Settles o x
  followed : ∀ (j : ℕ) key h o, s.requests[j]? = some ⟨.follower key h, o⟩ →
    ∃ (i : ℕ) (o' : Outcome B E), s.requests[i]? = some ⟨.leader key h, o'⟩
  received : ∀ (j : ℕ) key h o, s.requests[j]? = some ⟨.follower key h, o⟩ →
    ∃ x, s.idem.handles[h]? = some x ∧ Received o x

/-! ### Lists of requests -/

theorem at_append {α : Type} {l : List α} {a t : α} {i : ℕ} :
    (l ++ [a])[i]? = some t ↔ l[i]? = some t ∨ (i = l.length ∧ a = t) := by
  rw [List.getElem?_append]
  by_cases hi : i < l.length
  · simp [hi, Nat.ne_of_lt hi]
  · have hnone : l[i]? = none := List.getElem?_eq_none (by omega)
    rw [if_neg hi, hnone]
    by_cases heq : i = l.length
    · simp [heq]
    · have hlater : ([a] : List α)[i - l.length]? = none :=
        List.getElem?_eq_none (by simp only [List.length_singleton]; omega)
      simp [hlater, heq]

theorem at_set {α : Type} {l : List α} {a b t : α} {i j : ℕ} (h : l[i]? = some b) :
    (l.set i a)[j]? = some t ↔ (j = i ∧ a = t) ∨ (j ≠ i ∧ l[j]? = some t) := by
  obtain ⟨hi, -⟩ := List.getElem?_eq_some_iff.1 h
  rw [List.getElem?_set]
  by_cases hij : i = j
  · subst hij
    simp [hi]
  · simp [hij, Ne.symm hij]

theorem at_append_of_ne {α : Type} {l : List α} {a t : α} {i : ℕ} (h : a ≠ t) :
    (l ++ [a])[i]? = some t ↔ l[i]? = some t := by
  rw [at_append]
  simp [h]

/-- A request that goes on keeps its role, and the others are untouched. -/
theorem at_set_of_role {l : List (Request B E)} {role : Role} {o₀ o : Outcome B E}
    {t : Request B E} {i j : ℕ} (hi : l[i]? = some ⟨role, o₀⟩) (ht : t.role ≠ role) :
    (l.set i ⟨role, o⟩)[j]? = some t ↔ l[j]? = some t := by
  rw [at_set hi]
  constructor
  · rintro (⟨-, rfl⟩ | ⟨-, hj⟩)
    · exact absurd rfl ht
    · exact hj
  · intro hj
    refine .inr ⟨?_, hj⟩
    rintro rfl
    rw [hi] at hj
    cases hj
    exact ht rfl

variable {s s' : Service B E} {key : String} {h i : ℕ}

theorem coherent_init (ttl : ℚ) (maxEntries : ℕ) :
    Coherent (system (B := B) (E := E) ttl maxEntries).init where
  running i key h hi := by simp [system] at hi
  led key h hkey := by simp [system, IdempotencyStore.init] at hkey
  single i j key key' h o o' hi := by simp [system] at hi
  uncached key h hkey := by simp [system, IdempotencyStore.init] at hkey
  settled i key h o hi := by simp [system] at hi
  followed j key h o hj := by simp [system] at hj
  received j key h o hj := by simp [system] at hj

/-! ### What the operations of the store keep -/

/-- A handle that holds no less. -/
def Holds (x x' : InFlight B E) : Prop :=
  x'.event = x.event ∧ x'.result = x.result ∧ x'.error = x.error

theorem Holds.settles {x x' : InFlight B E} (h : Holds x x') {o : Outcome B E}
    (ho : Settles o x) : Settles o x' := by
  obtain ⟨hevent, hresult, herror⟩ := h
  cases o <;> simp only [Settles, hevent, hresult, herror] at ho ⊢ <;> exact ho

theorem Holds.received {x x' : InFlight B E} (h : Holds x x') {o : Outcome B E}
    (ho : Received o x) : Received o x' := by
  obtain ⟨hevent, hresult, herror⟩ := h
  cases o <;> simp only [Received, hevent, hresult, herror] at ho ⊢ <;> exact ho

/-- A store that has the same in flight, and caches nothing more. -/
theorem Coherent.idem (hs : Coherent s) {idem : IdempotencyStore B E}
    (hinflight : idem.inflight = s.idem.inflight)
    (hcache : ∀ key, s.idem.cache.get key = none → idem.cache.get key = none)
    (hhandles : ∀ (h : ℕ) x, s.idem.handles[h]? = some x →
      ∃ x', idem.handles[h]? = some x' ∧ Holds x x') :
    Coherent { s with idem := idem } where
  running i key h hi := by
    rw [hinflight]
    exact hs.running i key h hi
  led key h hkey := hs.led key h (hinflight ▸ hkey)
  single := hs.single
  uncached key h hkey := hcache key (hs.uncached key h (hinflight ▸ hkey))
  settled i key h o hi := by
    obtain ⟨x, hx, ho⟩ := hs.settled i key h o hi
    obtain ⟨x', hx', hholds⟩ := hhandles h x hx
    exact ⟨x', hx', hholds.settles ho⟩
  followed := hs.followed
  received j key h o hj := by
    obtain ⟨x, hx, ho⟩ := hs.received j key h o hj
    obtain ⟨x', hx', hholds⟩ := hhandles h x hx
    exact ⟨x', hx', hholds.received ho⟩

theorem holds_refl (handles : List (InFlight B E)) (h : ℕ) (x : InFlight B E)
    (hx : handles[h]? = some x) : ∃ x', handles[h]? = some x' ∧ Holds x x' :=
  ⟨x, hx, rfl, rfl, rfl⟩

/-- Requests with the same leaders, whose followers are all accounted for. -/
theorem Coherent.sameLeaders (hs : Coherent s) {requests : List (Request B E)}
    (hleader : ∀ {j : ℕ} {key h o}, requests[j]? = some ⟨.leader key h, o⟩ ↔
      s.requests[j]? = some ⟨.leader key h, o⟩)
    (hfollower : ∀ (j : ℕ) key h o, requests[j]? = some ⟨.follower key h, o⟩ →
      s.requests[j]? = some ⟨.follower key h, o⟩ ∨
        (∃ (i : ℕ) (o' : Outcome B E), s.requests[i]? = some ⟨.leader key h, o'⟩) ∧
          ∃ x, s.idem.handles[h]? = some x ∧ Received o x) :
    Coherent { s with requests := requests } where
  running j key h hj := hs.running j key h (hleader.1 hj)
  led key h hkey := by
    obtain ⟨j, hj⟩ := hs.led key h hkey
    exact ⟨j, hleader.2 hj⟩
  single i j key key' h o o' hi hj := hs.single i j key key' h o o' (hleader.1 hi) (hleader.1 hj)
  uncached := hs.uncached
  settled j key h o hj := hs.settled j key h o (hleader.1 hj)
  followed j key h o hj := by
    have hled : ∃ (i : ℕ) (o' : Outcome B E), s.requests[i]? = some ⟨.leader key h, o'⟩ := by
      rcases hfollower j key h o hj with hold | ⟨hled, -⟩
      · exact hs.followed j key h o hold
      · exact hled
    obtain ⟨i, o', hi⟩ := hled
    exact ⟨i, o', hleader.2 hi⟩
  received j key h o hj := by
    rcases hfollower j key h o hj with hold | ⟨-, hreceived⟩
    · exact hs.received j key h o hold
    · exact hreceived

/-- A request that neither leads nor follows. -/
theorem Coherent.plain (hs : Coherent s) {r : Request B E}
    (hrole : r.role = .unkeyed ∨ ∃ key, r.role = .replay key) :
    Coherent { s with requests := s.requests ++ [r] } := by
  have hleader : ∀ key h o, r ≠ ⟨.leader key h, o⟩ := by
    rintro key h o rfl
    simp at hrole
  have hfollower : ∀ key h o, r ≠ ⟨.follower key h, o⟩ := by
    rintro key h o rfl
    simp at hrole
  exact hs.sameLeaders (at_append_of_ne (hleader _ _ _)) fun j key h o hj =>
    .inl ((at_append_of_ne (hfollower _ _ _)).1 hj)

/-- A request that follows the leader of its key. -/
theorem Coherent.follow (hs : Coherent s) (hkey : s.idem.inflight.get key = some h) :
    Coherent { s with requests := s.requests ++ [⟨.follower key h, .running⟩] } := by
  refine hs.sameLeaders (at_append_of_ne (by simp)) fun j key' h' o hj => ?_
  rcases at_append.1 hj with hold | ⟨-, heq⟩
  · exact .inl hold
  · cases heq
    obtain ⟨l, hl⟩ := hs.led key h hkey
    obtain ⟨x, hx, -⟩ := hs.settled l key h .running hl
    exact .inr ⟨⟨l, .running, hl⟩, x, hx, trivial⟩

/-- Every handle in use is one of the store. -/
theorem Coherent.handle_lt (hs : Coherent s) {o : Outcome B E}
    (hi : s.requests[i]? = some ⟨.leader key h, o⟩) : h < s.idem.handles.length := by
  obtain ⟨x, hx, -⟩ := hs.settled i key h o hi
  exact (List.getElem?_eq_some_iff.1 hx).1

/-- A request that leads: nobody does, and the cache has nothing. -/
theorem Coherent.lead (hs : Coherent s) (hkey : s.idem.inflight.get key = none)
    (hcache : s.idem.cache.get key = none) :
    Coherent ⟨{ s.idem with
        inflight := s.idem.inflight.update key fun _ => s.idem.handles.length
        handles := s.idem.handles ++ [⟨false, none, none, 0⟩] },
      s.requests ++ [⟨.leader key s.idem.handles.length, .running⟩]⟩ := by
  have hhandle : ∀ (h : ℕ) (x : InFlight B E), s.idem.handles[h]? = some x →
      (s.idem.handles ++ [⟨false, none, none, 0⟩])[h]? = some x :=
    fun h x hx => at_append.2 (.inl hx)
  refine ⟨fun i key' h hi => ?_, fun key' h hkey' => ?_, fun i j k k' h o o' hi hj => ?_,
    fun key' h hkey' => ?_, fun i key' h o hi => ?_, fun j key' h o hj => ?_,
    fun j key' h o hj => ?_⟩
  · rw [Dict.get_update]
    rcases at_append.1 hi with hi | ⟨-, heq⟩
    · have hflight := hs.running i key' h hi
      have hne : key ≠ key' := by
        rintro rfl
        rw [hkey] at hflight
        cases hflight
      rw [if_neg hne, hflight]
    · cases heq
      rw [if_pos rfl]
  · rw [Dict.get_update] at hkey'
    by_cases hne : key = key'
    · subst hne
      rw [if_pos rfl] at hkey'
      exact ⟨s.requests.length, at_append.2 (.inr ⟨rfl, by rw [← Option.some.inj hkey']⟩)⟩
    · rw [if_neg hne] at hkey'
      obtain ⟨i, hi⟩ := hs.led key' h hkey'
      exact ⟨i, at_append.2 (.inl hi)⟩
  · rcases at_append.1 hi with hi | ⟨hlast, heq⟩ <;> rcases at_append.1 hj with hj | ⟨hlast', heq'⟩
    · exact hs.single i j k k' h o o' hi hj
    · cases heq'
      exact absurd (hs.handle_lt hi) (Nat.lt_irrefl _)
    · cases heq
      exact absurd (hs.handle_lt hj) (Nat.lt_irrefl _)
    · rw [hlast, hlast']
  · rw [Dict.get_update] at hkey'
    by_cases hne : key = key'
    · exact hne ▸ hcache
    · rw [if_neg hne] at hkey'
      exact hs.uncached key' h hkey'
  · rcases at_append.1 hi with hi | ⟨-, heq⟩
    · obtain ⟨x, hx, ho⟩ := hs.settled i key' h o hi
      exact ⟨x, hhandle h x hx, ho⟩
    · cases heq
      exact ⟨_, at_append.2 (.inr ⟨rfl, rfl⟩), rfl, rfl, rfl⟩
  · rcases at_append.1 hj with hj | ⟨-, heq⟩
    · obtain ⟨i, o', hi⟩ := hs.followed j key' h o hj
      exact ⟨i, o', at_append.2 (.inl hi)⟩
    · cases heq
  · rcases at_append.1 hj with hj | ⟨-, heq⟩
    · obtain ⟨x, hx, ho⟩ := hs.received j key' h o hj
      exact ⟨x, hhandle h x hx, ho⟩
    · cases heq

theorem Settles.event {x : InFlight B E} {o : Outcome B E} (h : Settles o x) (ho : o ≠ .running) :
    x.event = true := by
  cases o with
  | running => exact absurd rfl ho
  | returned r => exact h.1
  | raised error => exact h.1
  | cancelled => exact h.elim

/-- A follower of a running leader has received nothing. -/
theorem Coherent.received_of_running (hs : Coherent s)
    (hi : s.requests[i]? = some ⟨.leader key h, .running⟩) {j : ℕ} {key' : String}
    {o : Outcome B E} (hj : s.requests[j]? = some ⟨.follower key' h, o⟩) (x : InFlight B E) :
    Received o x := by
  obtain ⟨y, hy, hreceived⟩ := hs.received j key' h o hj
  obtain ⟨y', hy', hunset, -⟩ := hs.settled i key h .running hi
  obtain rfl := Option.some.inj (hy.symm.trans hy')
  cases o with
  | running => trivial
  | returned r => exact absurd hreceived.1 (by simp [hunset])
  | raised error => exact absurd hreceived.1 (by simp [hunset])
  | cancelled => trivial

/-- A leader that exits: its key leaves the flight, and its handle holds the outcome. -/
theorem Coherent.settle (hs : Coherent s) (hi : s.requests[i]? = some ⟨.leader key h, .running⟩)
    {idem : IdempotencyStore B E} {o : Outcome B E} {f : InFlight B E → InFlight B E}
    (hinflight : idem.inflight = s.idem.inflight.del key)
    (hhandles : idem.handles = s.idem.handles.modify h f)
    (hcache : ∀ key', key' ≠ key → s.idem.cache.get key' = none → idem.cache.get key' = none)
    (hf : ∀ x, Settles .running x → Settles o (f x)) (ho : o ≠ .running) :
    Coherent ⟨idem, s.requests.set i ⟨.leader key h, o⟩⟩ := by
  have hflight : ∀ key' h', idem.inflight.get key' = some h' →
      key ≠ key' ∧ s.idem.inflight.get key' = some h' := by
    intro key' h' hkey'
    rw [hinflight, Dict.get_del] at hkey'
    by_cases hne : key = key'
    · simp [hne] at hkey'
    · exact ⟨hne, by simpa [hne] using hkey'⟩
  -- the other handles are untouched
  have hother : ∀ (h' : ℕ), h' ≠ h → idem.handles[h']? = s.idem.handles[h']? := by
    intro h' hne
    rw [hhandles, List.getElem?_modify]
    simp [Ne.symm hne]
  have hown : ∃ x, idem.handles[h]? = some x ∧ Settles o x := by
    obtain ⟨x, hx, hrun⟩ := hs.settled i key h .running hi
    exact ⟨f x, by rw [hhandles, List.getElem?_modify, hx]; simp, hf x hrun⟩
  have hfollower : ∀ {j : ℕ} {key' h' o'},
      (s.requests.set i ⟨.leader key h, o⟩)[j]? = some ⟨.follower key' h', o'⟩ ↔
        s.requests[j]? = some ⟨.follower key' h', o'⟩ := at_set_of_role hi (by simp)
  have hleader : ∀ {j : ℕ} {key' h' o'}, j ≠ i →
      s.requests[j]? = some ⟨.leader key' h', o'⟩ → h' ≠ h := by
    rintro j key' h' o' hne hj rfl
    exact hne (hs.single j i key' key h' o' .running hj hi)
  refine ⟨fun j key' h' hj => ?_, fun key' h' hkey' => ?_, fun j j' k k' h' o' o'' hj hj' => ?_,
    fun key' h' hkey' => ?_, fun j key' h' o' hj => ?_, fun j key' h' o' hj => ?_,
    fun j key' h' o' hj => ?_⟩
  · rcases (at_set hi).1 hj with ⟨-, heq⟩ | ⟨hne, hj⟩
    · cases heq
      exact absurd rfl ho
    · have hget := hs.running j key' h' hj
      have hkey : key ≠ key' := by
        rintro rfl
        rw [hs.running i key h hi] at hget
        exact hleader hne hj (Option.some.inj hget).symm
      rw [hinflight, Dict.get_del, if_neg hkey, hget]
  · obtain ⟨hkey, hget⟩ := hflight key' h' hkey'
    obtain ⟨j, hj⟩ := hs.led key' h' hget
    refine ⟨j, (at_set hi).2 (.inr ⟨?_, hj⟩)⟩
    rintro rfl
    rw [hi] at hj
    cases hj
    exact hkey rfl
  · rcases (at_set hi).1 hj with ⟨hji, heq⟩ | ⟨hne, hj⟩ <;>
      rcases (at_set hi).1 hj' with ⟨hji', heq'⟩ | ⟨hne', hj'⟩
    · rw [hji, hji']
    · cases heq
      exact absurd rfl (hleader hne' hj')
    · cases heq'
      exact absurd rfl (hleader hne hj)
    · exact hs.single j j' k k' h' o' o'' hj hj'
  · obtain ⟨hkey, hget⟩ := hflight key' h' hkey'
    exact hcache key' (Ne.symm hkey) (hs.uncached key' h' hget)
  · rcases (at_set hi).1 hj with ⟨-, heq⟩ | ⟨hne, hj⟩
    · cases heq
      exact hown
    · rw [hother h' (hleader hne hj)]
      exact hs.settled j key' h' o' hj
  · obtain ⟨l, o'', hl⟩ := hs.followed j key' h' o' (hfollower.1 hj)
    by_cases hli : l = i
    · subst hli
      rw [hi] at hl
      cases hl
      exact ⟨l, o, (at_set hi).2 (.inl ⟨rfl, rfl⟩)⟩
    · exact ⟨l, o'', (at_set hi).2 (.inr ⟨hli, hl⟩)⟩
  · by_cases hh : h' = h
    · subst hh
      obtain ⟨x, hx, -⟩ := hown
      exact ⟨x, hx, hs.received_of_running hi (hfollower.1 hj) x⟩
    · rw [hother h' hh]
      exact hs.received j key' h' o' (hfollower.1 hj)

/-- A follower that goes on, or is cancelled. -/
theorem Coherent.unfollow (hs : Coherent s) {o₀ o : Outcome B E}
    (hi : s.requests[i]? = some ⟨.follower key h, o₀⟩)
    (ho : ∀ x, s.idem.handles[h]? = some x → Received o x) :
    Coherent { s with requests := s.requests.set i ⟨.follower key h, o⟩ } := by
  refine hs.sameLeaders (at_set_of_role hi (by simp)) fun j key' h' o' hj => ?_
  rcases (at_set hi).1 hj with ⟨-, heq⟩ | ⟨-, hold⟩
  · cases heq
    obtain ⟨x, hx, -⟩ := hs.received i key h o₀ hi
    exact .inr ⟨hs.followed i key h o₀ hi, x, hx, ho x hx⟩
  · exact .inl hold

/-- A request without a key that ends. -/
theorem Coherent.unkeyed (hs : Coherent s) {o₀ o : Outcome B E}
    (hi : s.requests[i]? = some ⟨.unkeyed, o₀⟩) :
    Coherent { s with requests := s.requests.set i ⟨.unkeyed, o⟩ } :=
  hs.sameLeaders (at_set_of_role hi (by simp)) fun _ _ _ _ hj =>
    .inl ((at_set_of_role hi (by simp)).1 hj)

/-! ### Steps -/

/-- What `get` leaves in the cache. -/
theorem cache_get (idem : IdempotencyStore B E) (now : ℚ) (key key' : String) :
    (idem.get now key).2.cache.get key' =
      if key = key' ∧ (idem.get now key).1 = none then none else idem.cache.get key' := by
  cases hget : idem.cache.get key with
  | none =>
    by_cases hkey : key = key'
    · subst hkey
      simp [IdempotencyStore.get, hget]
    · simp [IdempotencyStore.get, hget, hkey]
  | some entry =>
    obtain ⟨storedAt, body⟩ := entry
    by_cases hexpired : idem.ttl < now - storedAt
    · simp [IdempotencyStore.get, hget, hexpired, Dict.get_del]
    · simp only [IdempotencyStore.get, hget, hexpired, if_false, Lru.moveToEnd, Option.elim_some,
        Lru.get_setLast]
      by_cases hkey : key = key'
      · subst hkey
        simp [hget]
      · simp [hkey]

@[simp] theorem inflight_get (idem : IdempotencyStore B E) (now : ℚ) (key : String) :
    (idem.get now key).2.inflight = idem.inflight := by
  unfold IdempotencyStore.get
  split
  · rfl
  · split <;> rfl

@[simp] theorem handles_get (idem : IdempotencyStore B E) (now : ℚ) (key : String) :
    (idem.get now key).2.handles = idem.handles := by
  unfold IdempotencyStore.get
  split
  · rfl
  · split <;> rfl

@[simp] theorem cache_abandon (idem : IdempotencyStore B E) (key : String) (error : Failure E) :
    (idem.abandon key error).cache = idem.cache := by
  unfold IdempotencyStore.abandon
  split <;> rfl

@[simp] theorem inflight_abandon (idem : IdempotencyStore B E) (key : String)
    (error : Failure E) : (idem.abandon key error).inflight.get key = none := by
  cases hflight : idem.inflight.get key with
  | none => simp [IdempotencyStore.abandon, hflight]
  | some h => simp [IdempotencyStore.abandon, hflight, Dict.get_del]

theorem cache_record (idem : IdempotencyStore B E) (now : ℚ) (key : String) (body : B) :
    (record idem now key body).cache = (idem.put now key body).cache := by
  simp only [record, IdempotencyStore.finish]
  split <;> rfl

@[simp] theorem inflight_record (idem : IdempotencyStore B E) (now : ℚ) (key : String)
    (body : B) : (record idem now key body).inflight.get key = none := by
  have hsame : ((idem.recordExecution key).2.put now key body).inflight = idem.inflight := rfl
  cases hflight : idem.inflight.get key with
  | none => simp [record, IdempotencyStore.finish, hsame, hflight]
  | some h => simp [record, IdempotencyStore.finish, hsame, hflight, Dict.get_del]

/-- `get` caches nothing more. -/
theorem Coherent.get (hs : Coherent s) (now : ℚ) (key : String) :
    Coherent { s with idem := (s.idem.get now key).2 } := by
  refine hs.idem (inflight_get _ _ _) (fun key' hnone => ?_) fun h x hx => ?_
  · rw [cache_get, hnone]
    simp
  · rw [handles_get]
    exact holds_refl _ h x hx

theorem Coherent.abandon (hs : Coherent s)
    (hi : s.requests[i]? = some ⟨.leader key h, .running⟩) (error : Failure E) :
    Coherent ⟨s.idem.abandon key error, s.requests.set i ⟨.leader key h, .raised error⟩⟩ := by
  have hflight := hs.running i key h hi
  refine hs.settle hi (f := fun x => { x with event := true, error := some error }) ?_ ?_
    (fun key' _ hnone => ?_) (fun x _ => ⟨rfl, rfl⟩) (by simp)
  · simp [IdempotencyStore.abandon, hflight]
  · simp [IdempotencyStore.abandon, hflight]
  · simpa [IdempotencyStore.abandon, hflight] using hnone

theorem Coherent.record (hs : Coherent s)
    (hi : s.requests[i]? = some ⟨.leader key h, .running⟩) (now : ℚ) (body : B) :
    Coherent ⟨Service.record s.idem now key body,
      s.requests.set i ⟨.leader key h, .returned (some body)⟩⟩ := by
  have hflight := hs.running i key h hi
  refine hs.settle hi (f := fun x => { x with event := true, result := some body }) ?_ ?_
    (fun key' hne hnone => ?_) (fun x hx => ⟨rfl, rfl, hx.2.2, rfl⟩) (by simp)
  · simp [Service.record, IdempotencyStore.finish, IdempotencyStore.put,
      IdempotencyStore.recordExecution, hflight]
  · simp [Service.record, IdempotencyStore.finish, IdempotencyStore.put,
      IdempotencyStore.recordExecution, hflight]
  · rw [cache_record]
    exact Lru.get_evict_eq_none (by rw [Lru.get_setLast, if_neg (Ne.symm hne), hnone]) _

/-- The store after `begin` for a key that is not in flight. -/
def beginLeader (idem : IdempotencyStore B E) (key : String) : IdempotencyStore B E :=
  { idem with
    inflight := idem.inflight.update key fun _ => idem.handles.length
    handles := idem.handles ++ [⟨false, none, none, 0⟩] }

/-- The store after `begin` for a key that is. -/
def beginFollower (idem : IdempotencyStore B E) (h : ℕ) : IdempotencyStore B E :=
  { idem with handles := idem.handles.modify h fun x => { x with followers := x.followers + 1 } }

/-- What a request with a key can become: a replay, a follower or a leader. -/
theorem handle_keyed (s : Service B E) (now : ℚ) {key : Option String} {k : String}
    (refusal : Option E) (hkey : key.filter (· ≠ "") = some k) :
    (∃ body, (s.idem.get now k).1 = some body ∧ s.handle now key refusal =
      ⟨(s.idem.get now k).2, s.requests ++ [⟨.replay k, .returned (some body)⟩]⟩) ∨
    ((s.idem.get now k).1 = none ∧ ∃ h, s.idem.inflight.get k = some h ∧
      s.handle now key refusal =
        ⟨beginFollower (s.idem.get now k).2 h, s.requests ++ [⟨.follower k h, .running⟩]⟩) ∨
    ((s.idem.get now k).1 = none ∧ s.idem.inflight.get k = none ∧ s.handle now key refusal =
      ⟨refusal.elim (beginLeader (s.idem.get now k).2 k) fun error =>
          (beginLeader (s.idem.get now k).2 k).abandon k (.raised error),
        s.requests ++ [⟨.leader k (s.idem.get now k).2.handles.length, started refusal⟩]⟩) := by
  unfold Service.handle
  rw [hkey]
  rcases hget : s.idem.get now k with ⟨_ | body, idem⟩
  · have hsame : idem.inflight.get k = s.idem.inflight.get k := by
      rw [← inflight_get s.idem now k, hget]
    cases hflight : s.idem.inflight.get k with
    | some h =>
      refine .inr (.inl ⟨rfl, h, rfl, ?_⟩)
      simp only [hget, IdempotencyStore.begin, hsame, hflight, beginFollower]
    | none =>
      refine .inr (.inr ⟨rfl, rfl, ?_⟩)
      simp only [hget, IdempotencyStore.begin, hsame, hflight, beginLeader]
  · exact .inl ⟨body, rfl, by simp only [hget]⟩

theorem Coherent.handle (hs : Coherent s) (now : ℚ) (key : Option String) (refusal : Option E) :
    Coherent (s.handle now key refusal) := by
  cases hkey : key.filter (· ≠ "") with
  | none =>
    unfold Service.handle
    rw [hkey]
    exact hs.plain (.inl rfl)
  | some k =>
    have hgot := hs.get now k
    rcases handle_keyed s now refusal hkey with ⟨body, -, heq⟩ | ⟨-, h, hflight, heq⟩ |
      ⟨hmiss, hflight, heq⟩
    · rw [heq]
      exact hgot.plain (.inr ⟨k, rfl⟩)
    · rw [heq]
      have hjoin : (s.idem.get now k).2.inflight.get k = some h := by
        rw [inflight_get]
        exact hflight
      have hfollow := hgot.follow hjoin
      refine hfollow.idem rfl (fun _ hnone => hnone) fun h' x hx => ?_
      simp only [beginFollower]
      rw [List.getElem?_modify, hx]
      by_cases hh : h = h'
      · exact ⟨{ x with followers := x.followers + 1 }, by simp [hh], rfl, rfl, rfl⟩
      · exact ⟨x, by simp [hh], rfl, rfl, rfl⟩
    · rw [heq]
      have hcache : (s.idem.get now k).2.cache.get k = none := by
        rw [cache_get]
        simp [hmiss]
      have hlead := hgot.lead (by rw [inflight_get]; exact hflight) hcache
      cases refusal with
      | none => exact hlead
      | some error =>
        -- the leader exits in the stretch it began in
        have hexit := hlead.abandon (at_append.2 (.inr ⟨rfl, rfl⟩)) (.raised error)
        rw [List.set_append_right _ _ (Nat.le_refl _), Nat.sub_self] at hexit
        exact hexit

/-- What a step can do. -/
inductive Move (s : Service B E) : Label B E → Service B E → Prop where
  | request (now : ℚ) (key : Option String) (refusal : Option E) :
    Move s (.request now key refusal) (s.handle now key refusal)
  | executed {i : ℕ} {key : String} {h : ℕ} (now : ℚ) (body : B)
    (hi : s.requests[i]? = some ⟨.leader key h, .running⟩) :
    Move s (.executed i now body)
      ⟨record s.idem now key body, s.requests.set i ⟨.leader key h, .returned (some body)⟩⟩
  | failed {i : ℕ} {key : String} {h : ℕ} (error : Failure E)
    (hi : s.requests[i]? = some ⟨.leader key h, .running⟩) :
    Move s (.failed i error)
      ⟨s.idem.abandon key error, s.requests.set i ⟨.leader key h, .raised error⟩⟩
  | unkeyed {i : ℕ} (l : Label B E) (o : Outcome B E)
    (hi : s.requests[i]? = some ⟨.unkeyed, .running⟩) :
    Move s l { s with requests := s.requests.set i ⟨.unkeyed, o⟩ }
  | woken {i : ℕ} {key : String} {h : ℕ} {x : InFlight B E}
    (hi : s.requests[i]? = some ⟨.follower key h, .running⟩) (hx : s.idem.handles[h]? = some x)
    (hevent : x.event = true) :
    Move s (.woken i) { s with requests := s.requests.set i ⟨.follower key h, joined x⟩ }
  | cancel {i : ℕ} {key : String} {h : ℕ}
    (hi : s.requests[i]? = some ⟨.follower key h, .running⟩) :
    Move s (.cancel i) { s with requests := s.requests.set i ⟨.follower key h, .cancelled⟩ }
  | reset : Move s .reset { s with idem := s.idem.reset }

theorem move_of_step {l : Label B E} (hstep : s.step l = some s') : Move s l s' := by
  cases l with
  | request now key refusal =>
    obtain rfl := Option.some.inj hstep
    exact .request now key refusal
  | executed i now body =>
    simp only [Service.step] at hstep
    split at hstep
    · rename_i hi
      obtain rfl := Option.some.inj hstep
      exact .executed now body hi
    · rename_i hi
      obtain rfl := Option.some.inj hstep
      exact .unkeyed _ _ hi
    · cases hstep
  | failed i error =>
    simp only [Service.step] at hstep
    split at hstep
    · rename_i hi
      obtain rfl := Option.some.inj hstep
      exact .failed error hi
    · rename_i hi
      obtain rfl := Option.some.inj hstep
      exact .unkeyed _ _ hi
    · cases hstep
  | woken i =>
    simp only [Service.step] at hstep
    split at hstep
    · rename_i hi
      split at hstep
      · rename_i hx
        split at hstep
        · rename_i hevent
          obtain rfl := Option.some.inj hstep
          exact .woken hi hx hevent
        · cases hstep
      · cases hstep
    · cases hstep
  | cancel i =>
    simp only [Service.step] at hstep
    split at hstep
    · rename_i hi
      obtain rfl := Option.some.inj hstep
      exact .cancel hi
    · cases hstep
  | reset =>
    obtain rfl := Option.some.inj hstep
    exact .reset

theorem received_joined {x : InFlight B E} (hevent : x.event = true) : Received (joined x) x := by
  cases herror : x.error with
  | none => simp [joined, IdempotencyStore.join, herror, Received, hevent]
  | some error => simp [joined, IdempotencyStore.join, herror, Received, hevent]

theorem Coherent.step (hs : Coherent s) {l : Label B E} (hstep : s.step l = some s') :
    Coherent s' := by
  cases move_of_step hstep with
  | request now key refusal => exact hs.handle now key refusal
  | executed now body hi => exact hs.record hi now body
  | failed error hi => exact hs.abandon hi error
  | unkeyed l o hi => exact hs.unkeyed hi
  | woken hi hx hevent =>
    refine hs.unfollow hi fun y hy => ?_
    obtain rfl := Option.some.inj (hx.symm.trans hy)
    exact received_joined hevent
  | cancel hi => exact hs.unfollow hi fun _ _ => trivial
  | reset => exact hs.idem rfl (fun _ _ => rfl) (holds_refl _)

theorem coherent_of_reach {ttl : ℚ} {maxEntries : ℕ}
    {allow : Service B E → Label B E → Bool} (hs : (system ttl maxEntries).Reach allow s) :
    Coherent s :=
  hs.invariant (coherent_init ttl maxEntries) fun _ _ _ h _ hstep => h.step hstep

/-! ### The keys that are cached -/

theorem nodup_get {idem : IdempotencyStore B E} (h : idem.cache.keys.Nodup) (now : ℚ)
    (key : String) : (idem.get now key).2.cache.keys.Nodup := by
  cases hget : idem.cache.get key with
  | none => simpa [IdempotencyStore.get, hget] using h
  | some entry =>
    obtain ⟨storedAt, body⟩ := entry
    by_cases hexpired : idem.ttl < now - storedAt
    · simp only [IdempotencyStore.get, hget, hexpired, if_true]
      exact h.sublist (List.filter_sublist.map _)
    · simp only [IdempotencyStore.get, hget, hexpired, if_false, Lru.moveToEnd, Option.elim_some]
      exact Lru.nodup_setLast h _ _

theorem nodup_put {idem : IdempotencyStore B E} (h : idem.cache.keys.Nodup) (now : ℚ)
    (key : String) (body : B) : (idem.put now key body).cache.keys.Nodup :=
  Lru.nodup_evict (Lru.nodup_setLast h _ _) _

/-- A request leaves the cache as `get` leaves it. -/
theorem cache_handle (s : Service B E) (now : ℚ) {key : Option String} {k : String}
    (refusal : Option E) (hkey : key.filter (· ≠ "") = some k) :
    (s.handle now key refusal).idem.cache = (s.idem.get now k).2.cache := by
  rcases handle_keyed s now refusal hkey with ⟨body, -, heq⟩ | ⟨-, h, -, heq⟩ | ⟨-, -, heq⟩
  · rw [heq]
  · rw [heq]
    rfl
  · rw [heq]
    cases refusal with
    | none => rfl
    | some error => simp [beginLeader]

theorem nodup_step (hs : s.idem.cache.keys.Nodup) {l : Label B E} (hstep : s.step l = some s') :
    s'.idem.cache.keys.Nodup := by
  cases move_of_step hstep with
  | request now key refusal =>
    cases hkey : key.filter (· ≠ "") with
    | none =>
      unfold Service.handle
      rw [hkey]
      exact hs
    | some k =>
      rw [cache_handle s now refusal hkey]
      exact nodup_get hs now k
  | executed now body hi =>
    rw [cache_record]
    exact nodup_put hs _ _ _
  | failed error hi => simpa using hs
  | unkeyed l o hi => exact hs
  | woken hi hx hevent => exact hs
  | cancel hi => exact hs
  | reset => simp [IdempotencyStore.reset]

theorem nodup_of_reach {ttl : ℚ} {maxEntries : ℕ} {allow : Service B E → Label B E → Bool}
    (hs : (system ttl maxEntries).Reach allow s) : s.idem.cache.keys.Nodup := by
  induction hs with
  | init => simp [system, IdempotencyStore.init]
  | step _ _ hstep ih => exact nodup_step ih hstep

/-! ### How much is cached -/

@[simp] theorem maxEntries_get (idem : IdempotencyStore B E) (now : ℚ) (key : String) :
    (idem.get now key).2.maxEntries = idem.maxEntries := by
  unfold IdempotencyStore.get
  split
  · rfl
  · split <;> rfl

@[simp] theorem maxEntries_abandon (idem : IdempotencyStore B E) (key : String)
    (error : Failure E) : (idem.abandon key error).maxEntries = idem.maxEntries := by
  unfold IdempotencyStore.abandon
  split <;> rfl

@[simp] theorem maxEntries_record (idem : IdempotencyStore B E) (now : ℚ) (key : String)
    (body : B) : (record idem now key body).maxEntries = idem.maxEntries := by
  simp only [record, IdempotencyStore.finish]
  split <;> rfl

theorem maxEntries_handle (s : Service B E) (now : ℚ) (key : Option String) (refusal : Option E) :
    (s.handle now key refusal).idem.maxEntries = s.idem.maxEntries := by
  cases hkey : key.filter (· ≠ "") with
  | none =>
    unfold Service.handle
    rw [hkey]
  | some k =>
    rcases handle_keyed s now refusal hkey with ⟨_, -, heq⟩ | ⟨-, _, -, heq⟩ | ⟨-, -, heq⟩
    · rw [heq, maxEntries_get]
    · rw [heq]
      exact maxEntries_get _ _ _
    · rw [heq]
      cases refusal with
      | none => exact maxEntries_get _ _ _
      | some error => exact (maxEntries_abandon _ _ _).trans (maxEntries_get _ _ _)

theorem maxEntries_step {l : Label B E} (hstep : s.step l = some s') :
    s'.idem.maxEntries = s.idem.maxEntries := by
  cases move_of_step hstep with
  | request now key refusal => exact maxEntries_handle s now key refusal
  | executed now body hi => exact maxEntries_record _ _ _ _
  | failed error hi => exact maxEntries_abandon _ _ _
  | unkeyed l o hi => rfl
  | woken hi hx hevent => rfl
  | cancel hi => rfl
  | reset => rfl

/-- The cache keeps to its bound. -/
def Bounded (s : Service B E) : Prop := s.idem.cache.length ≤ s.idem.maxEntries

theorem length_get_le (idem : IdempotencyStore B E) (now : ℚ) (key : String) :
    (idem.get now key).2.cache.length ≤ idem.cache.length := by
  cases hget : idem.cache.get key with
  | none => simp [IdempotencyStore.get, hget]
  | some entry =>
    obtain ⟨storedAt, body⟩ := entry
    by_cases hexpired : idem.ttl < now - storedAt
    · simp only [IdempotencyStore.get, hget, hexpired, if_true]
      exact List.length_filter_le _ _
    · simp only [IdempotencyStore.get, hget, hexpired, if_false]
      exact Lru.length_moveToEnd_le _ _

theorem bounded_step (hs : Bounded s) {l : Label B E} (hstep : s.step l = some s') :
    Bounded s' := by
  unfold Bounded at *
  rw [maxEntries_step hstep]
  cases move_of_step hstep with
  | request now key refusal =>
    cases hkey : key.filter (· ≠ "") with
    | none =>
      unfold Service.handle
      rw [hkey]
      exact hs
    | some k =>
      rw [cache_handle s now refusal hkey]
      exact (length_get_le _ _ _).trans hs
  | executed now body hi =>
    rw [cache_record]
    exact Lru.length_evict_le _ _
  | failed error hi => simpa using hs
  | unkeyed l o hi => exact hs
  | woken hi hx hevent => exact hs
  | cancel hi => exact hs
  | reset => exact Nat.zero_le _

theorem bounded_of_reach {ttl : ℚ} {maxEntries : ℕ} {allow : Service B E → Label B E → Bool}
    (hs : (system ttl maxEntries).Reach allow s) :
    s.idem.maxEntries = maxEntries ∧ Bounded s := by
  induction hs with
  | init => exact ⟨rfl, Nat.zero_le _⟩
  | step _ _ hstep ih => exact ⟨(maxEntries_step hstep).trans ih.1, bounded_step ih.2 hstep⟩

/-- A success of a key that is not cached drops the response used least recently, and that only
if there is no room. -/
theorem get_put {idem : IdempotencyStore B E} (hnodup : idem.cache.keys.Nodup)
    (hbounded : idem.cache.length ≤ idem.maxEntries) {k key : String}
    (hmiss : idem.cache.get k = none) {entry : ℚ × B} (hcached : idem.cache.get key = some entry)
    (hroom : idem.cache.length < idem.maxEntries ∨ idem.cache.keys.head? ≠ some key)
    (now : ℚ) (body : B) : (idem.put now k body).cache.get key = some entry := by
  have hne : k ≠ key := by
    rintro rfl
    rw [hmiss] at hcached
    cases hcached
  have hlen : idem.cache.keys.length = idem.cache.length := List.length_map _
  have hmem : key ∈ Dict.keys (Lru.evict idem.maxEntries (Lru.setLast idem.cache k (now, body))) := by
    rw [Lru.keys_evict, Lru.keys_setLast_of_get_eq_none hmiss]
    refine Lru.mem_evict_concat k (hlen.trans_le hbounded) ?_ (hlen ▸ hroom)
    exact Dict.get_isSome_iff.1 (by simp [hcached])
  have hget := Lru.get_evict (Lru.nodup_setLast hnodup k (now, body)) hmem
  rw [Lru.get_setLast, if_neg hne, hcached] at hget
  exact hget

/-- The response of a success is cached. -/
theorem get_put_self {idem : IdempotencyStore B E} (hnodup : idem.cache.keys.Nodup)
    (hroom : 1 ≤ idem.maxEntries) {key : String} (hmiss : idem.cache.get key = none) (now : ℚ)
    (body : B) : (idem.put now key body).cache.get key = some (now, body) := by
  have hmem : key ∈
      Dict.keys (Lru.evict idem.maxEntries (Lru.setLast idem.cache key (now, body))) := by
    rw [Lru.keys_evict, Lru.keys_setLast_of_get_eq_none hmiss]
    exact Lru.mem_evict_concat_self hroom _ _
  have hget := Lru.get_evict (Lru.nodup_setLast hnodup key (now, body)) hmem
  rw [Lru.get_setLast, if_pos rfl] at hget
  exact hget

/-! ### While a response stays cached -/

/-- The response of a key is not found expired, not evicted and not reset: a success of another
key is cached while there is room for it, or while the response used least recently is that of
another key. -/
def stays (key : String) (s : Service B E) : Label B E → Bool
  | .request now k _ =>
    k ≠ some key || (s.idem.cache.get key).all fun entry => !(s.idem.ttl < now - entry.1)
  | .executed i _ _ =>
    match s.requests[i]? with
    | some ⟨.leader _ _, .running⟩ =>
      s.idem.cache.length < s.idem.maxEntries || s.idem.cache.keys.head? != some key
    | _ => true
  | .reset => false
  | _ => true

/-- A response is cached, and every request from the `n`-th on replays it. -/
structure Replays (n : ℕ) (key : String) (storedAt : ℚ) (body : B) (s : Service B E) : Prop where
  coherent : Coherent s
  nodup : s.idem.cache.keys.Nodup
  bounded : Bounded s
  cached : s.idem.cache.get key = some (storedAt, body)
  later : ∀ (j : ℕ) r, n ≤ j → s.requests[j]? = some r → r.role.key = some key →
    r = ⟨.replay key, .returned (some body)⟩

variable {n : ℕ} {storedAt : ℚ} {body : B}

/-- No leader runs. -/
theorem Replays.idle (hs : Replays n key storedAt body s) (j h : ℕ) :
    s.requests[j]? ≠ some ⟨.leader key h, .running⟩ := by
  intro hj
  have hnone := hs.coherent.uncached key h (hs.coherent.running j key h hj)
  rw [hs.cached] at hnone
  cases hnone

/-- A request that goes on is none of the later ones. -/
theorem Replays.later_set (hs : Replays n key storedAt body s) {role : Role} {o : Outcome B E}
    (hi : s.requests[i]? = some ⟨role, .running⟩) (j : ℕ) (r : Request B E) (hn : n ≤ j)
    (hj : (s.requests.set i ⟨role, o⟩)[j]? = some r) (hkey : r.role.key = some key) :
    r = ⟨.replay key, .returned (some body)⟩ := by
  rcases (at_set hi).1 hj with ⟨rfl, rfl⟩ | ⟨-, hold⟩
  · cases hs.later j _ hn hi hkey
  · exact hs.later j r hn hold hkey

/-- A request of another key, or one that replays. -/
theorem Replays.later_append (hs : Replays n key storedAt body s) {t : Request B E}
    (ht : t.role.key = some key → t = ⟨.replay key, .returned (some body)⟩) (j : ℕ)
    (r : Request B E) (hn : n ≤ j) (hj : (s.requests ++ [t])[j]? = some r)
    (hkey : r.role.key = some key) : r = ⟨.replay key, .returned (some body)⟩ := by
  rcases at_append.1 hj with hold | ⟨-, rfl⟩
  · exact hs.later j r hn hold hkey
  · exact ht hkey

/-- What `get` finds as long as the response has not expired. -/
theorem get_of_fresh {idem : IdempotencyStore B E} {now : ℚ}
    (hcached : idem.cache.get key = some (storedAt, body)) (hfresh : ¬ idem.ttl < now - storedAt) :
    (idem.get now key).1 = some body := by
  simp [IdempotencyStore.get, hcached, hfresh]

theorem Replays.request (hs : Replays n key storedAt body s) (now : ℚ) (k : Option String)
    (refusal : Option E) (hstays : stays key s (.request now k refusal) = true) :
    Replays n key storedAt body (s.handle now k refusal) := by
  have hcoherent := hs.coherent.handle now k refusal
  have hbounded : Bounded (s.handle now k refusal) :=
    bounded_step hs.bounded (l := .request now k refusal) rfl
  cases hk : k.filter (· ≠ "") with
  | none =>
    unfold Service.handle at hcoherent hbounded ⊢
    rw [hk] at hcoherent hbounded ⊢
    exact ⟨hcoherent, hs.nodup, hbounded, hs.cached,
      hs.later_append (fun hkey => by cases hkey)⟩
  | some key' =>
    have hnodup := nodup_get hs.nodup now key'
    have hcache := cache_get s.idem now key' key
    rw [← cache_handle s now refusal hk] at hnodup hcache
    have hk' : k = some key' := (Option.filter_eq_some_iff.1 hk).1
    by_cases hkey : key' = key
    · subst hkey
      have hfresh : ¬ s.idem.ttl < now - storedAt := by
        simpa [stays, hk', hs.cached] using hstays
      have hget := get_of_fresh hs.cached hfresh
      rw [hget, if_neg (by simp), hs.cached] at hcache
      refine ⟨hcoherent, hnodup, hbounded, hcache, ?_⟩
      rcases handle_keyed s now refusal hk with ⟨body', hget', heq⟩ | ⟨hmiss, -⟩ | ⟨hmiss, -⟩
      · obtain rfl := Option.some.inj (hget.symm.trans hget')
        rw [heq]
        exact hs.later_append fun _ => rfl
      · rw [hget] at hmiss
        cases hmiss
      · rw [hget] at hmiss
        cases hmiss
    · rw [if_neg (by simp [hkey]), hs.cached] at hcache
      refine ⟨hcoherent, hnodup, hbounded, hcache, ?_⟩
      have hother : some key' ≠ some key := fun heq => hkey (Option.some.inj heq)
      rcases handle_keyed s now refusal hk with ⟨_, -, heq⟩ | ⟨-, _, -, heq⟩ | ⟨-, -, heq⟩
      · rw [heq]
        exact hs.later_append fun hkey => absurd hkey hother
      · rw [heq]
        exact hs.later_append fun hkey => absurd hkey hother
      · rw [heq]
        exact hs.later_append fun hkey => absurd hkey hother

/-- While a response stays cached it is replayed. -/
theorem Replays.step (hs : Replays n key storedAt body s) {l : Label B E}
    (hstays : stays key s l = true) (hstep : s.step l = some s') :
    Replays n key storedAt body s' := by
  have hcoherent := hs.coherent.step hstep
  have hnodup := nodup_step hs.nodup hstep
  have hbounded := bounded_step hs.bounded hstep
  cases move_of_step hstep with
  | request now k refusal => exact hs.request now k refusal hstays
  | executed now body' hi =>
    refine ⟨hcoherent, hnodup, hbounded, ?_, hs.later_set hi⟩
    rename_i i k h
    have hroom : s.idem.cache.length < s.idem.maxEntries ∨
        s.idem.cache.keys.head? ≠ some key := by simpa [stays, hi] using hstays
    have hmiss := hs.coherent.uncached k h (hs.coherent.running i k h hi)
    rw [cache_record]
    exact get_put hs.nodup hs.bounded hmiss hs.cached hroom now body'
  | failed error hi =>
    exact ⟨hcoherent, hnodup, hbounded, by rw [cache_abandon]; exact hs.cached, hs.later_set hi⟩
  | unkeyed l o hi => exact ⟨hcoherent, hnodup, hbounded, hs.cached, hs.later_set hi⟩
  | woken hi hx hevent => exact ⟨hcoherent, hnodup, hbounded, hs.cached, hs.later_set hi⟩
  | cancel hi => exact ⟨hcoherent, hnodup, hbounded, hs.cached, hs.later_set hi⟩
  | reset => cases hstays

/-- The runs from a state on. -/
def runs (s : Service B E) : System (Service B E) (Label B E) := ⟨s, step⟩

/-- The response of a leader is cached, and from then on replayed. -/
theorem replays_of_executed (hs : Coherent s) (hnodup : s.idem.cache.keys.Nodup)
    (hbounded : Bounded s) (hroom : 1 ≤ s.idem.maxEntries) {now : ℚ}
    (hi : s.requests[i]? = some ⟨.leader key h, .running⟩)
    (hstep : s.step (.executed i now body) = some s') :
    Replays s'.requests.length key now body s' := by
  refine ⟨hs.step hstep, nodup_step hnodup hstep, bounded_step hbounded hstep, ?_,
    fun j r hn hj => ?_⟩
  · simp only [Service.step, hi] at hstep
    obtain rfl := Option.some.inj hstep
    rw [cache_record]
    exact get_put_self hnodup hroom (hs.uncached key h (hs.running i key h hi)) now body
  · rw [List.getElem?_eq_none hn] at hj
    cases hj

theorem Replays.of_reach {s₁ : Service B E} (hs₁ : Replays n key storedAt body s₁)
    (hs : s₁.runs.Reach (stays key) s) : Replays n key storedAt body s :=
  hs.invariant hs₁ fun _ _ _ hinv hstays hstep => hinv.step hstays hstep

/-! ### Single flight -/

/-- One execution of a key at a time, no follower forgotten, and one body for all. -/
structure SingleFlight (s : Service B E) : Prop where
  one : ∀ (i j : ℕ) key h h', s.requests[i]? = some ⟨.leader key h, .running⟩ →
    s.requests[j]? = some ⟨.leader key h', .running⟩ → i = j
  released : ∀ (i : ℕ) key h o, s.requests[i]? = some ⟨.leader key h, o⟩ → o ≠ .running →
    s.idem.inflight.get key ≠ some h ∧ ∃ x, s.idem.handles[h]? = some x ∧ x.event = true
  shared : ∀ (i j : ℕ) key h body o,
    s.requests[i]? = some ⟨.leader key h, .returned (some body)⟩ →
    s.requests[j]? = some ⟨.follower key h, o⟩ →
      o = .returned (some body) ∨ o = .cancelled ∨ (o = .running ∧ ∃ s',
        s.step (.woken j) = some s' ∧
          s'.requests[j]? = some ⟨.follower key h, .returned (some body)⟩)

theorem Coherent.singleFlight (hs : Coherent s) : SingleFlight s where
  one i j key h h' hi hj := by
    have hflight := hs.running i key h hi
    rw [hs.running j key h' hj] at hflight
    obtain rfl := Option.some.inj hflight
    exact hs.single i j key key h' _ _ hi hj
  released i key h o hi ho := by
    refine ⟨fun hflight => ?_, ?_⟩
    · obtain ⟨j, hj⟩ := hs.led key h hflight
      obtain rfl := hs.single i j key key h _ _ hi hj
      rw [hi] at hj
      cases hj
      exact ho rfl
    · obtain ⟨x, hx, hsettles⟩ := hs.settled i key h o hi
      exact ⟨x, hx, hsettles.event ho⟩
  shared i j key h body o hi hj := by
    obtain ⟨x, hx, hevent, hresult, herror, -⟩ := hs.settled i key h _ hi
    obtain ⟨y, hy, hreceived⟩ := hs.received j key h o hj
    obtain rfl := Option.some.inj (hx.symm.trans hy)
    cases o with
    | running =>
      refine .inr (.inr ⟨rfl, { s with requests := s.requests.set j ⟨.follower key h, joined x⟩ },
        by simp only [Service.step, hj, hx, hevent, if_true], ?_⟩)
      have hjoined : joined x = .returned (some body) := by
        simp only [joined, IdempotencyStore.join, herror, hresult]
      exact (at_set hj).2 (.inl ⟨rfl, by rw [hjoined]⟩)
    | returned r => exact .inl (by rw [← hresult, hreceived.2.1])
    | raised error =>
      have hnone := hreceived.2
      rw [herror] at hnone
      cases hnone
    | cancelled => exact .inr (.inl rfl)

/-- The step in which a leader exits. -/
theorem inflight_of_exit {l : Label B E} (hstep : s.step l = some s') {o : Outcome B E}
    (hi : s'.requests[i]? = some ⟨.leader key h, o⟩) (ho : o ≠ .running)
    (hexit : s.requests[i]? ≠ s'.requests[i]?) : s'.idem.inflight.get key = none := by
  have hset : ∀ {j : ℕ} {role : Role} {o' : Outcome B E},
      s.requests[j]? = some ⟨role, .running⟩ → s'.requests = s.requests.set j ⟨role, o'⟩ →
        role = .leader key h := by
    intro j role o' hj hreq
    rw [hreq] at hi hexit
    rcases (at_set hj).1 hi with ⟨-, heq⟩ | ⟨-, hold⟩
    · exact congrArg Request.role heq
    · exact absurd (hold.trans hi.symm) hexit
  have hnew : ∀ {t : Request B E}, s'.requests = s.requests ++ [t] → t = ⟨.leader key h, o⟩ := by
    intro t hreq
    rw [hreq] at hi hexit
    rcases at_append.1 hi with hold | ⟨-, heq⟩
    · exact absurd (hold.trans hi.symm) hexit
    · exact heq
  cases move_of_step hstep with
  | request now k refusal =>
    cases hk : k.filter (· ≠ "") with
    | none =>
      unfold Service.handle at hnew
      rw [hk] at hnew
      cases hnew rfl
    | some key' =>
      rcases handle_keyed s now refusal hk with ⟨_, -, heq⟩ | ⟨-, _, -, heq⟩ | ⟨-, -, heq⟩
      · cases hnew (congrArg Service.requests heq)
      · cases hnew (congrArg Service.requests heq)
      · have hlead := hnew (congrArg Service.requests heq)
        rw [heq]
        cases refusal with
        | none =>
          cases hlead
          exact absurd rfl ho
        | some error =>
          cases hlead
          exact inflight_abandon _ _ _
  | executed now body hj =>
    cases hset hj rfl
    exact inflight_record _ _ _ _
  | failed error hj =>
    cases hset hj rfl
    exact inflight_abandon _ _ _
  | unkeyed l o' hj => cases hset hj rfl
  | woken hj hx hevent => cases hset hj rfl
  | cancel hj => cases hset hj rfl
  | reset => exact absurd rfl hexit

/-- **Single flight.**  In every state that any interleaving reaches, a key has one execution at
most, and the followers of a leader that has exited can go on, with its body if it has one.  When
a leader exits its key is not in flight.  Once an execution has succeeded its response is cached,
and as long as it is neither expired nor evicted nor reset it stays so, the key is not executed
again, and every later request returns the body. -/
theorem single_flight {ttl : ℚ} {maxEntries : ℕ} {s : Service B E}
    (hs : (system ttl maxEntries).Reach System.anyStep s) :
    SingleFlight s ∧
    (∀ l s', s.step l = some s' → ∀ (i : ℕ) key h o,
      s'.requests[i]? = some ⟨.leader key h, o⟩ → o ≠ .running →
        s.requests[i]? ≠ s'.requests[i]? → s'.idem.inflight.get key = none) ∧
    ∀ (i : ℕ) key h now body s₁, s.requests[i]? = some ⟨.leader key h, .running⟩ →
      s.step (.executed i now body) = some s₁ → 1 ≤ maxEntries →
        s₁.idem.cache.get key = some (now, body) ∧
        ∀ s₂, s₁.runs.Reach (stays key) s₂ →
          s₂.idem.cache.get key = some (now, body) ∧
          (∀ (j h' : ℕ), s₂.requests[j]? ≠ some ⟨.leader key h', .running⟩) ∧
            ∀ (j : ℕ) r, s₁.requests.length ≤ j → s₂.requests[j]? = some r →
              r.role.key = some key → r = ⟨.replay key, .returned (some body)⟩ := by
  have hcoherent := coherent_of_reach hs
  have hnodup := nodup_of_reach hs
  obtain ⟨hmax, hbounded⟩ := bounded_of_reach hs
  refine ⟨hcoherent.singleFlight, fun l s' hstep i key h o => inflight_of_exit hstep,
    fun i key h now body s₁ hi hstep hroom => ?_⟩
  have hreplays := replays_of_executed hcoherent hnodup hbounded (hmax ▸ hroom) hi hstep
  refine ⟨hreplays.cached, fun s₂ hs₂ => ?_⟩
  have hlater := hreplays.of_reach hs₂
  exact ⟨hlater.cached, hlater.idle, hlater.later⟩

/-- A leader and a follower, another key being cached. -/
def coalesced : Service String String :=
  ⟨⟨600, 2, [("k", 1)], [("a", (0, "old"))], [("a", 1)], [],
      [⟨true, some "old", none, 0⟩, ⟨false, none, none, 1⟩]⟩,
    [⟨.leader "a" 0, .returned (some "old")⟩, ⟨.leader "k" 1, .running⟩,
      ⟨.follower "k" 1, .running⟩]⟩

/-- The leader has returned. -/
def answered : Service String String :=
  ⟨record coalesced.idem 1 "k" "body",
    [⟨.leader "a" 0, .returned (some "old")⟩, ⟨.leader "k" 1, .returned (some "body")⟩,
      ⟨.follower "k" 1, .running⟩]⟩

/-- The requests once the follower has gone on, a third key was executed, for which the first one
had to go, and the key has come in again. -/
def replayed : List (Request String String) :=
  [⟨.leader "a" 0, .returned (some "old")⟩, ⟨.leader "k" 1, .returned (some "body")⟩,
    ⟨.follower "k" 1, .returned (some "body")⟩, ⟨.leader "l" 2, .returned (some "other")⟩,
    ⟨.replay "k", .returned (some "body")⟩]

theorem single_flight_replayed : SingleFlight coalesced ∧
    answered.idem.cache.get "k" = some (1, "body") ∧
    ∃ s₂ : Service String String, s₂.requests = replayed ∧
      s₂.idem.cache.get "k" = some (1, "body") := by
  have hrun : (system 600 2).runAll System.anyStep (system 600 2).init
      [.request 0 (some "a") none, .executed 0 0 "old", .request 0 (some "k") none,
        .request 0 (some "k") none] = some coalesced := rfl
  obtain ⟨s₂, hs₂, hreq⟩ := System.exists_of_runAll answered.runs (stays "k")
    (fun s => s.requests = replayed)
    [.request 2 (some "l") none, .woken 2, .executed 3 3 "other", .request 4 (some "k") none]
    (by decide +kernel)
  obtain ⟨hflight, -, hreplays⟩ := single_flight (System.Reach.init.runAll hrun)
  obtain ⟨hcached, hstays⟩ := hreplays 1 "k" 1 1 "body" answered rfl rfl (by decide)
  exact ⟨hflight, hcached, s₂, of_decide_eq_true hreq, (hstays s₂ hs₂).1⟩

end Service
end Mock
end OcrOrchestrator
