import OcrOrchestrator.Values

/-!
# The page state machine

A page moves through seven states under a compare-and-set script that runs inside
Redis.  The table of legal moves is the single source of truth: the terminal states
and the predecessor sets are computed from it, so they cannot drift apart.

`transitionScript` is the Lua script, statement by statement, over the two hashes it
is given.  It renews expiry times as the script does; whether a key has expired is
not decided here.  One clock is used for the timestamps a caller passes in and for the
server's own expiry times.

## Main definitions

* `PageState`, `transitions`, `predecessors` — the table and its inverse.
* `PageHash`, `JobHash` — the stored records, with the fields the code reads.
* `transitionScript` — the compare-and-set, the extra fields, the sweep marker and
  the completion counter, in one atomic step.
* `TransitionResult.completedJob` — the test that decides who announces completion.
-/

namespace OcrOrchestrator

inductive PageState where
  | pending
  | layoutRunning
  | layoutDone
  | vlmRunning
  | done
  | fallbackDone
  | failed
  deriving DecidableEq

namespace PageState

/-- The string the state is stored as. -/
def value : PageState → String
  | pending => "PENDING"
  | layoutRunning => "LAYOUT_RUNNING"
  | layoutDone => "LAYOUT_DONE"
  | vlmRunning => "VLM_RUNNING"
  | done => "DONE"
  | fallbackDone => "FALLBACK_DONE"
  | failed => "FAILED"

/-- The states in declaration order, as iterating over the enumeration gives them. -/
def all : List PageState :=
  [pending, layoutRunning, layoutDone, vlmRunning, done, fallbackDone, failed]

@[simp] theorem mem_all (s : PageState) : s ∈ all := by
  cases s <;> decide

end PageState

open PageState

/-- Which states may follow a given one. -/
def transitions : PageState → List PageState
  | pending => [layoutRunning, failed]
  | layoutRunning => [layoutDone, pending, failed]
  | layoutDone => [vlmRunning, fallbackDone]
  | vlmRunning => [done, layoutDone, fallbackDone, failed]
  | done => []
  | fallbackDone => []
  | failed => []

/-- A state is terminal when the table allows nothing after it. -/
def PageState.terminal (s : PageState) : Bool := (transitions s).isEmpty

/-- `RUNNING_STATES`: some worker has claimed the page and has not finished. -/
def PageState.running : PageState → Bool
  | layoutRunning => true
  | vlmRunning => true
  | _ => false

/-- `RECLAIM_TARGET`: where a page goes when its worker vanished mid-stage. -/
def reclaimTarget : PageState → Option PageState
  | layoutRunning => some pending
  | vlmRunning => some layoutDone
  | _ => none

/-- The inverted table: which states may legally precede a target. -/
def predecessors (target : PageState) : List PageState :=
  PageState.all.filter fun src => target ∈ transitions src

theorem mem_predecessors {src target : PageState} :
    src ∈ predecessors target ↔ target ∈ transitions src := by
  simp [predecessors]

/-- The reclaim table is defined exactly on the running states. -/
theorem reclaimTarget_isSome (s : PageState) : (reclaimTarget s).isSome = s.running := by
  cases s <;> rfl

/-- Rolling back to the last checkpoint is itself a move of the table. -/
theorem mem_predecessors_of_reclaimTarget {s t : PageState} (h : reclaimTarget s = some t) :
    s ∈ predecessors t := by
  cases s <;> simp [reclaimTarget] at h <;> subst h <;> decide

/-- Every state can be requested: none has an empty predecessor set. -/
theorem predecessors_ne_nil (s : PageState) : predecessors s ≠ [] := by
  cases s <;> decide

/-- Nothing leaves a terminal state. -/
theorem terminal_eq_false_of_mem_predecessors {s t : PageState} (h : s ∈ predecessors t) :
    s.terminal = false := by
  rw [mem_predecessors] at h
  cases ht : transitions s with
  | nil => simp [ht] at h
  | cons a l => simp [PageState.terminal, ht]

/-! ## Stored records -/

/-- Job ids are only ever compared for equality. -/
abbrev JobId := ℕ

/-- The key of a page hash. -/
@[ext]
structure PageKey where
  job : JobId
  index : ℤ
  deriving DecidableEq

/-- The extra fields that callers of `transition` write next to the state. -/
inductive PageField where
  | layout
  | vlm
  | confidence
  | degraded
  | fallbackReason
  | error
  deriving DecidableEq

/-- A page hash. -/
structure PageHash where
  pageIndex : ℤ
  state : PageState
  attempts : ℕ
  updatedAt : ℕ
  fields : PageField → Option Json
  expiresAt : Option ℕ

/-- A job hash.  Each field may be absent: `HINCRBY` and `HSET` create a missing hash
with that one field. -/
structure JobHash where
  totalPages : Option ℕ
  doneCount : Option ℕ
  pagesRenewedAt : Option ℕ
  expiresAt : Option ℕ

/-- The hash a write to a missing key starts from. -/
def JobHash.empty : JobHash := ⟨none, none, none, none⟩

/-- `HSET` of several extra fields, in order. -/
def PageHash.hset (p : PageHash) (extra : List (PageField × Json)) : PageHash :=
  { p with fields := extra.foldl (fun f x => Function.update f x.1 (some x.2)) p.fields }

@[simp] theorem PageHash.hset_state (p : PageHash) (extra : List (PageField × Json)) :
    (p.hset extra).state = p.state := rfl

/-! ## The transition script -/

/-- What the script returns.  `observed` is `none` for the answer `MISSING`. -/
structure Reply where
  ok : Bool
  observed : Option PageState
  doneCount : ℤ
  totalPages : ℤ
  sweepPages : ℕ

/-- The script's answer when it changes nothing. -/
def Reply.rejected (observed : Option PageState) : Reply := ⟨false, observed, -1, -1, 0⟩

/-- `_TRANSITION_LUA` on the page hash and the job hash it is given.  The half-TTL test
is written without division: `now - last > ttl / 2`. -/
def transitionScript (newState : PageState) (now : ℕ) (isTerminal : Bool) (ttlMs : ℕ)
    (allowed : List PageState) (extra : List (PageField × Json))
    (page : Option PageHash) (job : Option JobHash) :
    Reply × Option PageHash × Option JobHash :=
  match page with
  | none => (Reply.rejected none, none, job)
  | some current =>
    if current.state ∈ allowed then
      let written := PageHash.hset { current with state := newState, updatedAt := now } extra
      let page := { written with expiresAt := some (now + ttlMs) }
      -- PEXPIRE on a missing job hash is a no-op.
      let job := job.map fun j => { j with expiresAt := some (now + ttlMs) }
      let lastSweep := (job.bind JobHash.pagesRenewedAt).getD 0
      let due : Bool := 2 * lastSweep + ttlMs < 2 * now
      let sweep := if due then (job.bind JobHash.totalPages).getD 0 else 0
      let job := if due then
          some { job.getD JobHash.empty with pagesRenewedAt := some now } else job
      if isTerminal then
        let done := (job.bind JobHash.doneCount).getD 0 + 1
        let total := job.bind JobHash.totalPages
        (⟨true, some newState, done, total.elim (-1) (fun n => (n : ℤ)), sweep⟩, some page,
          some { job.getD JobHash.empty with doneCount := some done })
      else
        (⟨true, some newState, -1, -1, sweep⟩, some page, job)
    else
      (Reply.rejected (some current.state), some current, job)

/-- The caller's view of one transition. -/
structure TransitionResult where
  ok : Bool
  observed : Option PageState
  doneCount : ℤ
  totalPages : ℤ
  requested : PageState

namespace TransitionResult

/-- True for the transition that made the job's last page terminal. -/
def completedJob (r : TransitionResult) : Bool :=
  r.ok && decide (0 < r.totalPages) && decide (r.totalPages ≤ r.doneCount)

/-- Rejected because the page is already in the requested state. -/
def alreadyApplied (r : TransitionResult) : Bool :=
  !r.ok && decide (r.observed = some r.requested)

/-- The page hash does not exist. -/
def missing (r : TransitionResult) : Bool := r.observed.isNone

end TransitionResult

/-! ## What the script does

Each of the three ways through the script, stated once. -/

section Script
variable {newState : PageState} {now ttlMs : ℕ} {isTerminal : Bool}
  {allowed : List PageState} {extra : List (PageField × Json)} {job : Option JobHash}

theorem transitionScript_missing :
    transitionScript newState now isTerminal ttlMs allowed extra none job =
      (Reply.rejected none, none, job) := rfl

theorem transitionScript_rejected {p : PageHash} (h : p.state ∉ allowed) :
    transitionScript newState now isTerminal ttlMs allowed extra (some p) job =
      (Reply.rejected (some p.state), some p, job) := by
  simp [transitionScript, h]

/-- The page hash an applied transition leaves behind. -/
def PageHash.moved (p : PageHash) (newState : PageState) (now ttlMs : ℕ)
    (extra : List (PageField × Json)) : PageHash :=
  { PageHash.hset { p with state := newState, updatedAt := now } extra with
    expiresAt := some (now + ttlMs) }

@[simp] theorem PageHash.moved_state (p : PageHash) (s : PageState) (now ttlMs : ℕ)
    (extra : List (PageField × Json)) : (p.moved s now ttlMs extra).state = s := rfl

theorem transitionScript_applied {p : PageHash} (h : p.state ∈ allowed) :
    (transitionScript newState now isTerminal ttlMs allowed extra (some p) job).1.ok = true ∧
    (transitionScript newState now isTerminal ttlMs allowed extra (some p) job).2.1 =
      some (p.moved newState now ttlMs extra) := by
  cases isTerminal <;> simp [transitionScript, h, PageHash.moved]

/-- An applied transition keeps a job's total, counts the page if it became terminal, and
reports both numbers then. -/
theorem transitionScript_job {p : PageHash} {j : JobHash} (h : p.state ∈ allowed) :
    ∃ j', (transitionScript newState now isTerminal ttlMs allowed extra (some p) (some j)).2.2 =
        some j' ∧ j'.totalPages = j.totalPages ∧
      j'.doneCount = (if isTerminal then some (j.doneCount.getD 0 + 1) else j.doneCount) ∧
      (transitionScript newState now isTerminal ttlMs allowed extra (some p) (some j)).1.doneCount =
        (if isTerminal then ((j.doneCount.getD 0 + 1 : ℕ) : ℤ) else -1) ∧
      (transitionScript newState now isTerminal ttlMs allowed extra (some p) (some j)).1.totalPages =
        (if isTerminal then j.totalPages.elim (-1) (fun n => (n : ℤ)) else -1) := by
  by_cases hdue : 2 * j.pagesRenewedAt.getD 0 + ttlMs < 2 * now <;> cases isTerminal <;>
    simp [transitionScript, h, hdue]

/-- Is the marker older than half the TTL? -/
def sweepDue (ttlMs now lastSweep : ℕ) : Bool := 2 * lastSweep + ttlMs < 2 * now

/-- An applied transition renews a job hash, and asks for a sweep exactly when the marker
was due, moving it at once. -/
theorem transitionScript_renewal {p : PageHash} {j : JobHash} (h : p.state ∈ allowed) :
    ∃ j', (transitionScript newState now isTerminal ttlMs allowed extra (some p) (some j)).2.2 =
        some j' ∧ j'.totalPages = j.totalPages ∧ j'.expiresAt = some (now + ttlMs) ∧
      j'.pagesRenewedAt =
        (if sweepDue ttlMs now (j.pagesRenewedAt.getD 0) then some now else j.pagesRenewedAt) ∧
      (transitionScript newState now isTerminal ttlMs allowed extra (some p) (some j)).1.sweepPages =
        (if sweepDue ttlMs now (j.pagesRenewedAt.getD 0) then j.totalPages.getD 0 else 0) := by
  by_cases hdue : 2 * j.pagesRenewedAt.getD 0 + ttlMs < 2 * now <;> cases isTerminal <;>
    simp [transitionScript, h, hdue, sweepDue]

/-- The script reports success exactly when it found the page in an allowed state. -/
theorem transitionScript_ok_iff {page : Option PageHash} :
    (transitionScript newState now isTerminal ttlMs allowed extra page job).1.ok = true ↔
      ∃ p, page = some p ∧ p.state ∈ allowed := by
  cases page with
  | none => simp [transitionScript_missing, Reply.rejected]
  | some p =>
    by_cases h : p.state ∈ allowed
    · simp [(transitionScript_applied h).1, h]
    · simp [transitionScript_rejected h, Reply.rejected, h]

end Script

end OcrOrchestrator
