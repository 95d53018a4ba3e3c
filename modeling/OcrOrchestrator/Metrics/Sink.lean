import OcrOrchestrator.Metrics.Registry
import OcrOrchestrator.Lib.System
import Mathlib.Tactic.Linarith

/-!
# The sink of a worker

`MetricsSink.flush` of `common/metrics.py` under `WorkerMetrics` of `app/worker/metrics.py`: the
registry is drained, then a pipeline is sent, and while the worker waits for it more is
recorded.  A pipeline that fails has applied none of its commands; `_maintenance` logs that and
flushes again later.

The state also keeps what no variable of the worker has: everything recorded, and what the
other workers have added to the hashes.

## Main definitions

* `WorkerMetrics.sync` — running totals as increments.
* `sink` — the worker, its flush under way and the hashes.

## Main results

* `Books.step` — a step that is no harmful failure keeps the books.
* `shipped` — after a flush the hashes hold all that was recorded before it, as long as no flush
  fails that had something to send.
-/

namespace OcrOrchestrator
namespace Metrics

open Lib

/-! ## What a worker exports -/

/-- A series with one label. -/
def labelled (name : MetricName) (key value : String) (h : key ≠ "le") : Series :=
  (name, ⟨[toLex (key, value)], by simp, by simpa using h⟩)

def pageAttempts (outcome : String) : Series :=
  labelled ⟨"orch_page_attempts_total", by decide⟩ "outcome" outcome (by decide)

def pagesTerminal (result : String) : Series :=
  labelled ⟨"orch_pages_terminal_total", by decide⟩ "result" result (by decide)

def reaperActions (action : String) : Series :=
  labelled ⟨"orch_reaper_actions_total", by decide⟩ "action" action (by decide)

/-- `_TERMINAL_RESULT`. -/
def terminalResult : Dict String String :=
  [("completed", "success"), ("resumed", "success"), ("degraded", "success"),
    ("failed", "failed"), ("already_terminal", "duplicate")]

/-- The registry and the totals last seen.  `recorded` is every increment so far, by cell. -/
structure WorkerMetrics where
  registry : Registry
  lastOutcomes : Dict String ℤ
  lastReaper : Dict String ℤ
  recorded : List (Cell × ℚ)

namespace WorkerMetrics

def init : WorkerMetrics := ⟨.empty, [], [], []⟩

/-- `inc` of one of the counters. -/
def inc (m : WorkerMetrics) (s : Series) (amount : ℚ) : WorkerMetrics :=
  { m with registry := m.registry.inc s amount
           recorded := m.recorded ++ [(counterCell s, amount)] }

/-- `observe` of one of the histograms. -/
def observe (m : WorkerMetrics) (s : Series) (value : ℚ) : WorkerMetrics :=
  { m with registry := m.registry.observe s value
           recorded := m.recorded ++ [(bucketCell s (bucketIndex value), 1), (sumCell s, value)] }

/-- What the terminal view counts, of attempts with one outcome. -/
def incTerminal (m : WorkerMetrics) (outcome : String) (delta : ℚ) : WorkerMetrics :=
  match terminalResult.get outcome with
  | some result => m.inc (pagesTerminal result) delta
  | none => m

/-- `max(0, total - last.get(key, 0))`. -/
def delta (last : Dict String ℤ) (key : String) (total : ℤ) : ℤ :=
  max 0 (total - (last.get key).getD 0)

/-- An iteration of the first loop of `sync`. -/
def syncOutcome (m : WorkerMetrics) (e : String × ℤ) : WorkerMetrics :=
  let d := delta m.lastOutcomes e.1 e.2
  let m := if d ≠ 0 then (m.inc (pageAttempts e.1) d).incTerminal e.1 d else m
  { m with lastOutcomes := m.lastOutcomes.update e.1 fun _ => e.2 }

/-- An iteration of the second loop. -/
def syncReaper (m : WorkerMetrics) (e : String × ℤ) : WorkerMetrics :=
  let d := delta m.lastReaper e.1 e.2
  let m := if d ≠ 0 then m.inc (reaperActions e.1) d else m
  { m with lastReaper := m.lastReaper.update e.1 fun _ => e.2 }

/-- `sync`, without the gauge. -/
def sync (m : WorkerMetrics) (outcomes reaper : List (String × ℤ)) : WorkerMetrics :=
  reaper.foldl syncReaper (outcomes.foldl syncOutcome m)

/-- What was recorded and has left the registry. -/
def left (m : WorkerMetrics) (c : Cell) : ℚ := total m.recorded c - total (increments m.registry) c

/-! ### Nothing leaves the registry but by a flush -/

@[simp] theorem left_inc (m : WorkerMetrics) (s : Series) (amount : ℚ) (c : Cell) :
    (m.inc s amount).left c = m.left c := by
  simp only [left, inc, total_append, total_increments_inc, total_cons, total_nil]
  ring

@[simp] theorem left_observe (m : WorkerMetrics) (s : Series) (value : ℚ) (c : Cell) :
    (m.observe s value).left c = m.left c := by
  simp only [left, observe, total_append, total_increments_observe, total_cons, total_nil]
  ring

@[simp] theorem left_incTerminal (m : WorkerMetrics) (outcome : String) (d : ℚ) (c : Cell) :
    (m.incTerminal outcome d).left c = m.left c := by
  unfold incTerminal
  cases terminalResult.get outcome with
  | none => rfl
  | some result => exact left_inc m _ _ c

theorem left_syncOutcome (m : WorkerMetrics) (e : String × ℤ) (c : Cell) :
    (m.syncOutcome e).left c = m.left c := by
  by_cases hd : delta m.lastOutcomes e.1 e.2 = 0
  · simp only [syncOutcome, hd]
    rfl
  · have hmade : (m.syncOutcome e).left c = ((m.inc (pageAttempts e.1)
        (delta m.lastOutcomes e.1 e.2)).incTerminal e.1 (delta m.lastOutcomes e.1 e.2)).left c := by
      simp only [syncOutcome, ne_eq, hd, not_false_iff, if_true]
      rfl
    rw [hmade, left_incTerminal, left_inc]

theorem left_syncReaper (m : WorkerMetrics) (e : String × ℤ) (c : Cell) :
    (m.syncReaper e).left c = m.left c := by
  by_cases hd : delta m.lastReaper e.1 e.2 = 0
  · simp only [syncReaper, hd]
    rfl
  · have hmade : (m.syncReaper e).left c =
        (m.inc (reaperActions e.1) (delta m.lastReaper e.1 e.2)).left c := by
      simp only [syncReaper, ne_eq, hd, not_false_iff, if_true]
      rfl
    rw [hmade, left_inc]

theorem left_sync (m : WorkerMetrics) (outcomes reaper : List (String × ℤ)) (c : Cell) :
    (m.sync outcomes reaper).left c = m.left c := by
  have hreaper : ∀ m : WorkerMetrics, (reaper.foldl syncReaper m).left c = m.left c := by
    intro m
    induction reaper generalizing m with
    | nil => rfl
    | cons e reaper ih => rw [List.foldl_cons, ih, left_syncReaper]
  have houtcomes : (outcomes.foldl syncOutcome m).left c = m.left c := by
    induction outcomes generalizing m with
    | nil => rfl
    | cons e outcomes ih => rw [List.foldl_cons, ih, left_syncOutcome]
  rw [sync, hreaper, houtcomes]

end WorkerMetrics

/-! ## Flushes -/

/-- A flush that waits for its pipeline: the commands, and what had been recorded when it began. -/
structure Flight where
  commands : List (Cell × ℚ)
  before : List (Cell × ℚ)

/-- A worker, its flush under way, and the hashes with what the other workers put there. -/
structure SinkState where
  metrics : WorkerMetrics
  flight : Option Flight
  store : Store
  others : List (Cell × ℚ)

/-- What can happen.  `begin` drains the registry; the pipeline is then `applied` or `failed`. -/
inductive SinkLabel where
  | inc (s : Series) (amount : ℚ)
  | observe (s : Series) (value : ℚ)
  | sync (outcomes reaper : List (String × ℤ))
  | begin
  | applied
  | failed
  | other (posts : List (Cell × ℚ))

namespace SinkState

def init : SinkState := ⟨.init, none, [], []⟩

/-- One step; `_maintenance` waits for a flush before the next.  A decrease is refused. -/
def step (st : SinkState) : SinkLabel → Option SinkState
  | .inc s amount => if 0 ≤ amount then some { st with metrics := st.metrics.inc s amount } else none
  | .observe s value => some { st with metrics := st.metrics.observe s value }
  | .sync outcomes reaper => some { st with metrics := st.metrics.sync outcomes reaper }
  | .begin =>
    match st.flight with
    | some _ => none
    | none => some { st with
        metrics := { st.metrics with registry := .empty }
        flight := some ⟨increments st.metrics.registry, st.metrics.recorded⟩ }
  | .applied => st.flight.map fun f =>
      { st with flight := none, store := st.store.addAll f.commands }
  | .failed => st.flight.map fun _ => { st with flight := none }
  | .other posts => some { st with
      store := st.store.addAll posts, others := st.others ++ posts }

/-- The value of a field in its hash; a field that is not there counts as zero. -/
def value (st : SinkState) (c : Cell) : ℚ := (st.store.get c).getD 0

/-- What the flush under way is about to add. -/
def carried (st : SinkState) (c : Cell) : ℚ := st.flight.elim 0 fun f => total f.commands c

end SinkState

/-- The worker and the hashes. -/
def sink : System SinkState SinkLabel := ⟨.init, SinkState.step⟩

/-- No flush fails that has something to send. -/
def harmless (st : SinkState) : SinkLabel → Bool
  | .failed => st.flight.all fun f => f.commands.isEmpty
  | _ => true

/-- The books: the hashes and the flush under way hold what left the registry, and with the
flush the hashes will hold what was recorded before it. -/
structure Books (st : SinkState) : Prop where
  nodup : st.store.keys.Nodup
  total_eq : ∀ c, total st.store c + st.carried c = total st.others c + st.metrics.left c
  before_eq : ∀ f, st.flight = some f → ∀ c,
    total st.store c + total f.commands c = total st.others c + total f.before c

theorem Books.init : Books SinkState.init where
  nodup := by simp [SinkState.init]
  total_eq c := by simp [SinkState.init, SinkState.carried, WorkerMetrics.left, WorkerMetrics.init]
  before_eq f hf := by simp [SinkState.init] at hf

/-- Recording keeps the books: nothing leaves the registry. -/
theorem Books.record {st : SinkState} (h : Books st) {m : WorkerMetrics}
    (hm : ∀ c, m.left c = st.metrics.left c) : Books { st with metrics := m } where
  nodup := h.nodup
  total_eq c := by
    rw [hm]
    exact h.total_eq c
  before_eq := h.before_eq

theorem Books.begin {st : SinkState} (h : Books st) (hf : st.flight = none) :
    Books { st with
      metrics := { st.metrics with registry := .empty }
      flight := some ⟨increments st.metrics.registry, st.metrics.recorded⟩ } := by
  have hstart : ∀ c, total st.store c + total (increments st.metrics.registry) c =
      total st.others c + total st.metrics.recorded c := by
    intro c
    have heq := h.total_eq c
    simp only [SinkState.carried, hf, Option.elim_none, WorkerMetrics.left] at heq
    linarith
  refine ⟨h.nodup, fun c => ?_, fun f heq c => ?_⟩
  · simp only [SinkState.carried, Option.elim_some, WorkerMetrics.left, increments_empty,
      total_nil, sub_zero]
    exact hstart c
  · obtain rfl := Option.some.inj heq
    exact hstart c

theorem Books.applied {st : SinkState} (h : Books st) {f : Flight} (hf : st.flight = some f) :
    Books { st with flight := none, store := st.store.addAll f.commands } where
  nodup := nodup_addAll h.nodup _
  total_eq c := by
    have heq := h.total_eq c
    simp only [SinkState.carried, hf, Option.elim_some] at heq
    simp only [SinkState.carried, Option.elim_none, total_addAll, add_zero]
    exact heq
  before_eq f hf := by simp at hf

theorem Books.failed {st : SinkState} (h : Books st) {f : Flight} (hf : st.flight = some f)
    (hnone : f.commands = []) : Books { st with flight := none } where
  nodup := h.nodup
  total_eq c := by
    have heq := h.total_eq c
    simp only [SinkState.carried, hf, Option.elim_some, hnone, total_nil] at heq
    exact heq
  before_eq f hf := by simp at hf

theorem Books.other {st : SinkState} (h : Books st) (posts : List (Cell × ℚ)) :
    Books { st with store := st.store.addAll posts, others := st.others ++ posts } where
  nodup := nodup_addAll h.nodup _
  total_eq c := by
    have heq := h.total_eq c
    simp only [SinkState.carried, total_addAll, total_append] at heq ⊢
    linarith
  before_eq f hf c := by
    have heq := h.before_eq f hf c
    simp only [total_addAll, total_append]
    linarith

theorem Books.step {st st' : SinkState} {l : SinkLabel} (h : Books st)
    (hallow : harmless st l = true) (hstep : st.step l = some st') : Books st' := by
  cases l with
  | inc s amount =>
    simp only [SinkState.step, Option.ite_none_right_eq_some, Option.some.injEq] at hstep
    obtain ⟨-, rfl⟩ := hstep
    exact h.record fun c => by simp
  | observe s value =>
    obtain rfl := Option.some.inj hstep
    exact h.record fun c => by simp
  | sync outcomes reaper =>
    obtain rfl := Option.some.inj hstep
    exact h.record fun c => st.metrics.left_sync outcomes reaper c
  | begin =>
    cases hf : st.flight with
    | some f => simp [SinkState.step, hf] at hstep
    | none =>
      simp only [SinkState.step, hf, Option.some.injEq] at hstep
      subst hstep
      exact h.begin hf
  | applied =>
    obtain ⟨f, hf, rfl⟩ := Option.map_eq_some_iff.1 hstep
    exact h.applied hf
  | failed =>
    obtain ⟨f, hf, rfl⟩ := Option.map_eq_some_iff.1 hstep
    simp only [harmless, hf, Option.all_some, List.isEmpty_iff] at hallow
    exact h.failed hf hallow
  | other posts =>
    obtain rfl := Option.some.inj hstep
    exact h.other posts

theorem books_reach {st : SinkState} (hs : sink.Reach harmless st) : Books st :=
  hs.invariant Books.init fun _ _ _ h hallow hstep => h.step hallow hstep

/-- **As long as no flush fails that had something to send, nothing is lost.**  When a pipeline
is applied, every field of the hashes holds what the other workers put there and all that this
worker had recorded before the flush. -/
theorem shipped {st st' : SinkState} {f : Flight} (hs : sink.Reach harmless st)
    (hf : st.flight = some f) (hstep : sink.step st .applied = some st') (c : Cell) :
    st'.value c = total st'.others c + total f.before c := by
  have hbooks := books_reach hs
  have hst' : st' = { st with flight := none, store := st.store.addAll f.commands } := by
    simpa [sink, SinkState.step, hf, eq_comm] using hstep
  subst hst'
  rw [SinkState.value, ← total_eq_get (nodup_addAll hbooks.nodup _), total_addAll]
  exact hbooks.before_eq f hf c

/-- A worker that retries a call. -/
def retries : Series :=
  labelled ⟨"orch_model_retries_total", by decide⟩ "endpoint" "vlm" (by decide)

/-- The worker after a retry, with its first flush under way. -/
def firstFlush : SinkState where
  metrics := { WorkerMetrics.init.inc retries 1 with registry := .empty }
  flight := some ⟨increments (WorkerMetrics.init.inc retries 1).registry,
    (WorkerMetrics.init.inc retries 1).recorded⟩
  store := []
  others := []

/-- A flush with nothing to send has failed before. -/
theorem reach_firstFlush : sink.Reach harmless firstFlush := by
  have hfailed : sink.Reach harmless ⟨WorkerMetrics.init, none, [], []⟩ :=
    (System.Reach.init.step (l := .begin) rfl rfl).step (l := .failed) rfl rfl
  have hinc : sink.step ⟨WorkerMetrics.init, none, [], []⟩ (.inc retries 1) =
      some ⟨WorkerMetrics.init.inc retries 1, none, [], []⟩ := by
    simp [sink, SinkState.step]
  exact (hfailed.step rfl hinc).step (l := .begin) rfl rfl

theorem shipped_firstFlush : ∃ st', sink.step firstFlush .applied = some st' ∧
    st'.value (counterCell retries) = total st'.others (counterCell retries) +
      total [(counterCell retries, 1)] (counterCell retries) :=
  ⟨_, rfl, shipped reach_firstFlush rfl rfl (counterCell retries)⟩

/-- The pipeline of the first flush fails.  The second flush is applied, and the retry is in no
field: the delta went with the first. -/
theorem first_flush_loses : ¬ ∀ (st st' : SinkState) (f : Flight) (c : Cell),
    sink.Reach System.anyStep st → st.flight = some f → sink.step st .applied = some st' →
      st'.value c = total st'.others c + total f.before c := by
  intro h
  obtain ⟨st, hs, hq⟩ := System.exists_of_runAll sink System.anyStep
    (fun st => st.flight.any fun f => (sink.step st .applied).any fun st' =>
      st'.value (counterCell retries) ≠
        total st'.others (counterCell retries) + total f.before (counterCell retries))
    [.inc retries 1, .begin, .failed, .begin] (by decide +kernel)
  obtain ⟨f, hf, hq⟩ := (Option.any_eq_true _ _).1 hq
  obtain ⟨st', hstep, hne⟩ := (Option.any_eq_true _ _).1 hq
  exact of_decide_eq_true hne (h st st' f (counterCell retries) hs hf hstep)

end Metrics
end OcrOrchestrator
