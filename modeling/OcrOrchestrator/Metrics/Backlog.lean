import OcrOrchestrator.Metrics.Exposition
import OcrOrchestrator.Queue.Read

/-!
# Two figures for the backlog

`_queue_families` of `app/api/metrics.py` and `PageQueue.depth` of `app/queue/streams.py` both
send a pipeline over the two task streams and pick the replies apart by position.  `depth`
takes the pending entries off the length, the scrape does not.

Both are taken of one state of the streams.  The lag is what Redis says it is.

## Main definitions

* `queueFamilies`, `depth` — the two aggregations.

## Main results

* `backlogs_agree_iff` — when they agree.
-/

namespace OcrOrchestrator
namespace Metrics

/-- `GROUP`. -/
def group : String := "workers"

/-- `LANES`, and `STREAMS`: both have the lead lane first. -/
def laneNames : List (Lane × String) := [(.lead, "lead"), (.main, "main")]

/-- What the pipelines read. -/
structure QueueState where
  streams : Lanes
  lag : Lane → Option ℕ
  poison : Option ℕ

/-- A reply in a pipeline. -/
inductive Row where
  /-- `XLEN`. -/
  | length (n : ℕ)
  /-- The summary of `XPENDING`, with its count. -/
  | pending (n : ℕ)
  /-- `XINFO GROUPS`: name and lag of each group. -/
  | groups (gs : List (String × Option ℕ))
  /-- `GET`. -/
  | counter (n : Option ℕ)

namespace Row

/-- `int(row or 0)`, of a number. -/
def number : Row → ℕ
  | .length n => n
  | .counter n => n.getD 0
  | _ => 0

/-- `row.get("pending", 0)` if the row is a dictionary, else 0. -/
def inFlight : Row → ℕ
  | .pending n => n
  | _ => 0

/-- The loop over the groups: the lag of ours, where `none` is NaN. -/
def groupLag : Row → Option ℕ
  | .groups gs => gs.foldl (fun lag g => if g.1 = group then g.2 else lag) (some 0)
  | _ => some 0

end Row

namespace QueueState

/-- The replies for one lane. -/
def xlen (s : QueueState) (lane : Lane) : Row := .length (s.streams lane).entries.length

def xpending (s : QueueState) (lane : Lane) : Row := .pending (s.streams lane).pel.length

def xinfoGroups (s : QueueState) (lane : Lane) : Row := .groups [(group, s.lag lane)]

/-- The pipeline of the scrape. -/
def scrapeRows (s : QueueState) : List Row :=
  (laneNames.flatMap fun l => [s.xlen l.1, s.xpending l.1, s.xinfoGroups l.1]) ++
    [.counter s.poison]

/-- The pipeline of `depth`. -/
def depthRows (s : QueueState) : List Row :=
  laneNames.flatMap fun l => [s.xlen l.1, s.xpending l.1]

end QueueState

/-- A sample of a queue family; the value `none` is NaN. -/
structure QueueSample where
  labels : Labels
  value : Option ℕ
deriving DecidableEq

structure QueueFamily where
  name : String
  kind : Kind
  help : String
  samples : List QueueSample
deriving DecidableEq

/-- A sample for each lane, from the row at a place among the three of the lane. -/
def laneSamples (rows : List Row) (place : ℕ) (value : Row → Option ℕ) : List QueueSample :=
  laneNames.zipIdx.map fun l =>
    ⟨[toLex ("lane", l.1.2)], (rows[l.2 * 3 + place]?).elim none value⟩

/-- `_queue_families`. -/
def queueFamilies (s : QueueState) : List QueueFamily :=
  let rows := s.scrapeRows
  [⟨"orch_queue_backlog", .gauge,
      "Entries published to a lane and not yet delivered to any consumer.",
      laneSamples rows 0 fun r => some r.number⟩,
    ⟨"orch_queue_pending", .gauge, "Entries delivered to a consumer and not yet acknowledged.",
      laneSamples rows 1 fun r => some r.inFlight⟩,
    ⟨"orch_queue_lag", .gauge, "Consumer-group lag as reported by Redis; NaN when uncomputable.",
      laneSamples rows 2 Row.groupLag⟩,
    ⟨"orch_poison_entries_total", .counter,
      "Stream entries quarantined because they could not be parsed.",
      [⟨[], rows.getLast?.map Row.number⟩]⟩]

/-- The result of `depth`. -/
structure Depth where
  streamLength : ℕ
  pending : ℕ
  backlog : ℕ
deriving DecidableEq

/-- `PageQueue.depth`. -/
def depth (s : QueueState) : Depth :=
  let rows := s.depthRows
  let sums := laneNames.zipIdx.foldl (fun acc l =>
    (acc.1 + (rows[l.2 * 2]?).elim 0 Row.number,
      acc.2 + (rows[l.2 * 2 + 1]?).elim 0 Row.inFlight)) (0, 0)
  ⟨sums.1, sums.2, sums.1 - sums.2⟩

/-- The samples of a family, summed. -/
def summed (families : List QueueFamily) (name : String) : ℕ :=
  ((families.filter fun f => f.name = name).flatMap QueueFamily.samples).foldl
    (fun acc x => acc + x.value.getD 0) 0

/-! ## What each adds up -/

/-- The entries of both lanes, and the deliveries of them that are pending. -/
def QueueState.length (s : QueueState) : ℕ :=
  (s.streams .lead).entries.length + (s.streams .main).entries.length

def QueueState.pending (s : QueueState) : ℕ :=
  (s.streams .lead).pel.length + (s.streams .main).pel.length

theorem depth_eq (s : QueueState) : depth s = ⟨s.length, s.pending, s.length - s.pending⟩ := by
  simp [depth, QueueState.depthRows, laneNames, QueueState.xlen, QueueState.xpending, Row.number,
    Row.inFlight, QueueState.length, QueueState.pending]

theorem summed_backlog (s : QueueState) :
    summed (queueFamilies s) "orch_queue_backlog" = s.length := by
  simp [summed, queueFamilies, laneSamples, QueueState.scrapeRows, laneNames, QueueState.xlen,
    Row.number, QueueState.length]

theorem summed_pending (s : QueueState) :
    summed (queueFamilies s) "orch_queue_pending" = s.pending := by
  simp [summed, queueFamilies, laneSamples, QueueState.scrapeRows, laneNames,
    QueueState.xpending, Row.inFlight, QueueState.pending]

/-- **The scrape and `depth` agree just when nothing is pending or nothing is queued.**  The
pending counts always agree; the backlog of the scrape is the length of the streams. -/
theorem backlogs_agree_iff (s : QueueState) :
    (summed (queueFamilies s) "orch_queue_backlog" = (depth s).backlog ∧
      summed (queueFamilies s) "orch_queue_pending" = (depth s).pending) ↔
      (∀ lane, (s.streams lane).pel = []) ∨ ∀ lane, (s.streams lane).entries = [] := by
  have hpel : (∀ lane, (s.streams lane).pel = []) ↔ s.pending = 0 := by
    rw [QueueState.pending, Nat.add_eq_zero_iff, List.length_eq_zero_iff, List.length_eq_zero_iff]
    exact ⟨fun h => ⟨h .lead, h .main⟩, fun h lane => by cases lane <;> simp [h]⟩
  have hentries : (∀ lane, (s.streams lane).entries = []) ↔ s.length = 0 := by
    rw [QueueState.length, Nat.add_eq_zero_iff, List.length_eq_zero_iff, List.length_eq_zero_iff]
    exact ⟨fun h => ⟨h .lead, h .main⟩, fun h lane => by cases lane <;> simp [h]⟩
  rw [summed_backlog, summed_pending, depth_eq, hpel, hentries]
  simp only [and_true]
  omega

/-- The first page of a job is published, and delivered to a worker that has not acknowledged
it. -/
def firstDelivered : TaskStream :=
  let added := TaskStream.empty.xadd 5
    ⟨some 1, some (.int 0), some (.int 5), none, none, none⟩
  (added.2.deliverNext 7 6).elim added.2 Prod.snd

def oneDelivered : QueueState where
  streams := Function.update (fun _ => .empty) .lead firstDelivered
  lag _ := some 0
  poison := none

/-- The scrape still counts it as backlog. -/
theorem delivered_in_backlog : ¬ ∀ s : QueueState,
    summed (queueFamilies s) "orch_queue_backlog" = (depth s).backlog ∧
      summed (queueFamilies s) "orch_queue_pending" = (depth s).pending := by
  intro h
  have hbacklog := (h oneDelivered).1
  revert hbacklog
  decide

end Metrics
end OcrOrchestrator
