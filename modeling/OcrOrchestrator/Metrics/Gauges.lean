import OcrOrchestrator.Lib.System
import OcrOrchestrator.Metrics.Exposition
import Mathlib.Data.List.Dedup
import Mathlib.Data.Rat.Floor
import Mathlib.Data.Set.List

/-!
# The gauges of the workers

Each worker writes its gauges, when it flushes, to a key of its own, and a heartbeat to another;
both expire.  A scrape adds up the gauges of the keys it finds and counts the heartbeats.  The two
kinds of key share a prefix and are told apart by what follows it, so a worker whose own name
begins like a heartbeat key would be taken for one.

The reports are kept in the state, the last first: who flushed what, and when.  What a heartbeat
says is left out, nobody reads it.

## Main definitions

* `WorkerGauges` — the gauges of a process.
* `gaugeKey`, `aliveKey`, `workerKeys` — the keys of a worker, and how a scrape tells them apart.
* `Board` — the processes and their keys, with a clock.
* `Board.Reporting` — whose last report is recent enough.

## Main results

* `filter_gaugeFamilies` — the family of a gauge among the families of gauges.
* `Board.gauges_of_reach` — a scrape shows what the workers reported last.
-/

namespace OcrOrchestrator
namespace Metrics

open Lib

/-! ## The gauges of a process -/

/-- `Gauge`. -/
abbrev Gauge := Dict LabelSet ℚ

/-- `Gauge.set`. -/
def Gauge.set (g : Gauge) (key : LabelSet) (value : ℚ) : Gauge := g.update key fun _ => value

def workerLabel (worker : String) : LabelSet := ⟨[toLex ("worker", worker)], by simp, by simp⟩

def workerInFlight : MetricName := ⟨"orch_worker_in_flight", by decide⟩

def workerPrefetchLimit : MetricName := ⟨"orch_worker_prefetch_limit", by decide⟩

/-- The gauges of `WorkerMetrics`. -/
structure WorkerGauges where
  inFlight : Gauge
  prefetchLimitGauge : Gauge

namespace WorkerGauges

/-- `__init__`. -/
def init (worker : String) (prefetchLimit : ℚ) : WorkerGauges :=
  ⟨[], Gauge.set [] (workerLabel worker) prefetchLimit⟩

/-- The end of `sync`. -/
def sync (g : WorkerGauges) (worker : String) (inFlight : ℚ) : WorkerGauges :=
  { g with inFlight := g.inFlight.set (workerLabel worker) inFlight }

/-- `gauge_values`, in the order of the registry. -/
def values (g : WorkerGauges) : Raw :=
  g.inFlight.map (fun e => (encodeField workerInFlight e.1.labels, e.2)) ++
    g.prefetchLimitGauge.map fun e => (encodeField workerPrefetchLimit e.1.labels, e.2)

end WorkerGauges

/-! ## The keys -/

/-- What a worker flushed. -/
structure Report where
  worker : String
  time : ℕ
  inFlight : ℚ
  prefetchLimit : ℚ
deriving DecidableEq

/-- What a key holds. -/
inductive Stored where
  | hash (raw : Raw)
  | text
deriving DecidableEq

/-- `GAUGE_KEY_PREFIX`. -/
def gaugeKeyPrefix : String := "metrics:gauges"

def gaugeKey (worker : String) : String := gaugeKeyPrefix ++ ":" ++ worker

def aliveKey (worker : String) : String := gaugeKeyPrefix ++ ":alive:" ++ worker

/-- `startswith`. -/
def startsWith (key start : String) : Bool := decide (start.toList <+: key.toList)

/-- `worker_keys`, of the keys of a scan. -/
def workerKeys (scan : List String) : List String :=
  scan.filter fun key => !startsWith key (gaugeKeyPrefix ++ ":alive:")

/-- `HSET` with a mapping. -/
def setFields (raw values : Raw) : Raw := values.foldl (fun h e => Dict.update h e.1 fun _ => e.2) raw

structure Board where
  now : ℕ
  processes : String → Option WorkerGauges
  /-- What each key holds, and when it expires. -/
  keys : String → Option (Stored × ℕ)
  reports : List Report

/-- What can happen. -/
inductive BoardEvent where
  | tick (ms : ℕ)
  | start (worker : String) (prefetchLimit : ℚ)
  | stop (worker : String)
  | flush (worker : String) (inFlight : ℚ)

/-- `int(max(1.0, gauge_ttl_s))`, in milliseconds. -/
def gaugeTtlMs (gaugeTtlS : ℚ) : ℕ := 1000 * ⌊max 1 gaugeTtlS⌋.toNat

namespace Board

/-- What a command finds under a key. -/
def live (b : Board) (key : String) : Option Stored :=
  (b.keys key).bind fun k => if b.now ≤ k.2 then some k.1 else none

/-- `HGETALL`, which is refused of a text. -/
def hgetall (b : Board) (key : String) : Option Raw :=
  match b.live key with
  | some (.hash raw) => some raw
  | some .text => none
  | none => some []

/-- `HSET` with a mapping and `EXPIRE`.  A text is left as it is. -/
def hset (b : Board) (key : String) (values : Raw) (expiresAt : ℕ) : Board :=
  let stored := match b.hgetall key with
    | some raw => .hash (setFields raw values)
    | none => .text
  { b with keys := Function.update b.keys key (some (stored, expiresAt)) }

/-- `SET` with `EX`. -/
def set (b : Board) (key : String) (expiresAt : ℕ) : Board :=
  { b with keys := Function.update b.keys key (some (.text, expiresAt)) }

/-- The pipeline of a flush, as far as gauges go. -/
def ship (b : Board) (ttlMs : ℕ) (worker : String) (values : Raw) : Board :=
  let b := if values = [] then b else b.hset (gaugeKey worker) values (b.now + ttlMs)
  b.set (aliveKey worker) (b.now + ttlMs)

def step (ttlMs : ℕ) (b : Board) : BoardEvent → Option Board
  | .tick ms => some { b with now := b.now + ms }
  | .start worker prefetchLimit => some { b with
      processes := Function.update b.processes worker (some (.init worker prefetchLimit)) }
  | .stop worker => some { b with processes := Function.update b.processes worker none }
  | .flush worker inFlight => (b.processes worker).map fun g =>
      let g := g.sync worker inFlight
      { b.ship ttlMs worker g.values with
        processes := Function.update b.processes worker (some g)
        reports := ⟨worker, b.now, inFlight,
          (g.prefetchLimitGauge.get (workerLabel worker)).getD 0⟩ :: b.reports }

/-- Nobody has started. -/
def system (ttlMs : ℕ) : System Board BoardEvent :=
  ⟨⟨0, fun _ => none, fun _ => none, []⟩, step ttlMs⟩

def lastReport (b : Board) (worker : String) : Option Report :=
  b.reports.find? fun r => r.worker = worker

/-- The last report of a worker is recent enough. -/
def Reporting (b : Board) (ttlMs : ℕ) (worker : String) : Prop :=
  ∃ r, b.lastReport worker = some r ∧ b.now ≤ r.time + ttlMs

/-- `SCAN` with a pattern that ends in an asterisk: the keys there are, each once or more often. -/
def Scan (b : Board) (start : String) (scan : List String) : Prop :=
  ∀ key, key ∈ scan ↔ startsWith key start ∧ (b.live key).isSome

/-- `_worker_families`, of the keys of a scan. -/
def workerFamilies (b : Board) (countersRaw bucketRaw sumRaw : Raw) (scan : List String) :
    Option (List MetricFamily) := do
  let gaugesRaw ← (workerKeys scan).mapM b.hgetall
  Metrics.workerFamilies countersRaw bucketRaw sumRaw gaugesRaw

/-- No name of a worker begins like the rest of a heartbeat key. -/
def plainName (worker : String) : Bool := !startsWith worker "alive:"

def plainNames (_ : Board) : BoardEvent → Bool
  | .start worker _ => plainName worker
  | _ => true

end Board

/-- `_worker_liveness_family`, of the keys of a scan. -/
def workerLivenessFamily (scan : List String) : MetricFamily :=
  ⟨"orch_workers_reporting", .gauge,
    "Workers whose metrics flush is recent enough to still be counted.",
    [⟨"orch_workers_reporting", [], scan.length⟩]⟩

/-! ## The family of a gauge -/

/-- Among the items of a list of arguments, an argument's come to as many times its value as it
occurs. -/
theorem total_map {X K M : Type} [DecidableEq X] [DecidableEq K] [AddCommMonoid M] {g : X → K}
    (hg : Function.Injective g) (v : X → M) (xs : List X) (x : X) :
    total (xs.map fun x => (g x, v x)) (g x) = xs.count x • v x := by
  induction xs with
  | nil => simp
  | cons y xs ih =>
    rw [List.map_cons, total_cons, ih, List.count_cons]
    by_cases h : y = x
    · simp [h, succ_nsmul']
    · simp [h, hg.eq_iff]

/-- The sums by labels. -/
theorem perm_addAll {X K M : Type} [DecidableEq X] [DecidableEq K] [AddCommMonoid M] {g : X → K}
    (hg : Function.Injective g) (v : X → M) (xs : List X) :
    (Dict.addAll [] (xs.map fun x => (g x, v x))).Perm
      (xs.dedup.map fun x => (g x, xs.count x • v x)) := by
  have hkeys : (Dict.addAll [] (xs.map fun x => (g x, v x))).keys.Nodup :=
    nodup_addAll (by simp) _
  have hnodup : (xs.dedup.map fun x => (g x, xs.count x • v x)).Nodup :=
    (List.nodup_dedup xs).map fun x y h => hg (Prod.ext_iff.mp h).1
  refine (List.perm_ext_iff_of_nodup hkeys.of_map hnodup).mpr fun e => ?_
  have htotal : total (Dict.addAll [] (xs.map fun x => (g x, v x))) e.1 =
      total (xs.map fun x => (g x, v x)) e.1 := by
    rw [total_addAll, total_nil, zero_add]
  have hmem : e.1 ∈ (Dict.addAll [] (xs.map fun x => (g x, v x))).keys ↔ ∃ x ∈ xs, g x = e.1 := by
    rw [mem_keys_addAll]
    simp
  have hget : e ∈ Dict.addAll [] (xs.map fun x => (g x, v x)) ↔
      (Dict.addAll [] (xs.map fun x => (g x, v x))).get e.1 = some e.2 := by
    refine ⟨Dict.get_eq_of_mem hkeys, fun h => ?_⟩
    obtain ⟨e', he', heq⟩ := Option.map_eq_some_iff.mp h
    have hkey : e'.1 = e.1 := by simpa using List.find?_some he'
    exact Prod.ext hkey heq ▸ List.mem_of_find?_eq_some he'
  rw [hget]
  simp only [List.mem_map, List.mem_dedup]
  constructor
  · intro h
    obtain ⟨x, hx, hxe⟩ := hmem.mp (Dict.get_isSome_iff.mp (by simp [h]))
    refine ⟨x, hx, Prod.ext hxe ?_⟩
    rw [total_eq_get hkeys, h, Option.getD_some, ← hxe, total_map hg] at htotal
    exact htotal.symm
  · rintro ⟨x, hx, rfl⟩
    obtain ⟨a, ha⟩ := Option.isSome_iff_exists.mp (Dict.get_isSome_iff.mpr (hmem.mpr ⟨x, hx, rfl⟩))
    rw [total_eq_get hkeys, ha, Option.getD_some, total_map hg] at htotal
    rw [ha, htotal]

/-- There is one family for a gauge that has items, and no other. -/
theorem filter_gaugeFamilies (items : List (Series × ℚ)) (name : MetricName) :
    (gaugeFamilies (items.map plainItem)).filter
      (fun f => f.kind = .gauge ∧ f.name = name.name) =
      if ∃ e ∈ items, e.1.1 = name then
        [⟨name.name, .gauge, (workerGaugeHelp.get name.name).getD "Worker-sourced gauge, summed.",
          (Dict.addAll [] ((items.filter fun e => e.1.1.name = name.name).map
            fun e => (e.1.2.labels, e.2))).sortedItems.map fun e => ⟨name.name, e.1, e.2⟩⟩]
      else [] := by
  let add (e : Series × ℚ) (values : Dict Labels ℚ) : Dict Labels ℚ :=
    values.update e.1.2.labels fun v => v.getD 0 + e.2
  let grouped : Dict String (Dict Labels ℚ) := items.foldl
    (fun d e => d.update e.1.1.name fun o => add e (o.getD [])) []
  have hfamilies : gaugeFamilies (items.map plainItem) = grouped.sortedItems.map fun g =>
      ⟨g.1, .gauge, (workerGaugeHelp.get g.1).getD "Worker-sourced gauge, summed.",
        g.2.sortedItems.map fun e => ⟨g.1, e.1, e.2⟩⟩ := by
    simp only [gaugeFamilies, List.foldl_map, plainItem, sortLabels_labels, grouped, add]
  have hnodup : grouped.keys.Nodup := Dict.nodup_foldl_update _ _ _ (by simp)
  have hmem : name.name ∈ grouped.keys ↔ ∃ e ∈ items, e.1.1 = name := by
    rw [Dict.mem_keys_foldl_update]
    simp only [Dict.keys_nil, List.not_mem_nil, false_or]
    exact exists_congr fun e => and_congr_right fun _ =>
      ⟨fun h => MetricName.ext h, fun h => by rw [h]⟩
  have hvalues := Dict.getD_foldl_update [] (fun e : Series × ℚ => e.1.1.name) add items [] name.name
  have hadd : (grouped.get name.name).getD [] = Dict.addAll []
      ((items.filter fun e => e.1.1.name = name.name).map fun e => (e.1.2.labels, e.2)) := by
    rw [hvalues, Dict.addAll, List.foldl_map]
    rfl
  have hitems := Dict.filter_sortedItems hnodup name.name
  rw [hfamilies, List.filter_map]
  simp only [Function.comp_def, true_and, hitems]
  cases hget : grouped.get name.name with
  | none =>
    rw [Dict.get_eq_none_iff, hmem] at hget
    simp [hget]
  | some values =>
    have hsome : name.name ∈ grouped.keys := Dict.get_isSome_iff.mp (by simp [hget])
    rw [hget, Option.getD_some] at hadd
    rw [hmem] at hsome
    simp [hsome, hadd]

/-! ## The keys of a worker -/

theorem startsWith_iff {key start : String} :
    startsWith key start = true ↔ ∃ rest : String, key = start ++ rest := by
  rw [startsWith, decide_eq_true_iff]
  constructor
  · rintro ⟨rest, hrest⟩
    exact ⟨String.ofList rest, String.toList_inj.mp (by simp [hrest])⟩
  · rintro ⟨rest, rfl⟩
    exact ⟨rest.toList, by simp⟩

theorem gaugeKey_alive (rest : String) : gaugeKey ("alive:" ++ rest) = aliveKey rest := by
  have hsplit : gaugeKeyPrefix ++ ":alive:" = gaugeKeyPrefix ++ ":" ++ "alive:" := by
    rw [String.append_assoc]
    rfl
  simp only [gaugeKey, aliveKey, hsplit, String.append_assoc]

theorem gaugeKey_inj {w w' : String} : gaugeKey w = gaugeKey w' ↔ w = w' := String.append_right_inj _

theorem aliveKey_inj {w w' : String} : aliveKey w = aliveKey w' ↔ w = w' := String.append_right_inj _

theorem startsWith_gaugeKey (worker : String) :
    startsWith (gaugeKey worker) (gaugeKeyPrefix ++ ":alive:") = startsWith worker "alive:" := by
  rw [Bool.eq_iff_iff, startsWith_iff, startsWith_iff]
  refine exists_congr fun rest => ?_
  change gaugeKey worker = aliveKey rest ↔ _
  rw [← gaugeKey_alive, gaugeKey_inj]

theorem startsWith_aliveKey (worker : String) :
    startsWith (aliveKey worker) (gaugeKeyPrefix ++ ":alive:") = true :=
  startsWith_iff.mpr ⟨worker, rfl⟩

/-- The gauge key of a plain name is nobody's heartbeat. -/
theorem gaugeKey_ne_aliveKey {w : String} (hw : Board.plainName w = true) (w' : String) :
    gaugeKey w ≠ aliveKey w' := by
  intro heq
  have halive := startsWith_aliveKey w'
  rw [← heq, startsWith_gaugeKey] at halive
  simp [Board.plainName, halive] at hw

/-! ## What is under the keys -/

namespace Report

/-- The gauges that a report is about. -/
def items (r : Report) : List (Series × ℚ) :=
  [((workerInFlight, workerLabel r.worker), r.inFlight),
    ((workerPrefetchLimit, workerLabel r.worker), r.prefetchLimit)]

end Report

namespace WorkerGauges

/-- The gauges of a process have one value each, or none before the first flush. -/
structure Of (g : WorkerGauges) (worker : String) (prefetchLimit : ℚ) : Prop where
  inFlight : g.inFlight = [] ∨ ∃ value, g.inFlight = [(workerLabel worker, value)]
  prefetchLimitGauge : g.prefetchLimitGauge = [(workerLabel worker, prefetchLimit)]

theorem of_init (worker : String) (prefetchLimit : ℚ) :
    (init worker prefetchLimit).Of worker prefetchLimit := ⟨.inl rfl, rfl⟩

variable {g : WorkerGauges} {worker : String} {prefetchLimit : ℚ}

theorem Of.inFlight_sync (h : g.Of worker prefetchLimit) (value : ℚ) :
    (g.sync worker value).inFlight = [(workerLabel worker, value)] := by
  rcases h.inFlight with hnone | ⟨old, hold⟩
  · rw [sync, hnone]
    rfl
  · rw [sync, hold]
    simp [Gauge.set, Dict.update]

theorem Of.sync (h : g.Of worker prefetchLimit) (value : ℚ) :
    (g.sync worker value).Of worker prefetchLimit :=
  ⟨.inr ⟨value, h.inFlight_sync value⟩, h.prefetchLimitGauge⟩

theorem Of.values_sync (h : g.Of worker prefetchLimit) (time : ℕ) (value : ℚ) :
    (g.sync worker value).values =
      (Report.items ⟨worker, time, value, prefetchLimit⟩).map plainRaw := by
  have hlimit : (g.sync worker value).prefetchLimitGauge = [(workerLabel worker, prefetchLimit)] :=
    h.prefetchLimitGauge
  rw [values, h.inFlight_sync, hlimit]
  rfl

end WorkerGauges

namespace Board

/-- The two fields of a worker differ. -/
theorem field_ne (worker : String) :
    encodeField workerInFlight (workerLabel worker).labels ≠
      encodeField workerPrefetchLimit (workerLabel worker).labels := by
  intro h
  have hseries : ((workerInFlight, workerLabel worker) : Series) =
      (workerPrefetchLimit, workerLabel worker) := sumCell_inj.mp (Prod.ext rfl h)
  have hname : workerInFlight = workerPrefetchLimit := (Prod.ext_iff.mp hseries).1
  exact absurd hname (by decide)

/-- A report replaces an older one of the same worker. -/
theorem setFields_items {raw : Raw} {r : Report}
    (h : raw = [] ∨ ∃ old : Report, old.worker = r.worker ∧ raw = old.items.map plainRaw) :
    setFields raw (r.items.map plainRaw) = r.items.map plainRaw := by
  have hne := field_ne r.worker
  rcases h with rfl | ⟨old, hworker, rfl⟩
  · simp [setFields, Report.items, plainRaw, Dict.update, hne]
  · simp [setFields, Report.items, plainRaw, Dict.update, hne, hworker]

/-- The keys of a worker are those of its last report. -/
structure Posted (ttlMs : ℕ) (b : Board) : Prop where
  process : ∀ worker g, b.processes worker = some g →
    plainName worker = true ∧ ∃ prefetchLimit, g.Of worker prefetchLimit
  plain : ∀ worker r, b.lastReport worker = some r → plainName worker = true
  gauges : ∀ worker, plainName worker = true → b.keys (gaugeKey worker) =
    (b.lastReport worker).map fun r => (.hash (r.items.map plainRaw), r.time + ttlMs)
  alive : ∀ worker, b.keys (aliveKey worker) =
    (b.lastReport worker).map fun r => (.text, r.time + ttlMs)

theorem worker_lastReport {b : Board} {worker : String} {r : Report}
    (h : b.lastReport worker = some r) : r.worker = worker := by
  simpa using List.find?_some h

/-- The processes after one of them started, stopped or went on. -/
theorem of_update {processes : String → Option WorkerGauges} {worker : String}
    {process : Option WorkerGauges}
    (h : ∀ w g, processes w = some g → plainName w = true ∧ ∃ limit, g.Of w limit)
    (hprocess : ∀ g, process = some g → plainName worker = true ∧ ∃ limit, g.Of worker limit) :
    ∀ w g, Function.update processes worker process w = some g →
      plainName w = true ∧ ∃ limit, g.Of w limit := by
  intro w g hg
  by_cases hw : w = worker
  · subst hw
    rw [Function.update_self] at hg
    exact hprocess g hg
  · rw [Function.update_of_ne hw] at hg
    exact h w g hg

/-- What a worker finds under its gauge key is what it or its predecessor left there. -/
theorem Posted.hgetall_own {ttlMs : ℕ} {b : Board} (h : b.Posted ttlMs) {worker : String}
    (hplain : plainName worker = true) :
    ∃ raw, b.hgetall (gaugeKey worker) = some raw ∧
      (raw = [] ∨ ∃ old : Report, old.worker = worker ∧ raw = old.items.map plainRaw) := by
  rw [hgetall, live, h.gauges worker hplain]
  cases hlast : b.lastReport worker with
  | none => exact ⟨[], rfl, .inl rfl⟩
  | some r =>
    simp only [Option.map_some, Option.bind_some]
    by_cases hnow : b.now ≤ r.time + ttlMs
    · rw [if_pos hnow]
      exact ⟨_, rfl, .inr ⟨r, worker_lastReport hlast, rfl⟩⟩
    · rw [if_neg hnow]
      exact ⟨[], rfl, .inl rfl⟩

/-- A flush replaces what is under the two keys of the worker. -/
theorem Posted.ship {ttlMs : ℕ} {b : Board} (h : b.Posted ttlMs) {r : Report}
    (hplain : plainName r.worker = true) :
    (b.ship ttlMs r.worker (r.items.map plainRaw)).keys =
      Function.update (Function.update b.keys (gaugeKey r.worker)
        (some (.hash (r.items.map plainRaw), b.now + ttlMs)))
        (aliveKey r.worker) (some (.text, b.now + ttlMs)) := by
  obtain ⟨raw, hraw, hold⟩ := h.hgetall_own hplain
  have hne : r.items.map plainRaw ≠ [] := List.cons_ne_nil _ _
  simp only [Board.ship, if_neg hne, hset, set, hraw, setFields_items hold]

theorem Posted.step {ttlMs : ℕ} {b b' : Board} {e : BoardEvent} (h : b.Posted ttlMs)
    (hnames : plainNames b e = true) (hstep : b.step ttlMs e = some b') : b'.Posted ttlMs := by
  cases e with
  | tick ms =>
    obtain rfl := Option.some.inj hstep
    exact ⟨h.process, h.plain, h.gauges, h.alive⟩
  | start worker prefetchLimit =>
    obtain rfl := Option.some.inj hstep
    refine ⟨of_update h.process fun g hg => ?_, h.plain, h.gauges, h.alive⟩
    obtain rfl := Option.some.inj hg
    exact ⟨hnames, prefetchLimit, WorkerGauges.of_init worker prefetchLimit⟩
  | stop worker =>
    obtain rfl := Option.some.inj hstep
    exact ⟨of_update h.process (by simp), h.plain, h.gauges, h.alive⟩
  | flush worker inFlight =>
    obtain ⟨g, hg, rfl⟩ := Option.map_eq_some_iff.mp hstep
    obtain ⟨hplain, prefetchLimit, hof⟩ := h.process worker g hg
    have hlimit : ((g.sync worker inFlight).prefetchLimitGauge.get (workerLabel worker)).getD 0 =
        prefetchLimit := by
      simp [(hof.sync inFlight).prefetchLimitGauge, Dict.get]
    dsimp only
    rw [hof.values_sync b.now inFlight, hlimit]
    have hkeys := h.ship (r := ⟨worker, b.now, inFlight, prefetchLimit⟩) hplain
    have hlast : ∀ w, (⟨worker, b.now, inFlight, prefetchLimit⟩ :: b.reports).find?
        (fun r => r.worker = w) =
        if worker = w then some ⟨worker, b.now, inFlight, prefetchLimit⟩ else b.lastReport w := by
      intro w
      rw [List.find?_cons]
      by_cases hw : worker = w <;> simp [hw, lastReport]
    refine ⟨of_update h.process fun g' hg' => ?_, fun w r hr => ?_, fun w hw => ?_, fun w => ?_⟩
    · obtain rfl := Option.some.inj hg'
      exact ⟨hplain, prefetchLimit, hof.sync inFlight⟩
    · rw [lastReport, hlast] at hr
      by_cases hw : worker = w
      · rwa [← hw]
      · rw [if_neg hw] at hr
        exact h.plain w r hr
    · rw [lastReport, hlast]
      dsimp only
      rw [hkeys, Function.update_of_ne (gaugeKey_ne_aliveKey hw worker)]
      by_cases heq : worker = w
      · subst heq
        rw [Function.update_self, if_pos rfl]
        rfl
      · rw [Function.update_of_ne (fun hkey => heq (gaugeKey_inj.mp hkey).symm), if_neg heq]
        exact h.gauges w hw
    · rw [lastReport, hlast]
      dsimp only
      rw [hkeys]
      by_cases heq : worker = w
      · subst heq
        rw [Function.update_self, if_pos rfl]
        rfl
      · rw [Function.update_of_ne (fun hkey => heq (aliveKey_inj.mp hkey).symm),
          Function.update_of_ne (gaugeKey_ne_aliveKey hplain w).symm, if_neg heq]
        exact h.alive w

theorem Posted.of_reach {ttlMs : ℕ} {b : Board} (hb : (system ttlMs).Reach plainNames b) :
    b.Posted ttlMs :=
  hb.invariant ⟨by simp [system], by simp [system, lastReport], fun _ _ => rfl, fun _ => rfl⟩
    fun _ _ _ h hnames hstep => h.step hnames hstep

/-! ## What a scrape shows -/

variable {ttlMs : ℕ} {b : Board}

theorem Posted.isSome_gaugeKey (h : b.Posted ttlMs) {w : String} (hw : plainName w = true) :
    (b.live (gaugeKey w)).isSome = true ↔ b.Reporting ttlMs w := by
  rw [live, h.gauges w hw, Reporting]
  cases b.lastReport w <;> simp

theorem Posted.isSome_aliveKey (h : b.Posted ttlMs) (w : String) :
    (b.live (aliveKey w)).isSome = true ↔ b.Reporting ttlMs w := by
  rw [live, h.alive, Reporting]
  cases b.lastReport w <;> simp

/-- What the scans find, if these workers report. -/
theorem Posted.scans (h : b.Posted ttlMs) {workers : List String}
    (hworkers : ∀ w, w ∈ workers ↔ b.Reporting ttlMs w) :
    b.Scan (gaugeKeyPrefix ++ ":") (workers.map gaugeKey ++ workers.map aliveKey) ∧
      b.Scan (gaugeKeyPrefix ++ ":alive:") (workers.map aliveKey) := by
  have hbeats : ∀ key, key ∈ workers.map aliveKey ↔
      ∃ w, key = aliveKey w ∧ (b.live key).isSome = true := by
    intro key
    rw [List.mem_map]
    constructor
    · rintro ⟨w, hw, rfl⟩
      exact ⟨w, rfl, (h.isSome_aliveKey w).mpr ((hworkers w).mp hw)⟩
    · rintro ⟨w, rfl, hlive⟩
      exact ⟨w, (hworkers w).mpr ((h.isSome_aliveKey w).mp hlive), rfl⟩
  refine ⟨fun key => ?_, fun key => ?_⟩
  · rw [List.mem_append, hbeats, List.mem_map, startsWith_iff]
    constructor
    · rintro (⟨w, hw, rfl⟩ | ⟨w, rfl, hlive⟩)
      · obtain ⟨r, hlast, hnow⟩ := (hworkers w).mp hw
        exact ⟨⟨w, rfl⟩, (h.isSome_gaugeKey (h.plain w r hlast)).mpr ⟨r, hlast, hnow⟩⟩
      · exact ⟨⟨"alive:" ++ w, (gaugeKey_alive w).symm⟩, hlive⟩
    · rintro ⟨⟨w, rfl⟩, hlive⟩
      cases hplain : plainName w with
      | true => exact .inl ⟨w, (hworkers w).mpr ((h.isSome_gaugeKey hplain).mp hlive), rfl⟩
      | false =>
        obtain ⟨rest, rfl⟩ := startsWith_iff.mp (by simpa [plainName] using hplain)
        exact .inr ⟨rest, gaugeKey_alive rest, hlive⟩
  · rw [hbeats, startsWith_iff, ← exists_and_right]
    rfl

/-- The keys of gauges that a scan finds are those of the workers that report. -/
theorem Posted.workerKeys (h : b.Posted ttlMs) {scan : List String}
    (hscan : b.Scan (gaugeKeyPrefix ++ ":") scan) :
    ∃ workers : List String, Metrics.workerKeys scan = workers.map gaugeKey ∧
      ∀ w, w ∈ workers ↔ b.Reporting ttlMs w := by
  obtain ⟨workers, hworkers⟩ : Metrics.workerKeys scan ∈ Set.range (List.map gaugeKey) := by
    rw [Set.range_list_map]
    intro key hkey
    obtain ⟨hmem, -⟩ := List.mem_filter.mp hkey
    obtain ⟨w, rfl⟩ := startsWith_iff.mp ((hscan key).mp hmem).1
    exact ⟨w, rfl⟩
  refine ⟨workers, hworkers.symm, fun w => ?_⟩
  have hmem : w ∈ workers ↔ gaugeKey w ∈ Metrics.workerKeys scan := by
    rw [← hworkers, List.mem_map]
    exact ⟨fun hw => ⟨w, hw, rfl⟩, fun ⟨w', hw', heq⟩ => gaugeKey_inj.mp heq ▸ hw'⟩
  have hstart : startsWith (gaugeKey w) (gaugeKeyPrefix ++ ":") = true :=
    startsWith_iff.mpr ⟨w, rfl⟩
  rw [hmem, Metrics.workerKeys, List.mem_filter, hscan, startsWith_gaugeKey]
  change _ ∧ plainName w = true ↔ _
  constructor
  · rintro ⟨⟨-, hlive⟩, hplain⟩
    exact (h.isSome_gaugeKey hplain).mp hlive
  · rintro ⟨r, hlast, hnow⟩
    have hplain := h.plain w r hlast
    exact ⟨⟨hstart, (h.isSome_gaugeKey hplain).mpr ⟨r, hlast, hnow⟩⟩, hplain⟩

/-- The heartbeats that a scan finds are those of the workers that report. -/
theorem Posted.aliveKeys (h : b.Posted ttlMs) {beats : List String}
    (hbeats : b.Scan (gaugeKeyPrefix ++ ":alive:") beats) :
    ∃ workers : List String, beats = workers.map aliveKey ∧
      ∀ w, w ∈ workers ↔ b.Reporting ttlMs w := by
  obtain ⟨workers, hworkers⟩ : beats ∈ Set.range (List.map aliveKey) := by
    rw [Set.range_list_map]
    intro key hkey
    obtain ⟨w, rfl⟩ := startsWith_iff.mp ((hbeats key).mp hkey).1
    exact ⟨w, rfl⟩
  refine ⟨workers, hworkers.symm, fun w => ?_⟩
  have hmem : w ∈ workers ↔ aliveKey w ∈ beats := by
    rw [← hworkers, List.mem_map]
    exact ⟨fun hw => ⟨w, hw, rfl⟩, fun ⟨w', hw', heq⟩ => aliveKey_inj.mp heq ▸ hw'⟩
  rw [hmem, hbeats, startsWith_aliveKey, h.isSome_aliveKey]
  simp

/-- The items of the keys of a scan. -/
theorem Posted.hgetall_eq (h : b.Posted ttlMs) {worker : String} {r : Report}
    (hlast : b.lastReport worker = some r) (hrecent : b.now ≤ r.time + ttlMs) :
    b.hgetall (gaugeKey worker) = some (r.items.map plainRaw) := by
  rw [hgetall, live, h.gauges worker (h.plain worker r hlast), hlast]
  simp [hrecent]

/-- What a worker last reported of a gauge. -/
def reported (b : Board) (value : Report → ℚ) (worker : String) : ℚ :=
  (b.lastReport worker).elim 0 value

/-- The gauges, and what a report says of them. -/
def gaugeValues : List (MetricName × (Report → ℚ)) :=
  [(workerInFlight, Report.inFlight), (workerPrefetchLimit, Report.prefetchLimit)]

def reportItems (b : Board) (worker : String) : List (Series × ℚ) :=
  (b.lastReport worker).elim [] Report.items

/-- Of each report there is one item for each gauge. -/
theorem filter_reportItems {gauge : MetricName × (Report → ℚ)} (hgauge : gauge ∈ gaugeValues)
    {scan : List String} (hscan : ∀ w ∈ scan, b.Reporting ttlMs w) :
    ((scan.flatMap b.reportItems).filter fun e => e.1.1.name = gauge.1.name).map
        (fun e => (e.1.2.labels, e.2)) =
      scan.map fun w => ((workerLabel w).labels, b.reported gauge.2 w) := by
  have hone : ∀ w ∈ scan, ((b.reportItems w).filter fun e => e.1.1.name = gauge.1.name).map
      (fun e => (e.1.2.labels, e.2)) = [((workerLabel w).labels, b.reported gauge.2 w)] := by
    intro w hw
    obtain ⟨r, hr, -⟩ := hscan w hw
    have hworker := worker_lastReport hr
    simp only [gaugeValues, List.mem_cons, List.not_mem_nil, or_false] at hgauge
    rcases hgauge with rfl | rfl
    · simp [reportItems, reported, hr, Report.items, hworker, workerInFlight, workerPrefetchLimit]
    · simp [reportItems, reported, hr, Report.items, hworker, workerInFlight, workerPrefetchLimit]
  rw [List.filter_flatMap, List.map_flatMap, List.flatMap_congr hone, ← List.map_eq_flatMap]

/-- The replies for the gauge keys of workers that report, decoded. -/
theorem Posted.decode (h : b.Posted ttlMs) (workers : List String)
    (hworkers : ∀ w ∈ workers, b.Reporting ttlMs w) :
    ∃ raws, (workers.map gaugeKey).mapM b.hgetall = some raws ∧
      raws.mapM decodeAll =
        some ((workers.map b.reportItems).map fun items => items.map plainItem) := by
  refine ⟨(workers.map b.reportItems).map fun items => items.map plainRaw, ?_, ?_⟩
  · induction workers with
    | nil => rfl
    | cons w ws ih =>
      obtain ⟨r, hr, hrecent⟩ := hworkers w List.mem_cons_self
      have hitems : b.reportItems w = r.items := by rw [reportItems, hr]; rfl
      have hrest := ih fun w' hw' => hworkers w' (List.mem_cons_of_mem _ hw')
      simp only [List.map_cons, List.mapM_cons, h.hgetall_eq hr hrecent, hitems, hrest]
      rfl
  · exact mapM_map_some decodeAll_plain _

/-- The other families of the workers are no gauges. -/
theorem filter_workerFamilies_gauge {countersRaw bucketRaw sumRaw : Raw} {gaugesRaw : List Raw}
    {items : List (List (Series × ℚ))} {families : List MetricFamily}
    (hgauges : gaugesRaw.mapM decodeAll = some (items.map fun i => i.map plainItem))
    (h : Metrics.workerFamilies countersRaw bucketRaw sumRaw gaugesRaw = some families)
    (name : MetricName) :
    families.filter (fun f => f.kind = .gauge ∧ f.name = name.name) =
      (gaugeFamilies (items.flatten.map plainItem)).filter
        fun f => f.kind = .gauge ∧ f.name = name.name := by
  obtain ⟨counters, -, h⟩ := Option.bind_eq_some_iff.mp h
  obtain ⟨gauges, hg, h⟩ := Option.bind_eq_some_iff.mp h
  obtain ⟨buckets, -, h⟩ := Option.bind_eq_some_iff.mp h
  obtain ⟨sums, -, h⟩ := Option.bind_eq_some_iff.mp h
  obtain rfl := Option.some.inj h
  obtain rfl := Option.some.inj (hgauges.symm.trans hg)
  have hcounter : (counterFamilies counters).filter
      (fun f => f.kind = .gauge ∧ f.name = name.name) = [] := by
    refine List.filter_eq_nil_iff.mpr fun f hf => ?_
    obtain ⟨g, -, rfl⟩ := List.mem_map.mp hf
    simp
  have hhistogram : (histogramFamilies buckets sums).filter
      (fun f => f.kind = .gauge ∧ f.name = name.name) = [] := by
    refine List.filter_eq_nil_iff.mpr fun f hf => ?_
    obtain ⟨g, -, rfl⟩ := List.mem_map.mp hf
    simp
  rw [List.filter_append, List.filter_append, hcounter, hhistogram, List.nil_append,
    List.append_nil, ← List.map_flatten]

/-- **A scrape shows the workers that are there.**  In every state that any starts, stops, flushes
and waits of workers with plain names lead to, the scans for gauge keys and for heartbeats find the
same workers: those whose last flush is no older than the TTL.  If the families of the workers can
be rebuilt, the family of each gauge has one sample for each of these workers, with what its last
flush said, as many times as the scan found its key; and the number of workers is right if the scan
for heartbeats found each once. -/
theorem gauges_of_reach (hb : (system ttlMs).Reach plainNames b) {scan beats : List String}
    (hscan : b.Scan (gaugeKeyPrefix ++ ":") scan)
    (hbeats : b.Scan (gaugeKeyPrefix ++ ":alive:") beats) {countersRaw bucketRaw sumRaw : Raw}
    {families : List MetricFamily}
    (h : b.workerFamilies countersRaw bucketRaw sumRaw scan = some families) :
    ∃ workers : List String, workerKeys scan = workers.map gaugeKey ∧
    (∀ w, (w ∈ workers ↔ b.Reporting ttlMs w) ∧ (aliveKey w ∈ beats ↔ b.Reporting ttlMs w)) ∧
    (beats.Nodup → (workerLivenessFamily beats).samples =
      [⟨"orch_workers_reporting", [], workers.dedup.length⟩]) ∧
    ∀ gauge ∈ gaugeValues, ∃ samples : List Sample,
      families.filter (fun f => f.kind = .gauge ∧ f.name = gauge.1.name) =
        (if workers = [] then []
          else [⟨gauge.1.name, .gauge,
            (workerGaugeHelp.get gauge.1.name).getD "Worker-sourced gauge, summed.", samples⟩]) ∧
      samples.Perm (workers.dedup.map fun w =>
        ⟨gauge.1.name, (workerLabel w).labels, workers.count w • b.reported gauge.2 w⟩) := by
  have hposted := Posted.of_reach hb
  obtain ⟨workers, hworkers, hreport⟩ := hposted.workerKeys hscan
  obtain ⟨live, rfl, halive⟩ := hposted.aliveKeys hbeats
  have hreporting : ∀ w ∈ workers, b.Reporting ttlMs w := fun w hw => (hreport w).mp hw
  refine ⟨workers, hworkers, fun w => ⟨hreport w, ?_⟩, fun hnodup => ?_, fun gauge hmem => ?_⟩
  · rw [← halive w, List.mem_map]
    exact ⟨fun ⟨w', hw', heq⟩ => aliveKey_inj.mp heq ▸ hw', fun hw => ⟨w, hw, rfl⟩⟩
  · have hperm : live.Perm workers.dedup :=
      (List.perm_ext_iff_of_nodup hnodup.of_map (List.nodup_dedup workers)).mpr fun w => by
        rw [List.mem_dedup, hreport, halive]
    rw [workerLivenessFamily, List.length_map, hperm.length_eq]
  · obtain ⟨raws, hraws, hdecode⟩ := hposted.decode workers hreporting
    rw [Board.workerFamilies, hworkers, hraws] at h
    have hfilter := filter_workerFamilies_gauge hdecode h gauge.1
    rw [filter_gaugeFamilies, ← List.flatMap_def, filter_reportItems hmem hreporting] at hfilter
    have hlabels : Function.Injective fun w => (workerLabel w).labels := by
      intro w w' heq
      simpa [workerLabel] using heq
    have hexists : (∃ e ∈ workers.flatMap b.reportItems, e.1.1 = gauge.1) ↔ workers ≠ [] := by
      refine ⟨fun hex hnone => by simp [hnone] at hex, fun hne => ?_⟩
      obtain ⟨w, hw⟩ := List.exists_mem_of_ne_nil _ hne
      have hitem := List.mem_map_of_mem
        (f := fun w => ((workerLabel w).labels, b.reported gauge.2 w)) hw
      rw [← filter_reportItems hmem hreporting] at hitem
      obtain ⟨e, he, -⟩ := List.mem_map.mp hitem
      obtain ⟨he, hname⟩ := List.mem_filter.mp he
      exact ⟨e, he, MetricName.ext (of_decide_eq_true hname)⟩
    refine ⟨_, hfilter.trans (if_congr hexists rfl rfl |>.trans (ite_not ..)), ?_⟩
    have hsorted : (Dict.addAll [] (workers.map fun w =>
        ((workerLabel w).labels, b.reported gauge.2 w))).sortedItems.Perm
          (workers.dedup.map fun w =>
            ((workerLabel w).labels, workers.count w • b.reported gauge.2 w)) :=
      (List.perm_insertionSort _ _).trans (perm_addAll hlabels (b.reported gauge.2) workers)
    simpa [Function.comp_def] using hsorted.map fun e => (⟨gauge.1.name, e.1, e.2⟩ : Sample)

/-- Two workers report; the first is not heard of for longer than the TTL, and the second starts
again in that time. -/
def silence : List BoardEvent :=
  [.start "a" 8, .flush "a" 3, .start "b" 8, .flush "b" 5, .tick 20000, .stop "b", .start "b" 4,
    .flush "b" 1, .tick 20000]

theorem gauges_silence : ∃ b : Board, (system (gaugeTtlMs 30)).Reach plainNames b ∧
    ∃ families, b.workerFamilies [] [] [] [gaugeKey "b", aliveKey "b"] = some families ∧
    ∃ workers : List String, workerKeys [gaugeKey "b", aliveKey "b"] = workers.map gaugeKey ∧
    (∀ w, (w ∈ workers ↔ b.Reporting (gaugeTtlMs 30) w) ∧
      (aliveKey w ∈ [aliveKey "b"] ↔ b.Reporting (gaugeTtlMs 30) w)) ∧
    ([aliveKey "b"].Nodup → (workerLivenessFamily [aliveKey "b"]).samples =
      [⟨"orch_workers_reporting", [], workers.dedup.length⟩]) ∧
    ∀ gauge ∈ gaugeValues, ∃ samples : List Sample,
      families.filter (fun f => f.kind = .gauge ∧ f.name = gauge.1.name) =
        (if workers = [] then []
          else [⟨gauge.1.name, .gauge,
            (workerGaugeHelp.get gauge.1.name).getD "Worker-sourced gauge, summed.", samples⟩]) ∧
      samples.Perm (workers.dedup.map fun w =>
        ⟨gauge.1.name, (workerLabel w).labels, workers.count w • b.reported gauge.2 w⟩) := by
  obtain ⟨b, hrun, hq⟩ := (Option.any_eq_true (fun b : Board => decide (b.now = 40000 ∧
      b.reports = [⟨"b", 20000, 1, 4⟩, ⟨"b", 0, 5, 8⟩, ⟨"a", 0, 3, 8⟩]))
    ((system (gaugeTtlMs 30)).runAll plainNames (system (gaugeTtlMs 30)).init silence)).mp
      (by decide +kernel)
  obtain ⟨hnow, hreports⟩ := of_decide_eq_true hq
  have hb : (system (gaugeTtlMs 30)).Reach plainNames b := .runAll .init hrun
  have hposted := Posted.of_reach hb
  have httl : gaugeTtlMs 30 = 30000 := by decide +kernel
  have hreporting : ∀ w, w ∈ ["b"] ↔ b.Reporting (gaugeTtlMs 30) w := by
    intro w
    rw [Reporting, lastReport, hreports, hnow, httl]
    by_cases hw : "b" = w
    · simp [hw]
    · by_cases ha : "a" = w
      · simp [hw, ha, Ne.symm hw]
      · simp [hw, ha, Ne.symm hw]
  obtain ⟨hscan, hbeats⟩ := hposted.scans hreporting
  obtain ⟨raws, hraws, hdecode⟩ := hposted.decode ["b"] fun w hw => (hreporting w).mp hw
  have hkeys : workerKeys [gaugeKey "b", aliveKey "b"] = ["b"].map gaugeKey := by decide +kernel
  obtain ⟨families, hfamilies⟩ : ∃ families,
      b.workerFamilies [] [] [] [gaugeKey "b", aliveKey "b"] = some families := by
    rw [Board.workerFamilies, hkeys, hraws]
    simp only [Option.bind_eq_bind, Option.bind_some, Metrics.workerFamilies, hdecode]
    exact ⟨_, rfl⟩
  exact ⟨b, hb, families, hfamilies, gauges_of_reach hb hscan hbeats hfamilies⟩

end Board

end Metrics
end OcrOrchestrator
