import OcrOrchestrator.Metrics.Registry
import OcrOrchestrator.Lib.Fold
import Mathlib.Data.List.Count

/-!
# Exposition

`histogram_samples` of `common/metrics.py`, which makes the counts of a histogram cumulative,
and `_worker_families` of `app/api/metrics.py`, which rebuilds the families of the workers from
the replies to `HGETALL`.

A reply to `HGETALL` is the list of the items of a hash, in any order.  `none` is an exception.

## Main definitions

* `histogramSamples` — the cumulative form.
* `workerFamilies` — the families of the workers.

## Main results

* `bucketSamples_eq` — a bucket sample carries the sum up to its bucket.
* `countsOf_get`, `sums_get` — what is rebuilt is what the items of the hashes say.
* `filter_workerFamilies` — the family of a histogram among all of them.
-/

namespace OcrOrchestrator
namespace Metrics

open Lib

/-! ## Samples -/

/-- `Sample`. -/
structure Sample where
  name : String
  labels : Labels
  value : ℚ
deriving DecidableEq

/-- The loop over the buckets of one series: the running total at its end, and the samples. -/
def bucketSamples (name : String) (key : Labels) (counts : Bucket → ℚ) : ℚ × List Sample :=
  (List.finRange 14).foldl
    (fun acc i =>
      (acc.1 + counts i, acc.2 ++
        [⟨name ++ "_bucket", withLe key (formatBucketBound (bound i)), acc.1 + counts i⟩]))
    (0, [])

/-- The samples of one series. -/
def seriesSamples (name : String) (key : Labels) (counts : Bucket → ℚ) (sum : ℚ) : List Sample :=
  let buckets := bucketSamples name key counts
  buckets.2 ++ [⟨name ++ "_sum", key, sum⟩, ⟨name ++ "_count", key, buckets.1⟩]

/-- `histogram_samples`. -/
def histogramSamples (name : String) (counts : Dict Labels (Bucket → ℚ)) (sums : Dict Labels ℚ) :
    List Sample :=
  counts.sortedKeys.flatMap fun key =>
    seriesSamples name key ((counts.get key).getD fun _ => 0) ((sums.get key).getD 0)

/-- `Histogram`, with the default buckets. -/
structure Histogram where
  counts : Dict Labels (Bucket → ℚ)
  sums : Dict Labels ℚ

namespace Histogram

/-- `observe`. -/
def observe (h : Histogram) (key : LabelSet) (value : ℚ) : Histogram where
  counts := h.counts.update key.labels (tick value)
  sums := h.sums.update key.labels fun o => o.getD 0 + value

/-- `samples`. -/
def samples (h : Histogram) (name : String) : List Sample := histogramSamples name h.counts h.sums

end Histogram

/-! ## Families -/

/-- What a family is a family of. -/
inductive Kind where
  | counter
  | gauge
  | histogram
deriving DecidableEq

/-- `MetricFamily`. -/
structure MetricFamily where
  name : String
  kind : Kind
  help : String
  samples : List Sample
deriving DecidableEq

/-- `_WORKER_HISTOGRAMS`. -/
def workerHistograms : Dict String String :=
  [("orch_model_request_duration_seconds",
      "Latency of one model call, including the wait for a rate-limit token."),
    ("orch_page_duration_seconds",
      "Wall time from a page being claimed to reaching a terminal state.")]

/-- `_WORKER_COUNTER_HELP`. -/
def workerCounterHelp : Dict String String :=
  [("orch_page_attempts_total",
      "Page processing attempts by outcome; a two-stage page yields handoff " ++
        "then resumed, so this is attempts and not pages."),
    ("orch_pages_terminal_total",
      "Pages reaching a terminal state: success (incl. degraded), failed, " ++
        "or duplicate redelivery."),
    ("orch_rate_limit_wait_seconds_total",
      "Cumulative seconds spent waiting for rate-limit tokens."),
    ("orch_model_requests_total", "Model calls attempted, by endpoint and outcome."),
    ("orch_model_retries_total", "Retry attempts issued, by endpoint."),
    ("orch_rate_limit_waits_total", "Times a worker waited on a rate-limit token."),
    ("orch_fallbacks_total", "Pages degraded to the layout model after VLM exhaustion."),
    ("orch_reaper_actions_total", "Orphaned entries handled by the reaper, by action."),
    ("orch_requeues_total", "Pages returned to the queue rather than failed.")]

/-- `_WORKER_GAUGE_HELP`. -/
def workerGaugeHelp : Dict String String :=
  [("orch_worker_in_flight", "Pages a worker is currently processing."),
    ("orch_worker_prefetch_limit", "Configured concurrency ceiling per worker.")]

/-- A reply to `HGETALL`. -/
abbrev Raw := List (Field × ℚ)

/-- An item of a reply, with its field decoded. -/
abbrev Decoded := (String × Labels) × ℚ

/-- `decode_field` on every item.  The loops of `_worker_families` do it as they go; a field that
does not decode ends all of them. -/
def decodeAll (raw : Raw) : Option (List Decoded) :=
  raw.mapM fun e => (decodeField e.1).map fun d => (d, e.2)

/-- The first loop: counters. -/
def counterFamilies (items : List Decoded) : List MetricFamily :=
  let grouped : Dict String (List Sample) := items.foldl
    (fun d e => d.update e.1.1 fun o => o.getD [] ++ [⟨e.1.1, e.1.2, e.2⟩]) []
  grouped.sortedItems.map fun g =>
    ⟨g.1, .counter, (workerCounterHelp.get g.1).getD "Worker-sourced counter.",
      g.2.insertionSort fun a b => sortLabels a.labels ≤ sortLabels b.labels⟩

/-- The second loop: gauges, of all the workers' keys together. -/
def gaugeFamilies (items : List Decoded) : List MetricFamily :=
  let grouped : Dict String (Dict Labels ℚ) := items.foldl
    (fun d e => d.update e.1.1 fun o =>
      (o.getD []).update (sortLabels e.1.2) fun v => v.getD 0 + e.2) []
  grouped.sortedItems.map fun g =>
    ⟨g.1, .gauge, (workerGaugeHelp.get g.1).getD "Worker-sourced gauge, summed.",
      g.2.sortedItems.map fun e => ⟨g.1, e.1, e.2⟩⟩

/-- Counts by metric, labels and bound. -/
abbrev PerMetric := Dict String (Dict Labels (Dict String ℚ))

/-- One iteration over the counts of buckets: a field without a bound is passed over. -/
def addBucket (d : PerMetric) (e : Decoded) : PerMetric :=
  match (popLe e.1.2).1 with
  | none => d
  | some bound => d.update e.1.1 fun o =>
      (o.getD []).update (sortLabels (popLe e.1.2).2) fun o =>
        (o.getD []).update bound fun _ => e.2

/-- One iteration over the sums. -/
def addSum (d : Dict String (Dict Labels ℚ)) (e : Decoded) : Dict String (Dict Labels ℚ) :=
  d.update e.1.1 fun o => (o.getD []).update (sortLabels e.1.2) fun _ => e.2

/-- `labelled_bounds`, which has a formatting of its own. -/
def labelledBound : WithTop ℚ → String
  | ⊤ => "+Inf"
  | (q : ℚ) => if q.den = 1 then toString q.num else reprFloat q

/-- The counts of a metric, in the order of the buckets. -/
def countsOf (byLabels : Dict Labels (Dict String ℚ)) : Dict Labels (Bucket → ℚ) :=
  byLabels.mapValues fun byBound i => (byBound.get (labelledBound (bound i))).getD 0

/-- The last loop: histograms. -/
def histogramFamilies (buckets sums : List Decoded) : List MetricFamily :=
  let perMetric := buckets.foldl addBucket []
  let sums := sums.foldl addSum []
  perMetric.sortedItems.map fun g =>
    ⟨g.1, .histogram, (workerHistograms.get g.1).getD "Worker-sourced histogram.",
      histogramSamples g.1 (countsOf g.2) ((sums.get g.1).getD [])⟩

/-- `_worker_families`, from the replies for the three shared hashes and for the gauges of each
worker. -/
def workerFamilies (countersRaw bucketRaw sumRaw : Raw) (gaugesRaw : List Raw) :
    Option (List MetricFamily) := do
  let counters ← decodeAll countersRaw
  let gauges ← gaugesRaw.mapM decodeAll
  let buckets ← decodeAll bucketRaw
  let sums ← decodeAll sumRaw
  pure (counterFamilies counters ++ gaugeFamilies gauges.flatten ++
    histogramFamilies buckets sums)

/-! ## The cumulative form -/

theorem bound_mono : Monotone bound := by
  unfold Monotone
  decide +kernel

/-- The loop of `observe` stops at the first bucket that holds the value. -/
theorem bucketIndex_le_iff (value : ℚ) (i : Bucket) :
    bucketIndex value ≤ i ↔ (value : WithTop ℚ) ≤ bound i := by
  have htop : bound (Fin.last 13) = ⊤ := by decide +kernel
  obtain ⟨k, hk⟩ : ∃ k, ((List.finRange 14).find? fun i => (value : WithTop ℚ) ≤ bound i) =
      some k := by
    rw [← Option.isSome_iff_exists, List.find?_isSome]
    exact ⟨Fin.last 13, List.mem_finRange _, decide_eq_true (htop ▸ le_top)⟩
  have hindex : bucketIndex value = k := by rw [bucketIndex, hk, Option.getD_some]
  rw [List.find?_eq_some_iff_getElem] at hk
  obtain ⟨hle, j, hj, hjk, hbefore⟩ := hk
  rw [List.getElem_finRange] at hjk
  rw [hindex]
  refine ⟨fun hki => (of_decide_eq_true hle).trans (bound_mono hki), fun hvalue => ?_⟩
  by_contra hlt
  have hij : i.val < j := by
    have hik : i.val < k.val := not_le.1 hlt
    rw [← hjk] at hik
    exact hik
  have hno := hbefore i.val hij
  simp only [List.getElem_finRange, Bool.not_eq_true', decide_eq_false_iff_not] at hno
  exact hno hvalue

theorem bucketSamples_eq (name : String) (key : Labels) (counts : Bucket → ℚ) :
    bucketSamples name key counts = (∑ i, counts i, (List.finRange 14).map fun i =>
      ⟨name ++ "_bucket", withLe key (formatBucketBound (bound i)),
        ∑ j ∈ Finset.Iic i, counts j⟩) := by
  unfold bucketSamples
  exact foldl_running counts fun i running =>
    (⟨name ++ "_bucket", withLe key (formatBucketBound (bound i)), running⟩ : Sample)

/-- The samples depend on which series there are, and on what each has. -/
theorem histogramSamples_congr {name : String} {c c' : Dict Labels (Bucket → ℚ)}
    {s s' : Dict Labels ℚ} (hc : c.keys.Nodup) (hc' : c'.keys.Nodup)
    (hkeys : ∀ key, key ∈ c.keys ↔ key ∈ c'.keys)
    (hcounts : ∀ key ∈ c.keys, ((c.get key).getD fun _ => 0) = (c'.get key).getD fun _ => 0)
    (hsums : ∀ key ∈ c.keys, (s.get key).getD 0 = (s'.get key).getD 0) :
    histogramSamples name c s = histogramSamples name c' s' := by
  rw [histogramSamples, histogramSamples, ← Dict.sortedKeys_congr hc hc' hkeys]
  refine List.flatMap_congr fun key hkey => ?_
  have hmem : key ∈ c.keys := (List.mem_insertionSort _).1 hkey
  rw [hcounts key hmem, hsums key hmem]

/-! ## What is rebuilt -/

/-- The item of a bucket, decoded. -/
def bucketItem (e : (Series × Bucket) × ℚ) : Decoded :=
  ((e.1.1.1.name, sortLabels (withLe e.1.1.2.labels (formatBucketBound (bound e.1.2)))), e.2)

/-- The item of a sum, or of a counter, decoded. -/
def plainItem (e : Series × ℚ) : Decoded := ((e.1.1.name, e.1.2.labels), e.2)

/-- Both formattings of the bounds agree. -/
theorem labelledBound_bound (i : Bucket) : labelledBound (bound i) = formatBucketBound (bound i) := by
  revert i
  decide +kernel

/-- Where the item of a bucket goes: under its bound, under its labels. -/
def putBound (e : (Series × Bucket) × ℚ) (d : Dict String ℚ) : Dict String ℚ :=
  d.update (formatBucketBound (bound e.1.2)) fun _ => e.2

def putBucket (e : (Series × Bucket) × ℚ) (d : Dict Labels (Dict String ℚ)) :
    Dict Labels (Dict String ℚ) :=
  d.update e.1.1.2.labels fun o => putBound e (o.getD [])

/-- Where a sum goes: under its labels. -/
def putSum (e : Series × ℚ) (d : Dict Labels ℚ) : Dict Labels ℚ :=
  d.update e.1.2.labels fun _ => e.2

/-- The bound comes off, and the item lands in its series. -/
theorem addBucket_bucketItem (d : PerMetric) (e : (Series × Bucket) × ℚ) :
    addBucket d (bucketItem e) = d.update e.1.1.1.name fun o => putBucket e (o.getD []) := by
  obtain ⟨hbound, hlabels⟩ :=
    popLe_sortLabels_withLe e.1.1.2 (formatBucketBound (bound e.1.2))
  simp only [addBucket, bucketItem, hbound, hlabels, putBucket, putBound]

theorem addSum_plainItem (d : Dict String (Dict Labels ℚ)) (e : Series × ℚ) :
    addSum d (plainItem e) = d.update e.1.1.name fun o => putSum e (o.getD []) := by
  simp only [addSum, plainItem, sortLabels_labels, putSum]

section Rebuild
variable {buckets : Dict (Series × Bucket) ℚ} {sums : Dict Series ℚ}

/-- The counts of a metric after the loop. -/
theorem byLabels_eq (buckets : Dict (Series × Bucket) ℚ) (name : String) :
    (((buckets.map bucketItem).foldl addBucket []).get name).getD [] =
      (buckets.filter fun e => e.1.1.1.name = name).foldl (fun d e => putBucket e d) [] := by
  simp only [List.foldl_map, addBucket_bucketItem]
  exact Dict.getD_foldl_update [] (fun e => e.1.1.1.name) putBucket buckets [] name

/-- The count of a bucket is the item of its field. -/
theorem countsOf_get (h : buckets.keys.Nodup) (s : Series) (i : Bucket) :
    (((countsOf ((((buckets.map bucketItem).foldl addBucket []).get s.1.name).getD [])).get
      s.2.labels).getD fun _ => 0) i = (buckets.get (s, i)).getD 0 := by
  have hread : ∀ o : Option (Dict String ℚ),
      ((o.map fun byBound i => (byBound.get (labelledBound (bound i))).getD 0).getD
        fun _ => (0 : ℚ)) i = ((o.getD []).get (formatBucketBound (bound i))).getD 0 := by
    intro o
    cases o <;> simp [labelledBound_bound]
  have hfilter : (((buckets.filter fun e => e.1.1.1.name = s.1.name).filter
      fun e => e.1.1.2.labels = s.2.labels).filter
        fun e => formatBucketBound (bound e.1.2) = formatBucketBound (bound i)) =
      buckets.filter fun e => e.1 = (s, i) := by
    rw [List.filter_filter, List.filter_filter]
    refine List.filter_congr fun e _ => ?_
    rw [← Bool.decide_and, ← Bool.decide_and, decide_eq_decide, Prod.ext_iff, series_eq_iff,
      formatBucketBound_injective.eq_iff]
    tauto
  have hbounds := Dict.getD_foldl_update [] (fun e => e.1.1.2.labels) putBound
    (buckets.filter fun e => e.1.1.1.name = s.1.name) [] s.2.labels
  have hbound := Dict.get_foldl_update (fun e => formatBucketBound (bound e.1.2)) (fun e _ => e.2)
    ((buckets.filter fun e => e.1.1.1.name = s.1.name).filter
      fun e => e.1.1.2.labels = s.2.labels) [] (formatBucketBound (bound i))
  rw [countsOf, Dict.get_mapValues, hread, byLabels_eq]
  simp only [putBucket, hbounds]
  simp only [putBound, Dict.get_nil, Option.getD_none, hbound, hfilter]
  exact congrArg (·.getD 0) (Dict.foldl_filter_key h (s, i))

theorem mem_keys_byLabels (buckets : Dict (Series × Bucket) ℚ) (name : MetricName)
    (key : Labels) :
    key ∈ ((((buckets.map bucketItem).foldl addBucket []).get name.name).getD []).keys ↔
      ∃ e ∈ buckets, e.1.1.1 = name ∧ e.1.1.2.labels = key := by
  have hmem := Dict.mem_keys_foldl_update (fun e => e.1.1.2.labels)
    (fun e o => putBound e (o.getD [])) (buckets.filter fun e => e.1.1.1.name = name.name) [] key
  rw [byLabels_eq]
  simp only [putBucket, hmem, Dict.keys_nil, List.not_mem_nil, false_or, List.mem_filter,
    decide_eq_true_eq]
  constructor
  · rintro ⟨e, ⟨he, hname⟩, hkey⟩
    exact ⟨e, he, MetricName.ext hname, hkey⟩
  · rintro ⟨e, he, rfl, hkey⟩
    exact ⟨e, ⟨he, rfl⟩, hkey⟩

theorem nodup_keys_byLabels (buckets : Dict (Series × Bucket) ℚ) (name : String) :
    ((((buckets.map bucketItem).foldl addBucket []).get name).getD []).keys.Nodup := by
  rw [byLabels_eq]
  exact Dict.nodup_foldl_update _ _ _ (by simp)

/-- A sum is the item of its field. -/
theorem sums_get (h : sums.keys.Nodup) (s : Series) :
    ((((sums.map plainItem).foldl addSum []).get s.1.name).getD []).get s.2.labels =
      sums.get s := by
  have hfilter : ((sums.filter fun e => e.1.1.name = s.1.name).filter
      fun e => e.1.2.labels = s.2.labels) = sums.filter fun e => e.1 = s := by
    rw [List.filter_filter]
    refine List.filter_congr fun e _ => ?_
    rw [← Bool.decide_and, decide_eq_decide, series_eq_iff, and_comm]
  have hlabels := Dict.getD_foldl_update [] (fun e => e.1.1.name) putSum sums [] s.1.name
  have hsum := Dict.get_foldl_update (fun e => e.1.2.labels) (fun e _ => e.2)
    (sums.filter fun e => e.1.1.name = s.1.name) [] s.2.labels
  simp only [List.foldl_map, addSum_plainItem, hlabels]
  simp only [putSum, Dict.get_nil, Option.getD_none, hsum, hfilter]
  exact Dict.foldl_filter_key h s

end Rebuild

/-! ## The family of a histogram -/

/-- The item of a bucket, as it is in the hash. -/
def bucketRaw (e : (Series × Bucket) × ℚ) : Field × ℚ := ((bucketCell e.1.1 e.1.2).2, e.2)

/-- The item of a sum, a counter or a gauge, as it is in the hash. -/
def plainRaw (e : Series × ℚ) : Field × ℚ := (encodeField e.1.1 e.1.2.labels, e.2)

/-- Items that all decode. -/
theorem mapM_map_some {X Y Z : Type} {f : Y → Option Z} {g : X → Y} {h : X → Z}
    (hf : ∀ x, f (g x) = some (h x)) (xs : List X) : (xs.map g).mapM f = some (xs.map h) := by
  induction xs with
  | nil => rfl
  | cons x xs ih => simp [hf, ih]

theorem decodeAll_buckets (items : List ((Series × Bucket) × ℚ)) :
    decodeAll (items.map bucketRaw) = some (items.map bucketItem) := by
  refine mapM_map_some (fun e => ?_) items
  simp [bucketRaw, bucketCell, decodeField_encodeField, bucketItem]

theorem decodeAll_plain (items : List (Series × ℚ)) :
    decodeAll (items.map plainRaw) = some (items.map plainItem) := by
  refine mapM_map_some (fun e => ?_) items
  simp [plainRaw, decodeField_encodeField, sortLabels_labels, plainItem]

/-- There is one family for a metric that has items, and no other. -/
theorem filter_histogramFamilies (buckets : Dict (Series × Bucket) ℚ) (sums : List Decoded)
    (name : MetricName) :
    ((histogramFamilies (buckets.map bucketItem) sums).filter
      fun f => f.kind = .histogram ∧ f.name = name.name) =
      if ∃ e ∈ buckets, e.1.1.1 = name then
        [⟨name.name, .histogram,
          (workerHistograms.get name.name).getD "Worker-sourced histogram.",
          histogramSamples name.name
            (countsOf ((((buckets.map bucketItem).foldl addBucket []).get name.name).getD []))
            (((sums.foldl addSum []).get name.name).getD [])⟩]
      else [] := by
  have hnodup : ((buckets.map bucketItem).foldl addBucket []).keys.Nodup := by
    simp only [List.foldl_map, addBucket_bucketItem]
    exact Dict.nodup_foldl_update _ _ _ (by simp)
  have hmem : name.name ∈ ((buckets.map bucketItem).foldl addBucket []).keys ↔
      ∃ e ∈ buckets, e.1.1.1 = name := by
    simp only [List.foldl_map, addBucket_bucketItem]
    rw [Dict.mem_keys_foldl_update]
    simp only [Dict.keys_nil, List.not_mem_nil, false_or]
    exact exists_congr fun e => and_congr_right fun _ =>
      ⟨fun h => MetricName.ext h, fun h => by rw [h]⟩
  have hitems := Dict.filter_sortedItems hnodup name.name
  rw [histogramFamilies, List.filter_map]
  simp only [Function.comp_def, true_and, hitems]
  cases hget : ((buckets.map bucketItem).foldl addBucket []).get name.name with
  | none =>
    rw [Dict.get_eq_none_iff, hmem] at hget
    simp [hget]
  | some byLabels =>
    have hsome : name.name ∈ ((buckets.map bucketItem).foldl addBucket []).keys :=
      Dict.get_isSome_iff.1 (by simp [hget])
    rw [hmem] at hsome
    simp [hsome]

/-- The other families are no histograms. -/
theorem filter_workerFamilies (counters : List (Series × ℚ)) (gauges : List (List (Series × ℚ)))
    (buckets : Dict (Series × Bucket) ℚ) (sums : List (Series × ℚ)) (name : MetricName) :
    ∃ families, workerFamilies (counters.map plainRaw) (buckets.map bucketRaw)
        (sums.map plainRaw) (gauges.map fun g => g.map plainRaw) = some families ∧
      (families.filter fun f => f.kind = .histogram ∧ f.name = name.name) =
        (histogramFamilies (buckets.map bucketItem) (sums.map plainItem)).filter
          fun f => f.kind = .histogram ∧ f.name = name.name := by
  have hgauges : (gauges.map fun g => g.map plainRaw).mapM decodeAll =
      some (gauges.map fun g => g.map plainItem) :=
    mapM_map_some decodeAll_plain gauges
  refine ⟨_, by simp [workerFamilies, decodeAll_plain, decodeAll_buckets, hgauges]; rfl, ?_⟩
  have hcounter : ∀ items, ((counterFamilies items).filter
      fun f => f.kind = .histogram ∧ f.name = name.name) = [] := by
    intro items
    rw [List.filter_eq_nil_iff]
    intro f hf
    obtain ⟨g, -, rfl⟩ := List.mem_map.1 hf
    simp
  have hgauge : ∀ items, ((gaugeFamilies items).filter
      fun f => f.kind = .histogram ∧ f.name = name.name) = [] := by
    intro items
    rw [List.filter_eq_nil_iff]
    intro f hf
    obtain ⟨g, -, rfl⟩ := List.mem_map.1 hf
    simp
  rw [List.filter_append, List.filter_append, hcounter, hgauge]
  rfl

end Metrics
end OcrOrchestrator
