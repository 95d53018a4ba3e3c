import OcrOrchestrator.Lib.Rounding
import OcrOrchestrator.Metrics.Exposition
import Mathlib.Algebra.BigOperators.Group.Finset.Piecewise
import Mathlib.Data.List.Dedup

/-!
# A fleet of workers and one histogram

Workers record into registries of their own and flush them, in any order, into hashes they
share.  A scrape rebuilds the histograms from these hashes.  What it rebuilds is what one
histogram would show that had seen every observation.

## Main definitions

* `Event`, `Fleet.step` — what can happen, and what it does.
* `single` — the one histogram.
* `expectedSamples` — the samples in terms of the observations.

## Main results

* `ledger_run` — nothing is lost between the registries and the hashes.
* `fleet_histogram` — the fleet shows what one histogram shows.
-/

namespace OcrOrchestrator
namespace Metrics

open Lib

variable {n : ℕ}

/-! ## Runs -/

/-- What can happen at a worker. -/
inductive Event (n : ℕ) where
  | inc (w : Fin n) (s : Series) (amount : ℚ)
  | observe (w : Fin n) (s : Series) (value : ℚ)
  | flush (w : Fin n)
deriving DecidableEq

/-- The registries of the workers, and the shared hashes. -/
structure Fleet (n : ℕ) where
  workers : Fin n → Registry
  store : Store

/-- Nothing recorded, nothing stored. -/
def Fleet.init : Fleet n := ⟨fun _ => .empty, []⟩

/-- One event.  A flush drains the registry and applies its pipeline. -/
def Fleet.step (f : Fleet n) : Event n → Fleet n
  | .inc w s amount =>
    { f with workers := Function.update f.workers w ((f.workers w).inc s amount) }
  | .observe w s value =>
    { f with workers := Function.update f.workers w ((f.workers w).observe s value) }
  | .flush w => ⟨Function.update f.workers w .empty, f.store.apply (f.workers w)⟩

def Fleet.run (events : List (Event n)) : Fleet n := events.foldl Fleet.step Fleet.init

/-- Every observation is followed by a flush of its worker. -/
def Flushed : List (Event n) → Prop
  | [] => True
  | .observe w _ _ :: events => .flush w ∈ events ∧ Flushed events
  | _ :: events => Flushed events

/-- The items of one of the hashes. -/
def Store.hash (store : Store) (key : HashKey) : Raw :=
  (store.filter fun e => e.1.1 = key).map fun e => (e.1.2, e.2)

/-! ## One histogram -/

/-- The observations for a metric, in order. -/
def observations (name : MetricName) : List (Event n) → List (LabelSet × ℚ)
  | [] => []
  | .observe _ s value :: events =>
    if s.1 = name then (s.2, value) :: observations name events else observations name events
  | _ :: events => observations name events

/-- A histogram that sees all of them. -/
def Histogram.observeAll (h : Histogram) (obs : List (LabelSet × ℚ)) : Histogram :=
  obs.foldl (fun h o => h.observe o.1 o.2) h

/-- The one histogram. -/
def single (obs : List (LabelSet × ℚ)) : Histogram := Histogram.observeAll ⟨[], []⟩ obs

/-- The values observed for a key. -/
def valuesOf (obs : List (LabelSet × ℚ)) (key : Labels) : List ℚ :=
  (obs.filter fun o => o.1.labels = key).map Prod.snd

/-- How many values are at most a bound. -/
def atMost (values : List ℚ) (b : WithTop ℚ) : ℕ := values.countP fun v => (v : WithTop ℚ) ≤ b

/-- The samples the observations call for: each bucket holds those at most its bound, the count
is that of the infinite bucket, the sum is the sum. -/
def expectedSamples (name : String) (obs : List (LabelSet × ℚ)) : List Sample :=
  ((obs.map fun o => o.1.labels).dedup.insertionSort (· ≤ ·)).flatMap fun key =>
    ((List.finRange 14).map fun i => ⟨name ++ "_bucket",
      withLe key (formatBucketBound (bound i)), atMost (valuesOf obs key) (bound i)⟩) ++
    [⟨name ++ "_sum", key, (valuesOf obs key).sum⟩,
      ⟨name ++ "_count", key, atMost (valuesOf obs key) (bound (Fin.last 13))⟩]

/-! ## What the one histogram counts -/

section Single

theorem counts_observeAll (h : Histogram) (obs : List (LabelSet × ℚ)) :
    (h.observeAll obs).counts =
      obs.foldl (fun d o => d.update o.1.labels (tick o.2)) h.counts := by
  induction obs generalizing h with
  | nil => rfl
  | cons o obs ih => exact ih _

theorem sums_observeAll (h : Histogram) (obs : List (LabelSet × ℚ)) :
    (h.observeAll obs).sums =
      obs.foldl (fun d o => d.update o.1.labels fun v => v.getD 0 + o.2) h.sums := by
  induction obs generalizing h with
  | nil => rfl
  | cons o obs ih => exact ih _

theorem nodup_single (obs : List (LabelSet × ℚ)) : (single obs).counts.keys.Nodup := by
  rw [single, counts_observeAll]
  exact Dict.nodup_foldl_update _ _ _ (by simp)

theorem mem_single (obs : List (LabelSet × ℚ)) (key : Labels) :
    key ∈ (single obs).counts.keys ↔ ∃ o ∈ obs, o.1.labels = key := by
  rw [single, counts_observeAll, Dict.mem_keys_foldl_update]
  simp

/-- The values of a bucket. -/
def tally (values : List ℚ) (i : Bucket) : ℕ := values.countP fun v => bucketIndex v = i

theorem tally_cons (v : ℚ) (values : List ℚ) (i : Bucket) :
    (tally (v :: values) i : ℚ) = tally values i + if i = bucketIndex v then 1 else 0 := by
  by_cases h : i = bucketIndex v
  · simp [tally, h]
  · simp [tally, h, Ne.symm h]

theorem tally_eq_sum (values : List ℚ) (i : Bucket) :
    (tally values i : ℚ) = (values.map fun v => if bucketIndex v = i then (1 : ℚ) else 0).sum := by
  induction values with
  | nil => simp [tally]
  | cons v values ih => simp only [tally_cons, ih, List.map_cons, List.sum_cons, add_comm, eq_comm]

/-- Ticking bucket after bucket. -/
theorem foldl_tick (values : List ℚ) (o : Option (Bucket → ℚ)) (i : Bucket) :
    ((values.foldl (fun o v => some (tick v o)) o).getD fun _ => 0) i =
      (o.getD fun _ => 0) i + tally values i := by
  induction values generalizing o with
  | nil => simp [tally]
  | cons v values ih =>
    rw [List.foldl_cons, ih, Option.getD_some, tick_apply, tally_cons]
    ring

theorem foldl_sum (values : List ℚ) (o : Option ℚ) :
    (values.foldl (fun o v => some (o.getD 0 + v)) o).getD 0 = o.getD 0 + values.sum := by
  induction values generalizing o with
  | nil => simp
  | cons v values ih =>
    rw [List.foldl_cons, ih, Option.getD_some, List.sum_cons]
    ring

theorem single_counts (obs : List (LabelSet × ℚ)) (key : Labels) (i : Bucket) :
    (((single obs).counts.get key).getD fun _ => 0) i = tally (valuesOf obs key) i := by
  have hfold := foldl_tick (valuesOf obs key) none i
  rw [valuesOf, List.foldl_map] at hfold
  rw [single, counts_observeAll, Dict.get_foldl_update]
  simpa [valuesOf] using hfold

theorem single_sums (obs : List (LabelSet × ℚ)) (key : Labels) :
    ((single obs).sums.get key).getD 0 = (valuesOf obs key).sum := by
  have hfold := foldl_sum (valuesOf obs key) none
  rw [valuesOf, List.foldl_map] at hfold
  rw [single, sums_observeAll,
    Dict.get_foldl_update (fun o : LabelSet × ℚ => o.1.labels) fun o v => v.getD 0 + o.2]
  simpa [valuesOf] using hfold

/-- The buckets up to a bound hold the values up to it. -/
theorem sum_tally (values : List ℚ) (i : Bucket) :
    ∑ j ∈ Finset.Iic i, (tally values j : ℚ) = atMost values (bound i) := by
  induction values with
  | nil => simp [tally, atMost]
  | cons v values ih =>
    have hcons : (atMost (v :: values) (bound i) : ℚ) =
        atMost values (bound i) + if bucketIndex v ≤ i then 1 else 0 := by
      simp only [bucketIndex_le_iff]
      by_cases h : (v : WithTop ℚ) ≤ bound i <;> simp [atMost, h]
    simp only [tally_cons, Finset.sum_add_distrib, ih, hcons, Finset.sum_ite_eq',
      Finset.mem_Iic]

theorem single_samples (name : String) (obs : List (LabelSet × ℚ)) :
    (single obs).samples name = expectedSamples name obs := by
  have hkeys : (single obs).counts.sortedKeys =
      (obs.map fun o => o.1.labels).dedup.insertionSort (· ≤ ·) := by
    refine insertionSort_eq_of_perm
      ((List.perm_ext_iff_of_nodup (nodup_single obs) (List.nodup_dedup _)).2 fun key => ?_)
    rw [mem_single, List.mem_dedup, List.mem_map]
  have hlast : (Finset.Iic (Fin.last 13) : Finset Bucket) = Finset.univ := by
    ext j
    simp only [Finset.mem_Iic, Finset.mem_univ, iff_true]
    exact Fin.le_last j
  rw [Histogram.samples, histogramSamples, hkeys, expectedSamples]
  refine List.flatMap_congr fun key _ => ?_
  have hcounts : (((single obs).counts.get key).getD fun _ => 0) =
      fun i => (tally (valuesOf obs key) i : ℚ) := funext fun i => single_counts obs key i
  simp only [seriesSamples, bucketSamples_eq, hcounts, single_sums, sum_tally]
  rw [← sum_tally (valuesOf obs key) (Fin.last 13), hlast]

end Single

/-! ## Nothing is lost on the way -/

/-- What an event adds to the cells, now or by a later flush. -/
def Event.posts : Event n → List (Cell × ℚ)
  | .inc _ s amount => [(counterCell s, amount)]
  | .observe _ s value => [(bucketCell s (bucketIndex value), 1), (sumCell s, value)]
  | .flush _ => []

/-- The books: what was posted is in the store or in a registry, and only that. -/
structure Ledger (f : Fleet n) (posts : List (Cell × ℚ)) : Prop where
  total_eq : ∀ c, total f.store c + ∑ w, total (increments (f.workers w)) c = total posts c
  nodup : f.store.keys.Nodup
  stored : ∀ c ∈ f.store.keys, c ∈ posts.map Prod.fst
  pending : ∀ w c, Writes (f.workers w) c → c ∈ posts.map Prod.fst

/-- The sum over the workers when one registry is replaced. -/
theorem sum_update (g : Registry → ℚ) (workers : Fin n → Registry) (w : Fin n) (r : Registry) :
    ∑ w', g (Function.update workers w r w') = ∑ w', g (workers w') - g (workers w) + g r := by
  have hpoint : (fun w' => g (Function.update workers w r w')) =
      Function.update (fun w' => g (workers w')) w (g r) := by
    ext w'
    by_cases h : w' = w
    · subst h
      simp
    · simp [h]
  have hmem : w ∈ (Finset.univ : Finset (Fin n)) := Finset.mem_univ w
  rw [hpoint, Finset.sum_update_of_mem hmem, ← Finset.sum_sdiff (Finset.singleton_subset_iff.2 hmem),
    Finset.sum_singleton]
  ring

/-- Recording: the registry of a worker grows by what is posted. -/
theorem Ledger.record {f : Fleet n} {posts : List (Cell × ℚ)} (h : Ledger f posts) (w : Fin n)
    (r : Registry) (new : List (Cell × ℚ))
    (htotal : ∀ c, total (increments r) c = total (increments (f.workers w)) c + total new c)
    (hwrites : ∀ c, Writes r c → Writes (f.workers w) c ∨ c ∈ new.map Prod.fst) :
    Ledger { f with workers := Function.update f.workers w r } (posts ++ new) where
  total_eq c := by
    simp only [sum_update fun r => total (increments r) c, total_append, htotal, ← h.total_eq]
    ring
  nodup := h.nodup
  stored c hc := by simp [h.stored c hc]
  pending w' c hc := by
    rw [List.map_append, List.mem_append]
    by_cases hw : w' = w
    · subst hw
      simp only [Function.update_self] at hc
      exact (hwrites c hc).imp_left (h.pending w' c)
    · simp only [Function.update_of_ne hw] at hc
      exact .inl (h.pending w' c hc)

/-- Flushing: what was in the registry is in the store. -/
theorem Ledger.flush {f : Fleet n} {posts : List (Cell × ℚ)} (h : Ledger f posts) (w : Fin n) :
    Ledger (f.step (.flush w)) posts where
  total_eq c := by
    simp only [Fleet.step, Store.apply, sum_update fun r => total (increments r) c, total_addAll,
      increments_empty, total_nil, ← h.total_eq]
    ring
  nodup := nodup_addAll h.nodup _
  stored c hc := by
    rcases mem_keys_addAll.1 hc with hold | hnew
    · exact h.stored c hold
    · exact h.pending w c hnew
  pending w' c hc := by
    by_cases hw : w' = w
    · subst hw
      simp only [Fleet.step, Function.update_self] at hc
      exact absurd hc (not_writes_empty c)
    · simp only [Fleet.step, Function.update_of_ne hw] at hc
      exact h.pending w' c hc

theorem Ledger.step {f : Fleet n} {posts : List (Cell × ℚ)} (h : Ledger f posts) (e : Event n) :
    Ledger (f.step e) (posts ++ e.posts) := by
  cases e with
  | inc w s amount =>
    refine h.record w _ _ (fun c => ?_) fun c hc => ?_
    · simp [Event.posts, total_increments_inc, total_cons]
    · simpa [Event.posts] using writes_inc hc
  | observe w s value =>
    refine h.record w _ _ (fun c => ?_) fun c hc => ?_
    · simp [Event.posts, total_increments_observe, total_cons]
    · simpa [Event.posts] using writes_observe hc
  | flush w => simpa [Event.posts] using h.flush w

/-- **Nothing is lost between the registries and the hashes.** -/
theorem ledger_run (events : List (Event n)) :
    Ledger (Fleet.run events) (events.flatMap Event.posts) := by
  refine foldl_induction Fleet.step events Fleet.init
    (fun done f => Ledger f (done.flatMap Event.posts)) ?_ fun done e _ f _ h => ?_
  · exact ⟨fun c => by simp [Fleet.init], by simp [Fleet.init], by simp [Fleet.init],
      fun w c hc => absurd hc (not_writes_empty c)⟩
  · simpa using h.step e

/-- The registry of a worker holds nothing of a histogram. -/
def Drained (r : Registry) : Prop := r.counts = [] ∧ r.sums = []

/-- A run that flushes every observation leaves the registries drained that were drained, and
those it flushes. -/
theorem drained_foldl {events : List (Event n)} (h : Flushed events) (f : Fleet n)
    (hf : ∀ w, .flush w ∈ events ∨ Drained (f.workers w)) (w : Fin n) :
    Drained ((events.foldl Fleet.step f).workers w) := by
  induction events generalizing f with
  | nil => simpa using hf w
  | cons e events ih =>
    cases e with
    | inc w' s amount =>
      refine ih h _ fun u => ?_
      rcases hf u with hu | hu
      · exact .inl (by simpa using hu)
      · refine .inr ?_
        by_cases huw : u = w'
        · subst huw
          simpa [Fleet.step, Drained, Registry.inc] using hu
        · simpa [Fleet.step, huw] using hu
    | observe w' s value =>
      refine ih h.2 _ fun u => ?_
      by_cases huw : u = w'
      · exact .inl (huw ▸ h.1)
      · rcases hf u with hu | hu
        · exact .inl (by simpa using hu)
        · exact .inr (by simpa [Fleet.step, huw] using hu)
    | flush w' =>
      refine ih h _ fun u => ?_
      by_cases huw : u = w'
      · exact .inr (by simp [Fleet.step, huw, Drained, Registry.empty])
      · rcases hf u with hu | hu
        · exact .inl (by simpa [huw] using hu)
        · exact .inr (by simpa [Fleet.step, huw] using hu)

/-- A drained registry has nothing for the cells of histograms. -/
theorem Drained.total_eq_zero {r : Registry} (h : Drained r) {c : Cell} (hc : c.1 ≠ .counters) :
    total (increments r) c = 0 := by
  refine Lib.total_eq_zero fun e he heq => hc ?_
  rcases writes_iff.1 (List.mem_map_of_mem he) with ⟨x, -, -, hx⟩ | ⟨x, hx, -⟩ | ⟨x, hx, -⟩
  · rw [← heq, hx]
    rfl
  · simp [h.1] at hx
  · simp [h.2] at hx

/-- Once everything is flushed, the cells of histograms hold what was posted. -/
theorem total_store {events : List (Event n)} (h : Flushed events) {c : Cell}
    (hc : c.1 ≠ .counters) :
    total (Fleet.run events).store c = total (events.flatMap Event.posts) c := by
  have hzero : ∑ w, total (increments ((Fleet.run events).workers w)) c = 0 := by
    refine Finset.sum_eq_zero fun w _ => Drained.total_eq_zero ?_ hc
    exact drained_foldl h Fleet.init (fun w => .inr ⟨rfl, rfl⟩) w
  rw [← (ledger_run events).total_eq c, hzero, add_zero]

/-! ## What was posted -/

theorem valuesOf_cons (s : LabelSet) (v : ℚ) (obs : List (LabelSet × ℚ)) (key : LabelSet) :
    valuesOf ((s, v) :: obs) key.labels =
      if s = key then v :: valuesOf obs key.labels else valuesOf obs key.labels := by
  have hiff : s.labels = key.labels ↔ s = key := ⟨LabelSet.ext, congrArg _⟩
  by_cases h : s = key <;> simp [valuesOf, hiff, h]

/-- The values observed for a series. -/
theorem valuesOf_observe (w : Fin n) (s : Series) (v : ℚ) (events : List (Event n)) (t : Series) :
    valuesOf (observations t.1 (.observe w s v :: events)) t.2.labels =
      if s = t then v :: valuesOf (observations t.1 events) t.2.labels
      else valuesOf (observations t.1 events) t.2.labels := by
  by_cases hname : s.1 = t.1
  · simp only [observations, hname, if_true, valuesOf_cons, Prod.ext_iff, true_and]
  · simp [observations, hname, Prod.ext_iff]

/-- What the observations of a series come to in a cell, given what each one posts there. -/
theorem total_posts {s : Series} {c : Cell} {g : ℚ → ℚ} (hcounter : ∀ t, counterCell t ≠ c)
    (hobserve : ∀ t v, total [(bucketCell t (bucketIndex v), 1), (sumCell t, v)] c =
      if t = s then g v else 0) (events : List (Event n)) :
    total (events.flatMap Event.posts) c =
      ((valuesOf (observations s.1 events) s.2.labels).map g).sum := by
  induction events with
  | nil => simp [observations, valuesOf]
  | cons e events ih =>
    rw [List.flatMap_cons, total_append, ih]
    cases e with
    | inc w t amount => simp [Event.posts, total_cons, hcounter, observations]
    | observe w t v =>
      rw [valuesOf_observe, Event.posts, hobserve]
      by_cases hts : t = s
      · simp [hts]
      · simp [hts]
    | flush w => simp [Event.posts, observations]

theorem total_posts_bucket (events : List (Event n)) (s : Series) (i : Bucket) :
    total (events.flatMap Event.posts) (bucketCell s i) =
      tally (valuesOf (observations s.1 events) s.2.labels) i := by
  rw [total_posts (s := s) (g := fun v => if bucketIndex v = i then 1 else 0)
    (fun t => by simp [counterCell, bucketCell]) (fun t v => ?_), tally_eq_sum]
  have hsum : sumCell t ≠ bucketCell s i := by simp [sumCell, bucketCell]
  by_cases hts : t = s
  · subst hts
    simp [total_cons, bucketCell_inj, hsum]
  · simp [total_cons, bucketCell_inj, hsum, hts]

theorem total_posts_sum (events : List (Event n)) (s : Series) :
    total (events.flatMap Event.posts) (sumCell s) =
      (valuesOf (observations s.1 events) s.2.labels).sum := by
  rw [total_posts (s := s) (g := id) (fun t => by simp [counterCell, sumCell]) (fun t v => ?_),
    List.map_id]
  have hbucket : bucketCell t (bucketIndex v) ≠ sumCell s := by simp [sumCell, bucketCell]
  simp [total_cons, sumCell_inj, hbucket]

/-- Every posted cell is that of a series. -/
theorem posted_cell {events : List (Event n)} {c : Cell}
    (h : c ∈ (events.flatMap Event.posts).map Prod.fst) :
    (∃ s, c = counterCell s) ∨ (∃ s i, c = bucketCell s i) ∨ ∃ s, c = sumCell s := by
  obtain ⟨x, hx, rfl⟩ := List.mem_map.1 h
  obtain ⟨e, -, he⟩ := List.mem_flatMap.1 hx
  cases e with
  | inc w s amount =>
    simp only [Event.posts, List.mem_singleton] at he
    exact .inl ⟨s, by rw [he]⟩
  | observe w s value =>
    simp only [Event.posts, List.mem_cons, List.not_mem_nil, or_false] at he
    rcases he with rfl | rfl
    · exact .inr (.inl ⟨s, _, rfl⟩)
    · exact .inr (.inr ⟨s, rfl⟩)
  | flush w => simp [Event.posts] at he

/-- A posted bucket was observed. -/
theorem observed_of_posted {events : List (Event n)} {s : Series} {i : Bucket}
    (h : bucketCell s i ∈ (events.flatMap Event.posts).map Prod.fst) :
    ∃ o ∈ observations s.1 events, o.1 = s.2 := by
  induction events with
  | nil => simp at h
  | cons e events ih =>
    rw [List.flatMap_cons, List.map_append, List.mem_append] at h
    cases e with
    | inc w t amount =>
      simpa [observations] using ih (h.resolve_left (by simp [Event.posts, counterCell, bucketCell]))
    | observe w t v =>
      rcases h with hnow | hlater
      · have hts : s = t := by
          simp only [Event.posts, List.map_cons, List.map_nil, List.mem_cons, bucketCell_inj,
            List.not_mem_nil, or_false] at hnow
          exact (hnow.resolve_right (by simp [sumCell, bucketCell])).1
        exact ⟨(t.2, v), by simp [observations, hts], by rw [hts]⟩
      · obtain ⟨o, ho, hkey⟩ := ih hlater
        refine ⟨o, ?_, hkey⟩
        by_cases hname : t.1 = s.1 <;> simp [observations, hname, ho]
    | flush w => simpa [observations, Event.posts] using ih (h.resolve_left (by simp [Event.posts]))

/-- The store has a bucket of a series just when the series was observed. -/
theorem stored_iff {events : List (Event n)} (h : Flushed events) (s : Series) :
    (∃ i, bucketCell s i ∈ (Fleet.run events).store.keys) ↔
      ∃ o ∈ observations s.1 events, o.1 = s.2 := by
  constructor
  · rintro ⟨i, hi⟩
    exact observed_of_posted ((ledger_run events).stored _ hi)
  · rintro ⟨o, ho, hkey⟩
    refine ⟨bucketIndex o.2, ?_⟩
    by_contra hmem
    have hzero : total (Fleet.run events).store (bucketCell s (bucketIndex o.2)) = 0 :=
      total_eq_zero fun e he heq => hmem (heq ▸ List.mem_map_of_mem he)
    rw [total_store h (by simp [bucketCell]), total_posts_bucket, Nat.cast_eq_zero, tally,
      List.countP_eq_zero] at hzero
    refine hzero o.2 ?_ (by simp)
    exact List.mem_map.2 ⟨o, List.mem_filter.2 ⟨ho, by simp [hkey]⟩, rfl⟩

/-! ## The items of a hash -/

theorem mem_keys_hash {store : Store} {key : HashKey} {field : Field} :
    field ∈ Dict.keys (store.hash key) ↔ (key, field) ∈ store.keys := by
  simp only [Dict.keys, Store.hash, List.mem_map, List.mem_filter, decide_eq_true_eq]
  constructor
  · rintro ⟨x, ⟨e, ⟨he, rfl⟩, rfl⟩, rfl⟩
    exact ⟨e, he, rfl⟩
  · rintro ⟨e, he, heq⟩
    exact ⟨(e.1.2, e.2), ⟨e, ⟨he, by rw [heq]⟩, rfl⟩, by rw [heq]⟩

theorem nodup_hash {store : Store} (h : store.keys.Nodup) (key : HashKey) :
    (Dict.keys (store.hash key)).Nodup := by
  induction store with
  | nil => simp [Store.hash]
  | cons e store ih =>
    rw [Dict.keys_cons, List.nodup_cons] at h
    by_cases hkey : e.1.1 = key
    · have hcons : Store.hash (e :: store) key = (e.1.2, e.2) :: Store.hash store key := by
        simp [Store.hash, hkey]
      rw [hcons, Dict.keys_cons, List.nodup_cons, mem_keys_hash]
      exact ⟨by simpa [← hkey] using h.1, ih h.2⟩
    · simpa [Store.hash, hkey] using ih h.2

theorem total_hash (store : Store) (key : HashKey) (field : Field) :
    total (store.hash key) field = total store (key, field) := by
  induction store with
  | nil => rfl
  | cons e store ih =>
    rw [total_cons, ← ih]
    by_cases hkey : e.1.1 = key
    · simp [Store.hash, hkey, total_cons, Prod.ext_iff]
    · simp [Store.hash, hkey, Prod.ext_iff]

/-- A reply whose fields all have one form, as the items it stands for. -/
theorem exists_items {X : Type} [DecidableEq X] {store : Store} (h : store.keys.Nodup)
    {key : HashKey} {g : X → Field} (hg : Function.Injective g)
    (hform : ∀ c ∈ store.keys, c.1 = key → ∃ x, g x = c.2) {raw : Raw}
    (hraw : raw.Perm (store.hash key)) :
    ∃ items : Dict X ℚ, (items.map fun e => (g e.1, e.2)) = raw ∧ items.keys.Nodup ∧
      (∀ x, x ∈ items.keys ↔ (key, g x) ∈ store.keys) ∧
      ∀ x, (items.get x).getD 0 = total store (key, g x) := by
  have hrange : raw ∈ Set.range (List.map fun e : X × ℚ => (g e.1, e.2)) := by
    rw [Set.range_list_map]
    intro e he
    have hmem : (key, e.1) ∈ store.keys :=
      mem_keys_hash.1 (List.mem_map_of_mem (hraw.mem_iff.1 he))
    obtain ⟨x, hx⟩ := hform _ hmem rfl
    exact ⟨(x, e.2), Prod.ext hx rfl⟩
  obtain ⟨items, rfl⟩ := hrange
  have hkeys : (Dict.keys items).map g = Dict.keys (items.map fun e => (g e.1, e.2)) := by
    simp [Dict.keys, Function.comp_def]
  have hperm : ((Dict.keys items).map g).Perm (Dict.keys (store.hash key)) := by
    rw [hkeys]
    exact hraw.map _
  have hnodup : (Dict.keys items).Nodup := (hperm.nodup_iff.2 (nodup_hash h key)).of_map
  refine ⟨items, rfl, hnodup, fun x => ?_, fun x => ?_⟩
  · rw [← mem_keys_hash, ← hperm.mem_iff, List.mem_map_of_injective hg]
  · rw [← total_eq_get hnodup, ← total_map_key hg, total_perm hraw, total_hash]

/-! ## The fleet shows what one histogram shows -/

theorem plainField_injective : Function.Injective fun s : Series => encodeField s.1 s.2.labels :=
  fun _ _ h => sumCell_inj.1 (Prod.ext rfl h)

theorem bucketField_injective :
    Function.Injective fun x : Series × Bucket => (bucketCell x.1 x.2).2 := by
  intro x y h
  obtain ⟨hs, hi⟩ := bucketCell_inj.1 (Prod.ext rfl h : bucketCell x.1 x.2 = bucketCell y.1 y.2)
  exact Prod.ext hs hi

/-- The items of the buckets are for the observed series. -/
theorem items_iff {events : List (Event n)} (h : Flushed events)
    {buckets : Dict (Series × Bucket) ℚ}
    (hstored : ∀ x, x ∈ buckets.keys ↔ bucketCell x.1 x.2 ∈ (Fleet.run events).store.keys)
    {name : MetricName} {key : Labels} :
    (∃ e ∈ buckets, e.1.1.1 = name ∧ e.1.1.2.labels = key) ↔
      ∃ o ∈ observations name events, o.1.labels = key := by
  constructor
  · rintro ⟨e, he, rfl, rfl⟩
    obtain ⟨o, ho, hkey⟩ := (stored_iff h e.1.1).1
      ⟨e.1.2, (hstored e.1).1 (List.mem_map_of_mem he)⟩
    exact ⟨o, ho, by rw [hkey]⟩
  · rintro ⟨o, ho, rfl⟩
    obtain ⟨i, hi⟩ := (stored_iff h (name, o.1)).2 ⟨o, ho, rfl⟩
    obtain ⟨e, he, heq⟩ := List.mem_map.1 ((hstored ((name, o.1), i)).2 hi)
    exact ⟨e, he, by rw [heq], by rw [heq]⟩

/-- What is rebuilt from the items is what the observations were. -/
theorem rebuilt_samples {events : List (Event n)} (h : Flushed events) (name : MetricName)
    {buckets : Dict (Series × Bucket) ℚ} {sums : Dict Series ℚ} (hbuckets : buckets.keys.Nodup)
    (hsums : sums.keys.Nodup)
    (hstored : ∀ x, x ∈ buckets.keys ↔ bucketCell x.1 x.2 ∈ (Fleet.run events).store.keys)
    (hcounts : ∀ x, (buckets.get x).getD 0 = total (Fleet.run events).store (bucketCell x.1 x.2))
    (htotals : ∀ s, (sums.get s).getD 0 = total (Fleet.run events).store (sumCell s)) :
    histogramSamples name.name
        (countsOf ((((buckets.map bucketItem).foldl addBucket []).get name.name).getD []))
        ((((sums.map plainItem).foldl addSum []).get name.name).getD []) =
      (single (observations name events)).samples name.name := by
  have hseries : ∀ key, (∃ e ∈ buckets, e.1.1.1 = name ∧ e.1.1.2.labels = key) →
      ∃ labels : LabelSet, labels.labels = key := by
    rintro key ⟨e, -, -, rfl⟩
    exact ⟨e.1.1.2, rfl⟩
  refine histogramSamples_congr ?_ (nodup_single _) (fun key => ?_) (fun key hkey => ?_)
    fun key hkey => ?_
  · rw [countsOf, Dict.keys_mapValues]
    exact nodup_keys_byLabels buckets name.name
  · rw [countsOf, Dict.keys_mapValues, mem_keys_byLabels, mem_single, items_iff h hstored]
  · rw [countsOf, Dict.keys_mapValues, mem_keys_byLabels] at hkey
    obtain ⟨labels, rfl⟩ := hseries key hkey
    ext i
    rw [countsOf_get hbuckets (name, labels) i, hcounts, single_counts,
      total_store h (by simp [bucketCell]), total_posts_bucket]
  · rw [countsOf, Dict.keys_mapValues, mem_keys_byLabels] at hkey
    obtain ⟨labels, rfl⟩ := hseries key hkey
    rw [sums_get hsums (name, labels), htotals, single_sums,
      total_store h (by simp [sumCell]), total_posts_sum]

/-- **The fleet's histogram is one histogram.**  Once every observation is flushed, a scrape
rebuilds one family for each observed histogram, from the hashes in whatever order they are
read; its samples are those of one histogram that saw every observation, and they are what the
observations call for. -/
theorem fleet_histogram (events : List (Event n)) (h : Flushed events) (name : MetricName)
    (countersRaw bucketsRaw sumsRaw : Raw) (gauges : List (List (Series × ℚ)))
    (hcounters : countersRaw.Perm ((Fleet.run events).store.hash .counters))
    (hbuckets : bucketsRaw.Perm ((Fleet.run events).store.hash .histCounts))
    (hsums : sumsRaw.Perm ((Fleet.run events).store.hash .histSums)) :
    (∃ families, workerFamilies countersRaw bucketsRaw sumsRaw
        (gauges.map fun g => g.map plainRaw) = some families ∧
      (families.filter fun f => f.kind = .histogram ∧ f.name = name.name) =
        if observations name events = [] then []
        else [⟨name.name, .histogram,
          (workerHistograms.get name.name).getD "Worker-sourced histogram.",
          (single (observations name events)).samples name.name⟩]) ∧
      (single (observations name events)).samples name.name =
        expectedSamples name.name (observations name events) := by
  refine ⟨?_, single_samples _ _⟩
  have hledger := ledger_run events
  have hcell := fun c hc => posted_cell (hledger.stored c hc)
  obtain ⟨counters, rfl, -⟩ := exists_items hledger.nodup plainField_injective
    (fun c hc hkey => by
      rcases hcell c hc with ⟨s, rfl⟩ | ⟨s, i, rfl⟩ | ⟨s, rfl⟩
      · exact ⟨s, rfl⟩
      · cases hkey
      · cases hkey) hcounters
  obtain ⟨buckets, rfl, hbnodup, hbstored, hbtotal⟩ := exists_items hledger.nodup
    bucketField_injective
    (fun c hc hkey => by
      rcases hcell c hc with ⟨s, rfl⟩ | ⟨s, i, rfl⟩ | ⟨s, rfl⟩
      · cases hkey
      · exact ⟨(s, i), rfl⟩
      · cases hkey) hbuckets
  obtain ⟨sums, rfl, hsnodup, -, hstotal⟩ := exists_items hledger.nodup plainField_injective
    (fun c hc hkey => by
      rcases hcell c hc with ⟨s, rfl⟩ | ⟨s, i, rfl⟩ | ⟨s, rfl⟩
      · cases hkey
      · cases hkey
      · exact ⟨s, rfl⟩) hsums
  obtain ⟨families, hfamilies, hfilter⟩ := filter_workerFamilies counters gauges buckets sums name
  have hpresent : (∃ e ∈ buckets, e.1.1.1 = name) ↔ ¬ observations name events = [] := by
    constructor
    · rintro ⟨e, he, hname⟩ hnone
      obtain ⟨o, ho, -⟩ := (items_iff h hbstored).1 ⟨e, he, hname, rfl⟩
      simp [hnone] at ho
    · intro hne
      obtain ⟨o, ho⟩ := List.exists_mem_of_ne_nil _ hne
      obtain ⟨e, he, hname, -⟩ := (items_iff h hbstored).2 ⟨o, ho, rfl⟩
      exact ⟨e, he, hname⟩
  refine ⟨families, hfamilies, ?_⟩
  rw [hfilter, filter_histogramFamilies,
    rebuilt_samples h name hbnodup hsnodup hbstored hbtotal hstotal]
  by_cases hnone : observations name events = [] <;> simp [hpresent, hnone]

/-- Two workers that each time a page, and one that times another after a flush. -/
def pageDuration : Series := (⟨"orch_page_duration_seconds", by decide⟩, ⟨[], .nil, by simp⟩)

def shift : List (Event 2) :=
  [.observe 0 pageDuration (1 / 5), .observe 1 pageDuration (7 / 10), .flush 1,
    .observe 1 pageDuration 2, .flush 0, .flush 1]

theorem fleet_histogram_shift : Flushed shift ∧
    (∃ families, workerFamilies ((Fleet.run shift).store.hash .counters)
        ((Fleet.run shift).store.hash .histCounts) ((Fleet.run shift).store.hash .histSums) [] =
          some families ∧
      (families.filter fun f => f.kind = .histogram ∧ f.name = pageDuration.1.name) =
        if observations pageDuration.1 shift = [] then []
        else [⟨pageDuration.1.name, .histogram,
          (workerHistograms.get pageDuration.1.name).getD "Worker-sourced histogram.",
          (single (observations pageDuration.1 shift)).samples pageDuration.1.name⟩]) ∧
      (single (observations pageDuration.1 shift)).samples pageDuration.1.name =
        expectedSamples pageDuration.1.name (observations pageDuration.1 shift) := by
  have hflushed : Flushed shift := by simp [Flushed, shift]
  exact ⟨hflushed, fleet_histogram shift hflushed pageDuration.1 _ _ _ [] (.refl _) (.refl _)
    (.refl _)⟩

/-! ## In doubles

The sums of observations are rounded at every addition.  The same program in an arithmetic, which
has rounded the bounds of the buckets, too; Redis adds in a wider one than the workers do, which
makes no difference to the sums below. -/

section InDoubles
variable (R : Rounding)

/-- The loop of `observe`. -/
def bucketIndexIn (value : ℚ) : Bucket :=
  ((List.finRange 14).find? fun i => (value : WithTop ℚ) ≤ (bound i).map R.round).getD (Fin.last 13)

/-- `counts[index] += 1`. -/
def tickIn (value : ℚ) (counts : Option (Bucket → ℚ)) : Bucket → ℚ :=
  let counts := counts.getD fun _ => 0
  Function.update counts (bucketIndexIn R value) (R.add (counts (bucketIndexIn R value)) 1)

/-- `Histogram.observe` of a registry. -/
def Registry.observeIn (r : Registry) (s : Series) (value : ℚ) : Registry :=
  { r with counts := r.counts.update s (tickIn R value)
           sums := r.sums.update s fun o => R.add (o.getD 0) value }

/-- `Counter.inc`. -/
def Registry.incIn (r : Registry) (s : Series) (amount : ℚ) : Registry :=
  { r with counters := r.counters.update s fun o => R.add (o.getD 0) amount }

/-- The pipeline of a flush, applied. -/
def Store.applyIn (store : Store) (r : Registry) : Store :=
  (increments r).foldl (fun d e => d.update e.1 fun o => R.add (o.getD 0) e.2) store

def Fleet.stepIn (f : Fleet n) : Event n → Fleet n
  | .inc w s amount =>
    { f with workers := Function.update f.workers w ((f.workers w).incIn R s amount) }
  | .observe w s value =>
    { f with workers := Function.update f.workers w ((f.workers w).observeIn R s value) }
  | .flush w => ⟨Function.update f.workers w .empty, f.store.applyIn R (f.workers w)⟩

def Fleet.runIn (events : List (Event n)) : Fleet n := events.foldl (Fleet.stepIn R) Fleet.init

def Histogram.observeIn (h : Histogram) (key : LabelSet) (value : ℚ) : Histogram where
  counts := h.counts.update key.labels (tickIn R value)
  sums := h.sums.update key.labels fun o => R.add (o.getD 0) value

/-- The one histogram. -/
def singleIn (obs : List (LabelSet × ℚ)) : Histogram :=
  obs.foldl (fun h o => h.observeIn R o.1 o.2) ⟨[], []⟩

end InDoubles

theorem tickIn_exact (value : ℚ) : tickIn .exact value = tick value := by
  have hbound : ∀ i, (bound i).map Rounding.exact.round = bound i :=
    fun i => congrFun WithTop.map_id (bound i)
  have hindex : bucketIndexIn .exact value = bucketIndex value := by
    simp only [bucketIndexIn, hbound, bucketIndex]
  funext counts
  simp only [tickIn, hindex, tick]
  rfl

/-- Without rounding it is the same program. -/
theorem runIn_exact (events : List (Event n)) : Fleet.runIn .exact events = Fleet.run events := by
  have hstep : ∀ (f : Fleet n) (e : Event n), f.stepIn .exact e = f.step e := by
    intro f e
    cases e with
    | inc w s amount => rfl
    | observe w s value =>
      simp only [Fleet.stepIn, Fleet.step, Registry.observeIn, Registry.observe, tickIn_exact]
      rfl
    | flush w => rfl
  rw [Fleet.runIn, Fleet.run]
  exact List.foldl_ext _ _ _ fun f e _ => hstep f e

theorem singleIn_exact (obs : List (LabelSet × ℚ)) : singleIn .exact obs = single obs := by
  rw [singleIn, single, Histogram.observeAll]
  refine List.foldl_ext _ _ _ fun h o _ => ?_
  simp only [Histogram.observeIn, Histogram.observe, tickIn_exact]
  rfl

/-- Three pages that take 0.1, 0.2 and 0.3 seconds, the first at one worker. -/
def tenths : List (Event 2) :=
  [.observe 0 pageDuration (binary64.round (1 / 10)),
    .observe 1 pageDuration (binary64.round (2 / 10)),
    .observe 1 pageDuration (binary64.round (3 / 10)), .flush 0, .flush 1]

/-- The fleet comes to 0.6, and the one histogram to 0.6000000000000001. -/
theorem fleet_histogram_rounds : Flushed tenths ∧
    (workerFamilies ((Fleet.runIn binary64 tenths).store.hash .counters)
        ((Fleet.runIn binary64 tenths).store.hash .histCounts)
        ((Fleet.runIn binary64 tenths).store.hash .histSums) []).map
      (fun families => (families.filter fun f =>
        f.kind = .histogram ∧ f.name = pageDuration.1.name).map fun f => f.samples.map (·.value)) =
      some [[0, 0, 0, 1, 2, 3, 3, 3, 3, 3, 3, 3, 3, 3, binary64.round (6 / 10), 3]] ∧
    ((singleIn binary64 (observations pageDuration.1 tenths)).samples pageDuration.1.name).map
        (·.value) =
      [0, 0, 0, 1, 2, 3, 3, 3, 3, 3, 3, 3, 3, 3, binary64.round (6 / 10) + 1 / 2 ^ 53, 3] := by
  refine ⟨by simp [Flushed, tenths], ?_, ?_⟩
  · decide +kernel
  · decide +kernel

end Metrics
end OcrOrchestrator
