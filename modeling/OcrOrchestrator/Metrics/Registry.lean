import OcrOrchestrator.Lib.Dict
import OcrOrchestrator.Lib.JsonText
import Mathlib.Algebra.BigOperators.Fin
import Mathlib.Algebra.Order.Monoid.Unbundled.WithTop
import Mathlib.Algebra.Order.Ring.Rat
import Mathlib.Data.List.Lex
import Mathlib.Data.Prod.Lex
import Mathlib.Data.String.Basic
import Mathlib.Logic.Function.Basic
import Mathlib.Tactic.Ring

/-!
# Metrics of one process

`common/metrics.py`: counters and histograms, how a worker ships what they have accumulated
to Redis, and how a hash field names a series.

A registry is kept as one dictionary a kind, keyed by metric name and label set; the metrics of
a registry have different names.  Numbers are rational where the code has floats, so sums do not
round (`Fleet.runIn` says what it is like when they do).  Gauges go to keys of their own, which are
those of `Metrics.Gauges`.

## Main definitions

* `encodeField`, `decodeField` — a series as a hash field and back.
* `Registry.inc`, `Registry.observe` — what is recorded.
* `increments`, `Store.apply` — the pipeline of one flush, and its effect.
-/

namespace OcrOrchestrator
namespace Metrics

open Lib

/-! ## Series and fields -/

/-- A label and its value.  Pairs are compared like tuples. -/
abbrev Label := String ×ₗ String

abbrev Labels := List Label

/-- `_SEP`, the unit separator. -/
def sep : Char := '\x1f'

/-- The name of a metric; the separator is not legal in one. -/
structure MetricName where
  name : String
  legal : sep ∉ name.toList
deriving DecidableEq

/-- A label set as `_key` returns it: ascending, each label once.  `le` is taken by the bounds of
histograms. -/
structure LabelSet where
  labels : Labels
  ascending : labels.Pairwise fun a b => (ofLex a).1 < (ofLex b).1
  noLe : ∀ l ∈ labels, (ofLex l).1 ≠ "le"
deriving DecidableEq

/-- A metric and a label set. -/
abbrev Series := MetricName × LabelSet

/-- `sorted(labels.items())`. -/
def sortLabels (labels : Labels) : Labels := labels.insertionSort (· ≤ ·)

/-- A field of a Redis hash. -/
abbrev Field := List Char

/-- `encode_field`. -/
def encodeField (name : MetricName) (labels : Labels) : Field :=
  name.name.toList ++ sep :: JsonText.dumps ((sortLabels labels).map ofLex)

/-- `decode_field`; `none` is the exception of `json.loads`. -/
def decodeField (field : Field) : Option (String × Labels) :=
  let name := String.ofList (field.takeWhile (· ≠ sep))
  let encoded := (field.dropWhile (· ≠ sep)).drop 1
  if encoded.isEmpty then some (name, [])
  else (JsonText.loads encoded).map fun members => (name, members.map toLex)

/-- `labels.pop("le", None)`: the bound, and the labels without it. -/
def popLe (labels : Labels) : Option String × Labels :=
  ((labels.find? fun l => (ofLex l).1 = "le").map fun l => (ofLex l).2,
    labels.filter fun l => (ofLex l).1 ≠ "le")

/-- `{**labels, "le": bound}`, of labels without one. -/
def withLe (labels : Labels) (bound : String) : Labels := labels ++ [toLex ("le", bound)]

/-! ### A field names its series -/

theorem MetricName.ext {a b : MetricName} (h : a.name = b.name) : a = b := by
  cases a
  cases b
  simpa using h

theorem LabelSet.ext {a b : LabelSet} (h : a.labels = b.labels) : a = b := by
  cases a
  cases b
  simpa using h

theorem decodeField_encodeField (name : MetricName) (labels : Labels) :
    decodeField (encodeField name labels) = some (name.name, sortLabels labels) := by
  have hname : ∀ c ∈ name.name.toList, (c ≠ sep : Bool) = true := by
    intro c hc
    have : c ≠ sep := fun heq => name.legal (heq ▸ hc)
    simpa using this
  have htake : (encodeField name labels).takeWhile (fun c => (c ≠ sep : Bool)) =
      name.name.toList := by
    rw [encodeField, List.takeWhile_append_of_pos hname]
    simp
  have hdrop : (encodeField name labels).dropWhile (fun c => (c ≠ sep : Bool)) =
      sep :: JsonText.dumps ((sortLabels labels).map ofLex) := by
    rw [encodeField, List.dropWhile_append_of_pos hname]
    simp
  have hback : ((sortLabels labels).map ofLex).map toLex = sortLabels labels := by
    rw [List.map_map]
    exact List.map_id _
  rw [decodeField, htake, hdrop, List.drop_one, List.tail_cons, String.ofList_toList,
    if_neg (by simp [JsonText.dumps]), JsonText.loads_dumps, Option.map_some, hback]

/-- A key is sorted already. -/
theorem sortLabels_labels (s : LabelSet) : sortLabels s.labels = s.labels := by
  refine List.Pairwise.insertionSort_eq (s.ascending.imp ?_)
  intro a b hab
  exact (Prod.Lex.le_iff).2 (.inl hab)

/-- The bound comes off again, and what is left sorts to the key. -/
theorem popLe_sortLabels_withLe (s : LabelSet) (bound : String) :
    (popLe (sortLabels (withLe s.labels bound))).1 = some bound ∧
      sortLabels (popLe (sortLabels (withLe s.labels bound))).2 = s.labels := by
  have hperm : (sortLabels (withLe s.labels bound)).Perm (withLe s.labels bound) :=
    List.perm_insertionSort _ _
  constructor
  · have hfilter := hperm.filter fun l => (ofLex l).1 = "le"
    have hbound : ((withLe s.labels bound).filter fun l => (ofLex l).1 = "le") =
        [toLex ("le", bound)] := by
      have hnone : (s.labels.filter fun l => (ofLex l).1 = "le") = [] := by
        simpa [List.filter_eq_nil_iff] using s.noLe
      simp [withLe, hnone]
    rw [hbound, List.perm_singleton] at hfilter
    rw [popLe, ← List.head?_filter, hfilter]
    rfl
  · have hfilter := hperm.filter fun l => (ofLex l).1 ≠ "le"
    have hkept : ((withLe s.labels bound).filter fun l => (ofLex l).1 ≠ "le") = s.labels := by
      simpa [withLe] using s.noLe
    rw [hkept] at hfilter
    exact (insertionSort_eq_of_perm hfilter).trans (sortLabels_labels s)

/-! ## Buckets -/

/-- `DEFAULT_BUCKETS`, in seconds. -/
def defaultBuckets : List ℚ :=
  [1 / 100, 25 / 1000, 5 / 100, 1 / 10, 25 / 100, 5 / 10, 1, 15 / 10, 2, 3, 5, 10, 30]

/-- The buckets: the default bounds, and infinity. -/
abbrev Bucket := Fin 14

/-- The upper bound of a bucket. -/
def bound (i : Bucket) : WithTop ℚ := (defaultBuckets[i]?).elim ⊤ fun q => (q : WithTop ℚ)

/-- `repr` of the numbers that the bounds are: up to 16 decimals, neither very large nor very
small. -/
def reprFloat (q : ℚ) : String :=
  let digits := ((List.range 17).find? fun k => (q * 10 ^ k).den = 1).getD 16
  let scaled := (q * 10 ^ digits).num
  let fraction := toString (scaled.natAbs % 10 ^ digits)
  toString (scaled.natAbs / 10 ^ digits) ++ "." ++
    String.ofList (List.replicate (digits - fraction.length) '0') ++ fraction

/-- `_format_value`, of a bound. -/
def formatValue (q : ℚ) : String :=
  if q.den = 1 ∧ |q| < 10 ^ 15 then toString q.num else reprFloat q

/-- `_format_bucket_bound`. -/
def formatBucketBound : WithTop ℚ → String
  | ⊤ => "+Inf"
  | (q : ℚ) => formatValue q

/-- The loop of `observe`: the first bucket whose bound is not below the value. -/
def bucketIndex (value : ℚ) : Bucket :=
  ((List.finRange 14).find? fun i => (value : WithTop ℚ) ≤ bound i).getD (Fin.last 13)

/-- No two bounds are written alike. -/
theorem formatBucketBound_injective :
    Function.Injective fun i : Bucket => formatBucketBound (bound i) := by
  unfold Function.Injective
  decide +kernel

/-! ## What is recorded -/

/-- Counters by series, and for histograms the counts of the buckets and the sums. -/
structure Registry where
  counters : Dict Series ℚ
  counts : Dict Series (Bucket → ℚ)
  sums : Dict Series ℚ

/-- A registry that was drained. -/
def Registry.empty : Registry := ⟨[], [], []⟩

/-- `counts[index] += 1`, on counts that start at zero. -/
def tick (value : ℚ) (counts : Option (Bucket → ℚ)) : Bucket → ℚ :=
  let counts := counts.getD fun _ => 0
  Function.update counts (bucketIndex value) (counts (bucketIndex value) + 1)

namespace Registry

/-- `Counter.inc`, by an amount that is not negative. -/
def inc (r : Registry) (s : Series) (amount : ℚ) : Registry :=
  { r with counters := r.counters.update s fun o => o.getD 0 + amount }

/-- `Histogram.observe`. -/
def observe (r : Registry) (s : Series) (value : ℚ) : Registry :=
  { r with counts := r.counts.update s (tick value)
           sums := r.sums.update s fun o => o.getD 0 + value }

end Registry

/-! ## Shipping -/

/-- `COUNTER_KEY`, `HISTOGRAM_COUNT_KEY` and `HISTOGRAM_SUM_KEY`. -/
inductive HashKey where
  | counters
  | histCounts
  | histSums
deriving DecidableEq

/-- A field of one of the three shared hashes. -/
abbrev Cell := HashKey × Field

/-- The shared hashes. -/
abbrev Store := Dict Cell ℚ

def counterCell (s : Series) : Cell := (.counters, encodeField s.1 s.2.labels)

def bucketCell (s : Series) (i : Bucket) : Cell :=
  (.histCounts, encodeField s.1 (withLe s.2.labels (formatBucketBound (bound i))))

def sumCell (s : Series) : Cell := (.histSums, encodeField s.1 s.2.labels)

theorem series_eq_iff {s t : Series} :
    s = t ↔ s.1.name = t.1.name ∧ s.2.labels = t.2.labels :=
  ⟨fun h => by simp [h], fun h => Prod.ext (MetricName.ext h.1) (LabelSet.ext h.2)⟩

/-- The cells of a series are its own. -/
theorem bucketCell_inj {s t : Series} {i j : Bucket} :
    bucketCell s i = bucketCell t j ↔ s = t ∧ i = j := by
  refine ⟨fun h => ?_, fun h => by rw [h.1, h.2]⟩
  have hfield := congrArg decodeField (Prod.ext_iff.1 h).2
  simp only [bucketCell, decodeField_encodeField, Option.some.injEq, Prod.mk.injEq] at hfield
  obtain ⟨hname, hlabels⟩ := hfield
  have hs := popLe_sortLabels_withLe s.2 (formatBucketBound (bound i))
  have ht := popLe_sortLabels_withLe t.2 (formatBucketBound (bound j))
  rw [hlabels] at hs
  have hbound : formatBucketBound (bound i) = formatBucketBound (bound j) :=
    Option.some.inj (hs.1.symm.trans ht.1)
  exact ⟨series_eq_iff.2 ⟨hname, hs.2.symm.trans ht.2⟩, formatBucketBound_injective hbound⟩

theorem sumCell_inj {s t : Series} : sumCell s = sumCell t ↔ s = t := by
  refine ⟨fun h => ?_, fun h => by rw [h]⟩
  have hfield := congrArg decodeField (Prod.ext_iff.1 h).2
  simp only [sumCell, decodeField_encodeField, Option.some.injEq, Prod.mk.injEq,
    sortLabels_labels] at hfield
  exact series_eq_iff.2 hfield

/-- The increment of a field, unless it is zero. -/
def nonzero (c : Cell) (v : ℚ) : List (Cell × ℚ) := if v ≠ 0 then [(c, v)] else []

/-- The `HINCRBYFLOAT`s of a flush.  Every series has a field of its own in each hash, so the
dictionaries the code collects them in hold each of these once. -/
def increments (r : Registry) : List (Cell × ℚ) :=
  (r.counters.flatMap fun e => nonzero (counterCell e.1) e.2) ++
    (r.counts.flatMap fun e =>
      (List.finRange 14).flatMap fun i => nonzero (bucketCell e.1 i) (e.2 i)) ++
    r.sums.flatMap fun e => nonzero (sumCell e.1) e.2

/-- The pipeline of a flush, applied. -/
def Store.apply (store : Store) (r : Registry) : Store := store.addAll (increments r)

/-! ## What an operation adds to the next flush -/

theorem total_nonzero (c c' : Cell) (v : ℚ) :
    total (nonzero c v) c' = if c = c' then v else 0 := by
  unfold nonzero
  by_cases hv : v = 0 <;> simp [hv, total_cons]

@[simp] theorem increments_empty : increments Registry.empty = [] := rfl

theorem total_increments_inc (r : Registry) (s : Series) (a : ℚ) (c : Cell) :
    total (increments (r.inc s a)) c =
      total (increments r) c + if counterCell s = c then a else 0 := by
  have hcounters := total_flatMap_update (fun e => nonzero (counterCell e.1) e.2)
    (fun c => if counterCell s = c then a else 0) (k := s) (f := fun o => o.getD 0 + a) (c := c)
    (by simp [total_nonzero])
    (fun v => by by_cases h : counterCell s = c <;> simp [total_nonzero, h]) r.counters
  simp only [increments, Registry.inc, total_append, hcounters]
  ring

/-- The buckets of one series. -/
theorem total_buckets (s : Series) (counts : Bucket → ℚ) (c : Cell) :
    total ((List.finRange 14).flatMap fun i => nonzero (bucketCell s i) (counts i)) c =
      ∑ i, if bucketCell s i = c then counts i else 0 := by
  rw [Fin.sum_univ_def]
  induction List.finRange 14 with
  | nil => rfl
  | cons i is ih => simp [total_append, total_nonzero, ih]

theorem tick_apply (value : ℚ) (o : Option (Bucket → ℚ)) (i : Bucket) :
    tick value o i = (o.getD fun _ => 0) i + if i = bucketIndex value then 1 else 0 := by
  by_cases h : i = bucketIndex value
  · subst h
    simp [tick]
  · simp [tick, h]

theorem total_buckets_tick (s : Series) (value : ℚ) (o : Option (Bucket → ℚ)) (c : Cell) :
    total ((List.finRange 14).flatMap fun i => nonzero (bucketCell s i) (tick value o i)) c =
      (∑ i, if bucketCell s i = c then (o.getD fun _ => 0) i else 0) +
        if bucketCell s (bucketIndex value) = c then 1 else 0 := by
  have hpoint : ∀ i, (if bucketCell s i = c then tick value o i else 0) =
      (if bucketCell s i = c then (o.getD fun _ => 0) i else 0) +
        if i = bucketIndex value then (if bucketCell s i = c then 1 else 0) else 0 := by
    intro i
    rw [tick_apply]
    by_cases hc : bucketCell s i = c <;> simp [hc]
  rw [total_buckets, Finset.sum_congr rfl fun i _ => hpoint i, Finset.sum_add_distrib,
    Finset.sum_ite_eq']
  simp

theorem total_increments_observe (r : Registry) (s : Series) (value : ℚ) (c : Cell) :
    total (increments (r.observe s value)) c = total (increments r) c +
      ((if bucketCell s (bucketIndex value) = c then 1 else 0) +
        if sumCell s = c then value else 0) := by
  have hcounts := total_flatMap_update
    (fun e : Series × (Bucket → ℚ) =>
      (List.finRange 14).flatMap fun i => nonzero (bucketCell e.1 i) (e.2 i))
    (fun c => if bucketCell s (bucketIndex value) = c then 1 else 0) (k := s) (f := tick value)
    (c := c) (by rw [total_buckets_tick]; simp)
    (fun counts => by rw [total_buckets_tick, total_buckets]; simp) r.counts
  have hsums := total_flatMap_update (fun e => nonzero (sumCell e.1) e.2)
    (fun c => if sumCell s = c then value else 0) (k := s) (f := fun o => o.getD 0 + value)
    (c := c) (by simp [total_nonzero])
    (fun v => by by_cases h : sumCell s = c <;> simp [total_nonzero, h]) r.sums
  simp only [increments, Registry.observe, total_append, hcounts, hsums]
  ring

/-! ### Where the next flush writes -/

theorem mem_nonzero {e : Cell × ℚ} {c : Cell} {v : ℚ} : e ∈ nonzero c v ↔ v ≠ 0 ∧ e = (c, v) := by
  unfold nonzero
  by_cases hv : v = 0 <;> simp [hv]

/-- `increments` writes to a cell. -/
def Writes (r : Registry) (c : Cell) : Prop := c ∈ (increments r).map Prod.fst

theorem writes_iff {r : Registry} {c : Cell} : Writes r c ↔
    (∃ e ∈ r.counters, e.2 ≠ 0 ∧ c = counterCell e.1) ∨
      (∃ e ∈ r.counts, ∃ i, e.2 i ≠ 0 ∧ c = bucketCell e.1 i) ∨
        ∃ e ∈ r.sums, e.2 ≠ 0 ∧ c = sumCell e.1 := by
  simp only [Writes, increments, List.mem_map, List.mem_append, List.mem_flatMap, mem_nonzero,
    List.mem_finRange, true_and]
  constructor
  · rintro ⟨x, (⟨e, he, hne, rfl⟩ | ⟨e, he, i, hne, rfl⟩) | ⟨e, he, hne, rfl⟩, rfl⟩
    · exact .inl ⟨e, he, hne, rfl⟩
    · exact .inr (.inl ⟨e, he, i, hne, rfl⟩)
    · exact .inr (.inr ⟨e, he, hne, rfl⟩)
  · rintro (⟨e, he, hne, rfl⟩ | ⟨e, he, i, hne, rfl⟩ | ⟨e, he, hne, rfl⟩)
    · exact ⟨_, .inl (.inl ⟨e, he, hne, rfl⟩), rfl⟩
    · exact ⟨_, .inl (.inr ⟨e, he, i, hne, rfl⟩), rfl⟩
    · exact ⟨_, .inr ⟨e, he, hne, rfl⟩, rfl⟩

theorem not_writes_empty (c : Cell) : ¬ Writes Registry.empty c := by simp [Writes]

theorem writes_inc {r : Registry} {s : Series} {a : ℚ} {c : Cell} (h : Writes (r.inc s a) c) :
    Writes r c ∨ c = counterCell s := by
  rw [writes_iff] at h ⊢
  rcases h with ⟨e, he, hne, rfl⟩ | hrest
  · rcases Dict.mem_update he with hold | rfl | ⟨v, -, rfl⟩
    · exact .inl (.inl ⟨e, hold, hne, rfl⟩)
    · exact .inr rfl
    · exact .inr rfl
  · exact .inl (.inr hrest)

theorem writes_observe {r : Registry} {s : Series} {value : ℚ} {c : Cell}
    (h : Writes (r.observe s value) c) :
    Writes r c ∨ c = bucketCell s (bucketIndex value) ∨ c = sumCell s := by
  rw [writes_iff] at h ⊢
  rcases h with hcounters | ⟨e, he, i, hne, rfl⟩ | ⟨e, he, hne, rfl⟩
  · exact .inl (.inl hcounters)
  · by_cases hi : i = bucketIndex value
    · rcases Dict.mem_update he with hold | rfl | ⟨v, -, rfl⟩
      · exact .inl (.inr (.inl ⟨e, hold, i, hne, rfl⟩))
      · exact .inr (.inl (by rw [hi]))
      · exact .inr (.inl (by rw [hi]))
    · -- the other buckets count what they counted
      rcases Dict.mem_update he with hold | rfl | ⟨v, hv, rfl⟩
      · exact .inl (.inr (.inl ⟨e, hold, i, hne, rfl⟩))
      · simp [tick_apply, hi] at hne
      · exact .inl (.inr (.inl ⟨(s, v), hv, i, by simpa [tick_apply, hi] using hne, rfl⟩))
  · rcases Dict.mem_update he with hold | rfl | ⟨v, -, rfl⟩
    · exact .inl (.inr (.inr ⟨e, hold, hne, rfl⟩))
    · exact .inr (.inr rfl)
    · exact .inr (.inr rfl)

end Metrics
end OcrOrchestrator
