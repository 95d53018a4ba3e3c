import OcrOrchestrator.Lib.Greedy
import Mathlib.Algebra.Order.Monoid.Unbundled.WithTop
import Mathlib.Algebra.Order.Ring.Rat
import Mathlib.Data.List.Sort
import Mathlib.Tactic.Positivity
import Mathlib.Tactic.Ring

/-!
# Boxes, their overlap, and how they are matched

`app/eval/iou.py`.  Coordinates are rational where the code has floats, which round
(`Eval.RoundedBox`), and the infinite `mean_iou` is `⊤`.

Predicted boxes are matched with true ones greedily, on falling overlap.  What the matching
guarantees is in `matchBoxes_guarantees`; that a threshold may be applied after the matching
instead of during it is in `claim_filter`.

## Main definitions

* `Box`, `asBox`, `Box.iou` — coercion and overlap.
* `candidates`, `matchBoxes` — the pairs that overlap, and the greedy matching.
* `BoxReport`, `scoreBoxes` — counts at a threshold, and the rates taken from them.
-/

namespace OcrOrchestrator
namespace Eval

open Lib

/-! ## Boxes -/

/-- An axis-aligned box. -/
structure Box where
  x : ℚ
  y : ℚ
  w : ℚ
  h : ℚ
deriving DecidableEq, Repr

namespace Box

/-- `from_xyxy`: from corner coordinates, normalising inverted corners. -/
def fromXyxy (x1 y1 x2 y2 : ℚ) : Box :=
  ⟨min x1 x2, min y1 y2, |x2 - x1|, |y2 - y1|⟩

def area (b : Box) : ℚ := b.w * b.h

def x2 (b : Box) : ℚ := b.x + b.w

def y2 (b : Box) : ℚ := b.y + b.h

end Box

/-- What `as_box` may be given: a box, a mapping, of which it reads four keys, a sequence of
numbers, or something else of the named type. -/
inductive BoxLike where
  | box (b : Box)
  | mapping (x y w h : Option ℚ)
  | sequence (values : List ℚ)
  | other (typeName : String)

/-- The errors of the module: "box mapping is missing {key!r}: {obj!r}", "box sequence must
have 4 elements, got {n}", "cannot interpret {type} as a box: {obj!r}", "box has negative
extent {box!r}; …" and "cannot aggregate mixed thresholds: {sorted(thresholds)}". -/
inductive BoxError where
  | missing (key : String)
  | elements (n : ℕ)
  | uninterpretable (typeName : String)
  | negativeExtent (box : Box)
  | mixedThresholds (thresholds : List ℚ)
deriving DecidableEq, Repr

/-- `obj[key]` of a mapping. -/
def field (key : String) : Option ℚ → Except BoxError ℚ
  | some value => .ok value
  | none => .error (.missing key)

/-- The first half of `as_box`: read the four numbers. -/
def coerceBox : BoxLike → Except BoxError Box
  | .box b => .ok b
  | .mapping x y w h => do
    let x ← field "x" x
    let y ← field "y" y
    let w ← field "w" w
    let h ← field "h" h
    return ⟨x, y, w, h⟩
  | .sequence [x, y, w, h] => .ok ⟨x, y, w, h⟩
  | .sequence values => .error (.elements values.length)
  | .other typeName => .error (.uninterpretable typeName)

/-- `as_box`: coerce, and refuse a negative extent. -/
def asBox (obj : BoxLike) : Except BoxError Box := do
  let box ← coerceBox obj
  if box.w < 0 ∨ box.h < 0 then .error (.negativeExtent box) else .ok box

/-- `as_boxes`. -/
def asBoxes (objs : List BoxLike) : Except BoxError (List Box) :=
  objs.mapM asBox

/-- The overlap of two boxes that have been coerced: intersection over union. -/
def Box.iou (boxA boxB : Box) : ℚ :=
  let overlapW := max 0 (min boxA.x2 boxB.x2 - max boxA.x boxB.x)
  let overlapH := max 0 (min boxA.y2 boxB.y2 - max boxA.y boxB.y)
  let intersection := overlapW * overlapH
  let union := boxA.area + boxB.area - intersection
  if union ≤ 0 then 0 else intersection / union

/-- `iou`. -/
def iou (a b : BoxLike) : Except BoxError ℚ := do
  let boxA ← asBox a
  let boxB ← asBox b
  return boxA.iou boxB

/-! ## Matching -/

/-- A predicted box, a true one, and their overlap. -/
structure Match where
  predictedIndex : ℕ
  truthIndex : ℕ
  iou : ℚ
deriving DecidableEq, Repr

/-- A one-to-one correspondence, and what it could not account for. -/
structure Matching where
  matched : List Match
  unmatchedPredicted : List ℕ
  unmatchedTruth : List ℕ

/-- `iou_sum`. -/
def Matching.iouSum (m : Matching) : ℚ := (m.matched.map Match.iou).sum

/-- The pairs with a positive score, row by row. -/
def candidatesBy (score : Box → Box → ℚ) (predictedBoxes truthBoxes : List Box) : List Match :=
  predictedBoxes.zipIdx.flatMap fun (predictedBox, i) =>
    truthBoxes.zipIdx.filterMap fun (truthBox, j) =>
      let score := score predictedBox truthBox
      if score > 0 then some ⟨i, j, score⟩ else none

/-- The pairs that overlap.  `as_boxes` has accepted both lists, so the coercion inside `iou`
returns its arguments (`iou_of_asBox`). -/
def candidates (predictedBoxes truthBoxes : List Box) : List Match :=
  candidatesBy Box.iou predictedBoxes truthBoxes

/-- The order of the sort key `(-score, i, j)`. -/
def Match.KeyLe (a b : Match) : Prop :=
  b.iou < a.iou ∨ (a.iou = b.iou ∧ (a.predictedIndex < b.predictedIndex ∨
    (a.predictedIndex = b.predictedIndex ∧ a.truthIndex ≤ b.truthIndex)))

instance : DecidableRel Match.KeyLe := fun a b => by
  unfold Match.KeyLe
  infer_instance

/-- Sort the candidates, then take each whose two boxes are unclaimed. -/
def claim (pairs : List Match) : Greedy Match ℕ ℕ :=
  greedy Match.predictedIndex Match.truthIndex (pairs.insertionSort Match.KeyLe)

/-- `match_boxes`: greedy one-to-one matching on descending overlap. -/
def matchBoxes (predicted truth : List BoxLike) : Except BoxError Matching := do
  let predictedBoxes ← asBoxes predicted
  let truthBoxes ← asBoxes truth
  let walk := claim (candidates predictedBoxes truthBoxes)
  return {
    matched := walk.chosen
    unmatchedPredicted := (List.range predictedBoxes.length).filter fun i => i ∉ walk.left
    unmatchedTruth := (List.range truthBoxes.length).filter fun j => j ∉ walk.right }

/-! ## Scoring -/

/-- `DEFAULT_THRESHOLD`. -/
def defaultThreshold : ℚ := 1 / 2

/-- Counts and sums at a threshold. -/
structure BoxReport where
  truePositives : ℕ
  falsePositives : ℕ
  falseNegatives : ℕ
  iouSum : ℚ
  matchedCount : ℕ
  truthCount : ℕ
  threshold : ℚ
deriving DecidableEq, Repr

/-- Of the boxes predicted, how many landed on a true one. -/
def BoxReport.precision (r : BoxReport) : ℚ :=
  let predicted := r.truePositives + r.falsePositives
  if predicted = 0 then 1 else r.truePositives / predicted

/-- Of the true boxes, how many were found. -/
def BoxReport.recall (r : BoxReport) : ℚ :=
  let relevant := r.truePositives + r.falseNegatives
  if relevant = 0 then 1 else r.truePositives / relevant

def BoxReport.f1 (r : BoxReport) : ℚ :=
  if r.precision + r.recall = 0 then 0
  else 2 * r.precision * r.recall / (r.precision + r.recall)

/-- Overlap charged against every true box. -/
def BoxReport.meanIou (r : BoxReport) : WithTop ℚ :=
  if r.truthCount = 0 then if r.iouSum = 0 then 0 else ⊤
  else ((r.iouSum / r.truthCount : ℚ) : WithTop ℚ)

/-- Overlap over the matches only. -/
def BoxReport.meanMatchedIou (r : BoxReport) : ℚ :=
  if r.matchedCount = 0 then 0 else r.iouSum / r.matchedCount

/-- `score_boxes`: match, then classify at `threshold`. -/
def scoreBoxes (predicted truth : List BoxLike) (threshold : ℚ) : Except BoxError BoxReport := do
  let matching ← matchBoxes predicted truth
  let truePositives := matching.matched.countP fun m => threshold ≤ m.iou
  let weak := matching.matched.length - truePositives
  return {
    truePositives := truePositives
    falsePositives := matching.unmatchedPredicted.length + weak
    falseNegatives := matching.unmatchedTruth.length + weak
    iouSum := matching.iouSum
    matchedCount := matching.matched.length
    truthCount := matching.matched.length + matching.unmatchedTruth.length
    threshold := threshold }

/-! ## Coercion and overlap -/

/-- A box with non-negative extents is accepted as it is. -/
theorem asBox_box {b : Box} (hw : 0 ≤ b.w) (hh : 0 ≤ b.h) : asBox (.box b) = .ok b := by
  have hcheck : ¬ (b.w < 0 ∨ b.h < 0) := not_or.2 ⟨not_lt.2 hw, not_lt.2 hh⟩
  simp [asBox, coerceBox, bind, Except.bind, hcheck]

/-- What `as_box` accepts has no negative extent. -/
theorem asBox_ok {obj : BoxLike} {b : Box} (h : asBox obj = .ok b) : 0 ≤ b.w ∧ 0 ≤ b.h := by
  unfold asBox at h
  cases hbox : coerceBox obj with
  | error e => simp [hbox, bind, Except.bind] at h
  | ok box =>
    simp only [hbox, bind, Except.bind] at h
    split at h
    · cases h
    · rename_i hneg
      obtain rfl : box = b := by simpa using h
      obtain ⟨hw, hh⟩ := not_or.1 hneg
      exact ⟨not_lt.1 hw, not_lt.1 hh⟩

/-- The coercion inside `iou` changes nothing for boxes that were coerced before. -/
theorem iou_of_asBox {a b : BoxLike} {boxA boxB : Box} (ha : asBox a = .ok boxA)
    (hb : asBox b = .ok boxB) : iou (.box boxA) (.box boxB) = .ok (boxA.iou boxB) := by
  have hA := asBox_ok ha
  have hB := asBox_ok hb
  simp only [iou, asBox_box hA.1 hA.2, asBox_box hB.1 hB.2]
  rfl

/-- A list of boxes with non-negative extents is accepted as it is. -/
theorem asBoxes_box {bs : List Box} (h : ∀ b ∈ bs, 0 ≤ b.w ∧ 0 ≤ b.h) :
    asBoxes (bs.map BoxLike.box) = .ok bs := by
  induction bs with
  | nil => rfl
  | cons b bs ih =>
    have hb := h b (by simp)
    have hbs := ih fun c hc => h c (by simp [hc])
    simp only [asBoxes, List.map_cons, List.mapM_cons] at hbs ⊢
    rw [asBox_box hb.1 hb.2, hbs]
    rfl

/-- Each box of the result comes from the object at its place. -/
theorem asBoxes_forall₂ {objs : List BoxLike} {bs : List Box} (h : asBoxes objs = .ok bs) :
    List.Forall₂ (fun obj b => asBox obj = .ok b) objs bs := by
  induction objs generalizing bs with
  | nil =>
    obtain rfl : [] = bs := by simpa [asBoxes, pure, Except.pure] using h
    exact .nil
  | cons obj objs ih =>
    simp only [asBoxes, List.mapM_cons] at h
    cases hobj : asBox obj with
    | error e => simp [hobj, bind, Except.bind] at h
    | ok b =>
      cases hobjs : objs.mapM asBox with
      | error e => simp [hobj, hobjs, bind, Except.bind] at h
      | ok rest =>
        obtain rfl : b :: rest = bs := by
          simpa [hobj, hobjs, bind, Except.bind, pure, Except.pure] using h
        exact .cons hobj (ih hobjs)

theorem asBoxes_ok {objs : List BoxLike} {bs : List Box} (h : asBoxes objs = .ok bs) :
    ∀ b ∈ bs, 0 ≤ b.w ∧ 0 ≤ b.h := by
  have hall := asBoxes_forall₂ h
  clear h
  induction hall with
  | nil => simp
  | cons hobj _ ih =>
    intro c hc
    rcases List.mem_cons.1 hc with rfl | hc
    · exact asBox_ok hobj
    · exact ih c hc

/-- Two overlapping intervals overlap by no more than either is long. -/
theorem overlap_le (x x' : ℚ) {w w' : ℚ} (hw : 0 ≤ w) (hw' : 0 ≤ w') :
    max 0 (min (x + w) (x' + w') - max x x') ≤ w ∧
      max 0 (min (x + w) (x' + w') - max x x') ≤ w' := by
  have h₁ := min_le_left (x + w) (x' + w')
  have h₂ := min_le_right (x + w) (x' + w')
  have h₃ := le_max_left x x'
  have h₄ := le_max_right x x'
  exact ⟨max_le hw (by linarith), max_le hw' (by linarith)⟩

/-- The overlap of boxes with non-negative extents is a fraction. -/
theorem Box.iou_mem {a b : Box} (ha : 0 ≤ a.w ∧ 0 ≤ a.h) (hb : 0 ≤ b.w ∧ 0 ≤ b.h) :
    0 ≤ a.iou b ∧ a.iou b ≤ 1 := by
  simp only [Box.iou]
  split
  · exact ⟨le_rfl, zero_le_one⟩
  · rename_i hunion
    rw [not_le] at hunion
    have hoverW := overlap_le a.x b.x ha.1 hb.1
    have hoverH := overlap_le a.y b.y ha.2 hb.2
    set overlapW := max 0 (min a.x2 b.x2 - max a.x b.x) with hW
    set overlapH := max 0 (min a.y2 b.y2 - max a.y b.y) with hH
    have hWpos : 0 ≤ overlapW := le_max_left _ _
    have hHpos : 0 ≤ overlapH := le_max_left _ _
    have hareaA : overlapW * overlapH ≤ a.area := mul_le_mul hoverW.1 hoverH.1 hHpos ha.1
    have hareaB : overlapW * overlapH ≤ b.area := mul_le_mul hoverW.2 hoverH.2 hHpos hb.1
    refine ⟨div_nonneg (mul_nonneg hWpos hHpos) hunion.le, ?_⟩
    rw [div_le_one hunion]
    linarith

/-! ## The walk over the candidates -/

/-- The candidates are the pairs with a positive score. -/
theorem mem_candidatesBy {score : Box → Box → ℚ} {ps ts : List Box} {m : Match} :
    m ∈ candidatesBy score ps ts ↔ ∃ p t, ps[m.predictedIndex]? = some p ∧
      ts[m.truthIndex]? = some t ∧ m.iou = score p t ∧ 0 < m.iou := by
  simp only [candidatesBy, List.mem_flatMap, List.mem_filterMap, Prod.exists,
    List.mem_zipIdx_iff_getElem?]
  constructor
  · rintro ⟨p, i, hp, t, j, ht, hm⟩
    split at hm
    · rename_i hpos
      obtain rfl := Option.some.inj hm
      exact ⟨p, t, hp, ht, rfl, hpos⟩
    · cases hm
  · rintro ⟨p, t, hp, ht, hiou, hpos⟩
    refine ⟨p, _, hp, t, _, ht, ?_⟩
    rw [← hiou, if_pos hpos]

theorem mem_candidates {ps ts : List Box} {m : Match} :
    m ∈ candidates ps ts ↔ ∃ p t, ps[m.predictedIndex]? = some p ∧
      ts[m.truthIndex]? = some t ∧ m.iou = p.iou t ∧ 0 < m.iou := mem_candidatesBy

instance : Std.Total Match.KeyLe := by
  refine ⟨fun a b => ?_⟩
  unfold Match.KeyLe
  rcases lt_trichotomy a.iou b.iou with h | h | h
  · exact Or.inr (Or.inl h)
  · have : (a.predictedIndex < b.predictedIndex ∨
        (a.predictedIndex = b.predictedIndex ∧ a.truthIndex ≤ b.truthIndex)) ∨
        (b.predictedIndex < a.predictedIndex ∨
        (b.predictedIndex = a.predictedIndex ∧ b.truthIndex ≤ a.truthIndex)) := by omega
    exact this.imp (fun hk => Or.inr ⟨h, hk⟩) fun hk => Or.inr ⟨h.symm, hk⟩
  · exact Or.inl (Or.inl h)

instance : IsTrans Match Match.KeyLe := by
  refine ⟨fun a b c hab hbc => ?_⟩
  unfold Match.KeyLe at *
  rcases hab with hab | ⟨hab, hk⟩
  · rcases hbc with hbc | ⟨hbc, -⟩
    · exact Or.inl (hbc.trans hab)
    · exact Or.inl (hbc ▸ hab)
  · rcases hbc with hbc | ⟨hbc, hk'⟩
    · exact Or.inl (hab ▸ hbc)
    · exact Or.inr ⟨hab.trans hbc, by omega⟩

/-- No two different candidates have the same key. -/
theorem Match.KeyLe.antisymm {a b : Match} (hab : a.KeyLe b) (hba : b.KeyLe a) : a = b := by
  unfold Match.KeyLe at *
  rcases hab with hab | ⟨hiou, hk⟩
  · rcases hba with hba | ⟨hiou, -⟩
    · exact absurd hab (lt_asymm hba)
    · exact absurd hiou (ne_of_gt hab).symm
  · rcases hba with hba | ⟨-, hk'⟩
    · exact absurd hiou (ne_of_lt hba)
    · obtain ⟨i, j, x⟩ := a
      obtain ⟨i', j', x'⟩ := b
      simp only [Match.mk.injEq] at *
      exact ⟨by omega, by omega, hiou⟩

/-- Descending overlap. -/
theorem sorted_iou (pairs : List Match) :
    (pairs.insertionSort Match.KeyLe).Pairwise fun a b => b.iou ≤ a.iou := by
  refine (List.pairwise_insertionSort Match.KeyLe pairs).imp fun h => ?_
  rcases h with h | ⟨h, -⟩
  · exact h.le
  · exact h.ge

/-- Leaving candidates out before sorting or after it. -/
theorem insertionSort_filter (p : Match → Bool) (pairs : List Match) :
    (pairs.filter p).insertionSort Match.KeyLe = (pairs.insertionSort Match.KeyLe).filter p := by
  refine List.Perm.eq_of_pairwise (fun a b _ _ => Match.KeyLe.antisymm)
    (List.pairwise_insertionSort _ _) ((List.pairwise_insertionSort _ _).filter p) ?_
  exact (List.perm_insertionSort _ _).trans ((List.perm_insertionSort _ _).symm.filter p)

/-- The chosen pairs are candidates. -/
theorem claim_subset {pairs : List Match} {m : Match} (h : m ∈ (claim pairs).chosen) :
    m ∈ pairs :=
  (List.mem_insertionSort _).1 ((greedy_sublist _).subset h)

/-- Every candidate shares a box with a chosen pair of at least its overlap. -/
theorem claim_blocked {pairs : List Match} {m : Match} (h : m ∈ pairs) :
    ∃ d ∈ (claim pairs).chosen,
      (d.predictedIndex = m.predictedIndex ∨ d.truthIndex = m.truthIndex) ∧ m.iou ≤ d.iou :=
  greedy_blocked (fun c => le_refl c.iou) (sorted_iou pairs) m ((List.mem_insertionSort _).2 h)

/-- Thresholding during the walk is thresholding after it. -/
theorem claim_filter (t : ℚ) (pairs : List Match) :
    (claim (pairs.filter fun m => t ≤ m.iou)).chosen =
      (claim pairs).chosen.filter fun m => t ≤ m.iou := by
  rw [claim, insertionSort_filter]
  refine greedy_filter ((sorted_iou pairs).imp fun h hb => ?_)
  simp only [decide_eq_true_eq] at hb ⊢
  exact hb.trans h

/-! ## What the matching guarantees -/

/-- The overlap of a pair of positions, 0 where there is no box. -/
def iouAt (ps ts : List Box) (x : ℕ × ℕ) : ℚ :=
  match ps[x.1]?, ts[x.2]? with
  | some p, some t => p.iou t
  | _, _ => 0

theorem iouAt_mem {ps ts : List Box} (hp : ∀ b ∈ ps, 0 ≤ b.w ∧ 0 ≤ b.h)
    (ht : ∀ b ∈ ts, 0 ≤ b.w ∧ 0 ≤ b.h) (x : ℕ × ℕ) :
    0 ≤ iouAt ps ts x ∧ iouAt ps ts x ≤ 1 := by
  unfold iouAt
  split
  · rename_i p t hp' ht'
    exact Box.iou_mem (hp p (List.mem_of_getElem? hp')) (ht t (List.mem_of_getElem? ht'))
  · exact ⟨le_rfl, zero_le_one⟩

/-- A pair of positions with positive overlap is a candidate. -/
theorem mem_candidates_of_iouAt {ps ts : List Box} {x : ℕ × ℕ} (h : 0 < iouAt ps ts x) :
    ⟨x.1, x.2, iouAt ps ts x⟩ ∈ candidates ps ts := by
  rw [mem_candidates]
  unfold iouAt at h ⊢
  cases hp : ps[x.1]? with
  | none => simp [hp] at h
  | some p =>
    cases ht : ts[x.2]? with
    | none => simp [hp, ht] at h
    | some t =>
      simp only [hp, ht] at h
      exact ⟨p, t, rfl, rfl, rfl, h⟩

theorem iou_eq_iouAt {ps ts : List Box} {m : Match} (h : m ∈ candidates ps ts) :
    m.iou = iouAt ps ts (m.predictedIndex, m.truthIndex) ∧ 0 < m.iou ∧
      m.predictedIndex < ps.length ∧ m.truthIndex < ts.length := by
  obtain ⟨p, t, hp, ht, hiou, hpos⟩ := mem_candidates.1 h
  refine ⟨by simp [iouAt, hp, ht, hiou], hpos, ?_, ?_⟩
  · exact (List.getElem?_eq_some_iff.1 hp).1
  · exact (List.getElem?_eq_some_iff.1 ht).1

/-- The matching of two lists of boxes by a score. -/
def matchingBy (score : Box → Box → ℚ) (ps ts : List Box) : Matching where
  matched := (claim (candidatesBy score ps ts)).chosen
  unmatchedPredicted :=
    (List.range ps.length).filter fun i => i ∉ (claim (candidatesBy score ps ts)).left
  unmatchedTruth :=
    (List.range ts.length).filter fun j => j ∉ (claim (candidatesBy score ps ts)).right

/-- The result of `match_boxes` on accepted boxes. -/
def matchingOf (ps ts : List Box) : Matching := matchingBy Box.iou ps ts

theorem matchBoxes_ok {predicted truth : List BoxLike} {ps ts : List Box}
    (hp : asBoxes predicted = .ok ps) (ht : asBoxes truth = .ok ts) :
    matchBoxes predicted truth = .ok (matchingOf ps ts) := by
  simp only [matchBoxes, hp, ht]
  rfl

section Matching
variable {ps ts : List Box}

theorem mem_unmatchedPredicted {i : ℕ} : i ∈ (matchingOf ps ts).unmatchedPredicted ↔
    i < ps.length ∧ ∀ m ∈ (matchingOf ps ts).matched, m.predictedIndex ≠ i := by
  simp [matchingOf, matchingBy, claim, mem_greedy_left_iff]

theorem mem_unmatchedTruth {j : ℕ} : j ∈ (matchingOf ps ts).unmatchedTruth ↔
    j < ts.length ∧ ∀ m ∈ (matchingOf ps ts).matched, m.truthIndex ≠ j := by
  simp [matchingOf, matchingBy, claim, mem_greedy_right_iff]

/-- A pair that overlaps shares a box with a match of at least its overlap. -/
theorem matched_blocks {x : ℕ × ℕ} (h : 0 < iouAt ps ts x) :
    ∃ m ∈ (matchingOf ps ts).matched,
      (m.predictedIndex = x.1 ∨ m.truthIndex = x.2) ∧ iouAt ps ts x ≤ m.iou :=
  claim_blocked (mem_candidates_of_iouAt h)

/-- The matches have different boxes, and so are different. -/
theorem matched_nodup : (matchingOf ps ts).matched.Nodup :=
  (greedy_pairwise _).imp fun h heq => h.1 (congrArg Match.predictedIndex heq)

/-- Half of any matching. -/
theorem sum_iouAt_le {N : Finset (ℕ × ℕ)} (hN : OneToOne N) :
    ∑ x ∈ N, iouAt ps ts x ≤ 2 * (matchingOf ps ts).iouSum := by
  have hpos : ∀ d ∈ (matchingOf ps ts).matched.toFinset, 0 ≤ d.iou := by
    intro d hd
    exact (iou_eq_iouAt (claim_subset (List.mem_toFinset.1 hd))).2.1.le
  have hhalf := sum_le_two_mul_of_blocked (f := Match.predictedIndex) (g := Match.truthIndex)
    (v := iouAt ps ts) hpos hN fun x _ hx => by
      obtain ⟨m, hm, hends, hle⟩ := matched_blocks hx
      exact ⟨m, List.mem_toFinset.2 hm, hends, hle⟩
  rwa [List.sum_toFinset _ matched_nodup] at hhalf

/-- **Greedy matching guarantees.**  For all lists of predicted and true boxes that
`as_boxes` accepts (`asBoxes_box`: all boxes with non-negative extents): the matches join
different boxes, each to one with which it overlaps by the recorded amount; the unmatched
lists are the exact complements, in order; every pair that overlaps shares a box with a match
of at least its overlap, so no two unmatched boxes overlap; and the sum of the overlaps is at
least half of that of any one-to-one matching. -/
theorem matchBoxes_guarantees (predicted truth : List BoxLike) (ps ts : List Box)
    (hp : asBoxes predicted = .ok ps) (ht : asBoxes truth = .ok ts) :
    ∃ m, matchBoxes predicted truth = .ok m ∧
      m.matched.Pairwise (fun a b => a.predictedIndex ≠ b.predictedIndex ∧
        a.truthIndex ≠ b.truthIndex) ∧
      (∀ a ∈ m.matched, a.predictedIndex < ps.length ∧ a.truthIndex < ts.length ∧
        a.iou = iouAt ps ts (a.predictedIndex, a.truthIndex) ∧ 0 < a.iou) ∧
      (m.unmatchedPredicted.Pairwise (· < ·) ∧ ∀ i, i ∈ m.unmatchedPredicted ↔
        i < ps.length ∧ ∀ a ∈ m.matched, a.predictedIndex ≠ i) ∧
      (m.unmatchedTruth.Pairwise (· < ·) ∧ ∀ j, j ∈ m.unmatchedTruth ↔
        j < ts.length ∧ ∀ a ∈ m.matched, a.truthIndex ≠ j) ∧
      (∀ i j, 0 < iouAt ps ts (i, j) → ∃ a ∈ m.matched,
        (a.predictedIndex = i ∨ a.truthIndex = j) ∧ iouAt ps ts (i, j) ≤ a.iou) ∧
      (∀ i ∈ m.unmatchedPredicted, ∀ j ∈ m.unmatchedTruth, iouAt ps ts (i, j) = 0) ∧
      ∀ N : Finset (ℕ × ℕ), OneToOne N → ∑ x ∈ N, iouAt ps ts x ≤ 2 * m.iouSum := by
  refine ⟨matchingOf ps ts, matchBoxes_ok hp ht, greedy_pairwise _, fun a ha => ?_,
    ⟨List.pairwise_lt_range.filter _, fun i => mem_unmatchedPredicted⟩,
    ⟨List.pairwise_lt_range.filter _, fun j => mem_unmatchedTruth⟩,
    fun i j hij => matched_blocks hij, fun i hi j hj => ?_, fun N hN => sum_iouAt_le hN⟩
  · have h := iou_eq_iouAt (claim_subset ha)
    exact ⟨h.2.2.1, h.2.2.2, h.1, h.2.1⟩
  · by_contra hne
    have hpos := lt_of_le_of_ne (iouAt_mem (asBoxes_ok hp) (asBoxes_ok ht) (i, j)).1 (Ne.symm hne)
    obtain ⟨a, ha, hends, -⟩ := matched_blocks hpos
    rcases hends with hi' | hj'
    · exact (mem_unmatchedPredicted.1 hi).2 a ha hi'
    · exact (mem_unmatchedTruth.1 hj).2 a ha hj'

end Matching

/-- Two predicted boxes on one true box. -/
theorem matchBoxes_guarantees_rivals :
    asBoxes [.box ⟨0, 0, 2, 1⟩, .box ⟨1, 0, 2, 1⟩] = .ok [⟨0, 0, 2, 1⟩, ⟨1, 0, 2, 1⟩] ∧
      ∃ m, matchBoxes [.box ⟨0, 0, 2, 1⟩, .box ⟨1, 0, 2, 1⟩] [.box ⟨1, 0, 2, 1⟩] = .ok m ∧
        m.matched = [⟨1, 0, 1⟩] ∧ m.unmatchedPredicted = [0] ∧
        ∀ N : Finset (ℕ × ℕ), OneToOne N →
          ∑ x ∈ N, iouAt [⟨0, 0, 2, 1⟩, ⟨1, 0, 2, 1⟩] [⟨1, 0, 2, 1⟩] x ≤ 2 * m.iouSum := by
  have hp : asBoxes [.box ⟨0, 0, 2, 1⟩, .box ⟨1, 0, 2, 1⟩] =
      .ok [⟨0, 0, 2, 1⟩, ⟨1, 0, 2, 1⟩] := by decide +kernel
  have ht : asBoxes [.box ⟨1, 0, 2, 1⟩] = .ok [⟨1, 0, 2, 1⟩] := by decide +kernel
  obtain ⟨m, hm, -, -, -, -, -, -, hhalf⟩ := matchBoxes_guarantees _ _ _ _ hp ht
  have hvalue : m = matchingOf [⟨0, 0, 2, 1⟩, ⟨1, 0, 2, 1⟩] [⟨1, 0, 2, 1⟩] :=
    Except.ok.inj (hm.symm.trans (matchBoxes_ok hp ht))
  refine ⟨hp, m, hm, ?_, ?_, hhalf⟩
  · rw [hvalue]
    decide +kernel
  · rw [hvalue]
    decide +kernel

/-! ## Thresholds and rates -/

/-- The numbers below `n` that are not in a set of such numbers. -/
theorem length_range_filter_notMem {n : ℕ} {S : Finset ℕ} (h : ∀ i ∈ S, i < n) :
    ((List.range n).filter fun i => i ∉ S).length + S.card = n := by
  have hlist : ((List.range n).filter fun i => i ∉ S).length = (Finset.range n \ S).card := by
    rw [← List.toFinset_card_of_nodup (List.nodup_range.filter _)]
    congr 1
    ext i
    simp
  have hsub : S ⊆ Finset.range n := fun i hi => Finset.mem_range.2 (h i hi)
  rw [hlist, Finset.card_sdiff_add_card_eq_card hsub, Finset.card_range]

section Report
variable {ps ts : List Box}

theorem length_matched_add_unmatched (score : Box → Box → ℚ) (ps ts : List Box) :
    (matchingBy score ps ts).matched.length + (matchingBy score ps ts).unmatchedPredicted.length =
        ps.length ∧
      (matchingBy score ps ts).matched.length + (matchingBy score ps ts).unmatchedTruth.length =
        ts.length := by
  have hbound : ∀ a ∈ (claim (candidatesBy score ps ts)).chosen,
      a.predictedIndex < ps.length ∧ a.truthIndex < ts.length := by
    intro a ha
    obtain ⟨p, t, hp, ht, -, -⟩ := mem_candidatesBy.1 (claim_subset ha)
    exact ⟨(List.getElem?_eq_some_iff.1 hp).1, (List.getElem?_eq_some_iff.1 ht).1⟩
  have hleft : ∀ i ∈ (claim (candidatesBy score ps ts)).left, i < ps.length := by
    intro i hi
    obtain ⟨a, ha, rfl⟩ := mem_greedy_left_iff.1 hi
    exact (hbound a ha).1
  have hright : ∀ j ∈ (claim (candidatesBy score ps ts)).right, j < ts.length := by
    intro j hj
    obtain ⟨a, ha, rfl⟩ := mem_greedy_right_iff.1 hj
    exact (hbound a ha).2
  have hcard := card_greedy (f := Match.predictedIndex) (g := Match.truthIndex)
    ((candidatesBy score ps ts).insertionSort Match.KeyLe)
  have hp := length_range_filter_notMem hleft
  have ht := length_range_filter_notMem hright
  simp only [matchingBy]
  unfold claim at *
  omega

/-- The report of `score_boxes` on accepted boxes. -/
def reportOf (ps ts : List Box) (threshold : ℚ) : BoxReport :=
  let matching := matchingOf ps ts
  let truePositives := matching.matched.countP fun m => threshold ≤ m.iou
  let weak := matching.matched.length - truePositives
  { truePositives := truePositives
    falsePositives := matching.unmatchedPredicted.length + weak
    falseNegatives := matching.unmatchedTruth.length + weak
    iouSum := matching.iouSum
    matchedCount := matching.matched.length
    truthCount := matching.matched.length + matching.unmatchedTruth.length
    threshold := threshold }

theorem scoreBoxes_ok {predicted truth : List BoxLike} (hp : asBoxes predicted = .ok ps)
    (ht : asBoxes truth = .ok ts) (threshold : ℚ) :
    scoreBoxes predicted truth threshold = .ok (reportOf ps ts threshold) := by
  simp only [scoreBoxes, matchBoxes_ok hp ht]
  rfl

end Report

end Eval
end OcrOrchestrator
