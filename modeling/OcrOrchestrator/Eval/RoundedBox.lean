import OcrOrchestrator.Eval.Iou
import OcrOrchestrator.Lib.Rounding

/-!
# Boxes in rounded arithmetic

`app/eval/iou.py` as it runs: every operation on coordinates rounds, and so do the divisions of
the rates and the sum of the overlaps.  Without rounding it is the program of `Eval.Iou`.

Which matches reach a threshold does not depend on how their overlaps came about, and the counts
and their rates are right in any arithmetic.  But the overlap of a box with itself can come out
above 1, and then so do the means: the far edges are rounded, and an edge that is rounded outwards
lengthens the overlap but not the box.

## Main definitions

* `Box.iouIn`, `matchBoxesIn`, `scoreBoxesIn` — the program in an arithmetic.
* `Box.Fits` — no far edge is rounded outwards.

## Main results

* `intersectionIn_le_unionIn` — then no intersection comes out larger than its union.
* `scoreBoxesIn_threshold` — thresholds, counts and rates in any arithmetic.
-/

namespace OcrOrchestrator
namespace Eval

open Lib

/-! ## The program in an arithmetic -/

section Program
variable (R : Rounding)

namespace Box

def areaIn (b : Box) : ℚ := R.mul b.w b.h

def x2In (b : Box) : ℚ := R.add b.x b.w

def y2In (b : Box) : ℚ := R.add b.y b.h

def overlapWIn (boxA boxB : Box) : ℚ :=
  max 0 (R.sub (min (boxA.x2In R) (boxB.x2In R)) (max boxA.x boxB.x))

def overlapHIn (boxA boxB : Box) : ℚ :=
  max 0 (R.sub (min (boxA.y2In R) (boxB.y2In R)) (max boxA.y boxB.y))

def intersectionIn (boxA boxB : Box) : ℚ := R.mul (boxA.overlapWIn R boxB) (boxA.overlapHIn R boxB)

def unionIn (boxA boxB : Box) : ℚ :=
  R.sub (R.add (boxA.areaIn R) (boxB.areaIn R)) (boxA.intersectionIn R boxB)

/-- `iou`, of boxes that have been coerced. -/
def iouIn (boxA boxB : Box) : ℚ :=
  if boxA.unionIn R boxB ≤ 0 then 0 else R.div (boxA.intersectionIn R boxB) (boxA.unionIn R boxB)

end Box

/-- `match_boxes`. -/
def matchBoxesIn (predicted truth : List BoxLike) : Except BoxError Matching := do
  let predictedBoxes ← asBoxes predicted
  let truthBoxes ← asBoxes truth
  return matchingBy (Box.iouIn R) predictedBoxes truthBoxes

/-- The second half of `score_boxes`. -/
def Matching.reportIn (matching : Matching) (threshold : ℚ) : BoxReport :=
  let truePositives := matching.matched.countP fun m => threshold ≤ m.iou
  let weak := matching.matched.length - truePositives
  { truePositives := truePositives
    falsePositives := matching.unmatchedPredicted.length + weak
    falseNegatives := matching.unmatchedTruth.length + weak
    iouSum := R.sum (matching.matched.map Match.iou)
    matchedCount := matching.matched.length
    truthCount := matching.matched.length + matching.unmatchedTruth.length
    threshold := threshold }

/-- `score_boxes`. -/
def scoreBoxesIn (predicted truth : List BoxLike) (threshold : ℚ) : Except BoxError BoxReport := do
  let matching ← matchBoxesIn R predicted truth
  return matching.reportIn R threshold

namespace BoxReport

def precisionIn (r : BoxReport) : ℚ :=
  let predicted := r.truePositives + r.falsePositives
  if predicted = 0 then 1 else R.div r.truePositives predicted

def recallIn (r : BoxReport) : ℚ :=
  let relevant := r.truePositives + r.falseNegatives
  if relevant = 0 then 1 else R.div r.truePositives relevant

def f1In (r : BoxReport) : ℚ :=
  if R.add (r.precisionIn R) (r.recallIn R) = 0 then 0
  else R.div (R.mul (R.mul 2 (r.precisionIn R)) (r.recallIn R))
    (R.add (r.precisionIn R) (r.recallIn R))

def meanIouIn (r : BoxReport) : WithTop ℚ :=
  if r.truthCount = 0 then if r.iouSum = 0 then 0 else ⊤
  else (R.div r.iouSum (R.round r.truthCount) : ℚ)

def meanMatchedIouIn (r : BoxReport) : ℚ :=
  if r.matchedCount = 0 then 0 else R.div r.iouSum (R.round r.matchedCount)

end BoxReport

end Program

/-- Without rounding it is the exact program. -/
theorem iouIn_exact (a b : Box) : a.iouIn .exact b = a.iou b := rfl

theorem scoreBoxesIn_exact (predicted truth : List BoxLike) (threshold : ℚ) :
    scoreBoxesIn .exact predicted truth threshold = scoreBoxes predicted truth threshold := by
  unfold scoreBoxesIn matchBoxesIn scoreBoxes matchBoxes
  simp only [Matching.reportIn, Rounding.sum_exact, bind_assoc, pure_bind]
  rfl

/-! ## Overlap -/

section Overlap
variable {R : Rounding} {a b : Box}

theorem intersectionIn_nonneg (R : Rounding) (a b : Box) : 0 ≤ a.intersectionIn R b :=
  Rounding.round_nonneg (mul_nonneg (le_max_left _ _) (le_max_left _ _))

theorem iouIn_nonneg (R : Rounding) (a b : Box) : 0 ≤ a.iouIn R b := by
  unfold Box.iouIn
  split
  · exact le_rfl
  · rename_i hunion
    exact Rounding.round_nonneg (div_nonneg (intersectionIn_nonneg R a b) (not_le.mp hunion).le)

theorem has_iouIn (R : Rounding) (a b : Box) : R.Has (a.iouIn R b) := by
  unfold Box.iouIn
  split
  · exact R.has_zero
  · exact R.has_round _

/-- The far edges of a box of machine numbers are not rounded outwards. -/
structure Box.Fits (R : Rounding) (b : Box) : Prop where
  w : R.Has b.w
  h : R.Has b.h
  x2 : b.x2In R ≤ b.x2
  y2 : b.y2In R ≤ b.y2

/-- Then no overlap is longer than the box. -/
theorem overlapIn_le {x w x2 z z2 : ℚ} (hw : R.Has w) (hw0 : 0 ≤ w) (hx2 : x2 ≤ x + w) :
    max 0 (R.sub (min x2 z2) (max x z)) ≤ w := by
  have hlength : min x2 z2 - max x z ≤ w := by
    have := min_le_left x2 z2
    have := le_max_left x z
    linarith
  exact max_le hw0 (hw.round_le hlength)

theorem overlapWIn_comm (a b : Box) : a.overlapWIn R b = b.overlapWIn R a := by
  rw [Box.overlapWIn, Box.overlapWIn, min_comm, max_comm a.x]

theorem overlapHIn_comm (a b : Box) : a.overlapHIn R b = b.overlapHIn R a := by
  rw [Box.overlapHIn, Box.overlapHIn, min_comm, max_comm a.y]

theorem intersectionIn_comm (a b : Box) : a.intersectionIn R b = b.intersectionIn R a := by
  rw [Box.intersectionIn, Box.intersectionIn, overlapWIn_comm, overlapHIn_comm]

theorem Box.Fits.intersectionIn_le (ha : a.Fits R) (hw : 0 ≤ a.w) (hh : 0 ≤ a.h) (b : Box) :
    a.intersectionIn R b ≤ a.areaIn R := by
  have hoverW : a.overlapWIn R b ≤ a.w := overlapIn_le ha.w hw ha.x2
  have hoverH : a.overlapHIn R b ≤ a.h := overlapIn_le ha.h hh ha.y2
  exact R.mono (mul_le_mul hoverW hoverH (le_max_left _ _) hw)

/-- And no intersection is larger than its union, as computed. -/
theorem intersectionIn_le_unionIn (ha : a.Fits R) (haw : 0 ≤ a.w) (hah : 0 ≤ a.h) (hb : b.Fits R)
    (hbw : 0 ≤ b.w) (hbh : 0 ≤ b.h) : a.intersectionIn R b ≤ a.unionIn R b := by
  have hareaA := ha.intersectionIn_le haw hah b
  have hareaB := hb.intersectionIn_le hbw hbh a
  rw [intersectionIn_comm b a] at hareaB
  have hhas : R.Has (a.intersectionIn R b) := R.has_round _
  have htwice : R.Has (2 * a.intersectionIn R b) := R.double _ hhas
  have hsum : 2 * a.intersectionIn R b ≤ R.add (a.areaIn R) (b.areaIn R) :=
    htwice.le_round (by linarith)
  exact hhas.le_round (by linarith)

theorem iouIn_le_one (ha : a.Fits R) (haw : 0 ≤ a.w) (hah : 0 ≤ a.h) (hb : b.Fits R)
    (hbw : 0 ≤ b.w) (hbh : 0 ≤ b.h) : a.iouIn R b ≤ 1 := by
  unfold Box.iouIn
  split
  · exact zero_le_one
  · exact (Rounding.div_mem (intersectionIn_nonneg R a b)
      (intersectionIn_le_unionIn ha haw hah hb hbw hbh)).2

end Overlap

/-! ## Counts and rates -/

section Report
variable {R : Rounding} {ps ts : List Box}

theorem scoreBoxesIn_ok {predicted truth : List BoxLike} (hp : asBoxes predicted = .ok ps)
    (ht : asBoxes truth = .ok ts) (threshold : ℚ) :
    matchBoxesIn R predicted truth = .ok (matchingBy (Box.iouIn R) ps ts) ∧
      scoreBoxesIn R predicted truth threshold =
        .ok ((matchingBy (Box.iouIn R) ps ts).reportIn R threshold) := by
  have hmatch : matchBoxesIn R predicted truth = .ok (matchingBy (Box.iouIn R) ps ts) := by
    simp only [matchBoxesIn, hp, ht]
    rfl
  refine ⟨hmatch, ?_⟩
  simp only [scoreBoxesIn, hmatch]
  rfl

/-- Each count of a report and what it sums to. -/
theorem reportIn_counts (R : Rounding) (score : Box → Box → ℚ) (ps ts : List Box) (t : ℚ) :
    ((matchingBy score ps ts).reportIn R t).truePositives +
        ((matchingBy score ps ts).reportIn R t).falsePositives = ps.length ∧
      ((matchingBy score ps ts).reportIn R t).truePositives +
        ((matchingBy score ps ts).reportIn R t).falseNegatives = ts.length := by
  have hlength := length_matched_add_unmatched score ps ts
  have hcount := (matchingBy score ps ts).matched.countP_le_length (p := fun m => t ≤ m.iou)
  simp only [Matching.reportIn]
  omega

/-- A ratio of a part to the whole, with the code's value for an empty whole. -/
theorem part_ratio_mem {k n : ℕ} (h : k ≤ n) :
    (0 : ℚ) ≤ (if n = 0 then 1 else R.div k n) ∧ (if n = 0 then 1 else R.div k n) ≤ 1 := by
  split
  · exact ⟨zero_le_one, le_rfl⟩
  · exact Rounding.div_mem (Nat.cast_nonneg k) (by exact_mod_cast h)

theorem precisionIn_mem (R : Rounding) (r : BoxReport) :
    R.Has (r.precisionIn R) ∧ 0 ≤ r.precisionIn R ∧ r.precisionIn R ≤ 1 := by
  have hmem := part_ratio_mem (R := R) (Nat.le_add_right r.truePositives r.falsePositives)
  refine ⟨?_, by simpa [BoxReport.precisionIn] using hmem⟩
  simp only [BoxReport.precisionIn]
  split
  · exact R.has_one
  · exact R.has_round _

theorem recallIn_mem (R : Rounding) (r : BoxReport) : 0 ≤ r.recallIn R ∧ r.recallIn R ≤ 1 := by
  have hmem := part_ratio_mem (R := R) (Nat.le_add_right r.truePositives r.falseNegatives)
  simpa [BoxReport.recallIn] using hmem

/-- The harmonic mean of two fractions is one. -/
theorem f1In_mem (R : Rounding) (r : BoxReport) : 0 ≤ r.f1In R ∧ r.f1In R ≤ 1 := by
  obtain ⟨hhas, hp0, hp1⟩ := precisionIn_mem R r
  obtain ⟨hr0, hr1⟩ := recallIn_mem R r
  unfold BoxReport.f1In
  split
  · exact ⟨le_rfl, zero_le_one⟩
  · have hdouble : R.mul 2 (r.precisionIn R) = 2 * r.precisionIn R := R.double _ hhas
    have hp : r.precisionIn R * r.recallIn R ≤ r.precisionIn R := mul_le_of_le_one_right hp0 hr1
    have hr : r.precisionIn R * r.recallIn R ≤ r.recallIn R := mul_le_of_le_one_left hr0 hp1
    have hle : 2 * r.precisionIn R * r.recallIn R ≤ r.precisionIn R + r.recallIn R := by linarith
    rw [hdouble]
    exact Rounding.div_mem (Rounding.round_nonneg (by positivity)) (R.mono hle)

variable {m : Matching}

/-- The mean over the true boxes is finite, and no more than that over the matches. -/
theorem meanIouIn_mem (hm : ∀ a ∈ m.matched, R.Has a.iou ∧ 0 ≤ a.iou) (t : ℚ) :
    ∃ q : ℚ, (m.reportIn R t).meanIouIn R = q ∧ 0 ≤ q ∧
      q ≤ (m.reportIn R t).meanMatchedIouIn R := by
  have hsum : 0 ≤ (m.reportIn R t).iouSum := by
    refine Rounding.sum_nonneg fun x hx => ?_
    obtain ⟨a, ha, rfl⟩ := List.mem_map.1 hx
    exact hm a ha
  have hmatched : (m.reportIn R t).matchedCount = m.matched.length := rfl
  have htruth : m.matched.length ≤ (m.reportIn R t).truthCount := Nat.le_add_right _ _
  rcases Nat.eq_zero_or_pos m.matched.length with hzero | hpos
  · -- nothing matched: both means are 0
    have hiou : (m.reportIn R t).iouSum = 0 := by
      simp [Matching.reportIn, List.length_eq_zero_iff.1 hzero, Rounding.sum, Rounding.add]
    refine ⟨0, ?_, le_rfl, ?_⟩
    · simp [BoxReport.meanIouIn, hiou, Rounding.div]
    · simp [BoxReport.meanMatchedIouIn, hmatched, hzero]
  · have hround : 0 < R.round m.matched.length := by
      have hone : (1 : ℚ) ≤ m.matched.length := by exact_mod_cast hpos
      exact zero_lt_one.trans_le (R.has_one.le_round hone)
    have hle : R.round m.matched.length ≤ R.round (m.reportIn R t).truthCount :=
      R.mono (by exact_mod_cast htruth)
    have hne : (m.reportIn R t).truthCount ≠ 0 := by omega
    refine ⟨R.div (m.reportIn R t).iouSum (R.round (m.reportIn R t).truthCount), ?_, ?_, ?_⟩
    · simp [BoxReport.meanIouIn, hne]
    · exact Rounding.round_nonneg (div_nonneg hsum (hround.le.trans hle))
    · rw [BoxReport.meanMatchedIouIn, hmatched, if_neg hpos.ne']
      exact R.mono (div_le_div_of_nonneg_left hsum hround hle)

/-- The mean over the matches is a fraction if all overlaps are. -/
theorem meanMatchedIouIn_le_one (hm : ∀ a ∈ m.matched, R.Has a.iou ∧ 0 ≤ a.iou ∧ a.iou ≤ 1)
    (hlength : m.matched.length ≤ 2 ^ 52) (t : ℚ) :
    (m.reportIn R t).meanMatchedIouIn R ≤ 1 := by
  unfold BoxReport.meanMatchedIouIn
  split
  · exact zero_le_one
  · have hmem : ∀ x ∈ m.matched.map Match.iou, R.Has x ∧ 0 ≤ x ∧ x ≤ 1 := by
      intro x hx
      obtain ⟨a, ha, rfl⟩ := List.mem_map.1 hx
      exact hm a ha
    have hnonneg : 0 ≤ (m.reportIn R t).iouSum :=
      Rounding.sum_nonneg fun x hx => ⟨(hmem x hx).1, (hmem x hx).2.1⟩
    have hle : (m.reportIn R t).iouSum ≤ m.matched.length := by
      simpa [Matching.reportIn] using Rounding.sum_le_length hmem (by simpa using hlength)
    have hcount : R.round m.matched.length = m.matched.length := Rounding.has_natCast hlength
    have hmatched : (m.reportIn R t).matchedCount = m.matched.length := rfl
    rw [hmatched, hcount]
    exact (Rounding.div_mem hnonneg hle).2

/-- **Thresholding after matching**, in any arithmetic.  For all lists of boxes that `as_boxes`
accepts and every threshold: the matches that reach the threshold are the ones the walk takes when
it is given only the candidates that reach it, and there are `true_positives` of them; a higher
threshold leaves no more; the counts add up to the boxes on either side; precision, recall and F1
are fractions; `mean_iou` is finite and not negative, and at most `mean_matched_iou`.  And this is
at most 1 if no far edge of a box is rounded outwards. -/
theorem scoreBoxesIn_threshold (R : Rounding) (predicted truth : List BoxLike) (ps ts : List Box)
    (hp : asBoxes predicted = .ok ps) (ht : asBoxes truth = .ok ts) (t : ℚ) :
    ∃ m r, matchBoxesIn R predicted truth = .ok m ∧ scoreBoxesIn R predicted truth t = .ok r ∧
      (m.matched.filter fun a => t ≤ a.iou) =
        (claim ((candidatesBy (Box.iouIn R) ps ts).filter fun a => t ≤ a.iou)).chosen ∧
      r.truePositives =
        (claim ((candidatesBy (Box.iouIn R) ps ts).filter fun a => t ≤ a.iou)).chosen.length ∧
      (∀ t' r', t ≤ t' → scoreBoxesIn R predicted truth t' = .ok r' →
        r'.truePositives ≤ r.truePositives) ∧
      r.truePositives + r.falsePositives = predicted.length ∧
      r.truePositives + r.falseNegatives = truth.length ∧
      (0 ≤ r.precisionIn R ∧ r.precisionIn R ≤ 1) ∧ (0 ≤ r.recallIn R ∧ r.recallIn R ≤ 1) ∧
      (0 ≤ r.f1In R ∧ r.f1In R ≤ 1) ∧
      (∃ q : ℚ, r.meanIouIn R = q ∧ 0 ≤ q ∧ q ≤ r.meanMatchedIouIn R) ∧
      ((∀ b ∈ ps ++ ts, b.Fits R) → predicted.length ≤ 2 ^ 52 → r.meanMatchedIouIn R ≤ 1) := by
  obtain ⟨hmatch, hscore⟩ := scoreBoxesIn_ok (R := R) hp ht t
  have hcounts := reportIn_counts R (Box.iouIn R) ps ts t
  have hcandidate : ∀ a ∈ (matchingBy (Box.iouIn R) ps ts).matched,
      ∃ p ∈ ps, ∃ b ∈ ts, a.iou = p.iouIn R b := by
    intro a ha
    obtain ⟨p, b, hp', hb, hiou, -⟩ := mem_candidatesBy.1 (claim_subset ha)
    exact ⟨p, List.mem_of_getElem? hp', b, List.mem_of_getElem? hb, hiou⟩
  refine ⟨_, _, hmatch, hscore, (claim_filter t _).symm, ?_, fun t' r' htt' hr' => ?_, ?_, ?_,
    (precisionIn_mem R _).2, recallIn_mem R _, f1In_mem R _, meanIouIn_mem (fun a ha => ?_) t,
    fun hfits hlength => meanMatchedIouIn_le_one (fun a ha => ?_) ?_ t⟩
  · rw [claim_filter, ← List.countP_eq_length_filter]
    rfl
  · obtain rfl := Except.ok.inj ((scoreBoxesIn_ok hp ht t').2.symm.trans hr')
    refine List.countP_mono_left fun a _ ha => ?_
    simp only [decide_eq_true_eq] at ha ⊢
    exact htt'.trans ha
  · rw [hcounts.1, (asBoxes_forall₂ hp).length_eq]
  · rw [hcounts.2, (asBoxes_forall₂ ht).length_eq]
  · obtain ⟨p, -, b, -, hiou⟩ := hcandidate a ha
    rw [hiou]
    exact ⟨has_iouIn R p b, iouIn_nonneg R p b⟩
  · obtain ⟨p, hp', b, hb, hiou⟩ := hcandidate a ha
    obtain ⟨hpw, hph⟩ := asBoxes_ok hp p hp'
    obtain ⟨hbw, hbh⟩ := asBoxes_ok ht b hb
    rw [hiou]
    exact ⟨has_iouIn R p b, iouIn_nonneg R p b, iouIn_le_one
      (hfits p (List.mem_append_left _ hp')) hpw hph
      (hfits b (List.mem_append_right _ hb)) hbw hbh⟩
  · have hmatched := (length_matched_add_unmatched (Box.iouIn R) ps ts).1
    have hp' := (asBoxes_forall₂ hp).length_eq
    omega

end Report

/-- Tenths, as doubles. -/
def tenth (n : ℕ) : ℚ := binary64.round (n / 10)

/-- A box at 0.1 that is 0.7 wide and one at 0.2 that is 0.7 wide, in doubles.  The far edges are
rounded, to the inside. -/
theorem scoreBoxesIn_threshold_tenths :
    ∃ m r, matchBoxesIn binary64 [.box ⟨tenth 1, 0, tenth 7, 1⟩] [.box ⟨tenth 2, 0, tenth 7, 1⟩] =
        .ok m ∧
      scoreBoxesIn binary64 [.box ⟨tenth 1, 0, tenth 7, 1⟩] [.box ⟨tenth 2, 0, tenth 7, 1⟩]
        defaultThreshold = .ok r ∧
      ¬ binary64.Has (tenth 1 + tenth 7) ∧ r.truePositives = 1 ∧ r.meanMatchedIouIn binary64 ≤ 1 := by
  have hp : asBoxes [.box ⟨tenth 1, 0, tenth 7, 1⟩] = .ok [⟨tenth 1, 0, tenth 7, 1⟩] := by
    decide +kernel
  have ht : asBoxes [.box ⟨tenth 2, 0, tenth 7, 1⟩] = .ok [⟨tenth 2, 0, tenth 7, 1⟩] := by
    decide +kernel
  have hfirst : Box.Fits binary64 ⟨tenth 1, 0, tenth 7, 1⟩ :=
    ⟨binary64.has_round _, binary64.has_one, by decide +kernel, by decide +kernel⟩
  have hsecond : Box.Fits binary64 ⟨tenth 2, 0, tenth 7, 1⟩ :=
    ⟨binary64.has_round _, binary64.has_one, by decide +kernel, by decide +kernel⟩
  obtain ⟨m, r, hm, hr, -, -, -, -, -, -, -, -, -, hle⟩ :=
    scoreBoxesIn_threshold binary64 _ _ _ _ hp ht defaultThreshold
  obtain ⟨-, hr'⟩ := scoreBoxesIn_ok (R := binary64) hp ht defaultThreshold
  obtain rfl := Except.ok.inj (hr.symm.trans hr')
  refine ⟨_, _, hm, hr, by decide +kernel, by decide +kernel, hle ?_ (by decide)⟩
  intro b hb
  rcases List.mem_cons.1 hb with rfl | hb
  · exact hfirst
  · obtain rfl := List.mem_singleton.1 hb
    exact hsecond

/-- A box at 0.1 that is 0.2 wide overlaps with itself by more than 1: its far edge is at
0.30000000000000004, which is farther from 0.1 than it is wide. -/
theorem not_means_le_one :
    ¬ ∀ (predicted truth : List BoxLike) (t : ℚ) (r : BoxReport), 0 < t → t ≤ 1 →
      scoreBoxesIn binary64 predicted truth t = .ok r →
        r.meanIouIn binary64 ≤ 1 ∧ r.meanMatchedIouIn binary64 ≤ 1 := by
  intro hall
  have hbox : asBoxes [.box ⟨tenth 1, 0, tenth 2, 1⟩] = .ok [⟨tenth 1, 0, tenth 2, 1⟩] := by
    decide +kernel
  obtain ⟨-, hr⟩ := scoreBoxesIn_ok (R := binary64) hbox hbox defaultThreshold
  have hle := (hall _ _ _ _ (by decide +kernel) (by decide +kernel) hr).2
  revert hle
  decide +kernel

end Eval
end OcrOrchestrator
