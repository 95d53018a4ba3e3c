import OcrOrchestrator.Eval.Text
import OcrOrchestrator.Eval.Iou
import OcrOrchestrator.Eval.TreeScore
import OcrOrchestrator.Lib.Rounding
import Mathlib.Data.List.Dedup
import Mathlib.Data.String.Basic

/-!
# Adding up scores

The three `aggregate` functions of `app/eval`.  Texts and boxes refuse to add up scores of
different units or thresholds; trees have nothing to compare.  The two that refuse are one
definition: they differ in what they compare, in what they return for no scores, and in what
they add up.

Scores may be added up page by page, or first per document and then per corpus.  The result
is the same unless just one of the documents is empty: the score of no pages carries a tag
of its own, and the next level takes it for a different unit.  And the overlaps of boxes are
added up in doubles, which may round otherwise in two steps than in one.

## Main definitions

* `aggregateBy` — the shared shape.
* `TextScore.aggregate`, `BoxReport.aggregate` — the two instances, the second in an arithmetic.
-/

namespace OcrOrchestrator
namespace Eval

open Lib

/-! ## The shared shape -/

section AggregateBy
variable {σ τ ε : Type} [LinearOrder τ] (tag : σ → τ) (empty : σ) (total : List σ → τ → σ)
  (mixed : List τ → ε)

/-- The set of tags, as its sorted list. -/
def tagsOf (scores : List σ) : List τ :=
  (scores.map tag).dedup.insertionSort (· ≤ ·)

/-- No scores give `empty`, scores with one tag are added up under it, and scores with several
tags are refused with the sorted tags. -/
def aggregateBy (scores : List σ) : Except ε σ :=
  if scores.isEmpty then .ok empty
  else
    match tagsOf tag scores with
    | [t] => .ok (total scores t)
    | tags => .error (mixed tags)

variable {tag empty total mixed}

theorem tagsOf_of_shared {scores : List σ} {t : τ} (hne : scores ≠ [])
    (h : ∀ s ∈ scores, tag s = t) : tagsOf tag scores = [t] := by
  have hmap : scores.map tag = List.replicate scores.length t := by
    simpa [List.eq_replicate_iff] using h
  rw [tagsOf, hmap, List.replicate_dedup (by simpa using hne)]
  rfl

theorem tagsOf_perm {xs ys : List σ} (h : xs.Perm ys) : tagsOf tag xs = tagsOf tag ys := by
  refine List.Perm.eq_of_pairwise (fun a b _ _ => le_antisymm)
    (List.pairwise_insertionSort _ _) (List.pairwise_insertionSort _ _) ?_
  exact (List.perm_insertionSort _ _).trans
    ((h.map tag).dedup.trans (List.perm_insertionSort _ _).symm)

@[simp] theorem aggregateBy_nil : aggregateBy tag empty total mixed [] = .ok empty := rfl

/-- Scores that share a tag. -/
theorem aggregateBy_of_shared {scores : List σ} {t : τ} (hne : scores ≠ [])
    (h : ∀ s ∈ scores, tag s = t) :
    aggregateBy tag empty total mixed scores = .ok (total scores t) := by
  simp [aggregateBy, hne, tagsOf_of_shared hne h]

/-- Two scores with different tags. -/
theorem aggregateBy_pair_ne {a b c : σ} (h : tag a ≠ tag b) :
    aggregateBy tag empty total mixed [a, b] ≠ .ok c := by
  have hlength : (tagsOf tag [a, b]).length = 2 := by
    rw [tagsOf, List.length_insertionSort]
    simp [h]
  simp only [aggregateBy, List.isEmpty_cons, Bool.false_eq_true, if_false]
  split
  · rename_i htags
    simp [htags] at hlength
  · simp

/-- The order of the scores does not matter if it does not for their total. -/
theorem aggregateBy_perm {xs ys : List σ} (h : xs.Perm ys)
    (htotal : ∀ t, total xs t = total ys t) :
    aggregateBy tag empty total mixed xs = aggregateBy tag empty total mixed ys := by
  have hempty : xs.isEmpty = ys.isEmpty := by
    rw [Bool.eq_iff_iff, List.isEmpty_iff, List.isEmpty_iff]
    exact ⟨fun hx => (hx ▸ h).nil_eq.symm, fun hy => (hy ▸ h).eq_nil⟩
  unfold aggregateBy
  rw [hempty, tagsOf_perm h]
  split
  · rfl
  · split
    · rw [htotal]
    · rfl

/-- What totals have to do with tags: a total carries its tag, and that of no scores is `empty`
under the tag of `empty`. -/
structure Tagged (tag : σ → τ) (empty : σ) (total : List σ → τ → σ) : Prop where
  tag_total : ∀ xs t, tag (total xs t) = t
  nil : ∀ t, total [total [] t, total [] t] t = total [] t
  empty_eq : total [] (tag empty) = empty

theorem aggregateBy_eq_total (htagged : Tagged tag empty total) {scores : List σ} {t : τ}
    (h : ∀ s ∈ scores, tag s = t) (hne : scores ≠ [] ∨ t = tag empty) :
    aggregateBy tag empty total mixed scores = .ok (total scores t) := by
  rcases List.eq_nil_or_concat scores with rfl | ⟨init, last, rfl⟩
  · have ht : t = tag empty := hne.resolve_left (by simp)
    rw [aggregateBy_nil, ht, htagged.empty_eq]
  · exact aggregateBy_of_shared (by simp) h

/-- What two levels come to. -/
theorem aggregateBy_levels (htagged : Tagged tag empty total) {xs ys : List σ} {t : τ}
    (hx : ∀ s ∈ xs, tag s = t) (hy : ∀ s ∈ ys, tag s = t)
    (hne : (xs ≠ [] ∧ ys ≠ []) ∨ t = tag empty) :
    (do let a ← aggregateBy tag empty total mixed xs
        let b ← aggregateBy tag empty total mixed ys
        aggregateBy tag empty total mixed [a, b]) =
      .ok (total [total xs t, total ys t] t) := by
  have hpair : ∀ s ∈ [total xs t, total ys t], tag s = t := by
    simp [htagged.tag_total]
  rw [aggregateBy_eq_total htagged hx (hne.imp_left And.left),
    aggregateBy_eq_total htagged hy (hne.imp_left And.right)]
  simp only [bind, Except.bind]
  rw [aggregateBy_of_shared (by simp) hpair]

/-- Scores of which just one list is empty, with another tag than it, are refused. -/
theorem aggregateBy_refuses (htagged : Tagged tag empty total) {xs ys : List σ} {t : τ}
    (hx : ∀ s ∈ xs, tag s = t) (hy : ∀ s ∈ ys, tag s = t) (hone : ¬ (xs = [] ↔ ys = []))
    (ht : t ≠ tag empty) (c : σ) :
    (do let a ← aggregateBy tag empty total mixed xs
        let b ← aggregateBy tag empty total mixed ys
        aggregateBy tag empty total mixed [a, b]) ≠ .ok c := by
  by_cases hxn : xs = []
  · have hyn : ys ≠ [] := fun hyn => hone (by simp [hxn, hyn])
    have hne : tag empty ≠ tag (total ys t) := by
      rw [htagged.tag_total]
      exact ht.symm
    rw [hxn, aggregateBy_nil, aggregateBy_of_shared hyn hy]
    simp only [bind, Except.bind]
    exact aggregateBy_pair_ne hne
  · have hyn : ys = [] := by
      by_contra hyn
      exact hone (by simp [hxn, hyn])
    have hne : tag (total xs t) ≠ tag empty := by
      rw [htagged.tag_total]
      exact ht
    rw [hyn, aggregateBy_nil, aggregateBy_of_shared hxn hx]
    simp only [bind, Except.bind]
    exact aggregateBy_pair_ne hne

/-- **When aggregation composes.**  Scores with one tag, in two lists, may be added up list by
list exactly when both lists have scores, or neither has, or the tag is that of `empty`; and the
totals add up. -/
theorem aggregateBy_composes_iff (htagged : Tagged tag empty total) {xs ys : List σ} {t : τ}
    (h : ∀ s ∈ xs ++ ys, tag s = t) :
    (do let a ← aggregateBy tag empty total mixed xs
        let b ← aggregateBy tag empty total mixed ys
        aggregateBy tag empty total mixed [a, b]) =
          aggregateBy tag empty total mixed (xs ++ ys) ↔
      ((xs = [] ↔ ys = []) ∨ t = tag empty) ∧
        total [total xs t, total ys t] t = total (xs ++ ys) t := by
  have hx : ∀ s ∈ xs, tag s = t := fun s hs => h s (List.mem_append_left _ hs)
  have hy : ∀ s ∈ ys, tag s = t := fun s hs => h s (List.mem_append_right _ hs)
  by_cases hboth : xs = [] ∧ ys = []
  · obtain ⟨rfl, rfl⟩ := hboth
    rw [aggregateBy_levels (t := tag empty) htagged (by simp) (by simp) (.inr rfl),
      List.append_nil, aggregateBy_nil, htagged.nil, htagged.empty_eq, htagged.nil]
    simp
  by_cases hne : (xs ≠ [] ∧ ys ≠ []) ∨ t = tag empty
  · have hxy : xs ++ ys ≠ [] := fun hnil => hboth (by simpa using hnil)
    have htags : (xs = [] ↔ ys = []) ∨ t = tag empty :=
      hne.imp_left fun hn => ⟨fun hxn => absurd hxn hn.1, fun hyn => absurd hyn hn.2⟩
    rw [aggregateBy_levels htagged hx hy hne, aggregateBy_of_shared hxy h, Except.ok.injEq,
      and_iff_right htags]
  · -- just one of the lists is empty, and the other has a different tag
    obtain ⟨hnot, ht⟩ := not_or.1 hne
    have hone : ¬ (xs = [] ↔ ys = []) := by tauto
    have hxy : xs ++ ys ≠ [] := fun hnil => hboth (by simpa using hnil)
    rw [aggregateBy_of_shared hxy h]
    exact iff_of_false (aggregateBy_refuses htagged hx hy hone ht _)
      fun hall => not_or.2 ⟨hone, ht⟩ hall.1

end AggregateBy

/-! ## Texts -/

namespace TextScore

/-- Micro-average: sum the numerators, sum the denominators. -/
def total (scores : List TextScore) (unit : String) : TextScore where
  errors := (scores.map errors).sum
  length := (scores.map length).sum
  unit := unit

/-- `aggregate` of `app/eval/text.py`. -/
def aggregate : List TextScore → Except TextError TextScore :=
  aggregateBy unit ⟨0, 0, "empty"⟩ total .mixedUnits

theorem tagged_total : Tagged unit ⟨0, 0, "empty"⟩ total where
  tag_total _ _ := rfl
  nil _ := rfl
  empty_eq := rfl

theorem total_append (unit : String) (xs ys : List TextScore) :
    total [total xs unit, total ys unit] unit = total (xs ++ ys) unit := by simp [total]

theorem total_perm {xs ys : List TextScore} (h : xs.Perm ys) (unit : String) :
    total xs unit = total ys unit := by
  rw [total, (h.map errors).sum_eq, (h.map length).sum_eq, total]

end TextScore

/-! ## Boxes -/

namespace BoxReport
variable (R : Rounding)

/-- Sum the counts, sum the overlaps. -/
def total (reports : List BoxReport) (threshold : ℚ) : BoxReport where
  truePositives := (reports.map truePositives).sum
  falsePositives := (reports.map falsePositives).sum
  falseNegatives := (reports.map falseNegatives).sum
  iouSum := R.sum (reports.map iouSum)
  matchedCount := (reports.map matchedCount).sum
  truthCount := (reports.map truthCount).sum
  threshold := threshold

/-- `aggregate` of `app/eval/iou.py`. -/
def aggregate : List BoxReport → Except BoxError BoxReport :=
  aggregateBy threshold ⟨0, 0, 0, 0, 0, 0, defaultThreshold⟩ (total R) .mixedThresholds

theorem tagged_total : Tagged threshold ⟨0, 0, 0, 0, 0, 0, defaultThreshold⟩ (total R) where
  tag_total _ _ := rfl
  nil t := by simp [total, Rounding.sum, Rounding.addLossy, Rounding.add, Rounding.sub]
  empty_eq := by simp [total, Rounding.sum, Rounding.add]

variable {R}

/-- The overlaps are all that may come out differently. -/
theorem total_append_iff (threshold : ℚ) (bs cs : List BoxReport) :
    total R [total R bs threshold, total R cs threshold] threshold =
        total R (bs ++ cs) threshold ↔
      R.sum [R.sum (bs.map iouSum), R.sum (cs.map iouSum)] = R.sum ((bs ++ cs).map iouSum) := by
  simp [total]

theorem total_perm_iff {bs cs : List BoxReport} (h : bs.Perm cs) (threshold : ℚ) :
    total R bs threshold = total R cs threshold ↔
      R.sum (bs.map iouSum) = R.sum (cs.map iouSum) := by
  simp only [total, (h.map truePositives).sum_eq, (h.map falsePositives).sum_eq,
    (h.map falseNegatives).sum_eq, (h.map matchedCount).sum_eq, (h.map truthCount).sum_eq,
    mk.injEq, true_and, and_true]

/-- The order matters just when it does for the sum. -/
theorem aggregate_perm_iff {bs cs : List BoxReport} (h : bs.Perm cs) {t : ℚ}
    (hb : ∀ r ∈ bs, r.threshold = t) :
    aggregate R bs = aggregate R cs ↔ R.sum (bs.map iouSum) = R.sum (cs.map iouSum) := by
  refine ⟨fun heq => ?_, fun hsum => aggregateBy_perm h fun t => (total_perm_iff h t).2 hsum⟩
  by_cases hne : bs = []
  · subst hne
    rw [h.nil_eq]
  · have hne' : cs ≠ [] := fun hnil => hne (hnil ▸ h).eq_nil
    have hc : ∀ r ∈ cs, r.threshold = t := fun r hr => hb r (h.mem_iff.2 hr)
    rw [aggregate, aggregateBy_of_shared hne hb, aggregateBy_of_shared hne' hc,
      Except.ok.injEq] at heq
    exact (total_perm_iff h t).1 heq

end BoxReport

/-! ## Trees -/

namespace TreeScore

theorem aggregate_append (xs ys : List TreeScore) :
    aggregate [aggregate xs, aggregate ys] = aggregate (xs ++ ys) := by
  simp [aggregate_eq]

theorem aggregate_perm {xs ys : List TreeScore} (h : xs.Perm ys) :
    aggregate xs = aggregate ys := by
  simp only [aggregate_eq]
  rw [(h.map distance).sum_eq, (h.map truthNodes).sum_eq, (h.map predictedNodes).sum_eq]

end TreeScore

/-- **When metric aggregation composes.**  For all lists of text scores that share a unit, of
box reports that share a threshold, and of tree scores, in every arithmetic.  Adding up two lists
of texts separately and then together gives what adding up all scores gives exactly when both
lists have scores, or neither has, or the shared unit is the one an empty list is given.  For boxes
the threshold is compared, and the sum of overlaps has to be the same in two steps as in one, which
it is if no sum of some of them needs rounding.  For trees it always composes.  The order of a list
matters to nothing but the sum of overlaps. -/
theorem aggregate_composes_iff (R : Rounding) (unit : String) (threshold : ℚ)
    (xs ys : List TextScore) (bs cs : List BoxReport) (ss ts : List TreeScore)
    (hx : ∀ s ∈ xs ++ ys, s.unit = unit) (hb : ∀ r ∈ bs ++ cs, r.threshold = threshold) :
    ((do let a ← TextScore.aggregate xs
         let b ← TextScore.aggregate ys
         TextScore.aggregate [a, b]) = TextScore.aggregate (xs ++ ys) ↔
      ((xs = [] ↔ ys = []) ∨ unit = "empty")) ∧
    ((do let a ← BoxReport.aggregate R bs
         let b ← BoxReport.aggregate R cs
         BoxReport.aggregate R [a, b]) = BoxReport.aggregate R (bs ++ cs) ↔
      ((bs = [] ↔ cs = []) ∨ threshold = defaultThreshold) ∧
        R.sum [R.sum (bs.map (·.iouSum)), R.sum (cs.map (·.iouSum))] =
          R.sum ((bs ++ cs).map (·.iouSum))) ∧
    (R.Sums ((bs ++ cs).map (·.iouSum)) →
      R.sum [R.sum (bs.map (·.iouSum)), R.sum (cs.map (·.iouSum))] =
        R.sum ((bs ++ cs).map (·.iouSum))) ∧
    TreeScore.aggregate [TreeScore.aggregate ss, TreeScore.aggregate ts] =
      TreeScore.aggregate (ss ++ ts) ∧
    (∀ xs', xs.Perm xs' → TextScore.aggregate xs = TextScore.aggregate xs') ∧
    (∀ bs', bs.Perm bs' →
      (BoxReport.aggregate R bs = BoxReport.aggregate R bs' ↔
        R.sum (bs.map (·.iouSum)) = R.sum (bs'.map (·.iouSum))) ∧
      (R.Sums (bs.map (·.iouSum)) →
        R.sum (bs.map (·.iouSum)) = R.sum (bs'.map (·.iouSum)))) ∧
    ∀ ss', ss.Perm ss' → TreeScore.aggregate ss = TreeScore.aggregate ss' := by
  refine ⟨?_, ?_, fun hsums => ?_, TreeScore.aggregate_append ss ts,
    fun _ h => aggregateBy_perm h (TextScore.total_perm h), fun bs' h => ⟨?_, fun hsums => ?_⟩,
    fun _ h => TreeScore.aggregate_perm h⟩
  · exact (aggregateBy_composes_iff TextScore.tagged_total hx).trans
      (and_iff_left (TextScore.total_append unit xs ys))
  · exact (aggregateBy_composes_iff (BoxReport.tagged_total R) hb).trans
      (and_congr_right' (BoxReport.total_append_iff threshold bs cs))
  · rw [List.map_append] at hsums ⊢
    exact Rounding.sum_append_of_sums hsums
  · exact BoxReport.aggregate_perm_iff h fun r hr => hb r (List.mem_append_left _ hr)
  · exact Rounding.sum_perm_of_sums hsums (h.map _)

/-- A document of two pages and one of one page, all scored in graphemes, and two documents of
boxes whose overlaps are doubles that add up without rounding. -/
theorem aggregate_composes_iff_documents :
    (∀ s ∈ [TextScore.mk 1 10 "grapheme", ⟨0, 5, "grapheme"⟩] ++ [⟨2, 4, "grapheme"⟩],
        s.unit = "grapheme") ∧
      (∀ r ∈ [BoxReport.mk 1 0 0 (1 / 2) 1 1 (3 / 4)] ++ [⟨1, 0, 0, 1 / 4, 1, 1, 3 / 4⟩],
        r.threshold = 3 / 4) ∧
      (do let a ← TextScore.aggregate [⟨1, 10, "grapheme"⟩, ⟨0, 5, "grapheme"⟩]
          let b ← TextScore.aggregate [⟨2, 4, "grapheme"⟩]
          TextScore.aggregate [a, b]) =
        TextScore.aggregate
          ([⟨1, 10, "grapheme"⟩, ⟨0, 5, "grapheme"⟩] ++ [⟨2, 4, "grapheme"⟩]) ∧
      (do let a ← BoxReport.aggregate binary64 [⟨1, 0, 0, 1 / 2, 1, 1, 3 / 4⟩]
          let b ← BoxReport.aggregate binary64 [⟨1, 0, 0, 1 / 4, 1, 1, 3 / 4⟩]
          BoxReport.aggregate binary64 [a, b]) =
        BoxReport.aggregate binary64
          ([⟨1, 0, 0, 1 / 2, 1, 1, 3 / 4⟩] ++ [⟨1, 0, 0, 1 / 4, 1, 1, 3 / 4⟩]) := by
  have hx : ∀ s ∈ [TextScore.mk 1 10 "grapheme", ⟨0, 5, "grapheme"⟩] ++ [⟨2, 4, "grapheme"⟩],
      s.unit = "grapheme" := by simp
  have hb : ∀ r ∈ [BoxReport.mk 1 0 0 (1 / 2) 1 1 (3 / 4)] ++ [⟨1, 0, 0, 1 / 4, 1, 1, 3 / 4⟩],
      r.threshold = 3 / 4 := by simp
  have hsums : binary64.Sums ([1 / 2] ++ [1 / 4]) := by
    intro zs hzs
    obtain ⟨ws, hperm, hsub⟩ := hzs
    have hall : ∀ ws ∈ List.sublists [(1 / 2 : ℚ), 1 / 4], binary64.Has ws.sum := by
      decide +kernel
    rw [← hperm.sum_eq]
    exact hall ws (List.mem_sublists.2 hsub)
  have hall := aggregate_composes_iff binary64 "grapheme" (3 / 4) _ _ _ _ [] [] hx hb
  exact ⟨hx, hb, hall.1.2 (Or.inl (by simp)), hall.2.1.2 ⟨Or.inl (by simp), hall.2.2.1 hsums⟩⟩

/-- A corpus of a document without pages and one with a page: the text scores are refused as
mixed units, and the box reports, scored at 3/4, as mixed thresholds.  And overlaps of 0.1 in one
document and of 0.2 and 0.7 in another: in doubles they come to 1, and to less in two steps. -/
theorem aggregate_not_composes :
    (do let a ← TextScore.aggregate []
        let b ← TextScore.aggregate [⟨1, 10, "grapheme"⟩]
        TextScore.aggregate [a, b]) = .error (.mixedUnits ["empty", "grapheme"]) ∧
      TextScore.aggregate ([] ++ [⟨1, 10, "grapheme"⟩]) = .ok ⟨1, 10, "grapheme"⟩ ∧
      (do let a ← BoxReport.aggregate binary64 []
          let b ← BoxReport.aggregate binary64 [⟨1, 0, 0, 1, 1, 1, 3 / 4⟩]
          BoxReport.aggregate binary64 [a, b]) = .error (.mixedThresholds [1 / 2, 3 / 4]) ∧
      BoxReport.aggregate binary64 ([] ++ [⟨1, 0, 0, 1, 1, 1, 3 / 4⟩]) =
        .ok ⟨1, 0, 0, 1, 1, 1, 3 / 4⟩ ∧
      (do let a ← BoxReport.aggregate binary64 [⟨0, 1, 1, binary64.round (1 / 10), 1, 1, 3 / 4⟩]
          let b ← BoxReport.aggregate binary64 [⟨0, 1, 1, binary64.round (2 / 10), 1, 1, 3 / 4⟩,
            ⟨0, 1, 1, binary64.round (7 / 10), 1, 1, 3 / 4⟩]
          BoxReport.aggregate binary64 [a, b]) =
        .ok ⟨0, 3, 3, 1 - 1 / 2 ^ 53, 3, 3, 3 / 4⟩ ∧
      BoxReport.aggregate binary64 ([⟨0, 1, 1, binary64.round (1 / 10), 1, 1, 3 / 4⟩] ++
          [⟨0, 1, 1, binary64.round (2 / 10), 1, 1, 3 / 4⟩,
            ⟨0, 1, 1, binary64.round (7 / 10), 1, 1, 3 / 4⟩]) =
        .ok ⟨0, 3, 3, 1, 3, 3, 3 / 4⟩ := by
  decide +kernel

end Eval
end OcrOrchestrator
