import Mathlib.MeasureTheory.Measure.Lebesgue.Basic
import Mathlib.MeasureTheory.Measure.Prod
import Mathlib.MeasureTheory.Measure.Real

/-!
# Axis-aligned rectangles in the plane

A rectangle is the product of two closed intervals, given by its lower corner and its
extents.  Its area is its Lebesgue measure.  Intersections of rectangles are rectangles
again, which is what makes the areas of an intersection and of a union computable.

## Main definitions

* `rect` — the points of a rectangle.
* `overlap` — how far two intervals overlap.
-/

namespace OcrOrchestrator.Lib

open MeasureTheory Set

/-- The points of the rectangle with lower corner `(x, y)` and extents `w` and `h`. -/
def rect (x y w h : ℝ) : Set (ℝ × ℝ) := Icc x (x + w) ×ˢ Icc y (y + h)

theorem measurableSet_rect (x y w h : ℝ) : MeasurableSet (rect x y w h) :=
  measurableSet_Icc.prod measurableSet_Icc

/-- A product of two intervals is measured one axis at a time. -/
theorem volume_real_Icc_prod (a b c d : ℝ) :
    volume.real (Icc a b ×ˢ Icc c d : Set (ℝ × ℝ)) = max (b - a) 0 * max (d - c) 0 := by
  rw [Measure.volume_eq_prod, measureReal_prod_prod, Real.volume_real_Icc, Real.volume_real_Icc]

theorem volume_Icc_prod_ne_top (a b c d : ℝ) :
    volume (Icc a b ×ˢ Icc c d : Set (ℝ × ℝ)) ≠ ⊤ := by
  rw [Measure.volume_eq_prod, Measure.prod_prod, Real.volume_Icc, Real.volume_Icc]
  exact ENNReal.mul_ne_top ENNReal.ofReal_ne_top ENNReal.ofReal_ne_top

theorem volume_real_rect {x y w h : ℝ} (hw : 0 ≤ w) (hh : 0 ≤ h) :
    volume.real (rect x y w h) = w * h := by
  rw [rect, volume_real_Icc_prod, add_sub_cancel_left, add_sub_cancel_left, max_eq_left hw,
    max_eq_left hh]

/-- How far `[x, x + w]` and `[x', x' + w']` overlap. -/
noncomputable def overlap (x w x' w' : ℝ) : ℝ := max 0 (min (x + w) (x' + w') - max x x')

/-- Two rectangles meet in a rectangle. -/
theorem volume_real_rect_inter (x y w h x' y' w' h' : ℝ) :
    volume.real (rect x y w h ∩ rect x' y' w' h') =
      overlap x w x' w' * overlap y h y' h' := by
  rw [rect, rect, prod_inter_prod, Icc_inter_Icc, Icc_inter_Icc, volume_real_Icc_prod]
  simp only [overlap, max_comm (0 : ℝ)]

/-- Inclusion and exclusion. -/
theorem volume_real_rect_union {x y w h x' y' w' h' : ℝ} (hw : 0 ≤ w) (hh : 0 ≤ h)
    (hw' : 0 ≤ w') (hh' : 0 ≤ h') :
    volume.real (rect x y w h ∪ rect x' y' w' h') =
      w * h + w' * h' - overlap x w x' w' * overlap y h y' h' := by
  have hsum := measureReal_union_add_inter (μ := volume) (s := rect x y w h)
    (measurableSet_rect x' y' w' h') (volume_Icc_prod_ne_top _ _ _ _)
    (volume_Icc_prod_ne_top _ _ _ _)
  rw [volume_real_rect_inter, volume_real_rect hw hh, volume_real_rect hw' hh'] at hsum
  linarith

/-- Two rectangles share a region of positive area exactly if they overlap on both axes. -/
theorem exists_pos_volume_iff (x y w h x' y' w' h' : ℝ) :
    (∃ S ⊆ rect x y w h ∩ rect x' y' w' h', 0 < volume S) ↔
      0 < overlap x w x' w' * overlap y h y' h' := by
  have hfin : volume (rect x y w h ∩ rect x' y' w' h') ≠ ⊤ :=
    measure_ne_top_of_subset inter_subset_left (volume_Icc_prod_ne_top _ _ _ _)
  rw [← volume_real_rect_inter]
  constructor
  · rintro ⟨S, hS, hpos⟩
    exact ENNReal.toReal_pos (hpos.trans_le (measure_mono hS)).ne' hfin
  · intro hpos
    exact ⟨_, Subset.rfl, (ENNReal.toReal_pos_iff.1 hpos).1⟩

end OcrOrchestrator.Lib
