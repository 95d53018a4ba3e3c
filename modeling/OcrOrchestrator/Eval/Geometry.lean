import OcrOrchestrator.Eval.Iou
import OcrOrchestrator.Lib.Rectangle
import Mathlib.Tactic.FieldSimp

/-!
# The geometry of the overlap

`iou` computes with four numbers a box.  What the value means is a statement about sets of
points: a box is a rectangle in the plane, areas are Lebesgue measures, and the value is the
share of the union that both boxes cover.

## Main definitions

* `Box.region` — the points of a box.
* `Box.translate`, `Box.scale` — the two changes of coordinates the overlap does not see.
-/

namespace OcrOrchestrator
namespace Eval

open Lib MeasureTheory

attribute [ext] Box

namespace Box

/-- The points of a box. -/
def region (b : Box) : Set (ℝ × ℝ) := rect b.x b.y b.w b.h

/-- The box moved by `(dx, dy)`. -/
def translate (dx dy : ℚ) (b : Box) : Box := ⟨b.x + dx, b.y + dy, b.w, b.h⟩

/-- The box in coordinates scaled by `sx` and `sy`. -/
def scale (sx sy : ℚ) (b : Box) : Box := ⟨sx * b.x, sy * b.y, sx * b.w, sy * b.h⟩

/-- The extents are not negative. -/
def Valid (b : Box) : Prop := 0 ≤ b.w ∧ 0 ≤ b.h

/-! ## The numbers of the code -/

/-- The overlap on the first axis, clamped. -/
def overlapW (a b : Box) : ℚ := max 0 (min a.x2 b.x2 - max a.x b.x)

/-- The overlap on the second axis, clamped. -/
def overlapH (a b : Box) : ℚ := max 0 (min a.y2 b.y2 - max a.y b.y)

def intersection (a b : Box) : ℚ := a.overlapW b * a.overlapH b

def union (a b : Box) : ℚ := a.area + b.area - a.intersection b

variable {a b : Box}

theorem iou_eq (a b : Box) :
    a.iou b = if a.union b ≤ 0 then 0 else a.intersection b / a.union b := rfl

theorem intersection_comm (a b : Box) : a.intersection b = b.intersection a := by
  simp only [intersection, overlapW, overlapH, min_comm, max_comm]

theorem union_comm (a b : Box) : a.union b = b.union a := by
  rw [union, union, intersection_comm, add_comm a.area]

theorem iou_comm (a b : Box) : a.iou b = b.iou a := by
  rw [iou_eq, iou_eq, intersection_comm, union_comm]

theorem overlapW_nonneg (a b : Box) : 0 ≤ a.overlapW b := le_max_left _ _

theorem overlapH_nonneg (a b : Box) : 0 ≤ a.overlapH b := le_max_left _ _

theorem intersection_nonneg (a b : Box) : 0 ≤ a.intersection b :=
  mul_nonneg (a.overlapW_nonneg b) (a.overlapH_nonneg b)

/-- What two boxes share is no larger than either. -/
theorem intersection_le (ha : a.Valid) (hb : b.Valid) :
    a.intersection b ≤ a.area ∧ a.intersection b ≤ b.area := by
  have hW := overlap_le a.x b.x ha.1 hb.1
  have hH := overlap_le a.y b.y ha.2 hb.2
  exact ⟨mul_le_mul hW.1 hH.1 (a.overlapH_nonneg b) ha.1,
    mul_le_mul hW.2 hH.2 (a.overlapH_nonneg b) hb.1⟩

/-! ## When the value is 0, and when it is 1 -/

/-- The value vanishes exactly if nothing is shared. -/
theorem iou_eq_zero_iff (ha : a.Valid) (hb : b.Valid) : a.iou b = 0 ↔ a.intersection b = 0 := by
  have hle := intersection_le ha hb
  have hnonneg := a.intersection_nonneg b
  rw [iou_eq]
  split
  · rename_i hunion
    have hzero : a.intersection b = 0 := by
      simp only [union] at hunion
      linarith
    simp [hzero]
  · rename_i hunion
    rw [div_eq_zero_iff, or_iff_left (not_le.1 hunion).ne']

/-- Two intervals of the same positive length that overlap by all of it start at the same
place. -/
theorem eq_of_full_overlap {x w x' w' : ℚ} (h : max 0 (min (x + w) (x' + w') - max x x') = w)
    (hw : w = w') (hpos : 0 < w) : x = x' := by
  have hfull : min (x + w) (x' + w') - max x x' = w := by
    rcases max_choice 0 (min (x + w) (x' + w') - max x x') with hmax | hmax
    · rw [hmax] at h
      exact absurd h hpos.ne
    · exact hmax.symm.trans h
  have h₁ := min_le_left (x + w) (x' + w')
  have h₂ := min_le_right (x + w) (x' + w')
  have h₃ := le_max_left x x'
  have h₄ := le_max_right x x'
  linarith

/-- Where the intersection is as large as a box of positive area, it is as long as the box on
both axes. -/
theorem eq_of_mul_eq {p q w h : ℚ} (hp : 0 ≤ p) (hq : 0 ≤ q) (hpw : p ≤ w) (hqh : q ≤ h)
    (hpos : 0 < w * h) (heq : p * q = w * h) : p = w ∧ q = h := by
  have hpq : p * h ≤ w * h := mul_le_mul_of_nonneg_right hpw (hq.trans hqh)
  have hqp : p * q ≤ p * h := mul_le_mul_of_nonneg_left hqh hp
  have hh : 0 < h := lt_of_le_of_ne (hq.trans hqh) (by rintro rfl; simp at hpos)
  have hpw' : p = w := mul_right_cancel₀ hh.ne' (by linarith)
  subst hpw'
  have hp' : p ≠ 0 := by
    rintro rfl
    simp at hpos
  exact ⟨rfl, mul_left_cancel₀ hp' heq⟩

/-- A box of positive area covers itself. -/
theorem iou_self (h : a.Valid) (hpos : 0 < a.area) : a.iou a = 1 := by
  have hinter : a.intersection a = a.area := by
    have hw : max 0 (a.x + a.w - a.x) = a.w := by rw [add_sub_cancel_left, max_eq_right h.1]
    have hh : max 0 (a.y + a.h - a.y) = a.h := by rw [add_sub_cancel_left, max_eq_right h.2]
    simp only [intersection, overlapW, overlapH, min_self, max_self, x2, y2, hw, hh, area]
  have hunion : a.union a = a.area := by rw [union, hinter, add_sub_cancel_right]
  rw [iou_eq, hunion, if_neg (not_le.2 hpos), hinter, div_self hpos.ne']

/-- The value is 1 exactly for two equal boxes of positive area. -/
theorem iou_eq_one_iff (ha : a.Valid) (hb : b.Valid) :
    a.iou b = 1 ↔ a = b ∧ 0 < a.area := by
  constructor
  · intro hone
    have hle := intersection_le ha hb
    have hW := overlap_le a.x b.x ha.1 hb.1
    have hH := overlap_le a.y b.y ha.2 hb.2
    rw [iou_eq] at hone
    split at hone
    · simp at hone
    · rename_i hunion
      rw [not_le] at hunion
      rw [div_eq_one_iff_eq hunion.ne'] at hone
      -- both areas are the intersection, so each overlap is a full extent of either box
      simp only [union] at hone hunion
      have hareaA : a.intersection b = a.area := by linarith
      have hareaB : a.intersection b = b.area := by linarith
      have hposA : 0 < a.area := by linarith
      have hposB : 0 < b.area := by linarith
      obtain ⟨hWa, hHa⟩ := eq_of_mul_eq (a.overlapW_nonneg b) (a.overlapH_nonneg b) hW.1 hH.1
        hposA hareaA
      obtain ⟨hWb, hHb⟩ := eq_of_mul_eq (a.overlapW_nonneg b) (a.overlapH_nonneg b) hW.2 hH.2
        hposB hareaB
      have hw : a.w = b.w := hWa.symm.trans hWb
      have hh : a.h = b.h := hHa.symm.trans hHb
      have hwpos : 0 < a.w := lt_of_le_of_ne ha.1 fun h => by simp [area, ← h] at hposA
      have hhpos : 0 < a.h := lt_of_le_of_ne ha.2 fun h => by simp [area, ← h] at hposA
      have hx : a.x = b.x := eq_of_full_overlap hWa hw hwpos
      have hy : a.y = b.y := eq_of_full_overlap hHa hh hhpos
      exact ⟨Box.ext hx hy hw hh, hposA⟩
  · rintro ⟨rfl, hpos⟩
    exact iou_self ha hpos

/-! ## Changes of coordinates -/

theorem iou_translate (dx dy : ℚ) (a b : Box) :
    (a.translate dx dy).iou (b.translate dx dy) = a.iou b := by
  have haxis : ∀ x w x' w' d : ℚ, min (x + d + w) (x' + d + w') - max (x + d) (x' + d) =
      min (x + w) (x' + w') - max x x' := by
    intro x w x' w' d
    rw [add_right_comm x, add_right_comm x', min_add_add_right, max_add_add_right]
    ring
  have hinter : (a.translate dx dy).intersection (b.translate dx dy) = a.intersection b := by
    simp only [intersection, overlapW, overlapH, translate, x2, y2, haxis]
  simp only [iou_eq, union, hinter]
  rfl

theorem iou_scale {sx sy : ℚ} (hx : 0 < sx) (hy : 0 < sy) (a b : Box) :
    (a.scale sx sy).iou (b.scale sx sy) = a.iou b := by
  have haxis : ∀ {s : ℚ}, 0 < s → ∀ x w x' w' : ℚ,
      max 0 (min (s * x + s * w) (s * x' + s * w') - max (s * x) (s * x')) =
        s * max 0 (min (x + w) (x' + w') - max x x') := by
    intro s hs x w x' w'
    rw [mul_max_of_nonneg _ _ hs.le, mul_sub, mul_min_of_nonneg _ _ hs.le,
      mul_max_of_nonneg _ _ hs.le, mul_zero, mul_add, mul_add]
  have hinter : (a.scale sx sy).intersection (b.scale sx sy) =
      sx * sy * a.intersection b := by
    simp only [intersection, overlapW, overlapH, scale, x2, y2, haxis hx, haxis hy]
    ring
  have hunion : (a.scale sx sy).union (b.scale sx sy) = sx * sy * a.union b := by
    simp only [union, hinter]
    simp only [scale, area]
    ring
  have hpos : 0 < sx * sy := mul_pos hx hy
  have hsign : sx * sy * a.union b ≤ 0 ↔ a.union b ≤ 0 := by
    rw [mul_nonpos_iff]
    simp [hpos.le, hpos.not_ge]
  rw [iou_eq, iou_eq, hinter, hunion, mul_div_mul_left _ _ hpos.ne']
  simp only [hsign]

theorem Valid.translate (ha : a.Valid) (dx dy : ℚ) : (a.translate dx dy).Valid := ha

theorem Valid.scale (ha : a.Valid) {sx sy : ℚ} (hx : 0 < sx) (hy : 0 < sy) :
    (a.scale sx sy).Valid :=
  ⟨mul_nonneg hx.le ha.1, mul_nonneg hy.le ha.2⟩

/-! ## Areas -/

/-- The product of the clamped overlaps is the area of the points in both boxes. -/
theorem volume_real_inter (a b : Box) :
    volume.real (a.region ∩ b.region) = a.intersection b := by
  rw [region, region, volume_real_rect_inter]
  simp only [overlap, intersection, overlapW, overlapH, x2, y2]
  push_cast
  rfl

/-- Inclusion and exclusion gives the area of the points in either box. -/
theorem volume_real_union (ha : a.Valid) (hb : b.Valid) :
    volume.real (a.region ∪ b.region) = a.union b := by
  rw [region, region, volume_real_rect_union (mod_cast ha.1) (mod_cast ha.2) (mod_cast hb.1)
    (mod_cast hb.2), ← volume_real_rect_inter]
  have hinter : volume.real (rect a.x a.y a.w a.h ∩ rect b.x b.y b.w b.h) = a.intersection b :=
    volume_real_inter a b
  rw [hinter, union, area, area]
  push_cast
  rfl

/-- The value is the share of the union that both boxes cover. -/
theorem iou_eq_div_volume (ha : a.Valid) (hb : b.Valid)
    (hpos : 0 < volume.real (a.region ∪ b.region)) :
    (a.iou b : ℝ) = volume.real (a.region ∩ b.region) / volume.real (a.region ∪ b.region) := by
  rw [volume_real_union ha hb] at hpos ⊢
  have hunion : ¬ a.union b ≤ 0 := not_le.2 (mod_cast hpos)
  rw [volume_real_inter, iou_eq, if_neg hunion]
  push_cast
  rfl

/-- The value vanishes exactly if the boxes share no region of positive area. -/
theorem iou_eq_zero_iff_region (ha : a.Valid) (hb : b.Valid) :
    a.iou b = 0 ↔ ¬ ∃ S ⊆ a.region ∩ b.region, 0 < volume S := by
  have hregion : (∃ S ⊆ a.region ∩ b.region, 0 < volume S) ↔ 0 < a.intersection b := by
    rw [region, region, exists_pos_volume_iff, ← volume_real_rect_inter]
    have hinter := volume_real_inter a b
    rw [region, region] at hinter
    rw [hinter, Rat.cast_pos]
  rw [iou_eq_zero_iff ha hb, hregion, not_lt]
  exact ⟨le_of_eq, fun h => le_antisymm h (a.intersection_nonneg b)⟩

end Box

theorem iou_box {a b : Box} (ha : a.Valid) (hb : b.Valid) :
    iou (.box a) (.box b) = .ok (a.iou b) :=
  iou_of_asBox (asBox_box ha.1 ha.2) (asBox_box hb.1 hb.2)

/-- **What `iou` measures.**  For two boxes without negative extents it returns a fraction
that does not depend on the order of the boxes, on the origin or on the scale of the axes.  It
is the area of the points in both boxes over the area of the points in either, where that is
positive; it is 0 exactly if no region of positive area lies in both, and 1 exactly for one
box of positive area, taken twice. -/
theorem iou_measures (a b : Box) (ha : a.Valid) (hb : b.Valid) :
    ∃ q : ℚ, iou (.box a) (.box b) = .ok q ∧ iou (.box b) (.box a) = .ok q ∧
      0 ≤ q ∧ q ≤ 1 ∧
      (0 < volume.real (a.region ∪ b.region) →
        (q : ℝ) = volume.real (a.region ∩ b.region) / volume.real (a.region ∪ b.region)) ∧
      (q = 0 ↔ ¬ ∃ S ⊆ a.region ∩ b.region, 0 < volume S) ∧
      (q = 1 ↔ a = b ∧ 0 < a.area) ∧
      (∀ dx dy, iou (.box (a.translate dx dy)) (.box (b.translate dx dy)) = .ok q) ∧
      ∀ sx sy, 0 < sx → 0 < sy →
        iou (.box (a.scale sx sy)) (.box (b.scale sx sy)) = .ok q := by
  have hbounds := Box.iou_mem ha hb
  refine ⟨a.iou b, iou_box ha hb, ?_, hbounds.1, hbounds.2, Box.iou_eq_div_volume ha hb,
    Box.iou_eq_zero_iff_region ha hb, Box.iou_eq_one_iff ha hb, ?_, ?_⟩
  · rw [iou_box hb ha, Box.iou_comm]
  · intro dx dy
    rw [iou_box (ha.translate dx dy) (hb.translate dx dy), Box.iou_translate]
  · intro sx sy hx hy
    rw [iou_box (ha.scale hx hy) (hb.scale hx hy), Box.iou_scale hx hy]

/-- Two squares of side 2 that share a quarter of each: 1 of 7, also after a move and a change
of scale. -/
theorem iou_measures_quarter :
    ∃ q : ℚ, iou (.box ⟨0, 0, 2, 2⟩) (.box ⟨1, 1, 2, 2⟩) = .ok q ∧ q = 1 / 7 ∧ 0 ≤ q ∧ q ≤ 1 ∧
      (q = 0 ↔ ¬ ∃ S ⊆ (Box.mk 0 0 2 2).region ∩ (Box.mk 1 1 2 2).region, 0 < volume S) ∧
      iou (.box ⟨10, 5, 2, 2⟩) (.box ⟨11, 6, 2, 2⟩) = .ok q ∧
      iou (.box ⟨0, 0, 6, 1⟩) (.box ⟨3, 1 / 2, 6, 1⟩) = .ok q := by
  obtain ⟨q, hq, -, h0, h1, -, hzero, -, hmove, hscale⟩ :=
    iou_measures ⟨0, 0, 2, 2⟩ ⟨1, 1, 2, 2⟩ ⟨by decide, by decide⟩ ⟨by decide, by decide⟩
  have hvalue : iou (.box ⟨0, 0, 2, 2⟩) (.box ⟨1, 1, 2, 2⟩) = .ok (1 / 7) := by decide +kernel
  have h7 : q = 1 / 7 := Except.ok.inj (hq.symm.trans hvalue)
  have hmoved := hmove 10 5
  have hscaled := hscale 3 (1 / 2) (by decide) (by norm_num)
  norm_num [Box.translate] at hmoved
  norm_num [Box.scale] at hscaled
  exact ⟨q, hq, h7, h0, h1, hzero, hmoved, hscaled⟩

end Eval
end OcrOrchestrator
