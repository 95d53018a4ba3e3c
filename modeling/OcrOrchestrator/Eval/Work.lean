import OcrOrchestrator.Eval.Parse
import OcrOrchestrator.Lib.Fold
import Mathlib.Algebra.BigOperators.Ring.List
import Mathlib.Algebra.Ring.Nat
import Mathlib.Data.Nat.Cast.Basic

/-!
# The work of the tree edit distance

`keyroot_weight` is computed from a parsed tree before any table is filled.  Here the loops
of `tree_edit_distance` carry a counter of the cells their innermost body has written, and
the count at the end is the product of the two weights.

## Main definitions

* `Tree.keyrootWeight` — the sum of the sizes of the keyroots' subtrees.
* `chargedDistance` — the distance, and the number of cells written on the way.
-/

namespace OcrOrchestrator
namespace Eval

open Lib

variable {α : Type}

/-- `keyroot_weight`.  In a parsed tree `leftmost[k]` is never above `k`. -/
def Tree.keyrootWeight (t : Tree α) : ℕ := (t.keyroots.map fun k => k - t.left k + 1).sum

section Charged
variable [DecidableEq α] (a b : Tree α)

/-- The innermost loop body, counted. -/
def chargedCell (rootA rootB i : ℕ) (t : Tables × ℕ) (j : ℕ) : Tables × ℕ :=
  (forestCell a b rootA rootB i t.1 j, t.2 + 1)

/-- A row of a pass. -/
def chargedRow (rootA rootB : ℕ) (t : Tables × ℕ) (i : ℕ) : Tables × ℕ :=
  (List.range' 1 (rootB - (b.left rootB - 1))).foldl (chargedCell a b rootA rootB i) t

/-- A pass.  Filling the base cases is not charged: it is not the inner loop. -/
def chargedPass (rootA : ℕ) (t : Tables × ℕ) (rootB : ℕ) : Tables × ℕ :=
  let rows := rootA - (a.left rootA - 1)
  let cols := rootB - (b.left rootB - 1)
  (List.range' 1 rows).foldl (chargedRow a b rootA rootB)
    ({ t.1 with forestdist := emptyForests rows cols t.1.forestdist }, t.2)

/-- All passes for one keyroot of the first tree. -/
def chargedPasses (t : Tables × ℕ) (rootA : ℕ) : Tables × ℕ :=
  b.keyroots.foldl (chargedPass a b rootA) t

/-- `tree_edit_distance`, and the number of inner-loop cell updates it makes. -/
def chargedDistance : ℕ × ℕ :=
  if a.size = 0 then (b.size, 0)
  else if b.size = 0 then (a.size, 0)
  else
    let t := a.keyroots.foldl (chargedPasses a b) (⟨fun _ _ => 0, fun _ _ => 0⟩, 0)
    (t.1.treedist a.size b.size, t.2)

/-! ## What a loop adds to the counter -/

theorem chargedRow_eq (rootA rootB i n : ℕ) (t : Tables) :
    chargedRow a b rootA rootB (t, n) i =
      (forestRow a b rootA rootB t i, n + (rootB - (b.left rootB - 1))) := by
  have hcells := foldl_charged (f := chargedCell a b rootA rootB i)
    (g := forestCell a b rootA rootB i) (c := fun _ => 1) (fun _ _ _ => rfl)
    (List.range' 1 (rootB - (b.left rootB - 1))) t n
  simpa [chargedRow, forestRow] using hcells

theorem chargedPass_eq (rootA rootB n : ℕ) (t : Tables) :
    chargedPass a b rootA (t, n) rootB =
      (forestPass a b rootA t rootB,
        n + (rootA - (a.left rootA - 1)) * (rootB - (b.left rootB - 1))) := by
  have hrows := foldl_charged (f := chargedRow a b rootA rootB)
    (g := forestRow a b rootA rootB) (c := fun _ => rootB - (b.left rootB - 1))
    (fun t n i => chargedRow_eq a b rootA rootB i n t)
    (List.range' 1 (rootA - (a.left rootA - 1)))
    ⟨t.treedist, emptyForests (rootA - (a.left rootA - 1)) (rootB - (b.left rootB - 1))
      t.forestdist⟩ n
  simpa [chargedPass, forestPass] using hrows

theorem chargedPasses_eq (rootA n : ℕ) (t : Tables) :
    chargedPasses a b (t, n) rootA =
      (keyrootPasses a b t rootA, n + (b.keyroots.map fun rootB =>
        (rootA - (a.left rootA - 1)) * (rootB - (b.left rootB - 1))).sum) :=
  foldl_charged (fun t n rootB => chargedPass_eq a b rootA rootB n t) b.keyroots t n

/-- The counter does not disturb the distance. -/
theorem chargedDistance_fst : (chargedDistance a b).1 = treeEditDistance a b := by
  rw [chargedDistance, treeEditDistance]
  split
  · rfl
  · split
    · rfl
    · rw [foldl_charged fun t n rootA => chargedPasses_eq a b rootA n t]

end Charged

/-! ## The weights -/

/-- In a parsed tree the rows of a keyroot's passes are the nodes of its subtree. -/
theorem Tree.Numbered.rows_eq {t : Tree α} (h : t.Numbered) {k : ℕ} (hk : k ∈ t.keyroots) :
    k - (t.left k - 1) = k - t.left k + 1 := by
  have hbounds := h.keyroot_bounds k hk
  have hpos := h.pos k hbounds.1 hbounds.2
  have hle := h.postorder.le k
  omega

/-- The work is the product of the weights. -/
theorem Tree.Numbered.chargedDistance_snd [DecidableEq α] {a b : Tree α} (ha : a.Numbered)
    (hb : b.Numbered) (hna : 0 < a.size) (hnb : 0 < b.size) :
    (chargedDistance a b).2 = a.keyrootWeight * b.keyrootWeight := by
  have hcols : ∀ rows : ℕ, (b.keyroots.map fun rootB =>
      rows * (rootB - (b.left rootB - 1))).sum = rows * b.keyrootWeight := by
    intro rows
    rw [List.sum_map_mul_left, Tree.keyrootWeight]
    exact congrArg (rows * List.sum ·) (List.map_congr_left fun k hk => hb.rows_eq hk)
  have hrows : (a.keyroots.map fun rootA => rootA - (a.left rootA - 1)) =
      a.keyroots.map fun k => k - a.left k + 1 :=
    List.map_congr_left fun k hk => ha.rows_eq hk
  rw [chargedDistance, if_neg hna.ne', if_neg hnb.ne',
    foldl_charged fun t n rootA => chargedPasses_eq a b rootA n t]
  simp only [hcols, List.sum_map_mul_right, hrows, Nat.zero_add]
  rfl

/-- The work of two trees that were parsed, one of them possibly empty. -/
theorem chargedDistance_flattenRoot [DecidableEq α] (s t : Option (OrderedTree α)) :
    (chargedDistance (flattenRoot s) (flattenRoot t)).2 =
      (flattenRoot s).keyrootWeight * (flattenRoot t).keyrootWeight := by
  have hpos : ∀ t : OrderedTree α, 0 < t.flatten.size := fun t => by
    rw [t.flatten_size]
    exact t.size_pos
  cases s with
  | none => simp [chargedDistance, flattenRoot, Tree.size, Tree.keyrootWeight]
  | some s =>
    cases t with
    | none =>
      have hempty : (flattenRoot (none : Option (OrderedTree α))).size = 0 := rfl
      have hweight : (flattenRoot (none : Option (OrderedTree α))).keyrootWeight = 0 := rfl
      rw [hweight, Nat.mul_zero, chargedDistance, if_pos hempty]
      split <;> rfl
    | some t =>
      exact s.numbered_flatten.chargedDistance_snd t.numbered_flatten (hpos s) (hpos t)

end Eval
end OcrOrchestrator
