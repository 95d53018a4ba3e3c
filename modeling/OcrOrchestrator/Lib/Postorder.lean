import OcrOrchestrator.Lib.TreeMapping
import Mathlib.Order.Interval.Finset.Nat

/-!
# Distances between forests numbered in postorder

Number the nodes of an ordered tree in postorder, from 1, and note for each node `i` the
number `l i` of its leftmost leaf.  Then the subtree of `i` is the range `l i, …, i`, every
initial part of it is a forest of whole subtrees, and both relations on nodes are
comparisons of numbers.

A mapping between the forests on `p + 1, …, u` and on `q + 1, …, v` either leaves `u` out, or
leaves `v` out, or pairs `u` with `v`, since both come last.  The two recurrences below are
this remark, once for forests that are single trees and once for those that are not.

## Main definitions

* `Postorder l` — what a leftmost-leaf numbering satisfies.
* `postorder l` — ancestry and left-to-right order, read off the numbers.
* `ForestMapping`, `Best`, `Dist` — mappings between two forests, the greatest gain of one
  and the distance of the forests.
-/

namespace OcrOrchestrator.Lib

/-- The leftmost leaf under a node has no greater number than the node, and the leftmost
leaf under a descendant has no smaller number than the one under the node. -/
structure Postorder (l : ℕ → ℕ) : Prop where
  le : ∀ i, l i ≤ i
  nested : ∀ i k, l i ≤ k → k ≤ i → l i ≤ l k

/-- Ancestry and left-to-right order of nodes numbered in postorder: the subtree of `i` is
`l i, …, i`, and what ends before it starts lies to its left. -/
def postorder (l : ℕ → ℕ) : NodeOrder ℕ where
  anc i k := l i ≤ k ∧ k < i
  left i k := i < l k

variable {l m : ℕ → ℕ} {same : ℕ → ℕ → Prop} [∀ i j, Decidable (same i j)]
  {p u q v : ℕ} {M N : Finset (ℕ × ℕ)}

/-- A mapping between the forest of the nodes `p + 1, …, u` of the one tree and that of the
nodes `q + 1, …, v` of the other. -/
structure ForestMapping (l m : ℕ → ℕ) (p u q v : ℕ) (M : Finset (ℕ × ℕ)) : Prop where
  subset : M ⊆ Finset.Ioc p u ×ˢ Finset.Ioc q v
  tai : Tai (postorder l) (postorder m) M

variable (l m same p u q v) in
/-- The greatest gain of a mapping between two forests. -/
def Best (s : ℕ) : Prop :=
  IsGreatest {s | ∃ M, ForestMapping l m p u q v M ∧ s = saving same M} s

variable (l m same p u q v) in
/-- The distance of two forests: all their nodes, less the greatest gain. -/
def Dist (d : ℕ) : Prop :=
  ∃ s, Best l m same p u q v s ∧ d + s = (u - p) + (v - q)

namespace ForestMapping

theorem bounds (h : ForestMapping l m p u q v M) {x : ℕ × ℕ} (hx : x ∈ M) :
    p < x.1 ∧ x.1 ≤ u ∧ q < x.2 ∧ x.2 ≤ v := by
  have := h.subset hx
  simp only [Finset.mem_product, Finset.mem_Ioc] at this
  omega

/-- Part of a mapping is a mapping between whatever forests hold its nodes. -/
theorem restrict {p' u' q' v' : ℕ} (h : ForestMapping l m p u q v M) (hN : N ⊆ M)
    (hb : ∀ x ∈ N, p' < x.1 ∧ x.1 ≤ u' ∧ q' < x.2 ∧ x.2 ≤ v') :
    ForestMapping l m p' u' q' v' N := by
  refine ⟨fun x hx => ?_, h.tai.mono hN⟩
  have := hb x hx
  simp only [Finset.mem_product, Finset.mem_Ioc]
  omega

theorem empty : ForestMapping l m p u q v ∅ :=
  ⟨Finset.empty_subset _, Tai.empty⟩

/-- Both forests end in a mapped node: then these two nodes are mapped to each other. -/
theorem last_mem (hl : Postorder l) (hm : Postorder m) (h : ForestMapping l m p u q v M)
    {i j : ℕ} (hu : (u, j) ∈ M) (hv : (i, v) ∈ M) : (u, v) ∈ M := by
  have hi := h.bounds hv
  have hj := h.bounds hu
  have hrel := h.tai (u, j) hu (i, v) hv
  simp only [postorder] at hrel hi hj
  have hli := hl.le i
  have hmv := hm.le v
  have hmj := hm.le j
  -- a node before `u` is below it or to its left; no node follows `v` in either way
  have huj : j = v := by
    by_contra hne
    by_cases hlu : l u ≤ i
    · omega
    · have hleft := (h.tai (i, v) hv (u, j) hu).2.2
      simp only [postorder] at hleft
      omega
  rw [← huj]
  exact hu

end ForestMapping

/-! ## The greatest gain -/

/-- Nothing can be mapped to an empty forest. -/
theorem best_of_empty (h : u ≤ p ∨ v ≤ q) : Best l m same p u q v 0 := by
  refine ⟨⟨∅, .empty, rfl⟩, ?_⟩
  rintro s ⟨M, hM, rfl⟩
  have hempty : M = ∅ := by
    refine Finset.eq_empty_of_forall_notMem fun x hx => ?_
    have := hM.bounds hx
    omega
  simp [hempty]

/-- A mapping between two forests that have `u` and `v` as their last nodes and do not map
them to each other leaves one of the two out. -/
theorem ForestMapping.saving_le_of_last_notMem (hl : Postorder l) (hm : Postorder m)
    {s₁ s₂ : ℕ} (h₁ : Best l m same p (u - 1) q v s₁) (h₂ : Best l m same p u q (v - 1) s₂)
    (h : ForestMapping l m p u q v M) (huv : (u, v) ∉ M) : saving same M ≤ max s₁ s₂ := by
  by_cases hu : ∃ j, (u, j) ∈ M
  · obtain ⟨j, hj⟩ := hu
    have hnv : ∀ x ∈ M, x.2 ≠ v := by
      rintro ⟨i, k⟩ hx rfl
      exact huv (h.last_mem hl hm hj hx)
    have hle : saving same M ≤ s₂ := by
      refine h₂.2 ⟨M, h.restrict (Finset.Subset.refl M) fun x hx => ?_, rfl⟩
      have := h.bounds hx
      have := hnv x hx
      omega
    exact le_trans hle (le_max_right _ _)
  · have hle : saving same M ≤ s₁ := by
      refine h₁.2 ⟨M, h.restrict (Finset.Subset.refl M) fun x hx => ?_, rfl⟩
      have := h.bounds hx
      have : x.1 ≠ u := fun hxu => hu ⟨x.2, by rw [← hxu]; exact hx⟩
      omega
    exact le_trans hle (le_max_left _ _)

/-- The gain of a smaller forest is a gain of a larger one. -/
theorem Best.exists_of_le {p' u' q' v' s : ℕ} (h : Best l m same p' u' q' v' s)
    (hp : p ≤ p') (hu : u' ≤ u) (hq : q ≤ q') (hv : v' ≤ v) :
    ∃ M, ForestMapping l m p u q v M ∧ s = saving same M := by
  obtain ⟨M, hM, hs⟩ := h.1
  refine ⟨M, hM.restrict (Finset.Subset.refl M) fun x hx => ?_, hs⟩
  have := hM.bounds hx
  omega

/-- Of three gains that mappings have, a mapping has the greatest. -/
theorem exists_max_gain {s₁ s₂ s₃ : ℕ} (h₁ : Best l m same p (u - 1) q v s₁)
    (h₂ : Best l m same p u q (v - 1) s₂)
    (h₃ : ∃ M, ForestMapping l m p u q v M ∧ s₃ = saving same M) :
    ∃ M, ForestMapping l m p u q v M ∧ max (max s₁ s₂) s₃ = saving same M := by
  rcases max_choice (max s₁ s₂) s₃ with h | h
  · rw [h]
    rcases max_choice s₁ s₂ with h | h
    · rw [h]; exact h₁.exists_of_le le_rfl (Nat.sub_le u 1) le_rfl le_rfl
    · rw [h]; exact h₂.exists_of_le le_rfl le_rfl le_rfl (Nat.sub_le v 1)
  · rw [h]; exact h₃

/-! ### Two trees

The forests are the subtrees of `u` and `v`.  A mapping that pairs the roots maps the rest of
the one subtree into the rest of the other. -/

/-- A mapping between what is below `u` and below `v` stays one when the roots are added. -/
theorem ForestMapping.insert_roots (hl : Postorder l) (hm : Postorder m) (hu : p < u)
    (hv : q < v) (hlu : l u = p + 1) (hmv : m v = q + 1)
    (h : ForestMapping l m p (u - 1) q (v - 1) M) :
    ForestMapping l m p u q v (insert (u, v) M) := by
  refine ⟨?_, ?_⟩
  · intro x hx
    rcases Finset.mem_insert.1 hx with rfl | hx
    · simp [hu, hv]
    · have := h.bounds hx
      simp only [Finset.mem_product, Finset.mem_Ioc]
      omega
  · -- every other mapped node is below the two roots
    intro x hx y hy
    rcases Finset.mem_insert.1 hx with rfl | hx <;> rcases Finset.mem_insert.1 hy with rfl | hy
    · have hlu := hl.le u
      have hmv := hm.le v
      simp only [postorder, true_and]
      omega
    · have hb := h.bounds hy
      have hly := hl.le y.1
      have hmy := hm.le y.2
      simp only [postorder]
      omega
    · have hb := h.bounds hx
      have hlx := hl.le x.1
      have hmx := hm.le x.2
      simp only [postorder]
      omega
    · exact h.tai x hx y hy

/-- The gain between two subtrees: leave out the one root, leave out the other, or map them
to each other. -/
theorem best_of_roots (hl : Postorder l) (hm : Postorder m) (hu : p < u) (hv : q < v)
    (hlu : l u = p + 1) (hmv : m v = q + 1) {s₁ s₂ s₃ : ℕ}
    (h₁ : Best l m same p (u - 1) q v s₁) (h₂ : Best l m same p u q (v - 1) s₂)
    (h₃ : Best l m same p (u - 1) q (v - 1) s₃) :
    Best l m same p u q v (max (max s₁ s₂) ((if same u v then 2 else 1) + s₃)) := by
  have hroots : ∀ {M}, ForestMapping l m p (u - 1) q (v - 1) M → (u, v) ∉ M := by
    intro M hM huv
    have := hM.bounds huv
    omega
  refine ⟨?_, ?_⟩
  · obtain ⟨M, hM, hs⟩ := h₃.1
    exact exists_max_gain h₁ h₂
      ⟨_, hM.insert_roots hl hm hu hv hlu hmv, by rw [saving_insert same (hroots hM), hs]⟩
  · rintro s ⟨M, hM, rfl⟩
    by_cases huv : (u, v) ∈ M
    · have hrest : ForestMapping l m p (u - 1) q (v - 1) (M.erase (u, v)) := by
        refine hM.restrict (Finset.erase_subset _ _) fun x hx => ?_
        obtain ⟨hne, hx⟩ := Finset.mem_erase.1 hx
        have hb := hM.bounds hx
        have hone := (hM.tai x hx (u, v) huv).1
        have hx₁ : x.1 ≠ u := fun h => hne (Prod.ext h (hone.1 h))
        have hx₂ : x.2 ≠ v := fun h => hne (Prod.ext (hone.2 h) h)
        omega
      have hle : saving same (M.erase (u, v)) ≤ s₃ := h₃.2 ⟨_, hrest, rfl⟩
      have hsplit : saving same M =
          (if same u v then 2 else 1) + saving same (M.erase (u, v)) := by
        have := saving_insert same (Finset.notMem_erase (u, v) M)
        rwa [Finset.insert_erase huv] at this
      rw [hsplit]
      exact le_trans (Nat.add_le_add_left hle _) (le_max_right _ _)
    · exact le_trans (hM.saving_le_of_last_notMem hl hm h₁ h₂ huv) (le_max_left _ _)

/-! ### Two forests

Here the last trees of the forests, the subtrees of `u` and `v`, have something to their left.
A mapping that pairs `u` with `v` maps subtree to subtree and left part to left part. -/

/-- A mapping of the left parts and one of the last trees make a mapping of the forests. -/
theorem ForestMapping.union (hl : Postorder l) (hm : Postorder m) (hp : p ≤ l u - 1)
    (hq : q ≤ m v - 1) (hM : ForestMapping l m p (l u - 1) q (m v - 1) M)
    (hN : ForestMapping l m (l u - 1) u (m v - 1) v N) :
    ForestMapping l m p u q v (M ∪ N) := by
  have hlu := hl.le u
  have hmv := hm.le v
  -- what is in the left parts lies to the left of what is in the last trees
  have hcross : ∀ x ∈ M, ∀ y ∈ N, x.1 < l y.1 ∧ l y.1 ≤ y.1 ∧ x.2 < m y.2 ∧ m y.2 ≤ y.2 ∧
      l x.1 ≤ x.1 ∧ m x.2 ≤ x.2 := by
    intro x hx y hy
    have hx' := hM.bounds hx
    have hy' := hN.bounds hy
    have h₁ := hl.nested u y.1 (by omega) (by omega)
    have h₂ := hm.nested v y.2 (by omega) (by omega)
    have h₃ := hl.le y.1
    have h₄ := hm.le y.2
    have h₅ := hl.le x.1
    have h₆ := hm.le x.2
    omega
  refine ⟨?_, ?_⟩
  · intro x hx
    simp only [Finset.mem_product, Finset.mem_Ioc]
    rcases Finset.mem_union.1 hx with hx | hx
    · have := hM.bounds hx
      omega
    · have := hN.bounds hx
      omega
  · intro x hx y hy
    rcases Finset.mem_union.1 hx with hx | hx <;> rcases Finset.mem_union.1 hy with hy | hy
    · exact hM.tai x hx y hy
    · have := hcross x hx y hy
      simp only [postorder]
      omega
    · have := hcross y hy x hx
      simp only [postorder]
      omega
    · exact hN.tai x hx y hy

/-- A mapping that pairs `u` with `v` keeps the subtree of `u` in that of `v` and the rest in
the rest. -/
theorem ForestMapping.below_iff (hl : Postorder l) (hm : Postorder m)
    (h : ForestMapping l m p u q v M) (huv : (u, v) ∈ M) {x : ℕ × ℕ} (hx : x ∈ M) :
    l u - 1 < x.1 ↔ m v - 1 < x.2 := by
  have hb := h.bounds hx
  have hlu := hl.le u
  have hmv := hm.le v
  have hrel := h.tai (u, v) huv x hx
  simp only [postorder] at hrel
  omega

/-- The gain between two forests: leave out the one last node, leave out the other, or map
the last trees to each other and what is left of them to each other. -/
theorem best_of_forests (hl : Postorder l) (hm : Postorder m) (hp : p ≤ l u - 1)
    (hq : q ≤ m v - 1) {s₁ s₂ s₃ s₄ : ℕ}
    (h₁ : Best l m same p (u - 1) q v s₁) (h₂ : Best l m same p u q (v - 1) s₂)
    (h₃ : Best l m same p (l u - 1) q (m v - 1) s₃)
    (h₄ : Best l m same (l u - 1) u (m v - 1) v s₄) :
    Best l m same p u q v (max (max s₁ s₂) (s₃ + s₄)) := by
  refine ⟨?_, ?_⟩
  · obtain ⟨M, hM, hs₃⟩ := h₃.1
    obtain ⟨N, hN, hs₄⟩ := h₄.1
    have hdisj : Disjoint M N := by
      refine Finset.disjoint_left.2 fun x hx hx' => ?_
      have h := hM.bounds hx
      have h' := hN.bounds hx'
      omega
    exact exists_max_gain h₁ h₂
      ⟨_, hM.union hl hm hp hq hN, by rw [saving_union same hdisj, hs₃, hs₄]⟩
  · rintro s ⟨M, hM, rfl⟩
    by_cases huv : (u, v) ∈ M
    · have hleft : ForestMapping l m p (l u - 1) q (m v - 1)
          (M.filter fun x => ¬ l u - 1 < x.1) := by
        refine hM.restrict (Finset.filter_subset _ _) fun x hx => ?_
        obtain ⟨hx, hnot⟩ := Finset.mem_filter.1 hx
        have hb := hM.bounds hx
        have hiff := hM.below_iff hl hm huv hx
        omega
      have hlast : ForestMapping l m (l u - 1) u (m v - 1) v
          (M.filter fun x => l u - 1 < x.1) := by
        refine hM.restrict (Finset.filter_subset _ _) fun x hx => ?_
        obtain ⟨hx, hlt⟩ := Finset.mem_filter.1 hx
        have hb := hM.bounds hx
        have hiff := hM.below_iff hl hm huv hx
        omega
      have hle₃ := h₃.2 ⟨_, hleft, rfl⟩
      have hle₄ := h₄.2 ⟨_, hlast, rfl⟩
      have hsplit : saving same M = saving same (M.filter fun x => l u - 1 < x.1) +
          saving same (M.filter fun x => ¬ l u - 1 < x.1) :=
        (Finset.sum_filter_add_sum_filter_not M _ _).symm
      refine le_trans ?_ (le_max_right _ _)
      rw [hsplit]
      omega
    · exact le_trans (hM.saving_le_of_last_notMem hl hm h₁ h₂ huv) (le_max_left _ _)

/-! ## Distances

The recurrences for the gain, read as recurrences for the distance. -/

/-- The distance to an empty forest is the number of nodes. -/
theorem dist_of_empty (h : u ≤ p ∨ v ≤ q) : Dist l m same p u q v ((u - p) + (v - q)) :=
  ⟨0, best_of_empty h, rfl⟩

/-- If three costs and three gains add up to the same total, so do the least cost and the
greatest gain. -/
theorem min_add_max {a b c x y z t : ℕ} (ha : a + x = t) (hb : b + y = t) (hc : c + z = t) :
    min (min a b) c + max (max x y) z = t := by
  omega

/-- The distance of two subtrees: delete the one root, insert the other, or relabel. -/
theorem dist_of_roots (hl : Postorder l) (hm : Postorder m) (hu : p < u) (hv : q < v)
    (hlu : l u = p + 1) (hmv : m v = q + 1) {d₁ d₂ d₃ : ℕ}
    (h₁ : Dist l m same p (u - 1) q v d₁) (h₂ : Dist l m same p u q (v - 1) d₂)
    (h₃ : Dist l m same p (u - 1) q (v - 1) d₃) :
    Dist l m same p u q v
      (min (min (d₁ + 1) (d₂ + 1)) (d₃ + if same u v then 0 else 1)) := by
  have hu' : u - 1 - p + 1 = u - p := by omega
  have hv' : v - 1 - q + 1 = v - q := by omega
  obtain ⟨s₁, hs₁, hd₁⟩ := h₁
  obtain ⟨s₂, hs₂, hd₂⟩ := h₂
  obtain ⟨s₃, hs₃, hd₃⟩ := h₃
  refine ⟨_, best_of_roots hl hm hu hv hlu hmv hs₁ hs₂ hs₃, min_add_max ?_ ?_ ?_⟩
  all_goals rw [← hu', ← hv']
  · rw [hv', Nat.add_right_comm d₁, hd₁, Nat.add_right_comm]
  · rw [hu', Nat.add_right_comm d₂, hd₂, Nat.add_assoc]
  · generalize u - 1 - p = x, v - 1 - q = y at hd₃ ⊢
    split <;> omega

/-- The distance of two forests: delete the one last node, insert the other, or take the
last trees to each other and what is left of them to each other. -/
theorem dist_of_forests (hl : Postorder l) (hm : Postorder m) (hu : p < u) (hv : q < v)
    (hp : p ≤ l u - 1) (hq : q ≤ m v - 1) {d₁ d₂ d₃ d₄ : ℕ}
    (h₁ : Dist l m same p (u - 1) q v d₁) (h₂ : Dist l m same p u q (v - 1) d₂)
    (h₃ : Dist l m same p (l u - 1) q (m v - 1) d₃)
    (h₄ : Dist l m same (l u - 1) u (m v - 1) v d₄) :
    Dist l m same p u q v (min (min (d₁ + 1) (d₂ + 1)) (d₃ + d₄)) := by
  have hu' : u - 1 - p + 1 = u - p := by omega
  have hv' : v - 1 - q + 1 = v - q := by omega
  have hlast : u - (l u - 1) + (l u - 1 - p) = u - p := by
    have := hl.le u
    omega
  have hlast' : v - (m v - 1) + (m v - 1 - q) = v - q := by
    have := hm.le v
    omega
  obtain ⟨s₁, hs₁, hd₁⟩ := h₁
  obtain ⟨s₂, hs₂, hd₂⟩ := h₂
  obtain ⟨s₃, hs₃, hd₃⟩ := h₃
  obtain ⟨s₄, hs₄, hd₄⟩ := h₄
  refine ⟨_, best_of_forests hl hm hp hq hs₁ hs₂ hs₃ hs₄, min_add_max ?_ ?_ ?_⟩
  · rw [← hu', Nat.add_right_comm d₁, hd₁, Nat.add_right_comm]
  · rw [← hv', Nat.add_right_comm d₂, hd₂, Nat.add_assoc]
  · rw [Nat.add_add_add_comm, hd₃, hd₄, ← hlast, ← hlast', Nat.add_add_add_comm,
      Nat.add_comm (l u - 1 - p), Nat.add_comm (m v - 1 - q)]

end OcrOrchestrator.Lib
