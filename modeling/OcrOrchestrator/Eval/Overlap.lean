import OcrOrchestrator.Eval.Distance
import OcrOrchestrator.Lib.MappingBounds

/-!
# What two trees have in common

How much a mapping between two trees can gain depends on both as a whole.  This module has
bounds that are read off the two shapes and the two sets of labels.

At least, every position that both trees have can be mapped to itself; a longest chain can be
mapped to a longest chain; and root and leaves to root and leaves.  At most, there are as many
pairs as one of the trees has leaves, times the height of a tree, and as many pairs with equal
labels as the two trees have labels in common.

## Main definitions

* `Gain` — what the mappings between two trees gain.
* `shared`, `reach` — the bounds.
-/

namespace OcrOrchestrator
namespace Eval

open Lib

variable {α : Type}

/-! ## The nodes of a tree -/

/-- Ancestry and left-to-right order exclude each other. -/
theorem pathOrder_proper : (pathOrder α).Proper where
  anc_irrefl _ h := h.2 rfl
  left_irrefl x := (not_pathLeft_of_isPrefix (List.prefix_refl x.1)).1
  of_anc x y h := by
    refine ⟨fun h' => ?_, not_pathLeft_of_isPrefix h.1⟩
    exact h.2 (h.1.eq_of_length_le h'.1.length_le)
  of_left x y h := by
    refine ⟨pathLeft_asymm h, fun h' => ?_, fun h' => ?_⟩
    · exact (not_pathLeft_of_isPrefix h'.1).1 h
    · exact (not_pathLeft_of_isPrefix h'.1).2 h

mutual
/-- Every node of a tree is reached through its root. -/
theorem OrderedTree.prefix_of_mem_nodes {p : List ℕ} :
    ∀ (t : OrderedTree α), ∀ x ∈ t.nodes p, p <+: x.1
  | .node label children, x, hx => by
    rw [OrderedTree.nodes] at hx
    rcases List.mem_cons.1 hx with rfl | hx
    · exact List.prefix_refl p
    · obtain ⟨j, -, hj⟩ := prefix_of_mem_childNodes children x hx
      exact (List.prefix_append p [j]).trans hj

/-- Every node below `p` is reached through a child of `p`. -/
theorem prefix_of_mem_childNodes {p : List ℕ} {i : ℕ} :
    ∀ (ts : List (OrderedTree α)), ∀ x ∈ childNodes p i ts, ∃ j, i ≤ j ∧ p ++ [j] <+: x.1
  | [], x, hx => by simp [childNodes] at hx
  | t :: ts, x, hx => by
    rw [childNodes] at hx
    rcases List.mem_append.1 hx with hx | hx
    · exact ⟨i, le_rfl, OrderedTree.prefix_of_mem_nodes t x hx⟩
    · obtain ⟨j, hij, hj⟩ := prefix_of_mem_childNodes ts x hx
      exact ⟨j, by omega, hj⟩
end

/-- A node below `p` is a descendant of `p`. -/
theorem anc_of_mem_childNodes {p : List ℕ} {i : ℕ} {ts : List (OrderedTree α)} (label : α)
    {x : List ℕ × α} (hx : x ∈ childNodes p i ts) : (pathOrder α).anc (p, label) x := by
  obtain ⟨j, -, hj⟩ := prefix_of_mem_childNodes ts x hx
  refine ⟨(List.prefix_append p [j]).trans hj, fun hp => ?_⟩
  have hlen := hj.length_le
  rw [← show p = x.1 from hp, List.length_append, List.length_singleton] at hlen
  omega

mutual
/-- The nodes are listed in preorder. -/
theorem OrderedTree.pairwise_nodes (p : List ℕ) : ∀ t : OrderedTree α,
    (t.nodes p).Pairwise fun x y => (pathOrder α).anc x y ∨ (pathOrder α).left x y
  | .node label children => by
    rw [OrderedTree.nodes]
    exact List.pairwise_cons.2
      ⟨fun x hx => Or.inl (anc_of_mem_childNodes label hx), pairwise_childNodes p 0 children⟩

theorem pairwise_childNodes (p : List ℕ) (i : ℕ) : ∀ ts : List (OrderedTree α),
    (childNodes p i ts).Pairwise fun x y => (pathOrder α).anc x y ∨ (pathOrder α).left x y
  | [] => by rw [childNodes]; exact List.Pairwise.nil
  | t :: ts => by
    rw [childNodes]
    refine List.pairwise_append.2 ⟨OrderedTree.pairwise_nodes (p ++ [i]) t,
      pairwise_childNodes p (i + 1) ts, fun x hx y hy => ?_⟩
    obtain ⟨j, hij, hyp⟩ := prefix_of_mem_childNodes ts y hy
    exact Or.inr (pathLeft_of_child (OrderedTree.prefix_of_mem_nodes t x hx) hyp (by omega))
end

/-- No two nodes have the same position. -/
theorem OrderedTree.nodup_positions (t : OrderedTree α) : ((t.nodes []).map Prod.fst).Nodup := by
  rw [List.Nodup, List.pairwise_map]
  refine (t.pairwise_nodes []).imp fun {x y} h heq => ?_
  rcases h with h | h
  · exact h.2 heq
  · exact (not_pathLeft_of_isPrefix (heq ▸ List.prefix_refl x.1)).1 h

mutual
/-- No position is deeper than the tree is high. -/
theorem OrderedTree.length_lt_height {p : List ℕ} : ∀ (t : OrderedTree α), ∀ x ∈ t.nodes p,
    x.1.length < p.length + t.height
  | .node label children, x, hx => by
    rw [OrderedTree.nodes] at hx
    rw [OrderedTree.height]
    rcases List.mem_cons.1 hx with rfl | hx
    · show p.length < _
      omega
    · have := length_le_childHeight children x hx
      omega

theorem length_le_childHeight {p : List ℕ} {i : ℕ} : ∀ (ts : List (OrderedTree α)),
    ∀ x ∈ childNodes p i ts, x.1.length ≤ p.length + childHeight ts
  | [], x, hx => by simp [childNodes] at hx
  | t :: ts, x, hx => by
    rw [childNodes] at hx
    rw [childHeight]
    rcases List.mem_append.1 hx with hx | hx
    · have := OrderedTree.length_lt_height t x hx
      rw [List.length_append, List.length_singleton] at this
      omega
    · have := length_le_childHeight ts x hx
      omega
end

mutual
/-- A chain of nodes reaches from the root as deep as the tree is high. -/
theorem OrderedTree.exists_chain (p : List ℕ) : ∀ t : OrderedTree α,
    ∃ xs : List (List ℕ × α), (∀ x ∈ xs, x ∈ t.nodes p) ∧ xs.Pairwise (pathOrder α).anc ∧
      xs.length = t.height
  | .node label children => by
    obtain ⟨xs, hmem, hchain, hlength⟩ := exists_childChain p 0 children
    refine ⟨(p, label) :: xs, ?_, List.pairwise_cons.2 ⟨fun x hx => ?_, hchain⟩, ?_⟩
    · intro x hx
      rw [OrderedTree.nodes]
      rcases List.mem_cons.1 hx with rfl | hx
      · exact List.mem_cons_self
      · exact List.mem_cons_of_mem _ (hmem x hx)
    · exact anc_of_mem_childNodes label (hmem x hx)
    · rw [List.length_cons, hlength, OrderedTree.height]

theorem exists_childChain (p : List ℕ) (i : ℕ) : ∀ ts : List (OrderedTree α),
    ∃ xs : List (List ℕ × α), (∀ x ∈ xs, x ∈ childNodes p i ts) ∧
      xs.Pairwise (pathOrder α).anc ∧ xs.length = childHeight ts
  | [] => ⟨[], by simp, List.Pairwise.nil, by rw [childHeight, List.length_nil]⟩
  | t :: ts => by
    obtain ⟨xs, hxs, hchain, hlength⟩ := OrderedTree.exists_chain (p ++ [i]) t
    obtain ⟨ys, hys, hchain', hlength'⟩ := exists_childChain p (i + 1) ts
    rw [childNodes, childHeight]
    -- the deeper of the two
    rcases le_total (childHeight ts) t.height with hle | hle
    · exact ⟨xs, fun x hx => List.mem_append_left _ (hxs x hx), hchain,
        by rw [hlength, max_eq_left hle]⟩
    · exact ⟨ys, fun x hx => List.mem_append_right _ (hys x hx), hchain',
        by rw [hlength', max_eq_right hle]⟩
end

section Trees
variable [DecidableEq α]

theorem mem_treeNodes {t : OrderedTree α} {x : List ℕ × α} :
    x ∈ treeNodes (some t) ↔ x ∈ t.nodes [] := List.mem_toFinset

/-- A node is determined by its position. -/
theorem eq_of_position_eq {s : Option (OrderedTree α)} {x y : List ℕ × α} (hx : x ∈ treeNodes s)
    (hy : y ∈ treeNodes s) (h : x.1 = y.1) : x = y := by
  cases s with
  | none => exact absurd hx (Finset.notMem_empty x)
  | some t =>
    exact List.inj_on_of_nodup_map t.nodup_positions (mem_treeNodes.1 hx) (mem_treeNodes.1 hy) h

/-! ## What is read off the trees -/

/-- The labels of a tree. -/
def treeLabels (s : Option (OrderedTree α)) : Multiset α := (treeNodes s).val.map Prod.snd

/-- The number of levels. -/
def treeHeight (s : Option (OrderedTree α)) : ℕ := s.elim 0 OrderedTree.height

/-- The nodes with none below them. -/
def leaves (s : Option (OrderedTree α)) : Finset (List ℕ × α) :=
  (treeNodes s).filter fun x => ∀ y ∈ treeNodes s, ¬(x.1 <+: y.1 ∧ x.1 ≠ y.1)

/-- The root and the leaves. -/
def rim (s : Option (OrderedTree α)) : Finset (List ℕ × α) :=
  (treeNodes s).filter fun x => x.1 = [] ∨ x ∈ leaves s

/-- The positions that both trees have, those with the same label counted twice. -/
def aligned (s t : Option (OrderedTree α)) : ℕ :=
  ((treeNodes s).image Prod.fst ∩ (treeNodes t).image Prod.fst).card +
    (treeNodes s ∩ treeNodes t).card

/-- What two trees have in common at least: the positions that both have, or as many levels as
the lower one has, or root and leaves of the one with fewer leaves. -/
def shared (p : Option (OrderedTree α) × Option (OrderedTree α)) : ℕ :=
  max (aligned p.1 p.2)
    (max (min (treeHeight p.1) (treeHeight p.2)) (min (rim p.1).card (rim p.2).card))

/-- What they have in common at most: the leaves of the one with fewer leaves, times the levels of
the lower one, and the labels of both. -/
def reach (p : Option (OrderedTree α) × Option (OrderedTree α)) : ℕ :=
  min (treeHeight p.1) (treeHeight p.2) * min (leaves p.1).card (leaves p.2).card +
    (treeLabels p.1 ∩ treeLabels p.2).card

/-- A mapping between two trees gains `g`: the nodes it keeps, those that keep their label counted
twice. -/
def Gain (p : Option (OrderedTree α) × Option (OrderedTree α)) (g : ℕ) : Prop :=
  ∃ M ⊆ treeNodes p.1 ×ˢ treeNodes p.2, Tai (pathOrder α) (pathOrder α) M ∧
    g = saving (fun x y => x.2 = y.2) M

/-! ## From below -/

/-- Every position that both trees have is mapped to itself. -/
theorem exists_gain_aligned (s t : Option (OrderedTree α)) : ∃ g, Gain (s, t) g ∧ aligned s t ≤ g := by
  set M := (treeNodes s ×ˢ treeNodes t).filter fun x => x.1.1 = x.2.1 with hM
  have hmem : ∀ x ∈ M, x.1 ∈ treeNodes s ∧ x.2 ∈ treeNodes t ∧ x.1.1 = x.2.1 := by
    intro x hx
    obtain ⟨hx, hpath⟩ := Finset.mem_filter.1 hx
    exact ⟨(Finset.mem_product.1 hx).1, (Finset.mem_product.1 hx).2, hpath⟩
  have htai : Tai (pathOrder α) (pathOrder α) M := by
    intro x hx y hy
    obtain ⟨hx₁, hx₂, hxp⟩ := hmem x hx
    obtain ⟨hy₁, hy₂, hyp⟩ := hmem y hy
    refine ⟨⟨fun h => eq_of_position_eq hx₂ hy₂ ?_, fun h => eq_of_position_eq hx₁ hy₁ ?_⟩, ?_, ?_⟩
    · rw [← hxp, ← hyp, h]
    · rw [hxp, hyp, h]
    · simp only [pathOrder, hxp, hyp]
    · simp only [pathOrder, hxp, hyp]
  refine ⟨_, ⟨M, Finset.filter_subset _ _, htai, rfl⟩, ?_⟩
  rw [saving_eq_card_add, aligned]
  refine Nat.add_le_add ?_ ?_
  · -- the pair at a common position
    refine (Finset.card_le_card fun q hq => ?_).trans (Finset.card_image_le (f := fun x => x.1.1))
    obtain ⟨hs, ht⟩ := Finset.mem_inter.1 hq
    obtain ⟨x, hx, rfl⟩ := Finset.mem_image.1 hs
    obtain ⟨y, hy, hxy⟩ := Finset.mem_image.1 ht
    exact Finset.mem_image.2
      ⟨(x, y), Finset.mem_filter.2 ⟨Finset.mem_product.2 ⟨hx, hy⟩, hxy.symm⟩, rfl⟩
  · -- the pair of a common node
    refine (Finset.card_le_card fun x hx => ?_).trans (Finset.card_image_le (f := fun x => x.1))
    obtain ⟨hs, ht⟩ := Finset.mem_inter.1 hx
    exact Finset.mem_image.2 ⟨(x, x), Finset.mem_filter.2
      ⟨Finset.mem_filter.2 ⟨Finset.mem_product.2 ⟨hs, ht⟩, rfl⟩, rfl⟩, rfl⟩

/-- The levels of the lower tree. -/
theorem exists_gain_height (s t : Option (OrderedTree α)) :
    ∃ g, Gain (s, t) g ∧ min (treeHeight s) (treeHeight t) ≤ g := by
  have hchain : ∀ s : Option (OrderedTree α), ∃ xs : List (List ℕ × α),
      (∀ x ∈ xs, x ∈ treeNodes s) ∧ xs.Pairwise (pathOrder α).anc ∧ xs.length = treeHeight s := by
    intro s
    cases s with
    | none => exact ⟨[], by simp, List.Pairwise.nil, rfl⟩
    | some t =>
      obtain ⟨xs, hmem, hxs⟩ := t.exists_chain []
      exact ⟨xs, fun x hx => mem_treeNodes.2 (hmem x hx), hxs⟩
  obtain ⟨xs, hxs, hxchain, hxlength⟩ := hchain s
  obtain ⟨ys, hys, hychain, hylength⟩ := hchain t
  obtain ⟨M, hM, htai, hsaving⟩ := exists_saving_of_chains (fun x y => x.2 = y.2)
    pathOrder_proper pathOrder_proper hxs hys hxchain hychain
  rw [hxlength, hylength] at hsaving
  exact ⟨_, ⟨M, hM, htai, rfl⟩, hsaving⟩

/-- Root and leaves, in order. -/
theorem exists_rim (t : OrderedTree α) : ∃ (x : List ℕ × α) (xs : List (List ℕ × α)),
    (∀ y ∈ x :: xs, y ∈ treeNodes (some t)) ∧ (∀ y ∈ xs, (pathOrder α).anc x y) ∧
      xs.Pairwise (pathOrder α).left ∧ (rim (some t)).card = (x :: xs).length := by
  obtain ⟨label, children⟩ := t
  set t := OrderedTree.node label children with ht
  set ls := (childNodes [] 0 children).filter fun x => x ∈ leaves (some t) with hls
  have hnodes : t.nodes [] = ([], label) :: childNodes [] 0 children := by
    rw [ht, OrderedTree.nodes]
  have hmem : ∀ y ∈ ls, y ∈ childNodes [] 0 children ∧ y ∈ leaves (some t) := by
    intro y hy
    obtain ⟨hy, hleaf⟩ := List.mem_filter.1 hy
    exact ⟨hy, of_decide_eq_true hleaf⟩
  refine ⟨([], label), ls, ?_, ?_, ?_, ?_⟩
  · intro y hy
    rw [mem_treeNodes, hnodes]
    rcases List.mem_cons.1 hy with rfl | hy
    · exact List.mem_cons_self
    · exact List.mem_cons_of_mem _ (hmem y hy).1
  · exact fun y hy => anc_of_mem_childNodes label (hmem y hy).1
  · -- of two leaves the first is not above the second
    refine ((pairwise_childNodes [] 0 children).filter _).imp_of_mem fun {x y} hx hy h => ?_
    refine h.resolve_left fun hanc => ?_
    have hy' : y ∈ treeNodes (some t) := by
      rw [mem_treeNodes, hnodes]
      exact List.mem_cons_of_mem _ (hmem y hy).1
    exact (Finset.mem_filter.1 (hmem x hx).2).2 y hy' hanc
  · have hnodup : (([], label) :: ls).Nodup := by
      have h := List.Nodup.of_map _ (ht ▸ t.nodup_positions)
      rw [hnodes] at h
      exact h.sublist (List.filter_sublist.cons_cons _)
    rw [← List.toFinset_card_of_nodup hnodup]
    congr 1
    ext x
    rw [rim, Finset.mem_filter, mem_treeNodes, hnodes, List.mem_toFinset, List.mem_cons,
      List.mem_cons, hls, List.mem_filter, decide_eq_true_eq]
    constructor
    · rintro ⟨hx | hx, hrim⟩
      · exact Or.inl hx
      · refine Or.inr ⟨hx, hrim.resolve_left fun hroot => ?_⟩
        exact (anc_of_mem_childNodes label hx).2 hroot.symm
    · rintro (rfl | ⟨hx, hleaf⟩)
      · exact ⟨Or.inl rfl, Or.inl rfl⟩
      · exact ⟨Or.inr hx, Or.inr hleaf⟩

theorem exists_gain_rim (s t : Option (OrderedTree α)) :
    ∃ g, Gain (s, t) g ∧ min (rim s).card (rim t).card ≤ g := by
  have hnone : ∀ s t : Option (OrderedTree α), rim s = ∅ ∨ rim t = ∅ →
      ∃ g, Gain (s, t) g ∧ min (rim s).card (rim t).card ≤ g := by
    intro s t h
    refine ⟨_, ⟨∅, Finset.empty_subset _, Tai.empty, rfl⟩, ?_⟩
    rcases h with h | h <;> simp [h]
  cases s with
  | none => exact hnone none t (Or.inl rfl)
  | some s =>
    cases t with
    | none => exact hnone (some s) none (Or.inr rfl)
    | some t =>
      obtain ⟨x, xs, hxmem, hxroot, hxleft, hxcard⟩ := exists_rim s
      obtain ⟨y, ys, hymem, hyroot, hyleft, hycard⟩ := exists_rim t
      obtain ⟨M, hM, htai, hsaving⟩ := exists_saving_of_fans (fun x y => x.2 = y.2)
        pathOrder_proper pathOrder_proper hxmem hymem hxroot hyroot hxleft hyleft
      rw [← hxcard, ← hycard] at hsaving
      exact ⟨_, ⟨M, hM, htai, rfl⟩, hsaving⟩

/-- **From below.** -/
theorem exists_gain_shared (p : Option (OrderedTree α) × Option (OrderedTree α)) :
    ∃ g, Gain p g ∧ shared p ≤ g := by
  obtain ⟨s, t⟩ := p
  rw [shared]
  rcases max_choice (aligned s t)
    (max (min (treeHeight s) (treeHeight t)) (min (rim s).card (rim t).card)) with h | h
  · rw [h]
    exact exists_gain_aligned s t
  · rw [h]
    rcases max_choice (min (treeHeight s) (treeHeight t)) (min (rim s).card (rim t).card) with h | h
    · rw [h]
      exact exists_gain_height s t
    · rw [h]
      exact exists_gain_rim s t

/-! ## From above -/

/-- Below every node there is a leaf. -/
theorem exists_leaf {s : Option (OrderedTree α)} {x : List ℕ × α} (hx : x ∈ treeNodes s) :
    ∃ l ∈ leaves s, x = l ∨ (pathOrder α).anc x l := by
  -- the deepest node below it
  obtain ⟨l, hl, hdeepest⟩ := Finset.exists_max_image ((treeNodes s).filter fun y => x.1 <+: y.1)
    (fun y => y.1.length) ⟨x, Finset.mem_filter.2 ⟨hx, List.prefix_refl x.1⟩⟩
  obtain ⟨hl, hxl⟩ := Finset.mem_filter.1 hl
  refine ⟨l, Finset.mem_filter.2 ⟨hl, fun y hy hly => ?_⟩, ?_⟩
  · have hle := hdeepest y (Finset.mem_filter.2 ⟨hy, hxl.trans hly.1⟩)
    exact hly.2 (hly.1.eq_of_length_le hle)
  · by_cases heq : x.1 = l.1
    · exact Or.inl (eq_of_position_eq hx hl heq)
    · exact Or.inr ⟨hxl, heq⟩

/-- Of two nodes above a third one, one is above the other. -/
theorem line_of_anc {s : Option (OrderedTree α)} {x y l : List ℕ × α} (hx : x ∈ treeNodes s)
    (hy : y ∈ treeNodes s) (hxl : x = l ∨ (pathOrder α).anc x l)
    (hyl : y = l ∨ (pathOrder α).anc y l) :
    x = y ∨ (pathOrder α).anc x y ∨ (pathOrder α).anc y x := by
  have hbegins : ∀ z : List ℕ × α, z = l ∨ (pathOrder α).anc z l → z.1 <+: l.1 := by
    rintro z (rfl | h)
    · exact List.prefix_refl z.1
    · exact h.1
  by_cases heq : x.1 = y.1
  · exact Or.inl (eq_of_position_eq hx hy heq)
  · rcases List.prefix_or_prefix_of_prefix (hbegins x hxl) (hbegins y hyl) with h | h
    · exact Or.inr (Or.inl ⟨h, heq⟩)
    · exact Or.inr (Or.inr ⟨h, fun h' => heq h'.symm⟩)

/-- A chain is no longer than the tree is high. -/
theorem card_chain_le {s : Option (OrderedTree α)} {C : Finset (List ℕ × α)} (hC : C ⊆ treeNodes s)
    (hchain : ∀ x ∈ C, ∀ y ∈ C, x = y ∨ (pathOrder α).anc x y ∨ (pathOrder α).anc y x) :
    C.card ≤ treeHeight s := by
  cases s with
  | none =>
    obtain rfl := Finset.subset_empty.1 hC
    exact le_rfl
  | some t =>
    have hrange : ∀ x ∈ C, x.1.length ∈ Finset.range t.height := by
      intro x hx
      have := t.length_lt_height x (mem_treeNodes.1 (hC hx))
      rw [List.length_nil] at this
      exact Finset.mem_range.2 (by omega)
    have hinj : Set.InjOn (fun x : List ℕ × α => x.1.length) C := by
      intro x hx y hy heq
      rcases hchain x hx y hy with h | h | h
      · exact h
      · exact absurd (h.1.eq_of_length heq) h.2
      · exact absurd (h.1.eq_of_length heq.symm) h.2
    simpa [treeHeight] using Finset.card_le_card_of_injOn _ hrange hinj

/-- The leaves of the one tree, times the levels of the other. -/
theorem card_le_height_mul_leaves {s t : Option (OrderedTree α)}
    {M : Finset ((List ℕ × α) × (List ℕ × α))} (hM : M ⊆ treeNodes s ×ˢ treeNodes t)
    (htai : Tai (pathOrder α) (pathOrder α) M) : M.card ≤ treeHeight t * (leaves s).card :=
  htai.card_le_mul hM (fun _ hx => exists_leaf hx) (fun _ hx _ hy _ => line_of_anc hx hy)
    fun _ hC hchain => card_chain_le hC hchain

/-- A tree has no more nodes than leaves times levels: it is mapped to itself. -/
theorem card_treeNodes_le (s : Option (OrderedTree α)) :
    (treeNodes s).card ≤ treeHeight s * (leaves s).card := by
  have hself : ∃ M ⊆ treeNodes s ×ˢ treeNodes s, Tai (pathOrder α) (pathOrder α) M ∧
      M.card = (treeNodes s).card := by
    refine ⟨(treeNodes s).image fun x => (x, x), ?_, ?_, ?_⟩
    · intro x hx
      obtain ⟨y, hy, rfl⟩ := Finset.mem_image.1 hx
      exact Finset.mem_product.2 ⟨hy, hy⟩
    · intro x hx y hy
      obtain ⟨x, -, rfl⟩ := Finset.mem_image.1 hx
      obtain ⟨y, -, rfl⟩ := Finset.mem_image.1 hy
      exact ⟨Iff.rfl, Iff.rfl, Iff.rfl⟩
    · exact Finset.card_image_of_injective _ fun x y h => (Prod.ext_iff.1 h).1
  obtain ⟨M, hM, htai, hcard⟩ := hself
  exact hcard ▸ card_le_height_mul_leaves hM htai

/-- **From above.** -/
theorem Gain.le_reach {p : Option (OrderedTree α) × Option (OrderedTree α)} {g : ℕ}
    (h : Gain p g) : g ≤ reach p := by
  obtain ⟨M, hM, htai, rfl⟩ := h
  rw [saving_eq_card_add, reach]
  refine Nat.add_le_add ?_ (htai.card_filter_le hM)
  have hfst : M.card ≤ (treeNodes p.1).card :=
    htai.card_image_fst ▸ Finset.card_le_card (image_fst_subset hM)
  have hsnd : M.card ≤ (treeNodes p.2).card :=
    htai.card_image_snd ▸ Finset.card_le_card (image_snd_subset hM)
  have hswap := card_le_height_mul_leaves (image_swap_subset hM) htai.swap
  rw [Finset.card_image_of_injective _ Prod.swap_injective] at hswap
  rcases le_total (treeHeight p.1) (treeHeight p.2) with hh | hh <;>
    rcases le_total (leaves p.1).card (leaves p.2).card with hl | hl
  · rw [min_eq_left hh, min_eq_left hl]
    exact hfst.trans (card_treeNodes_le p.1)
  · rw [min_eq_left hh, min_eq_right hl]
    exact hswap
  · rw [min_eq_right hh, min_eq_left hl]
    exact card_le_height_mul_leaves hM htai
  · rw [min_eq_right hh, min_eq_right hl]
    exact hsnd.trans (card_treeNodes_le p.2)

end Trees
end Eval
end OcrOrchestrator
