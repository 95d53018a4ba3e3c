import Mathlib.Algebra.BigOperators.Group.Finset.Piecewise
import Mathlib.Algebra.Order.BigOperators.Group.Finset
import Mathlib.Data.Finset.Prod
import Mathlib.Order.Bounds.Basic

/-!
# Mappings between ordered trees, and what they cost

The distance between two ordered labelled trees under node insertion, deletion and
relabelling is the cheapest way to map some nodes of the one to nodes of the other so
that the mapping is one-to-one and keeps both the ancestry and the left-to-right order
(a Tai mapping).  Nothing here depends on how nodes are represented: a kind of node is a
type with the two relations, and a tree contributes the finite set of its nodes.

The price of a mapping counts what it leaves out.  For optimisation it is easier to count
what it gains over deleting the one tree and inserting the other: `saving` is a sum over
the mapped pairs alone, and `editCost_add_saving` says the two counts agree.

## Main definitions

* `NodeOrder` — ancestry and left-to-right order on a type of nodes.
* `Tai` — the mappings that keep both.
* `editCost`, `saving` — the price of a mapping, and its gain.
* `NodeOrder.Embeds` — a renaming of nodes that keeps the relations.
-/

namespace OcrOrchestrator.Lib

/-- The two relations of an ordered tree on its nodes. -/
structure NodeOrder (ν : Type) where
  /-- `anc x y`: the node `x` is a proper ancestor of `y`. -/
  anc : ν → ν → Prop
  /-- `left x y`: neither is an ancestor of the other, and `x` comes first. -/
  left : ν → ν → Prop

section Cost
variable {ν μ : Type} {R : NodeOrder ν} {S : NodeOrder μ}

/-- A Tai mapping: one-to-one, and any two mapped pairs stand in the same relation on
both sides. -/
def Tai (R : NodeOrder ν) (S : NodeOrder μ) (M : Finset (ν × μ)) : Prop :=
  ∀ x ∈ M, ∀ y ∈ M, (x.1 = y.1 ↔ x.2 = y.2) ∧ (R.anc x.1 y.1 ↔ S.anc x.2 y.2) ∧
    (R.left x.1 y.1 ↔ S.left x.2 y.2)

/-- Part of a mapping is a mapping. -/
theorem Tai.mono {M N : Finset (ν × μ)} (h : Tai R S M) (hN : N ⊆ M) : Tai R S N :=
  fun x hx y hy => h x (hN hx) y (hN hy)

theorem Tai.empty : Tai R S ∅ := fun x hx => absurd hx (Finset.notMem_empty x)

theorem image_fst_subset [DecidableEq ν] {A : Finset ν} {B : Finset μ} {M : Finset (ν × μ)}
    (hM : M ⊆ A ×ˢ B) : M.image Prod.fst ⊆ A := by
  intro a ha
  obtain ⟨x, hx, rfl⟩ := Finset.mem_image.1 ha
  exact (Finset.mem_product.1 (hM hx)).1

theorem image_snd_subset [DecidableEq μ] {A : Finset ν} {B : Finset μ} {M : Finset (ν × μ)}
    (hM : M ⊆ A ×ˢ B) : M.image Prod.snd ⊆ B := by
  intro b hb
  obtain ⟨x, hx, rfl⟩ := Finset.mem_image.1 hb
  exact (Finset.mem_product.1 (hM hx)).2

theorem Tai.card_image_fst [DecidableEq ν] {M : Finset (ν × μ)} (h : Tai R S M) :
    (M.image Prod.fst).card = M.card :=
  Finset.card_image_of_injOn fun x hx y hy hxy => Prod.ext hxy ((h x hx y hy).1.1 hxy)

theorem Tai.card_image_snd [DecidableEq μ] {M : Finset (ν × μ)} (h : Tai R S M) :
    (M.image Prod.snd).card = M.card :=
  Finset.card_image_of_injOn fun x hx y hy hxy => Prod.ext ((h x hx y hy).1.2 hxy) hxy

variable (same : ν → μ → Prop) [∀ x y, Decidable (same x y)]

/-- What a mapping gains: a mapped pair saves a deletion and an insertion, and pays for a
relabelling unless the two labels are the same. -/
def saving (M : Finset (ν × μ)) : ℕ :=
  ∑ x ∈ M, if same x.1 x.2 then 2 else 1

@[simp] theorem saving_empty : saving same (∅ : Finset (ν × μ)) = 0 := rfl

/-- Only the labels of mapped nodes matter. -/
theorem saving_congr {same same' : ν → μ → Prop} [∀ x y, Decidable (same x y)]
    [∀ x y, Decidable (same' x y)] {M : Finset (ν × μ)}
    (h : ∀ x ∈ M, (same x.1 x.2 ↔ same' x.1 x.2)) : saving same M = saving same' M :=
  Finset.sum_congr rfl fun x hx => by simp only [h x hx]

/-- A mapped pair gains at most two. -/
theorem saving_le (M : Finset (ν × μ)) : saving same M ≤ 2 * M.card := by
  have h := Finset.sum_le_card_nsmul M (fun x => if same x.1 x.2 then 2 else 1) 2
    fun x _ => by split <;> simp
  simpa [saving, Nat.mul_comm] using h

variable [DecidableEq ν] [DecidableEq μ]

/-- What a mapping costs: the nodes it leaves unmapped on either side, and the mapped
pairs whose labels differ. -/
def editCost (A : Finset ν) (B : Finset μ) (M : Finset (ν × μ)) : ℕ :=
  (A \ M.image Prod.fst).card + (B \ M.image Prod.snd).card +
    (M.filter fun x => ¬ same x.1 x.2).card

/-- Cost and gain add up to deleting everything and inserting everything. -/
theorem editCost_add_saving {A : Finset ν} {B : Finset μ} {M : Finset (ν × μ)}
    (hM : M ⊆ A ×ˢ B) (h : Tai R S M) :
    editCost same A B M + saving same M = A.card + B.card := by
  have hfst := h.card_image_fst
  have hsnd := h.card_image_snd
  have hpairs : (M.filter fun x => ¬ same x.1 x.2).card + saving same M = M.card + M.card := by
    rw [saving, Finset.card_filter, ← Finset.sum_add_distrib, Finset.card_eq_sum_ones M,
      ← Finset.sum_add_distrib]
    refine Finset.sum_congr rfl fun x _ => ?_
    by_cases hs : same x.1 x.2 <;> simp [hs]
  have hcardA := Finset.card_sdiff_add_card_eq_card (image_fst_subset hM)
  have hcardB := Finset.card_sdiff_add_card_eq_card (image_snd_subset hM)
  rw [editCost]
  omega

/-- With an empty tree on either side only the empty mapping is left: every node is deleted
or inserted. -/
theorem isLeast_editCost_of_empty {A : Finset ν} {B : Finset μ} (h : A = ∅ ∨ B = ∅) :
    IsLeast {c | ∃ M ⊆ A ×ˢ B, Tai R S M ∧ c = editCost same A B M} (A.card + B.card) := by
  have hcost : editCost same A B ∅ = A.card + B.card := by simp [editCost]
  refine ⟨⟨∅, Finset.empty_subset _, Tai.empty, hcost.symm⟩, ?_⟩
  rintro c ⟨M, hM, -, rfl⟩
  have hempty : A ×ˢ B = ∅ := Finset.product_eq_empty.2 h
  rw [hempty, Finset.subset_empty] at hM
  rw [hM, hcost]

/-- The gains of two mappings with no pair in common add up. -/
theorem saving_union {M N : Finset (ν × μ)} (h : Disjoint M N) :
    saving same (M ∪ N) = saving same M + saving same N :=
  Finset.sum_union h

theorem saving_insert {M : Finset (ν × μ)} {x : ν × μ} (h : x ∉ M) :
    saving same (insert x M) = (if same x.1 x.2 then 2 else 1) + saving same M :=
  Finset.sum_insert h

end Cost

/-! ## Renaming nodes -/

/-- On the nodes `I` the renaming `e` is injective and keeps both relations. -/
structure NodeOrder.Embeds {ι ν : Type} (Q : NodeOrder ι) (R : NodeOrder ν) (I : Finset ι)
    (e : ι → ν) : Prop where
  inj : ∀ i ∈ I, ∀ k ∈ I, e i = e k → i = k
  anc : ∀ i ∈ I, ∀ k ∈ I, (R.anc (e i) (e k) ↔ Q.anc i k)
  left : ∀ i ∈ I, ∀ k ∈ I, (R.left (e i) (e k) ↔ Q.left i k)

section Renaming
variable {ι κ ν μ : Type} {P : NodeOrder ι} {Q : NodeOrder κ} {R : NodeOrder ν}
  {S : NodeOrder μ} {I : Finset ι} {J : Finset κ} {e : ι → ν} {g : κ → μ}

/-- Two nodes are equal after renaming exactly when they were equal before. -/
theorem NodeOrder.Embeds.eq_iff (h : P.Embeds R I e) {i k : ι} (hi : i ∈ I) (hk : k ∈ I) :
    e i = e k ↔ i = k :=
  ⟨h.inj i hi k hk, fun hik => by rw [hik]⟩

variable [DecidableEq ν] [DecidableEq μ]

/-- Renaming both sides neither makes nor breaks a mapping. -/
theorem tai_image_iff (he : P.Embeds R I e) (hg : Q.Embeds S J g) {M : Finset (ι × κ)}
    (hM : M ⊆ I ×ˢ J) : Tai R S (M.image (Prod.map e g)) ↔ Tai P Q M := by
  have hmem : ∀ x ∈ M, x.1 ∈ I ∧ x.2 ∈ J := fun x hx => Finset.mem_product.1 (hM hx)
  have hpair : ∀ x ∈ M, ∀ y ∈ M,
      ((e x.1 = e y.1 ↔ g x.2 = g y.2) ∧ (R.anc (e x.1) (e y.1) ↔ S.anc (g x.2) (g y.2)) ∧
        (R.left (e x.1) (e y.1) ↔ S.left (g x.2) (g y.2))) ↔
      ((x.1 = y.1 ↔ x.2 = y.2) ∧ (P.anc x.1 y.1 ↔ Q.anc x.2 y.2) ∧
        (P.left x.1 y.1 ↔ Q.left x.2 y.2)) := by
    intro x hx y hy
    obtain ⟨hx₁, hx₂⟩ := hmem x hx
    obtain ⟨hy₁, hy₂⟩ := hmem y hy
    rw [he.eq_iff hx₁ hy₁, hg.eq_iff hx₂ hy₂, he.anc _ hx₁ _ hy₁, hg.anc _ hx₂ _ hy₂,
      he.left _ hx₁ _ hy₁, hg.left _ hx₂ _ hy₂]
  simp only [Tai, Finset.forall_mem_image, Prod.map_fst, Prod.map_snd]
  exact forall₂_congr fun x hx => forall₂_congr fun y hy => hpair x hx y hy

/-- Renaming both sides leaves the gain alone. -/
theorem saving_image (same : ν → μ → Prop) [∀ x y, Decidable (same x y)]
    (he : P.Embeds R I e) (hg : Q.Embeds S J g) {M : Finset (ι × κ)} (hM : M ⊆ I ×ˢ J) :
    saving same (M.image (Prod.map e g)) = saving (fun i j => same (e i) (g j)) M := by
  rw [saving, Finset.sum_image]
  · rfl
  · intro x hx y hy hxy
    obtain ⟨hx₁, hx₂⟩ := Finset.mem_product.1 (hM hx)
    obtain ⟨hy₁, hy₂⟩ := Finset.mem_product.1 (hM hy)
    obtain ⟨h₁, h₂⟩ := Prod.ext_iff.1 hxy
    exact Prod.ext (he.inj _ hx₁ _ hy₁ h₁) (hg.inj _ hx₂ _ hy₂ h₂)

/-- The least cost of a mapping between renamed trees, from the greatest gain of a mapping
between the trees they are renamed from. -/
theorem isLeast_editCost_of_isGreatest_saving (same : ν → μ → Prop)
    [∀ x y, Decidable (same x y)] (he : P.Embeds R I e) (hg : Q.Embeds S J g) {s d : ℕ}
    (hs : IsGreatest {s | ∃ M ⊆ I ×ˢ J, Tai P Q M ∧
      s = saving (fun i j => same (e i) (g j)) M} s)
    (hd : d + s = I.card + J.card) :
    IsLeast {c | ∃ M ⊆ I.image e ×ˢ J.image g, Tai R S M ∧
      c = editCost same (I.image e) (J.image g) M} d := by
  have hI : (I.image e).card = I.card :=
    Finset.card_image_of_injOn fun i hi k hk => he.inj i hi k hk
  have hJ : (J.image g).card = J.card :=
    Finset.card_image_of_injOn fun i hi k hk => hg.inj i hi k hk
  have hprod : I.image e ×ˢ J.image g = (I ×ˢ J).image (Prod.map e g) :=
    (Finset.prodMap_image_product e g I J).symm
  refine ⟨?_, ?_⟩
  · -- the mapping with the greatest gain, renamed
    obtain ⟨M, hM, htai, hsM⟩ := hs.1
    have hM' : M.image (Prod.map e g) ⊆ I.image e ×ˢ J.image g := by
      rw [hprod]; exact Finset.image_subset_image hM
    have htai' : Tai R S (M.image (Prod.map e g)) := (tai_image_iff he hg hM).2 htai
    have hcost := editCost_add_saving same hM' htai'
    rw [saving_image same he hg hM, ← hsM, hI, hJ] at hcost
    exact ⟨_, hM', htai', by omega⟩
  · -- every mapping between the renamed trees is the renaming of one
    rintro c ⟨N, hN, htai, rfl⟩
    have hcost := editCost_add_saving same hN htai
    rw [hprod] at hN
    obtain ⟨M, hM, rfl⟩ := Finset.subset_image_iff.1 hN
    have hM' : M ⊆ I ×ˢ J := Finset.coe_subset.1 hM
    have hsM := hs.2 ⟨M, hM', (tai_image_iff he hg hM').1 htai, rfl⟩
    rw [saving_image same he hg hM', hI, hJ] at hcost
    omega

end Renaming
end OcrOrchestrator.Lib
