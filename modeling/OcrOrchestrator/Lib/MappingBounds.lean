import OcrOrchestrator.Lib.MappingMetric
import Mathlib.Data.Fintype.Card

/-!
# How much a mapping can gain

The best mapping between two trees is the result of a search.  Some bounds need none.  From
below: nodes that stand in the same relations in both trees can be mapped to each other, such
as two chains, or two roots with what is spread out below them.  From above: a mapping keeps
chains, so that it has at most as many pairs as the one tree has leaves, times the length of a
chain of the other; and pairs with equal labels use up the labels of either tree.

## Main definitions

* `NodeOrder.Proper` — what ancestry and left-to-right order have to do with each other.
* `chainOrder`, `fanOrder` — nodes below each other, and nodes next to each other below a root.
-/

namespace OcrOrchestrator.Lib

variable {ν μ : Type} {R : NodeOrder ν} {S : NodeOrder μ}

/-! ## From below -/

/-- No node is its own ancestor or left of itself, and two nodes stand in at most one relation. -/
structure NodeOrder.Proper (R : NodeOrder ν) : Prop where
  anc_irrefl : ∀ x, ¬R.anc x x
  left_irrefl : ∀ x, ¬R.left x x
  of_anc : ∀ x y, R.anc x y → ¬R.anc y x ∧ ¬R.left x y ∧ ¬R.left y x
  of_left : ∀ x y, R.left x y → ¬R.left y x ∧ ¬R.anc x y ∧ ¬R.anc y x

/-- Nodes below each other. -/
def chainOrder (n : ℕ) : NodeOrder (Fin n) where
  anc i k := i < k
  left _ _ := False

theorem chainOrder_proper (n : ℕ) : (chainOrder n).Proper where
  anc_irrefl := lt_irrefl
  left_irrefl _ := not_false
  of_anc _ _ h := ⟨lt_asymm h, not_false, not_false⟩
  of_left _ _ h := h.elim

/-- A root, and nodes next to each other below it. -/
def fanOrder (n : ℕ) : NodeOrder (Fin n) where
  anc i k := i.val = 0 ∧ 0 < k.val
  left i k := 0 < i.val ∧ i < k

theorem fanOrder_proper (n : ℕ) : (fanOrder n).Proper where
  anc_irrefl i h := h.2.ne' h.1
  left_irrefl i h := lt_irrefl i h.2
  of_anc i k h := by
    simp only [fanOrder, Fin.lt_def] at h ⊢
    omega
  of_left i k h := by
    simp only [fanOrder, Fin.lt_def] at h ⊢
    omega

/-- Two proper orders agree if they do on every two nodes in a row. -/
theorem NodeOrder.Proper.embeds {n : ℕ} {Q : NodeOrder (Fin n)} (hQ : Q.Proper) (hR : R.Proper)
    {e : Fin n → ν} (h : ∀ i k, i < k → (Q.anc i k ∧ R.anc (e i) (e k)) ∨
      (Q.left i k ∧ R.left (e i) (e k))) : Q.Embeds R Finset.univ e := by
  have hrel : ∀ i k, i < k → (R.anc (e i) (e k) ↔ Q.anc i k) ∧ (R.left (e i) (e k) ↔ Q.left i k) ∧
      (R.anc (e k) (e i) ↔ Q.anc k i) ∧ (R.left (e k) (e i) ↔ Q.left k i) := by
    intro i k hik
    rcases h i k hik with ⟨hq, hr⟩ | ⟨hq, hr⟩
    · obtain ⟨hq₁, hq₂, hq₃⟩ := hQ.of_anc _ _ hq
      obtain ⟨hr₁, hr₂, hr₃⟩ := hR.of_anc _ _ hr
      exact ⟨iff_of_true hr hq, iff_of_false hr₂ hq₂, iff_of_false hr₁ hq₁, iff_of_false hr₃ hq₃⟩
    · obtain ⟨hq₁, hq₂, hq₃⟩ := hQ.of_left _ _ hq
      obtain ⟨hr₁, hr₂, hr₃⟩ := hR.of_left _ _ hr
      exact ⟨iff_of_false hr₂ hq₂, iff_of_true hr hq, iff_of_false hr₃ hq₃, iff_of_false hr₁ hq₁⟩
  have hne : ∀ i k, i < k → e i ≠ e k := by
    intro i k hik heq
    rcases h i k hik with ⟨-, hr⟩ | ⟨-, hr⟩ <;> rw [heq] at hr
    · exact hR.anc_irrefl _ hr
    · exact hR.left_irrefl _ hr
  refine ⟨fun i _ k _ heq => ?_, fun i _ k _ => ?_, fun i _ k _ => ?_⟩
  · rcases lt_trichotomy i k with hik | hik | hik
    · exact absurd heq (hne i k hik)
    · exact hik
    · exact absurd heq.symm (hne k i hik)
  · rcases lt_trichotomy i k with hik | rfl | hik
    · exact (hrel i k hik).1
    · exact iff_of_false (hR.anc_irrefl _) (hQ.anc_irrefl _)
    · exact (hrel k i hik).2.2.1
  · rcases lt_trichotomy i k with hik | rfl | hik
    · exact (hrel i k hik).2.1
    · exact iff_of_false (hR.left_irrefl _) (hQ.left_irrefl _)
    · exact (hrel k i hik).2.2.2

/-- A root with nodes next to each other below it: what the list says about two of its nodes. -/
theorem fanOrder_of_cons {n : ℕ} {x : ν} {xs : List ν} (hroot : ∀ y ∈ xs, R.anc x y)
    (hxs : xs.Pairwise R.left) (i k : Fin n) (hi : i < (x :: xs).length)
    (hk : k < (x :: xs).length) (hik : i < k) :
    ((fanOrder n).anc i k ∧ R.anc (x :: xs)[i] (x :: xs)[k]) ∨
      ((fanOrder n).left i k ∧ R.left (x :: xs)[i] (x :: xs)[k]) := by
  obtain ⟨i, hin⟩ := i
  obtain ⟨k, hkn⟩ := k
  cases k with
  | zero => exact absurd hik (Nat.not_lt_zero _)
  | succ k =>
    cases i with
    | zero => exact .inl ⟨⟨rfl, Nat.succ_pos k⟩, hroot _ (List.getElem_mem _)⟩
    | succ i =>
      have hlt : i < k := Nat.lt_of_succ_lt_succ hik
      exact .inr ⟨⟨Nat.succ_pos i, hik⟩, List.pairwise_iff_getElem.1 hxs i k _ _ hlt⟩

section Gain
variable (same : ν → μ → Prop) [∀ x y, Decidable (same x y)]

/-- A pair gains one, and one more if the labels are the same. -/
theorem saving_eq_card_add (M : Finset (ν × μ)) :
    saving same M = M.card + (M.filter fun x => same x.1 x.2).card := by
  rw [saving, Finset.card_filter, Finset.card_eq_sum_ones, ← Finset.sum_add_distrib]
  refine Finset.sum_congr rfl fun x _ => ?_
  by_cases hs : same x.1 x.2 <;> simp [hs]

variable [DecidableEq ν] [DecidableEq μ]

/-- An order that is found in both trees can be mapped. -/
theorem exists_saving_of_embeds {ι : Type} {Q : NodeOrder ι} {I : Finset ι} {e : ι → ν} {g : ι → μ}
    {A : Finset ν} {B : Finset μ} (he : Q.Embeds R I e) (hg : Q.Embeds S I g)
    (hA : ∀ i ∈ I, e i ∈ A) (hB : ∀ i ∈ I, g i ∈ B) :
    ∃ M ⊆ A ×ˢ B, Tai R S M ∧ I.card ≤ saving same M := by
  refine ⟨I.image fun i => (e i, g i), ?_, ?_, ?_⟩
  · intro x hx
    obtain ⟨i, hi, rfl⟩ := Finset.mem_image.1 hx
    exact Finset.mem_product.2 ⟨hA i hi, hB i hi⟩
  · intro x hx y hy
    obtain ⟨i, hi, rfl⟩ := Finset.mem_image.1 hx
    obtain ⟨k, hk, rfl⟩ := Finset.mem_image.1 hy
    exact ⟨(he.eq_iff hi hk).trans (hg.eq_iff hi hk).symm,
      (he.anc i hi k hk).trans (hg.anc i hi k hk).symm,
      (he.left i hi k hk).trans (hg.left i hi k hk).symm⟩
  · have hcard : (I.image fun i => (e i, g i)).card = I.card :=
      Finset.card_image_of_injOn fun i hi k hk heq => he.inj i hi k hk (Prod.ext_iff.1 heq).1
    rw [saving_eq_card_add, hcard]
    exact Nat.le_add_right _ _

/-- Two lists of nodes can be mapped as far as the shorter one reaches, if one order fits the
beginnings of both. -/
theorem exists_saving_of_lists {xs : List ν} {ys : List μ}
    {Q : NodeOrder (Fin (min xs.length ys.length))} (hQ : Q.Proper) (hR : R.Proper) (hS : S.Proper)
    {A : Finset ν} {B : Finset μ} (hA : ∀ x ∈ xs, x ∈ A) (hB : ∀ y ∈ ys, y ∈ B)
    (hx : ∀ (i k : Fin (min xs.length ys.length)) (hi : i < xs.length) (hk : k < xs.length),
      i < k → (Q.anc i k ∧ R.anc xs[i] xs[k]) ∨ (Q.left i k ∧ R.left xs[i] xs[k]))
    (hy : ∀ (i k : Fin (min xs.length ys.length)) (hi : i < ys.length) (hk : k < ys.length),
      i < k → (Q.anc i k ∧ S.anc ys[i] ys[k]) ∨ (Q.left i k ∧ S.left ys[i] ys[k])) :
    ∃ M ⊆ A ×ˢ B, Tai R S M ∧ min xs.length ys.length ≤ saving same M := by
  have hxs : ∀ i : Fin (min xs.length ys.length), i < xs.length := fun i => by omega
  have hys : ∀ i : Fin (min xs.length ys.length), i < ys.length := fun i => by omega
  have he : Q.Embeds R Finset.univ fun i => xs.get ⟨i, hxs i⟩ :=
    hQ.embeds hR fun i k hik => hx i k (hxs i) (hxs k) hik
  have hg : Q.Embeds S Finset.univ fun i => ys.get ⟨i, hys i⟩ :=
    hQ.embeds hS fun i k hik => hy i k (hys i) (hys k) hik
  obtain ⟨M, hM, htai, hsaving⟩ := exists_saving_of_embeds same he hg
    (fun i _ => hA _ (List.get_mem _ _)) fun i _ => hB _ (List.get_mem _ _)
  refine ⟨M, hM, htai, ?_⟩
  rwa [Finset.card_univ, Fintype.card_fin] at hsaving

/-- Two chains. -/
theorem exists_saving_of_chains (hR : R.Proper) (hS : S.Proper) {A : Finset ν} {B : Finset μ}
    {xs : List ν} {ys : List μ} (hA : ∀ x ∈ xs, x ∈ A) (hB : ∀ y ∈ ys, y ∈ B)
    (hxs : xs.Pairwise R.anc) (hys : ys.Pairwise S.anc) :
    ∃ M ⊆ A ×ˢ B, Tai R S M ∧ min xs.length ys.length ≤ saving same M :=
  exists_saving_of_lists same (chainOrder_proper _) hR hS hA hB
    (fun i k hi hk hik => .inl ⟨hik, List.pairwise_iff_getElem.1 hxs i k hi hk hik⟩)
    fun i k hi hk hik => .inl ⟨hik, List.pairwise_iff_getElem.1 hys i k hi hk hik⟩

/-- Two roots, with nodes next to each other below them. -/
theorem exists_saving_of_fans (hR : R.Proper) (hS : S.Proper) {A : Finset ν} {B : Finset μ}
    {x : ν} {xs : List ν} {y : μ} {ys : List μ} (hA : ∀ z ∈ x :: xs, z ∈ A)
    (hB : ∀ z ∈ y :: ys, z ∈ B) (hx : ∀ z ∈ xs, R.anc x z) (hy : ∀ z ∈ ys, S.anc y z)
    (hxs : xs.Pairwise R.left) (hys : ys.Pairwise S.left) :
    ∃ M ⊆ A ×ˢ B, Tai R S M ∧ min (x :: xs).length (y :: ys).length ≤ saving same M :=
  exists_saving_of_lists same (fanOrder_proper _) hR hS hA hB (fanOrder_of_cons hx hxs)
    (fanOrder_of_cons hy hys)

/-! ## From above -/

/-- A mapping has at most as many pairs as there are leaves on the one side, times the length of
a chain on the other. -/
theorem Tai.card_le_mul {M : Finset (ν × μ)} {A : Finset ν} {B : Finset μ} (hM : M ⊆ A ×ˢ B)
    (htai : Tai R S M) {L : Finset ν} (hL : ∀ a ∈ A, ∃ l ∈ L, a = l ∨ R.anc a l)
    (hline : ∀ a ∈ A, ∀ b ∈ A, ∀ l, (a = l ∨ R.anc a l) → (b = l ∨ R.anc b l) →
      a = b ∨ R.anc a b ∨ R.anc b a)
    {n : ℕ} (hn : ∀ C ⊆ B, (∀ x ∈ C, ∀ y ∈ C, x = y ∨ S.anc x y ∨ S.anc y x) → C.card ≤ n) :
    M.card ≤ n * L.card := by
  rcases M.eq_empty_or_nonempty with rfl | ⟨x₀, -⟩
  · simp
  have : Nonempty ν := ⟨x₀.1⟩
  choose! leaf hleaf hbelow using hL
  have hfst : ∀ x ∈ M, x.1 ∈ A := fun x hx => (Finset.mem_product.1 (hM hx)).1
  refine Finset.card_le_mul_card_image_of_maps_to (f := fun x => leaf x.1)
    (fun x hx => hleaf _ (hfst x hx)) n fun l _ => ?_
  -- the pairs above one leaf are a chain, and its image is one
  have hsub : (M.filter fun x => leaf x.1 = l) ⊆ M := Finset.filter_subset _ _
  rw [← (htai.mono hsub).card_image_snd]
  refine hn _ (image_snd_subset (hsub.trans hM)) ?_
  intro y hy z hz
  obtain ⟨y, hyM, rfl⟩ := Finset.mem_image.1 hy
  obtain ⟨z, hzM, rfl⟩ := Finset.mem_image.1 hz
  rw [Finset.mem_filter] at hyM hzM
  obtain ⟨heq, hanc, -⟩ := htai y hyM.1 z hzM.1
  obtain ⟨-, hanc', -⟩ := htai z hzM.1 y hyM.1
  have hyl := hbelow _ (hfst y hyM.1)
  have hzl := hbelow _ (hfst z hzM.1)
  rw [hyM.2] at hyl
  rw [hzM.2] at hzl
  exact (hline _ (hfst y hyM.1) _ (hfst z hzM.1) l hyl hzl).imp heq.1 (Or.imp hanc.1 hanc'.1)

/-- Pairs with equal labels use up the labels of either tree. -/
theorem Tai.card_filter_le {β : Type} [DecidableEq β] {f : ν → β} {g : μ → β}
    {M : Finset (ν × μ)} {A : Finset ν} {B : Finset μ} (hM : M ⊆ A ×ˢ B) (htai : Tai R S M) :
    (M.filter fun x => f x.1 = g x.2).card ≤ (A.val.map f ∩ B.val.map g).card := by
  set N := M.filter fun x => f x.1 = g x.2 with hN
  have hsub : N ⊆ M := Finset.filter_subset _ _
  have htaiN := htai.mono hsub
  have hfst : N.val.map (fun x => f x.1) ≤ A.val.map f := by
    have himage : (N.image Prod.fst).val = N.val.map Prod.fst :=
      Finset.image_val_of_injOn fun x hx y hy hxy => Prod.ext hxy ((htaiN x hx y hy).1.1 hxy)
    have hle := Multiset.map_le_map (f := f)
      (Finset.val_le_iff.2 (image_fst_subset (hsub.trans hM)))
    rwa [himage, Multiset.map_map] at hle
  have hsnd : N.val.map (fun x => g x.2) ≤ B.val.map g := by
    have himage : (N.image Prod.snd).val = N.val.map Prod.snd :=
      Finset.image_val_of_injOn fun x hx y hy hxy => Prod.ext ((htaiN x hx y hy).1.2 hxy) hxy
    have hle := Multiset.map_le_map (f := g)
      (Finset.val_le_iff.2 (image_snd_subset (hsub.trans hM)))
    rwa [himage, Multiset.map_map] at hle
  have hsame : N.val.map (fun x => f x.1) = N.val.map (fun x => g x.2) := by
    refine Multiset.map_congr rfl fun x hx => ?_
    have hxN : x ∈ N := hx
    rw [hN] at hxN
    exact (Finset.mem_filter.1 hxN).2
  have hcard := Multiset.card_le_card (Multiset.le_inter hfst (hsame ▸ hsnd))
  rwa [Multiset.card_map] at hcard

end Gain
end OcrOrchestrator.Lib
