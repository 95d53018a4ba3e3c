import OcrOrchestrator.Lib.Postorder

/-!
# The cost of mappings behaves like a distance

What makes the least cost of a mapping a metric, one mapping at a time: a mapping read
backwards costs the same, two mappings in a row cost at least as much as the mapping they
compose to, no mapping is cheaper than the difference of the sizes, and a mapping that costs
nothing leaves nothing out and changes no label.

## Main definitions

* `compose` — two mappings in a row.
* `Full` — a mapping that leaves out no node.
-/

namespace OcrOrchestrator.Lib

variable {ν μ ρ : Type} {R : NodeOrder ν} {S : NodeOrder μ} {Q : NodeOrder ρ}

/-! ## Backwards -/

section Swap
variable [DecidableEq ν] [DecidableEq μ]

theorem Tai.swap {M : Finset (ν × μ)} (h : Tai R S M) : Tai S R (M.image Prod.swap) := by
  intro x hx y hy
  simp only [Finset.mem_image] at hx hy
  obtain ⟨x, hx, rfl⟩ := hx
  obtain ⟨y, hy, rfl⟩ := hy
  obtain ⟨heq, hanc, hleft⟩ := h x hx y hy
  exact ⟨heq.symm, hanc.symm, hleft.symm⟩

theorem image_swap_subset {A : Finset ν} {B : Finset μ} {M : Finset (ν × μ)}
    (h : M ⊆ A ×ˢ B) : M.image Prod.swap ⊆ B ×ˢ A := by
  intro x hx
  obtain ⟨y, hy, rfl⟩ := Finset.mem_image.1 hx
  have := Finset.mem_product.1 (h hy)
  exact Finset.mem_product.2 ⟨this.2, this.1⟩

/-- A mapping read backwards costs the same. -/
theorem editCost_swap (same : ν → μ → Prop) [∀ x y, Decidable (same x y)]
    (same' : μ → ν → Prop) [∀ x y, Decidable (same' x y)]
    (hsame : ∀ x y, same' y x ↔ same x y) (A : Finset ν) (B : Finset μ)
    (M : Finset (ν × μ)) :
    editCost same' B A (M.image Prod.swap) = editCost same A B M := by
  have hrelabel : ((M.image Prod.swap).filter fun x => ¬ same' x.1 x.2) =
      (M.filter fun x => ¬ same x.1 x.2).image Prod.swap := by
    rw [Finset.filter_image]
    simp [hsame]
  have hfst : (Prod.fst ∘ Prod.swap : ν × μ → μ) = Prod.snd := rfl
  have hsnd : (Prod.snd ∘ Prod.swap : ν × μ → ν) = Prod.fst := rfl
  rw [editCost, editCost, Finset.image_image, Finset.image_image, hfst, hsnd, hrelabel,
    Finset.card_image_of_injective _ Prod.swap_injective]
  omega

end Swap

/-! ## Two mappings in a row -/

section Compose
variable [DecidableEq ν] [DecidableEq μ] [DecidableEq ρ]

/-- Follow the one mapping, then the other. -/
def compose (M : Finset (ν × μ)) (N : Finset (μ × ρ)) : Finset (ν × ρ) :=
  ((M ×ˢ N).filter fun p => p.1.2 = p.2.1).image fun p => (p.1.1, p.2.2)

@[simp] theorem mem_compose {M : Finset (ν × μ)} {N : Finset (μ × ρ)} {a : ν} {c : ρ} :
    (a, c) ∈ compose M N ↔ ∃ b, (a, b) ∈ M ∧ (b, c) ∈ N := by
  simp only [compose, Finset.mem_image, Finset.mem_filter, Finset.mem_product, Prod.mk.injEq]
  constructor
  · rintro ⟨⟨⟨a', b⟩, ⟨b', c'⟩⟩, ⟨⟨hM, hN⟩, hb⟩, rfl, rfl⟩
    obtain rfl : b = b' := hb
    exact ⟨b, hM, hN⟩
  · rintro ⟨b, hM, hN⟩
    exact ⟨⟨(a, b), (b, c)⟩, ⟨⟨hM, hN⟩, rfl⟩, rfl, rfl⟩

theorem Tai.compose {M : Finset (ν × μ)} {N : Finset (μ × ρ)} (hM : Tai R S M)
    (hN : Tai S Q N) : Tai R Q (compose M N) := by
  rintro ⟨a, c⟩ hx ⟨a', c'⟩ hy
  obtain ⟨b, hb, hc⟩ := mem_compose.1 hx
  obtain ⟨b', hb', hc'⟩ := mem_compose.1 hy
  have h₁ := hM _ hb _ hb'
  have h₂ := hN _ hc _ hc'
  exact ⟨h₁.1.trans h₂.1, h₁.2.1.trans h₂.2.1, h₁.2.2.trans h₂.2.2⟩

theorem compose_subset {A : Finset ν} {B : Finset μ} {C : Finset ρ} {M : Finset (ν × μ)}
    {N : Finset (μ × ρ)} (hM : M ⊆ A ×ˢ B) (hN : N ⊆ B ×ˢ C) : compose M N ⊆ A ×ˢ C := by
  rintro ⟨a, c⟩ hx
  obtain ⟨b, hb, hc⟩ := mem_compose.1 hx
  exact Finset.mem_product.2 ⟨(Finset.mem_product.1 (hM hb)).1, (Finset.mem_product.1 (hN hc)).2⟩

theorem compose_image_swap (M : Finset (ν × μ)) (N : Finset (μ × ρ)) :
    (compose M N).image Prod.swap = compose (N.image Prod.swap) (M.image Prod.swap) := by
  ext ⟨c, a⟩
  simp [and_comm]

/-- The nodes the composition leaves out on the left: the first mapping left them out, or it
took them to nodes the second leaves out. -/
theorem card_sdiff_compose_le {A : Finset ν} {B : Finset μ} {M : Finset (ν × μ)}
    {N : Finset (μ × ρ)} (hM : M ⊆ A ×ˢ B) (htai : Tai R S M) :
    (A \ (compose M N).image Prod.fst).card ≤
      (A \ M.image Prod.fst).card + (B \ N.image Prod.fst).card := by
  -- the mapped pairs whose second node goes nowhere
  let lost := M.filter fun x => x.2 ∉ N.image Prod.fst
  have hcover : A \ (compose M N).image Prod.fst ⊆ (A \ M.image Prod.fst) ∪ lost.image Prod.fst := by
    intro a ha
    obtain ⟨haA, hout⟩ := Finset.mem_sdiff.1 ha
    by_cases hmem : a ∈ M.image Prod.fst
    · obtain ⟨⟨a', b⟩, hb, rfl⟩ := Finset.mem_image.1 hmem
      refine Finset.mem_union_right _ (Finset.mem_image.2 ⟨(a', b), ?_, rfl⟩)
      refine Finset.mem_filter.2 ⟨hb, fun hN => hout ?_⟩
      obtain ⟨⟨b', c⟩, hc, rfl⟩ := Finset.mem_image.1 hN
      exact Finset.mem_image.2 ⟨(a', c), mem_compose.2 ⟨b', hb, hc⟩, rfl⟩
    · exact Finset.mem_union_left _ (Finset.mem_sdiff.2 ⟨haA, hmem⟩)
  have hlost : lost.card ≤ (B \ N.image Prod.fst).card := by
    refine Finset.card_le_card_of_injOn Prod.snd (fun x hx => ?_) fun x hx y hy hxy => ?_
    · obtain ⟨hxM, hxN⟩ := Finset.mem_filter.1 hx
      exact Finset.mem_sdiff.2 ⟨(Finset.mem_product.1 (hM hxM)).2, hxN⟩
    · have hxM := (Finset.mem_filter.1 hx).1
      have hyM := (Finset.mem_filter.1 hy).1
      exact Prod.ext ((htai x hxM y hyM).1.2 hxy) hxy
  calc (A \ (compose M N).image Prod.fst).card
      ≤ ((A \ M.image Prod.fst) ∪ lost.image Prod.fst).card := Finset.card_le_card hcover
    _ ≤ (A \ M.image Prod.fst).card + (lost.image Prod.fst).card := Finset.card_union_le _ _
    _ ≤ (A \ M.image Prod.fst).card + (B \ N.image Prod.fst).card := by
      have := Finset.card_image_le (s := lost) (f := Prod.fst)
      omega

/-- The nodes the composition leaves out on the right, read backwards. -/
theorem card_sdiff_compose_snd_le {B : Finset μ} {C : Finset ρ} {M : Finset (ν × μ)}
    {N : Finset (μ × ρ)} (hN : N ⊆ B ×ˢ C) (htai : Tai S Q N) :
    (C \ (compose M N).image Prod.snd).card ≤
      (C \ N.image Prod.snd).card + (B \ M.image Prod.snd).card := by
  have h := card_sdiff_compose_le (N := M.image Prod.swap) (image_swap_subset hN) htai.swap
  rw [← compose_image_swap] at h
  simpa only [Finset.image_image, Function.comp_def, Prod.fst_swap] using h

/-- A composition of mappings has no more pairs than either. -/
theorem card_compose_le {M : Finset (ν × μ)} {N : Finset (μ × ρ)} (hM : Tai R S M)
    (hN : Tai S Q N) : (compose M N).card ≤ M.card ∧ (compose M N).card ≤ N.card := by
  have h := hM.compose hN
  have hfst : (compose M N).image Prod.fst ⊆ M.image Prod.fst := by
    intro i hi
    obtain ⟨⟨i, k⟩, hik, rfl⟩ := Finset.mem_image.1 hi
    obtain ⟨j, hij, -⟩ := mem_compose.1 hik
    exact Finset.mem_image.2 ⟨(i, j), hij, rfl⟩
  have hsnd : (compose M N).image Prod.snd ⊆ N.image Prod.snd := by
    intro k hk
    obtain ⟨⟨i, k⟩, hik, rfl⟩ := Finset.mem_image.1 hk
    obtain ⟨j, -, hjk⟩ := mem_compose.1 hik
    exact Finset.mem_image.2 ⟨(j, k), hjk, rfl⟩
  have h₁ := (Finset.card_le_card hfst).trans Finset.card_image_le
  have h₂ := (Finset.card_le_card hsnd).trans Finset.card_image_le
  rw [h.card_image_fst] at h₁
  rw [h.card_image_snd] at h₂
  exact ⟨h₁, h₂⟩

end Compose

section Labels
variable {α : Type} [DecidableEq α] [DecidableEq ν] [DecidableEq μ] [DecidableEq ρ]
  {a : ν → α} {b : μ → α} {c : ρ → α}

/-- A composed pair with different labels has a changed label on the way. -/
theorem card_relabel_compose_le {M : Finset (ν × μ)} {N : Finset (μ × ρ)} (hM : Tai R S M)
    (hN : Tai S Q N) :
    ((compose M N).filter fun x => ¬ a x.1 = c x.2).card ≤
      (M.filter fun x => ¬ a x.1 = b x.2).card + (N.filter fun x => ¬ b x.1 = c x.2).card := by
  -- the pairs composed of a relabelled first pair, and those of a relabelled second one
  have hcover : ((compose M N).filter fun x => ¬ a x.1 = c x.2) ⊆
      compose (M.filter fun x => ¬ a x.1 = b x.2) N ∪
        compose M (N.filter fun x => ¬ b x.1 = c x.2) := by
    rintro ⟨i, k⟩ hx
    obtain ⟨hik, hne⟩ := Finset.mem_filter.1 hx
    obtain ⟨j, hij, hjk⟩ := mem_compose.1 hik
    by_cases hj : a i = b j
    · have hjk' : ¬ b j = c k := fun h => hne (hj.trans h)
      exact Finset.mem_union_right _ (mem_compose.2 ⟨j, hij, by simp [hjk, hjk']⟩)
    · exact Finset.mem_union_left _ (mem_compose.2 ⟨j, by simp [hij, hj], hjk⟩)
  have hfirst := (card_compose_le (hM.mono (Finset.filter_subset (fun x => ¬ a x.1 = b x.2) M)) hN).1
  have hsecond :=
    (card_compose_le hM (hN.mono (Finset.filter_subset (fun x => ¬ b x.1 = c x.2) N))).2
  have hunion := (Finset.card_le_card hcover).trans (Finset.card_union_le _ _)
  omega

/-- **Two mappings in a row.**  The mapping they compose to costs no more than both. -/
theorem editCost_compose_le {A : Finset ν} {B : Finset μ} {C : Finset ρ}
    {M : Finset (ν × μ)} {N : Finset (μ × ρ)} (hM : M ⊆ A ×ˢ B) (htaiM : Tai R S M)
    (hN : N ⊆ B ×ˢ C) (htaiN : Tai S Q N) :
    editCost (fun x y => a x = c y) A C (compose M N) ≤
      editCost (fun x y => a x = b y) A B M + editCost (fun x y => b x = c y) B C N := by
  have hleft := card_sdiff_compose_le (N := N) hM htaiM
  have hright := card_sdiff_compose_snd_le (M := M) hN htaiN
  have hlabel := card_relabel_compose_le (a := a) (b := b) (c := c) htaiM htaiN
  simp only [editCost]
  omega

end Labels

/-! ## How cheap a mapping can be -/

section Bounds
variable [DecidableEq ν] [DecidableEq μ] {same : ν → μ → Prop} [∀ x y, Decidable (same x y)]
  {A : Finset ν} {B : Finset μ} {M : Finset (ν × μ)}

variable (same) in
/-- No mapping is cheaper than the difference of the sizes. -/
theorem card_le_card_add_editCost (hM : M ⊆ A ×ˢ B) (htai : Tai R S M) :
    A.card ≤ B.card + editCost same A B M ∧ B.card ≤ A.card + editCost same A B M := by
  have hgain := editCost_add_saving same hM htai
  have hA := Finset.card_le_card (image_fst_subset hM)
  have hB := Finset.card_le_card (image_snd_subset hM)
  rw [htai.card_image_fst] at hA
  rw [htai.card_image_snd] at hB
  have hle := saving_le same M
  omega

/-- The mapping leaves out no node and keeps every label. -/
structure Full (same : ν → μ → Prop) (A : Finset ν) (B : Finset μ) (M : Finset (ν × μ)) :
    Prop where
  fst : ∀ i ∈ A, ∃ j, (i, j) ∈ M
  snd : ∀ j ∈ B, ∃ i, (i, j) ∈ M
  label : ∀ x ∈ M, same x.1 x.2

/-- A mapping that costs nothing. -/
theorem editCost_eq_zero_iff : editCost same A B M = 0 ↔ Full same A B M := by
  simp only [editCost, Nat.add_eq_zero_iff, Finset.card_eq_zero, Finset.sdiff_eq_empty_iff_subset,
    Finset.filter_eq_empty_iff, not_not]
  constructor
  · rintro ⟨⟨hA, hB⟩, hlabel⟩
    refine ⟨fun i hi => ?_, fun j hj => ?_, fun x hx => hlabel hx⟩
    · simpa using hA hi
    · simpa using hB hj
  · rintro ⟨hA, hB, hlabel⟩
    refine ⟨⟨fun i hi => ?_, fun j hj => ?_⟩, fun x hx => hlabel x hx⟩
    · simpa using hA i hi
    · simpa using hB j hj

end Bounds

/-! ## Mappings that leave nothing out -/

/-- A mapping that leaves nothing out is one between the nodes before they were renamed. -/
theorem Full.of_image {ι κ : Type} {P : NodeOrder ι} {O : NodeOrder κ} {I : Finset ι}
    {J : Finset κ} {e : ι → ν} {g : κ → μ} [DecidableEq ν] [DecidableEq μ]
    {same : ν → μ → Prop} (he : P.Embeds R I e) (hg : O.Embeds S J g) {M : Finset (ι × κ)}
    (hM : M ⊆ I ×ˢ J) (h : Full same (I.image e) (J.image g) (M.image (Prod.map e g))) :
    Full (fun i j => same (e i) (g j)) I J M := by
  have hmem : ∀ x ∈ M, x.1 ∈ I ∧ x.2 ∈ J := fun x hx => Finset.mem_product.1 (hM hx)
  refine ⟨fun i hi => ?_, fun j hj => ?_, fun x hx => ?_⟩
  · obtain ⟨y, hy⟩ := h.fst _ (Finset.mem_image_of_mem e hi)
    obtain ⟨⟨i', j⟩, hx, hxy⟩ := Finset.mem_image.1 hy
    obtain rfl := he.inj _ (hmem _ hx).1 _ hi (congrArg Prod.fst hxy)
    exact ⟨j, hx⟩
  · obtain ⟨y, hy⟩ := h.snd _ (Finset.mem_image_of_mem g hj)
    obtain ⟨⟨i, j'⟩, hx, hxy⟩ := Finset.mem_image.1 hy
    obtain rfl := hg.inj _ (hmem _ hx).2 _ hj (congrArg Prod.snd hxy)
    exact ⟨i, hx⟩
  · exact h.label _ (Finset.mem_image_of_mem (Prod.map e g) hx)

section Numbers
variable {l m : ℕ → ℕ} {M : Finset (ℕ × ℕ)} {n k : ℕ} {same : ℕ → ℕ → Prop}

/-- A mapping between two postorder numberings keeps the order of the numbers. -/
theorem Tai.lt_iff (hl : Postorder l) (hm : Postorder m)
    (h : Tai (postorder l) (postorder m) M) {i j i' j' : ℕ} (hx : (i, j) ∈ M)
    (hy : (i', j') ∈ M) : i < i' ↔ j < j' := by
  have hxy := h _ hx _ hy
  have hyx := h _ hy _ hx
  have := hl.le i'
  have := hm.le j'
  simp only [postorder] at hxy hyx
  omega

/-- If it leaves out no number it is the identity. -/
theorem Full.eq_of_mem (hl : Postorder l) (hm : Postorder m)
    (hM : M ⊆ Finset.Ioc 0 n ×ˢ Finset.Ioc 0 k) (h : Tai (postorder l) (postorder m) M)
    (hfull : Full same (Finset.Ioc 0 n) (Finset.Ioc 0 k) M) {i j : ℕ} (hx : (i, j) ∈ M) :
    i = j := by
  -- a pair that is not on the diagonal points at a smaller one
  induction i using Nat.strong_induction_on generalizing j with
  | _ i ih =>
    have hb := hM hx
    simp only [Finset.mem_product, Finset.mem_Ioc] at hb
    rcases lt_trichotomy i j with hlt | heq | hlt
    · obtain ⟨i', hy⟩ := hfull.snd i (Finset.mem_Ioc.2 ⟨hb.1.1, by omega⟩)
      have hi' : i' < i := (h.lt_iff hl hm hy hx).2 hlt
      have := ih i' hi' hy
      omega
    · exact heq
    · obtain ⟨j', hy⟩ := hfull.fst j (Finset.mem_Ioc.2 ⟨hb.2.1, by omega⟩)
      have hj' : j' < j := (h.lt_iff hl hm hy hx).1 hlt
      have := ih j hlt hy
      omega

/-- Two numberings with a mapping that leaves nothing out have the same number of nodes, the
same labels and the same leftmost leaves. -/
theorem Full.same_numbers (hl : Postorder l) (hm : Postorder m)
    (hl' : ∀ i, 0 < i → i ≤ n → 0 < l i) (hm' : ∀ i, 0 < i → i ≤ k → 0 < m i)
    (hM : M ⊆ Finset.Ioc 0 n ×ˢ Finset.Ioc 0 k) (h : Tai (postorder l) (postorder m) M)
    (hfull : Full same (Finset.Ioc 0 n) (Finset.Ioc 0 k) M) :
    n = k ∧ ∀ i, 0 < i → i ≤ n → same i i ∧ l i = m i := by
  have hdiag : ∀ i, 0 < i → i ≤ n → (i, i) ∈ M := by
    intro i hi hn
    obtain ⟨j, hj⟩ := hfull.fst i (Finset.mem_Ioc.2 ⟨hi, hn⟩)
    obtain rfl := hfull.eq_of_mem hl hm hM h hj
    exact hj
  have hdiag' : ∀ i, 0 < i → i ≤ k → (i, i) ∈ M := by
    intro i hi hn
    obtain ⟨j, hj⟩ := hfull.snd i (Finset.mem_Ioc.2 ⟨hi, hn⟩)
    obtain rfl := hfull.eq_of_mem hl hm hM h hj
    exact hj
  have hbound : ∀ i, (i, i) ∈ M → i ≤ n ∧ i ≤ k := by
    intro i hi
    have := hM hi
    simp only [Finset.mem_product, Finset.mem_Ioc] at this
    omega
  have hnk : n ≤ k := by
    rcases Nat.eq_zero_or_pos n with hz | hz
    · omega
    · exact (hbound n (hdiag n hz le_rfl)).2
  have hkn : k ≤ n := by
    rcases Nat.eq_zero_or_pos k with hz | hz
    · omega
    · exact (hbound k (hdiag' k hz le_rfl)).1
  refine ⟨by omega, fun i hi hn => ⟨hfull.label _ (hdiag i hi hn), ?_⟩⟩
  -- the leftmost leaf under `i` is the first node that is not to the left of `i`
  have hli := hl.le i
  have hmi := hm.le i
  have hlpos := hl' i hi hn
  have hmpos := hm' i hi (by omega)
  have h₁ := h _ (hdiag (l i) hlpos (by omega)) _ (hdiag i hi hn)
  have h₂ := h _ (hdiag (m i) hmpos (by omega)) _ (hdiag i hi hn)
  simp only [postorder] at h₁ h₂
  omega

end Numbers
end OcrOrchestrator.Lib
