import Mathlib.Algebra.BigOperators.Group.Finset.Basic
import Mathlib.Algebra.BigOperators.Group.List.Basic
import Mathlib.Algebra.Order.BigOperators.Group.Finset
import Mathlib.Data.List.Induction
import Mathlib.Tactic.Linarith

/-!
# Greedy matching

A list of candidates, each of which joins something on the left with something on the right.
The greedy walk takes a candidate unless one of its two ends is taken already.  If the list
is sorted by falling weight, whatever the walk leaves out shares an end with a candidate at
least as heavy that it takes, and the walk gathers at least half of what any matching does.

Every fact about the walk is an induction that adds one candidate at the end of the list.

## Main definitions

* `Greedy`, `greedyStep`, `greedy` — the walk.
* `OneToOne` — the matchings it is compared with.
-/

namespace OcrOrchestrator.Lib

/-- The walk so far: what it chose, and the ends that are taken. -/
structure Greedy (γ ι κ : Type) where
  chosen : List γ
  left : Finset ι
  right : Finset κ

section Walk
variable {γ ι κ : Type} [DecidableEq ι] [DecidableEq κ] (f : γ → ι) (g : γ → κ)

/-- One candidate. -/
def greedyStep (st : Greedy γ ι κ) (c : γ) : Greedy γ ι κ :=
  if f c ∈ st.left ∨ g c ∈ st.right then st
  else
    { chosen := st.chosen ++ [c]
      left := insert (f c) st.left
      right := insert (g c) st.right }

/-- The walk over all candidates. -/
def greedy (l : List γ) : Greedy γ ι κ :=
  l.foldl (greedyStep f g) ⟨[], ∅, ∅⟩

@[simp] theorem greedy_nil : greedy f g ([] : List γ) = ⟨[], ∅, ∅⟩ := rfl

@[simp] theorem greedy_concat (l : List γ) (c : γ) :
    greedy f g (l ++ [c]) = greedyStep f g (greedy f g l) c := by
  simp [greedy]

/-- What the next candidate changes. -/
theorem greedyStep_chosen (st : Greedy γ ι κ) (c : γ) :
    ((f c ∈ st.left ∨ g c ∈ st.right) ∧ greedyStep f g st c = st) ∨
      (f c ∉ st.left ∧ g c ∉ st.right ∧ greedyStep f g st c =
        ⟨st.chosen ++ [c], insert (f c) st.left, insert (g c) st.right⟩) := by
  by_cases h : f c ∈ st.left ∨ g c ∈ st.right
  · exact Or.inl ⟨h, by simp [greedyStep, h]⟩
  · obtain ⟨hf, hg⟩ := not_or.1 h
    exact Or.inr ⟨hf, hg, by simp [greedyStep, hf, hg]⟩

variable {f g}

/-- The chosen candidates are candidates, in the same order. -/
theorem greedy_sublist (l : List γ) : (greedy f g l).chosen.Sublist l := by
  induction l using List.reverseRecOn with
  | nil => simp
  | append_singleton l c ih =>
    rw [greedy_concat]
    rcases greedyStep_chosen f g (greedy f g l) c with ⟨-, h⟩ | ⟨-, -, h⟩
    · rw [h]
      exact ih.trans (List.sublist_append_left l [c])
    · rw [h]
      exact ih.append_right [c]

/-- The taken ends are those of the chosen candidates. -/
theorem greedy_ends (l : List γ) :
    (greedy f g l).left = ((greedy f g l).chosen.map f).toFinset ∧
      (greedy f g l).right = ((greedy f g l).chosen.map g).toFinset := by
  induction l using List.reverseRecOn with
  | nil => simp
  | append_singleton l c ih =>
    rw [greedy_concat]
    rcases greedyStep_chosen f g (greedy f g l) c with ⟨-, h⟩ | ⟨-, -, h⟩
    · rwa [h]
    · rw [h]
      constructor
      · ext i
        simp [ih.1]
      · ext j
        simp [ih.2]

theorem mem_greedy_left_iff {l : List γ} {i : ι} :
    i ∈ (greedy f g l).left ↔ ∃ c ∈ (greedy f g l).chosen, f c = i := by
  simp [(greedy_ends l).1]

theorem mem_greedy_right_iff {l : List γ} {j : κ} :
    j ∈ (greedy f g l).right ↔ ∃ c ∈ (greedy f g l).chosen, g c = j := by
  simp [(greedy_ends l).2]

/-- Each choice takes one end on either side. -/
theorem card_greedy (l : List γ) :
    (greedy f g l).left.card = (greedy f g l).chosen.length ∧
      (greedy f g l).right.card = (greedy f g l).chosen.length := by
  induction l using List.reverseRecOn with
  | nil => simp
  | append_singleton l c ih =>
    rw [greedy_concat]
    rcases greedyStep_chosen f g (greedy f g l) c with ⟨-, h⟩ | ⟨hf, hg, h⟩
    · rwa [h]
    · rw [h]
      simp [Finset.card_insert_of_notMem hf, Finset.card_insert_of_notMem hg, ih]

/-- No two chosen candidates share an end. -/
theorem greedy_pairwise (l : List γ) :
    (greedy f g l).chosen.Pairwise fun c d => f c ≠ f d ∧ g c ≠ g d := by
  induction l using List.reverseRecOn with
  | nil => simp
  | append_singleton l c ih =>
    rw [greedy_concat]
    rcases greedyStep_chosen f g (greedy f g l) c with ⟨-, h⟩ | ⟨hf, hg, h⟩
    · rwa [h]
    · rw [h]
      refine List.pairwise_append.2 ⟨ih, List.pairwise_singleton _ _, fun d hd e he => ?_⟩
      obtain rfl := List.mem_singleton.1 he
      exact ⟨fun hfd => hf (mem_greedy_left_iff.2 ⟨d, hd, hfd⟩),
        fun hgd => hg (mem_greedy_right_iff.2 ⟨d, hd, hgd⟩)⟩

/-- Every candidate is chosen, or shares an end with one that was chosen before it. -/
theorem greedy_blocked {r : γ → γ → Prop} (hr : ∀ c, r c c) {l : List γ} (hl : l.Pairwise r) :
    ∀ c ∈ l, ∃ d ∈ (greedy f g l).chosen, (f d = f c ∨ g d = g c) ∧ r d c := by
  induction l using List.reverseRecOn with
  | nil => simp
  | append_singleton l c ih =>
    obtain ⟨hl, -, hlast⟩ := List.pairwise_append.1 hl
    have hgrow : ∀ d ∈ (greedy f g l).chosen, d ∈ (greedy f g (l ++ [c])).chosen := by
      intro d hd
      rw [greedy_concat]
      rcases greedyStep_chosen f g (greedy f g l) c with ⟨-, h⟩ | ⟨-, -, h⟩
      · rwa [h]
      · rw [h]
        exact List.mem_append_left _ hd
    have hbefore : ∀ d ∈ (greedy f g l).chosen, r d c := fun d hd =>
      hlast d ((greedy_sublist l).subset hd) c (by simp)
    intro e he
    rcases List.mem_append.1 he with he | he
    · obtain ⟨d, hd, hends⟩ := ih hl e he
      exact ⟨d, hgrow d hd, hends⟩
    · obtain rfl := List.mem_singleton.1 he
      rcases greedyStep_chosen f g (greedy f g l) e with ⟨hf | hg, -⟩ | ⟨-, -, h⟩
      · obtain ⟨d, hd, hfd⟩ := mem_greedy_left_iff.1 hf
        exact ⟨d, hgrow d hd, Or.inl hfd, hbefore d hd⟩
      · obtain ⟨d, hd, hgd⟩ := mem_greedy_right_iff.1 hg
        exact ⟨d, hgrow d hd, Or.inr hgd, hbefore d hd⟩
      · refine ⟨e, ?_, Or.inl rfl, hr e⟩
        rw [greedy_concat, h]
        simp

/-- Where the candidates that satisfy `p` come first, leaving out the others before the walk
is the same as leaving them out after it. -/
theorem greedy_filter {p : γ → Bool} {l : List γ} (hl : l.Pairwise fun a b => p b → p a) :
    (greedy f g (l.filter p)).chosen = (greedy f g l).chosen.filter p := by
  induction l using List.reverseRecOn with
  | nil => simp
  | append_singleton l c ih =>
    obtain ⟨hl, -, hlast⟩ := List.pairwise_append.1 hl
    by_cases hc : p c
    · -- everything before `c` satisfies `p` as well
      have hall : ∀ a ∈ l ++ [c], p a := by
        intro a ha
        rcases List.mem_append.1 ha with ha | ha
        · exact hlast a ha c (by simp) hc
        · obtain rfl := List.mem_singleton.1 ha
          exact hc
      rw [List.filter_eq_self.2 hall,
        List.filter_eq_self.2 fun a ha => hall a ((greedy_sublist _).subset ha)]
    · have hlist : (l ++ [c]).filter p = l.filter p := by simp [hc]
      rw [hlist, ih hl, greedy_concat]
      rcases greedyStep_chosen f g (greedy f g l) c with ⟨-, h⟩ | ⟨-, -, h⟩
      · rw [h]
      · rw [h]
        simp [hc]

end Walk

/-! ## Against any matching -/

/-- No two pairs share an end. -/
def OneToOne {ι κ : Type} (N : Finset (ι × κ)) : Prop :=
  ∀ x ∈ N, ∀ y ∈ N, x.1 = y.1 ∨ x.2 = y.2 → x = y

section Half
variable {γ ι κ K : Type} [Field K] [LinearOrder K] [IsStrictOrderedRing K] {w : γ → K}
  {N : Finset (ι × κ)}

/-- The chosen weights, charged to the pairs that meet them on one side: no pair is charged
twice. -/
theorem sum_charge_le {η : Type} [DecidableEq η] (D : Finset γ) (hw : ∀ d ∈ D, 0 ≤ w d)
    (e : γ → η) (k : ι × κ → η) (hk : ∀ x ∈ N, ∀ y ∈ N, k x = k y → x = y) :
    ∑ x ∈ N, ∑ d ∈ D, (if e d = k x then w d else 0) ≤ ∑ d ∈ D, w d := by
  rw [Finset.sum_comm]
  refine Finset.sum_le_sum fun d hd => ?_
  by_cases hmet : ∃ x ∈ N, e d = k x
  · obtain ⟨x, hx, hex⟩ := hmet
    rw [Finset.sum_eq_single_of_mem x hx]
    · simp [hex]
    · intro y hy hyx
      have hne : ¬ e d = k y := fun hey => hyx (hk y hy x hx (hey.symm.trans hex))
      simp [hne]
  · have hzero : ∀ x ∈ N, (if e d = k x then w d else 0) = 0 := by
      intro x hx
      have hne : ¬ e d = k x := fun hex => hmet ⟨x, hx, hex⟩
      simp [hne]
    rw [Finset.sum_eq_zero hzero]
    exact hw d hd

/-- **Greedy is half as good as any matching.**  If every pair of positive value meets a
chosen candidate that weighs as much, a matching is worth at most twice what was chosen. -/
theorem sum_le_two_mul_of_blocked [DecidableEq ι] [DecidableEq κ] {f : γ → ι} {g : γ → κ}
    {v : ι × κ → K} {D : Finset γ} (hw : ∀ d ∈ D, 0 ≤ w d) (hN : OneToOne N)
    (hblock : ∀ x ∈ N, 0 < v x → ∃ d ∈ D, (f d = x.1 ∨ g d = x.2) ∧ v x ≤ w d) :
    ∑ x ∈ N, v x ≤ 2 * ∑ d ∈ D, w d := by
  have hcharge : ∀ x ∈ N, v x ≤ (∑ d ∈ D, if f d = x.1 then w d else 0) +
      ∑ d ∈ D, if g d = x.2 then w d else 0 := by
    intro x hx
    have hleft : ∀ d ∈ D, 0 ≤ if f d = x.1 then w d else 0 := by
      intro d hd
      split
      · exact hw d hd
      · exact le_rfl
    have hright : ∀ d ∈ D, 0 ≤ if g d = x.2 then w d else 0 := by
      intro d hd
      split
      · exact hw d hd
      · exact le_rfl
    by_cases hpos : 0 < v x
    · obtain ⟨d, hd, hends, hle⟩ := hblock x hx hpos
      have hL := Finset.single_le_sum hleft hd
      have hR := Finset.single_le_sum hright hd
      rcases hends with hf | hg
      · have := Finset.sum_nonneg hright
        rw [if_pos hf] at hL
        linarith
      · have := Finset.sum_nonneg hleft
        rw [if_pos hg] at hR
        linarith
    · have := Finset.sum_nonneg hleft
      have := Finset.sum_nonneg hright
      linarith
  have hleft := sum_charge_le D hw f Prod.fst fun x hx y hy h => hN x hx y hy (Or.inl h)
  have hright := sum_charge_le D hw g Prod.snd fun x hx y hy h => hN x hx y hy (Or.inr h)
  calc ∑ x ∈ N, v x
      ≤ ∑ x ∈ N, ((∑ d ∈ D, if f d = x.1 then w d else 0) +
          ∑ d ∈ D, if g d = x.2 then w d else 0) := Finset.sum_le_sum hcharge
    _ = (∑ x ∈ N, ∑ d ∈ D, if f d = x.1 then w d else 0) +
          ∑ x ∈ N, ∑ d ∈ D, if g d = x.2 then w d else 0 := Finset.sum_add_distrib
    _ ≤ 2 * ∑ d ∈ D, w d := by linarith

end Half
end OcrOrchestrator.Lib
