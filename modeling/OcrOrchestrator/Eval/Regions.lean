import OcrOrchestrator.Eval.Parse

/-!
# Which cells a pass may read

`tree_edit_distance` never clears its forest matrix between the passes, and fills its subtree
matrix as a side effect of them.  This module follows a run through both, cell by cell and
whatever the cells hold: which have been filled when a pass reaches a cell, and that the
cells it reads there are among them.

## Main definitions

* `Reached` — the forest cells filled by the pass so far.
* `Kept`, `Settling`, `Settled` — the subtree cells filled within a pass, after some passes
  of a keyroot of the first tree, and after all of them.
* `Ready` — the subtree cells a pass reads are filled before it starts.
-/

namespace OcrOrchestrator
namespace Eval

variable {α : Type}

/-! ## Within a pass -/

/-- The forest cells that are known once the pass has reached cell `(i, k)`: the first
column, and all that comes before. -/
def Reached (rows cols i k i' j' : ℕ) : Prop :=
  i' ≤ rows ∧ j' ≤ cols ∧ (i' < i ∨ j' = 0 ∨ (i' = i ∧ j' ≤ k))

/-- The subtree cells that are known at that point: those known before the pass, and those
of spine nodes that were reached. -/
def Kept (a b : Tree α) (rootA rootB : ℕ) (T : ℕ → ℕ → Prop) (i k u v : ℕ) : Prop :=
  T u v ∨ (a.OnSpine rootA u ∧ b.OnSpine rootB v ∧
    (u < i + (a.left rootA - 1) ∨
      (u = i + (a.left rootA - 1) ∧ v ≤ k + (b.left rootB - 1))))

section Regions
variable {rows cols i k i' j' : ℕ}

/-- One more cell. -/
theorem Reached.succ (h : Reached rows cols i (k + 1) i' j') :
    Reached rows cols i k i' j' ∨ (i' = i ∧ j' = k + 1) := by
  simp only [Reached] at h ⊢
  omega

/-- The end of a row is the start of the next one. -/
theorem Reached.row (h : Reached rows cols (i + 1) 0 i' j') : Reached rows cols i cols i' j' := by
  simp only [Reached] at h ⊢
  omega

/-- The neighbours of the next cell were reached. -/
theorem reached_neighbours (hrow : i ≤ rows) (hi : 0 < i) (hk : k < cols) :
    Reached rows cols i k (i - 1) (k + 1) ∧ Reached rows cols i k i k ∧
      Reached rows cols i k (i - 1) k := by
  refine ⟨?_, ⟨hrow, hk.le, Or.inr (Or.inr ⟨rfl, le_rfl⟩)⟩, ?_⟩
  all_goals
    simp only [Reached]
    omega

variable {a b : Tree α} {rootA rootB u v : ℕ} {T : ℕ → ℕ → Prop}

/-- One more cell settles at most its own pair. -/
theorem Kept.succ (h : Kept a b rootA rootB T i (k + 1) u v) :
    Kept a b rootA rootB T i k u v ∨
      (u = i + (a.left rootA - 1) ∧ v = k + 1 + (b.left rootB - 1)) := by
  rcases h with hT | ⟨hu, hv, hlt⟩
  · exact Or.inl (Or.inl hT)
  · by_cases hnew : u = i + (a.left rootA - 1) ∧ v = k + 1 + (b.left rootB - 1)
    · exact Or.inr hnew
    · exact Or.inl (Or.inr ⟨hu, hv, by omega⟩)

/-- None unless both nodes are on the spines. -/
theorem Kept.succ_detached (hspine : ¬ (a.left (i + (a.left rootA - 1)) = a.left rootA ∧
      b.left (k + 1 + (b.left rootB - 1)) = b.left rootB))
    (h : Kept a b rootA rootB T i (k + 1) u v) : Kept a b rootA rootB T i k u v := by
  rcases h with hT | ⟨hu, hv, hlt⟩
  · exact Or.inl hT
  · have hnew : ¬ (u = i + (a.left rootA - 1) ∧ v = k + 1 + (b.left rootB - 1)) := by
      rintro ⟨rfl, rfl⟩
      exact hspine ⟨hu.2.2, hv.2.2⟩
    exact Or.inr ⟨hu, hv, by omega⟩

/-- What the next row starts from was settled by the end of this one. -/
theorem Kept.row (hb : b.Numbered) (hB : 0 < b.left rootB)
    (h : Kept a b rootA rootB T (i + 1) 0 u v) :
    Kept a b rootA rootB T i (rootB - (b.left rootB - 1)) u v := by
  rcases h with hT | ⟨hu, hv, hlt⟩
  · exact Or.inl hT
  · have hle := hb.postorder.le v
    have hvr := hv.2.1
    have hvl := hv.2.2
    exact Or.inr ⟨hu, hv, by omega⟩

/-- The last row settles all pairs of spine nodes. -/
theorem kept_last (h : T u v ∨ (a.OnSpine rootA u ∧ b.OnSpine rootB v)) :
    Kept a b rootA rootB T (rootA - (a.left rootA - 1) + 1) 0 u v := by
  rcases h with hT | ⟨hu, hv⟩
  · exact Or.inl hT
  · have hur := hu.2.1
    exact Or.inr ⟨hu, hv, by omega⟩

end Regions

section Ready
variable {a b : Tree α} {rootA rootB : ℕ} {T : ℕ → ℕ → Prop}

/-- What a pass may start from: its roots are nodes, and the subtree distances it is going
to read are known. -/
structure Ready (a b : Tree α) (rootA rootB : ℕ) (T : ℕ → ℕ → Prop) : Prop where
  numberedA : a.Numbered
  numberedB : b.Numbered
  posA : 0 < a.left rootA
  posB : 0 < b.left rootB
  known : ∀ u v, a.left rootA ≤ u → u ≤ rootA → b.left rootB ≤ v → v ≤ rootB →
    ¬ (a.left u = a.left rootA ∧ b.left v = b.left rootB) → T u v

/-- The forest cell that a detached cell reads was reached, and the subtree distance that it
reads is known. -/
theorem Ready.detached (hr : Ready a b rootA rootB T) {i k : ℕ} (hi : 0 < i)
    (hrow : i ≤ rootA - (a.left rootA - 1)) (hk : k < rootB - (b.left rootB - 1))
    (hspine : ¬ (a.left (i + (a.left rootA - 1)) = a.left rootA ∧
      b.left (k + 1 + (b.left rootB - 1)) = b.left rootB)) :
    a.left rootA ≤ a.left (i + (a.left rootA - 1)) ∧
      b.left rootB ≤ b.left (k + 1 + (b.left rootB - 1)) ∧
      Reached (rootA - (a.left rootA - 1)) (rootB - (b.left rootB - 1)) i k
        (a.left (i + (a.left rootA - 1)) - 1 - (a.left rootA - 1))
        (b.left (k + 1 + (b.left rootB - 1)) - 1 - (b.left rootB - 1)) ∧
      T (i + (a.left rootA - 1)) (k + 1 + (b.left rootB - 1)) := by
  have hA := hr.posA
  have hB := hr.posB
  have hleA := hr.numberedA.postorder.le (i + (a.left rootA - 1))
  have hleB := hr.numberedB.postorder.le (k + 1 + (b.left rootB - 1))
  have hnestA := hr.numberedA.postorder.nested rootA (i + (a.left rootA - 1)) (by omega) (by omega)
  have hnestB := hr.numberedB.postorder.nested rootB (k + 1 + (b.left rootB - 1)) (by omega)
    (by omega)
  refine ⟨hnestA, hnestB, ?_, hr.known _ _ (by omega) (by omega) (by omega) (by omega) hspine⟩
  simp only [Reached]
  omega

/-- Before the first row a pass has settled nothing. -/
theorem Ready.kept_start (hr : Ready a b rootA rootB T) {u v : ℕ}
    (h : Kept a b rootA rootB T 1 0 u v) : T u v := by
  rcases h with hT | ⟨hu, hv, hlt⟩
  · exact hT
  · -- no spine node comes before the first row
    have hleA := hr.numberedA.postorder.le u
    have hleB := hr.numberedB.postorder.le v
    have hA := hr.posA
    have hB := hr.posB
    have hul := hu.2.2
    have hvl := hv.2.2
    omega

end Ready

/-! ## From pass to pass -/

section Settling
variable {a b : Tree α}

/-- The pairs of nodes whose distance is known once the keyroots `pre` of the first tree are
done. -/
def Settled (a b : Tree α) (pre : List ℕ) (u v : ℕ) : Prop :=
  (∃ r ∈ pre, a.OnSpine r u) ∧ 0 < v ∧ v ≤ b.size

/-- The same while the passes for `rootA` are under way: also the pairs with the spine of a
keyroot of the second tree that was visited, `pre₂`. -/
def Settling (a b : Tree α) (pre : List ℕ) (rootA : ℕ) (pre₂ : List ℕ) (u v : ℕ) : Prop :=
  Settled a b pre u v ∨ (a.OnSpine rootA u ∧ ∃ r ∈ pre₂, b.OnSpine r v)

variable {pre post pre₂ post₂ : List ℕ} {rootA rootB u v : ℕ}

theorem settled_nil (h : Settled a b [] u v) : False := by
  obtain ⟨⟨r, hr, -⟩, -⟩ := h
  simp at hr

/-- Before the first pass for `rootA`. -/
theorem Settling.start (h : Settling a b pre rootA [] u v) : Settled a b pre u v := by
  rcases h with h | ⟨-, r, hr, -⟩
  · exact h
  · simp at hr

/-- One more pass. -/
theorem Settling.snoc (h : Settling a b pre rootA (pre₂ ++ [rootB]) u v) :
    Settling a b pre rootA pre₂ u v ∨ (a.OnSpine rootA u ∧ b.OnSpine rootB v) := by
  rcases h with h | ⟨hu, r, hr, hv⟩
  · exact Or.inl (Or.inl h)
  · rcases List.mem_append.1 hr with hr | hr
    · exact Or.inl (Or.inr ⟨hu, r, hr, hv⟩)
    · obtain rfl := List.mem_singleton.1 hr
      exact Or.inr ⟨hu, hv⟩

/-- All passes for `rootA` together settle its spine. -/
theorem Settled.snoc (hb : b.Numbered) (h : Settled a b (pre ++ [rootA]) u v) :
    Settling a b pre rootA b.keyroots u v := by
  obtain ⟨⟨r, hr, hu⟩, hv, hvn⟩ := h
  rcases List.mem_append.1 hr with hr | hr
  · exact Or.inl ⟨⟨r, hr, hu⟩, hv, hvn⟩
  · obtain rfl := List.mem_singleton.1 hr
    obtain ⟨k, hk, hvk, hleft⟩ := hb.covered v hv hvn
    exact Or.inr ⟨hu, k, hk, hv, hvk, hleft.symm⟩

/-- The keyroots are ascending, so what a pass reads was settled by earlier ones. -/
theorem ready_settling (ha : a.Numbered) (hb : b.Numbered) (hk : a.keyroots = pre ++ rootA :: post)
    (hk₂ : b.keyroots = pre₂ ++ rootB :: post₂) :
    Ready a b rootA rootB (Settling a b pre rootA pre₂) := by
  have hrootA : 0 < rootA ∧ rootA ≤ a.size := ha.keyroot_bounds rootA (by simp [hk])
  have hrootB : 0 < rootB ∧ rootB ≤ b.size := hb.keyroot_bounds rootB (by simp [hk₂])
  have hposA := ha.pos _ hrootA.1 hrootA.2
  have hposB := hb.pos _ hrootB.1 hrootB.2
  refine ⟨ha, hb, hposA, hposB, ?_⟩
  intro u v hlu hu hlv hv hspine
  by_cases hua : a.left u = a.left rootA
  · have hvb : b.left v ≠ b.left rootB := fun hvb => hspine ⟨hua, hvb⟩
    exact Or.inr ⟨⟨by omega, hu, hua⟩, hb.exists_earlier hk₂ hlv hv hvb⟩
  · exact Or.inl ⟨ha.exists_earlier hk hlu hu hua, by omega, by omega⟩

/-- All passes together settle the pair of the roots. -/
theorem settled_root (ha : a.Numbered) (hna : 0 < a.size) (hnb : 0 < b.size) :
    Settled a b a.keyroots a.size b.size := by
  obtain ⟨r, hr, hle, hleft⟩ := ha.covered a.size hna le_rfl
  exact ⟨⟨r, hr, hna, hle, hleft.symm⟩, hnb, le_rfl⟩

end Settling

end Eval
end OcrOrchestrator
