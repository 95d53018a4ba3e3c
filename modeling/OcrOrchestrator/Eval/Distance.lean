import OcrOrchestrator.Eval.Regions

/-!
# The tree edit distance is right

`tree_edit_distance` fills one matrix of forest distances for every pair of keyroots and
keeps those cells that are distances of whole subtrees.  A pass reads subtree distances of
earlier passes, and its own forest matrix still holds what the pass before it left there.

Both are handled by saying which cells are known to be right.  A cell step adds one cell to
them and needs only known ones (`Filled.cell`); a pass starts by making its first row and
column known, whatever was there before; and the order of the keyroots makes the subtree
distances a pass reads known when it starts.

## Main definitions

* `ForestDist`, `SubtreeDist` — what a cell of either matrix is supposed to hold.
* `Filled` — the known cells during a pass.
* `editCosts` — the costs of all mappings between two trees.
-/

namespace OcrOrchestrator
namespace Eval

open Lib

variable {α : Type} [DecidableEq α]

/-- The distance of the forest on `p + 1, …, u` of `a` and that on `q + 1, …, v` of `b`. -/
def ForestDist (a b : Tree α) (p u q v d : ℕ) : Prop :=
  Dist a.left b.left (fun i j => a.label i = b.label j) p u q v d

/-- The distance of the subtree of `u` and that of `v`. -/
def SubtreeDist (a b : Tree α) (u v d : ℕ) : Prop :=
  ForestDist a b (a.left u - 1) u (b.left v - 1) v d

/-- Two forests that are whole trees. -/
theorem subtreeDist_of_forestDist {a b : Tree α} {p u q v d : ℕ} (hp : a.left u - 1 = p)
    (hq : b.left v - 1 = q) (h : ForestDist a b p u q v d) : SubtreeDist a b u v d := by
  rwa [SubtreeDist, hp, hq]

/-! ## One cell -/

/-- The known cells of the pass with offsets `p` and `q`: the forest distances at `D` and
the subtree distances at `T` are right. -/
structure Filled (a b : Tree α) (p q : ℕ) (D T : ℕ → ℕ → Prop) (t : Tables) : Prop where
  forest : ∀ i j, D i j → ForestDist a b p (p + i) q (q + j) (t.forestdist i j)
  subtree : ∀ u v, T u v → SubtreeDist a b u v (t.treedist u v)

namespace Filled
variable {a b : Tree α} {p q : ℕ} {D D' T T' : ℕ → ℕ → Prop} {t : Tables}

/-- Fewer cells are known as well. -/
theorem mono (h : Filled a b p q D T t) (hD : ∀ i j, D' i j → D i j)
    (hT : ∀ u v, T' u v → T u v) : Filled a b p q D' T' t :=
  ⟨fun i j hij => h.forest i j (hD i j hij), fun u v huv => h.subtree u v (hT u v huv)⟩

/-- Writing a right forest distance makes its cell known. -/
theorem setForest (h : Filled a b p q D T t) {i j d : ℕ}
    (hd : ForestDist a b p (p + i) q (q + j) d) :
    Filled a b p q (fun i' j' => D i' j' ∨ (i' = i ∧ j' = j)) T
      { t with forestdist := t.forestdist.set i j d } := by
  refine ⟨fun i' j' hij => ?_, h.subtree⟩
  by_cases hnew : i' = i ∧ j' = j
  · obtain ⟨rfl, rfl⟩ := hnew
    simpa only [Table.set_self] using hd
  · have hne : i' ≠ i ∨ j' ≠ j := by omega
    simpa only [Table.set_of_ne _ _ hne] using h.forest i' j' (hij.resolve_right hnew)

/-- Writing a right subtree distance makes its cell known. -/
theorem setSubtree (h : Filled a b p q D T t) {u v d : ℕ} (hd : SubtreeDist a b u v d) :
    Filled a b p q D (fun u' v' => T u' v' ∨ (u' = u ∧ v' = v))
      { t with treedist := t.treedist.set u v d } := by
  refine ⟨h.forest, fun u' v' huv => ?_⟩
  by_cases hnew : u' = u ∧ v' = v
  · obtain ⟨rfl, rfl⟩ := hnew
    simpa only [Table.set_self] using hd
  · have hne : u' ≠ u ∨ v' ≠ v := by omega
    simpa only [Table.set_of_ne _ _ hne] using h.subtree u' v' (huv.resolve_right hnew)

end Filled

section Cell
variable {a b : Tree α} {rootA rootB i j : ℕ} {D T : ℕ → ℕ → Prop} {t : Tables}

/-- A cell where both forests are whole trees: the value is their distance, and is kept. -/
theorem Filled.cell_spine (ha : a.Numbered) (hb : b.Numbered)
    (hA : 0 < a.left rootA) (hB : 0 < b.left rootB) (hi : 0 < i) (hj : 0 < j)
    (hspine : a.left (i + (a.left rootA - 1)) = a.left rootA ∧
      b.left (j + (b.left rootB - 1)) = b.left rootB)
    (h : Filled a b (a.left rootA - 1) (b.left rootB - 1) D T t)
    (hup : D (i - 1) j) (hback : D i (j - 1)) (hdiag : D (i - 1) (j - 1)) :
    Filled a b (a.left rootA - 1) (b.left rootB - 1)
      (fun i' j' => D i' j' ∨ (i' = i ∧ j' = j))
      (fun u v => T u v ∨ (u = i + (a.left rootA - 1) ∧ v = j + (b.left rootB - 1)))
      (forestCell a b rootA rootB i t j) := by
  have hu : i + (a.left rootA - 1) = a.left rootA - 1 + i := Nat.add_comm _ _
  have hv : j + (b.left rootB - 1) = b.left rootB - 1 + j := Nat.add_comm _ _
  have hu₁ : a.left rootA - 1 + i - 1 = a.left rootA - 1 + (i - 1) := by omega
  have hv₁ : b.left rootB - 1 + j - 1 = b.left rootB - 1 + (j - 1) := by omega
  have h₁ := h.forest _ _ hup
  have h₂ := h.forest _ _ hback
  have h₃ := h.forest _ _ hdiag
  rw [← hu₁] at h₁ h₃
  rw [← hv₁] at h₂ h₃
  rw [hu, hv] at hspine
  have hdist := dist_of_roots ha.postorder hb.postorder (by omega) (by omega)
    (by omega) (by omega) h₁ h₂ h₃
  have hvalue := (h.setForest hdist).setSubtree
    (subtreeDist_of_forestDist (by rw [hspine.1]) (by rw [hspine.2]) hdist)
  rw [forestCell]
  simp only [hu, hv, hspine, and_self, if_true, ← min_def_lt]
  rwa [min_comm _ (min _ _)]

/-- A cell where they are not: match the last trees, whose distance was found before, and
what is to their left. -/
theorem Filled.cell_detached (ha : a.Numbered) (hb : b.Numbered)
    (hA : a.left rootA ≤ a.left (i + (a.left rootA - 1)))
    (hB : b.left rootB ≤ b.left (j + (b.left rootB - 1))) (hi : 0 < i) (hj : 0 < j)
    (hspine : ¬ (a.left (i + (a.left rootA - 1)) = a.left rootA ∧
      b.left (j + (b.left rootB - 1)) = b.left rootB))
    (h : Filled a b (a.left rootA - 1) (b.left rootB - 1) D T t)
    (hup : D (i - 1) j) (hback : D i (j - 1))
    (hleft : D (a.left (i + (a.left rootA - 1)) - 1 - (a.left rootA - 1))
      (b.left (j + (b.left rootB - 1)) - 1 - (b.left rootB - 1)))
    (hlast : T (i + (a.left rootA - 1)) (j + (b.left rootB - 1))) :
    Filled a b (a.left rootA - 1) (b.left rootB - 1)
      (fun i' j' => D i' j' ∨ (i' = i ∧ j' = j)) T (forestCell a b rootA rootB i t j) := by
  have hu : i + (a.left rootA - 1) = a.left rootA - 1 + i := Nat.add_comm _ _
  have hv : j + (b.left rootB - 1) = b.left rootB - 1 + j := Nat.add_comm _ _
  have hu₁ : a.left rootA - 1 + i - 1 = a.left rootA - 1 + (i - 1) := by omega
  have hv₁ : b.left rootB - 1 + j - 1 = b.left rootB - 1 + (j - 1) := by omega
  rw [hu] at hA hleft hlast hspine
  rw [hv] at hB hleft hlast hspine
  have h₁ := h.forest _ _ hup
  have h₂ := h.forest _ _ hback
  have h₃ := h.forest _ _ hleft
  have h₄ := h.subtree _ _ hlast
  rw [← hu₁] at h₁
  rw [← hv₁] at h₂
  rw [Nat.add_sub_cancel' (by omega), Nat.add_sub_cancel' (by omega)] at h₃
  have hdist := dist_of_forests ha.postorder hb.postorder (by omega) (by omega)
    (by omega) (by omega) h₁ h₂ h₃ h₄
  have hvalue := h.setForest hdist
  rw [forestCell]
  simp only [hu, hv, hspine, if_false, ← min_def_lt]
  rwa [min_comm _ (min _ _)]

end Cell

/-! ## One pass -/

/-- The state of the pass for `rootA` and `rootB` when it has reached cell `(i, k)`. -/
def PassInv (a b : Tree α) (rootA rootB : ℕ) (T : ℕ → ℕ → Prop) (i k : ℕ) (t : Tables) : Prop :=
  Filled a b (a.left rootA - 1) (b.left rootB - 1)
    (Reached (rootA - (a.left rootA - 1)) (rootB - (b.left rootB - 1)) i k)
    (Kept a b rootA rootB T i k) t

/-- The base cases count the nodes of the one forest that is not empty. -/
theorem emptyForests_spec (rows cols : ℕ) (table : Table) :
    (∀ i ≤ rows, emptyForests rows cols table i 0 = i) ∧
      ∀ j ≤ cols, emptyForests rows cols table 0 j = j := by
  have hcol := foldl_range_induction (fun table i => Table.set table i 0 (table (i - 1) 0 + 1)) rows
    (fun k table => ∀ i ≤ k, table i 0 = i) (s := table.set 0 0 0)
    (by
      intro i hi
      obtain rfl : i = 0 := by omega
      simp)
    (by
      intro k table _ h i hi
      by_cases hik : i = k + 1
      · subst hik
        simp [h k le_rfl]
      · rw [Table.set_of_ne _ _ (Or.inl hik)]
        exact h i (by omega))
  rw [emptyForests]
  exact foldl_range_induction (fun table j => Table.set table 0 j (table 0 (j - 1) + 1)) cols
    (fun k table => (∀ i ≤ rows, table i 0 = i) ∧ ∀ j ≤ k, table 0 j = j)
    (by
      refine ⟨hcol, fun j hj => ?_⟩
      obtain rfl : j = 0 := by omega
      exact hcol 0 (by omega))
    (by
      intro k table _ h
      refine ⟨fun i hi => ?_, fun j hj => ?_⟩
      · rw [Table.set_of_ne _ _ (Or.inr (by omega))]
        exact h.1 i hi
      · by_cases hjk : j = k + 1
        · subst hjk
          simp [h.2 k le_rfl]
        · rw [Table.set_of_ne _ _ (Or.inr hjk)]
          exact h.2 j (by omega))

section Pass
variable {a b : Tree α} {rootA rootB : ℕ} {T : ℕ → ℕ → Prop} {t : Tables}

/-- The loop body: one more cell. -/
theorem Ready.cell (hr : Ready a b rootA rootB T) {i k : ℕ} (hi : 0 < i)
    (hrow : i ≤ rootA - (a.left rootA - 1)) (hk : k < rootB - (b.left rootB - 1))
    (h : PassInv a b rootA rootB T i k t) :
    PassInv a b rootA rootB T i (k + 1) (forestCell a b rootA rootB i t (k + 1)) := by
  obtain ⟨hup, hback, hdiag⟩ := reached_neighbours hrow hi hk
  by_cases hspine : a.left (i + (a.left rootA - 1)) = a.left rootA ∧
      b.left (k + 1 + (b.left rootB - 1)) = b.left rootB
  · exact (h.cell_spine (j := k + 1) hr.numberedA hr.numberedB hr.posA hr.posB hi (by omega)
      hspine hup hback hdiag).mono (fun i' j' h => h.succ) fun u v h => h.succ
  · obtain ⟨hnestA, hnestB, hleft, hlast⟩ := hr.detached hi hrow hk hspine
    exact (h.cell_detached (j := k + 1) hr.numberedA hr.numberedB hnestA hnestB hi (by omega)
      hspine hup hback hleft (Or.inl hlast)).mono (fun i' j' h => h.succ)
        fun u v h => h.succ_detached hspine

/-- One row. -/
theorem Ready.row (hr : Ready a b rootA rootB T) {i : ℕ} (hi : 0 < i)
    (hrow : i ≤ rootA - (a.left rootA - 1)) (h : PassInv a b rootA rootB T i 0 t) :
    PassInv a b rootA rootB T (i + 1) 0 (forestRow a b rootA rootB t i) := by
  have hcells := foldl_range_induction (forestCell a b rootA rootB i)
    (rootB - (b.left rootB - 1)) (PassInv a b rootA rootB T i) h
    fun k t hk h => hr.cell hi hrow hk h
  exact hcells.mono (fun i' j' h => h.row) fun u v h => h.row hr.numberedB hr.posB

/-- The base cases make the first row and the first column known, whatever an earlier pass
left in the matrix. -/
theorem Ready.start (hr : Ready a b rootA rootB T)
    (h : ∀ u v, T u v → SubtreeDist a b u v (t.treedist u v)) :
    PassInv a b rootA rootB T 1 0
      ⟨t.treedist, emptyForests (rootA - (a.left rootA - 1)) (rootB - (b.left rootB - 1))
        t.forestdist⟩ := by
  have hbase := emptyForests_spec (rootA - (a.left rootA - 1)) (rootB - (b.left rootB - 1))
    t.forestdist
  refine ⟨?_, fun u v huv => h u v (hr.kept_start huv)⟩
  rintro i j ⟨hi, hj, hzero⟩
  have hvalue : emptyForests (rootA - (a.left rootA - 1)) (rootB - (b.left rootB - 1))
      t.forestdist i j = (a.left rootA - 1 + i - (a.left rootA - 1)) +
        (b.left rootB - 1 + j - (b.left rootB - 1)) := by
    rcases Nat.eq_zero_or_pos j with rfl | hpos
    · rw [hbase.1 i hi]; omega
    · obtain rfl : i = 0 := by omega
      rw [hbase.2 j hj]; omega
  simp only [hvalue]
  exact dist_of_empty (by omega)

/-- A pass finds the distances of all pairs of spine nodes, and forgets none. -/
theorem Ready.pass (hr : Ready a b rootA rootB T)
    (h : ∀ u v, T u v → SubtreeDist a b u v (t.treedist u v)) :
    ∀ u v, (T u v ∨ (a.OnSpine rootA u ∧ b.OnSpine rootB v)) →
      SubtreeDist a b u v ((forestPass a b rootA t rootB).treedist u v) := by
  have hrows := foldl_range_induction (forestRow a b rootA rootB) (rootA - (a.left rootA - 1))
    (fun i t => PassInv a b rootA rootB T (i + 1) 0 t) (hr.start h)
    fun i t hi h => hr.row (by omega) hi h
  exact fun u v huv => hrows.subtree u v (kept_last huv)

end Pass

/-! ## All passes -/

section Passes
variable {a b : Tree α}

/-- The passes for one keyroot of the first tree settle its spine. -/
theorem keyrootPasses_settled (ha : a.Numbered) (hb : b.Numbered) {pre post : List ℕ}
    {rootA : ℕ} (hk : a.keyroots = pre ++ rootA :: post) {t : Tables}
    (h : ∀ u v, Settled a b pre u v → SubtreeDist a b u v (t.treedist u v)) :
    ∀ u v, Settled a b (pre ++ [rootA]) u v →
      SubtreeDist a b u v ((keyrootPasses a b t rootA).treedist u v) := by
  have hinner := foldl_induction (forestPass a b rootA) b.keyroots t
    (fun pre₂ (t : Tables) => ∀ u v, Settling a b pre rootA pre₂ u v →
      SubtreeDist a b u v (t.treedist u v))
    (fun u v huv => h u v huv.start)
    fun pre₂ rootB post₂ t hk₂ h u v huv =>
      (ready_settling ha hb hk hk₂).pass h u v huv.snoc
  exact fun u v huv => hinner u v (huv.snoc hb)

/-- On well-numbered trees the computed value is their distance. -/
theorem forestDist_treeEditDistance (ha : a.Numbered) (hb : b.Numbered) (hna : 0 < a.size)
    (hnb : 0 < b.size) : ForestDist a b 0 a.size 0 b.size (treeEditDistance a b) := by
  have hall := foldl_induction (keyrootPasses a b) a.keyroots ⟨fun _ _ => 0, fun _ _ => 0⟩
    (fun pre (t : Tables) => ∀ u v, Settled a b pre u v →
      SubtreeDist a b u v (t.treedist u v))
    (fun u v huv => (settled_nil huv).elim)
    (by
      intro pre rootA post t hk h
      exact keyrootPasses_settled ha hb hk h)
  have hroot := hall a.size b.size (settled_root ha hna hnb)
  rw [SubtreeDist, ha.root, hb.root] at hroot
  rwa [treeEditDistance, if_neg (by omega), if_neg (by omega)]

end Passes

/-! ## The distance of two documents -/

/-- The nodes of a tree, or of no tree. -/
def treeNodes : Option (OrderedTree α) → Finset (List ℕ × α)
  | none => ∅
  | some t => (t.nodes []).toFinset

/-- The costs of all Tai mappings between two trees. -/
def editCosts (s t : Option (OrderedTree α)) : Set ℕ :=
  {c | ∃ M ⊆ treeNodes s ×ˢ treeNodes t, Tai (pathOrder α) (pathOrder α) M ∧
    c = editCost (fun x y => x.2 = y.2) (treeNodes s) (treeNodes t) M}

theorem card_treeNodes (s : Option (OrderedTree α)) :
    (treeNodes s).card = (flattenRoot s).size := by
  cases s with
  | none => rfl
  | some t =>
    have hcard := Finset.card_image_of_injOn fun i hi k hk => t.embeds_entry.inj i hi k hk
    rw [treeNodes, t.nodes_toFinset, hcard, Nat.card_Ioc]
    exact t.flatten_size.symm

/-- Two trees: the computed value is the least cost of a mapping. -/
theorem isLeast_editCosts_flatten (s t : OrderedTree α) :
    IsLeast (editCosts (some s) (some t)) (treeEditDistance s.flatten t.flatten) := by
  obtain ⟨gain, hbest, hd⟩ := forestDist_treeEditDistance s.numbered_flatten t.numbered_flatten
    (by rw [s.flatten_size]; exact s.size_pos) (by rw [t.flatten_size]; exact t.size_pos)
  rw [s.flatten_size, t.flatten_size] at hbest hd
  -- the arrays hold the labels of the nodes they number
  have hsaving : ∀ M ⊆ Finset.Ioc 0 s.size ×ˢ Finset.Ioc 0 t.size,
      saving (fun i j => s.flatten.label i = t.flatten.label j) M =
        saving (fun i j => (s.entry i).node.2 = (t.entry j).node.2) M := by
    intro M hM
    refine saving_congr fun x hx => ?_
    have hb := hM hx
    simp only [Finset.mem_product, Finset.mem_Ioc] at hb
    rw [s.flatten_label hb.1.1 hb.1.2, t.flatten_label hb.2.1 hb.2.2, Option.some.injEq]
    rfl
  have hgain : IsGreatest {g | ∃ M ⊆ Finset.Ioc 0 s.size ×ˢ Finset.Ioc 0 t.size,
      Tai (postorder s.flatten.left) (postorder t.flatten.left) M ∧
        g = saving (fun i j => (s.entry i).node.2 = (t.entry j).node.2) M} gain := by
    refine ⟨?_, ?_⟩
    · obtain ⟨M, hM, hg⟩ := hbest.1
      exact ⟨M, hM.subset, hM.tai, by rw [hg, hsaving M hM.subset]⟩
    · rintro g ⟨M, hM, htai, rfl⟩
      exact hbest.2 ⟨M, ⟨hM, htai⟩, (hsaving M hM).symm⟩
  simp only [editCosts, treeNodes, s.nodes_toFinset, t.nodes_toFinset]
  exact isLeast_editCost_of_isGreatest_saving _ s.embeds_entry t.embeds_entry hgain
    (by simpa using hd)

/-- Against the empty tree the computed value is the number of nodes. -/
theorem isLeast_editCosts_of_none {s t : Option (OrderedTree α)} (h : s = none ∨ t = none) :
    IsLeast (editCosts s t) (treeEditDistance (flattenRoot s) (flattenRoot t)) := by
  have hvalue : treeEditDistance (flattenRoot s) (flattenRoot t) =
      (treeNodes s).card + (treeNodes t).card := by
    rw [card_treeNodes, card_treeNodes, treeEditDistance]
    rcases h with rfl | rfl
    · simp [Tree.size, flattenRoot]
    · have hzero : (flattenRoot (none : Option (OrderedTree α))).size = 0 := rfl
      rw [hzero, if_pos rfl, Nat.add_zero]
      split <;> omega
  rw [hvalue]
  refine isLeast_editCost_of_empty _ ?_
  rcases h with rfl | rfl
  · exact Or.inl rfl
  · exact Or.inr rfl

/-- The computed value is the least cost of a mapping, whichever of the two trees are
empty. -/
theorem isLeast_editCosts (s t : Option (OrderedTree α)) :
    IsLeast (editCosts s t) (treeEditDistance (flattenRoot s) (flattenRoot t)) := by
  cases s with
  | none => exact isLeast_editCosts_of_none (Or.inl rfl)
  | some s =>
    cases t with
    | none => exact isLeast_editCosts_of_none (Or.inr rfl)
    | some t => exact isLeast_editCosts_flatten s t

/-- **The tree edit distance is the least cost of a Tai mapping.**  For all documents that
stand for ordered labelled trees, `none` for the empty one, both parse, and the value
computed from the parsed arrays is the minimum, over the one-to-one mappings of nodes that
keep ancestry and left-to-right order, of the unmapped nodes of either tree and the mapped
pairs with different labels. -/
theorem treeEditDistance_isLeast (labelKey childrenKey : String) (a b : Option (Node α))
    (s t : Option (OrderedTree α)) (ha : StandsFor a s) (hb : StandsFor b t) :
    ∃ ta tb, parseTree labelKey childrenKey a = .ok ta ∧
      parseTree labelKey childrenKey b = .ok tb ∧
      IsLeast (editCosts s t) (treeEditDistance ta tb) :=
  ⟨_, _, parseTree_of_standsFor labelKey childrenKey ha,
    parseTree_of_standsFor labelKey childrenKey hb, isLeast_editCosts s t⟩

/-- Two children swapped, one of them written without its mapping. -/
theorem treeEditDistance_isLeast_swapped :
    StandsFor (some (.mapping (some "page") [.mapping (some "table") [], .value "title"]))
        (some (.node "page" [.node "table" [], .node "title" []])) ∧
      ∃ ta tb, parseTree "type" "children"
          (some (.mapping (some "page") [.mapping (some "table") [], .value "title"])) = .ok ta ∧
        parseTree "type" "children"
          (some (.mapping (some "page") [.value "title", .mapping (some "table") []])) = .ok tb ∧
        IsLeast (editCosts (some (.node "page" [.node "table" [], .node "title" []]))
          (some (.node "page" [.node "title" [], .node "table" []])))
          (treeEditDistance ta tb) :=
  ⟨.some rfl, treeEditDistance_isLeast "type" "children" _ _ _ _ (.some rfl) (.some rfl)⟩

end Eval
end OcrOrchestrator
