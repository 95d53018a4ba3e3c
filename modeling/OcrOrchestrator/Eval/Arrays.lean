import OcrOrchestrator.Eval.Metric
import Mathlib.Order.CompletePartialOrder

/-!
# The arrays of the parser

`parse_tree` against the nodes of the tree, listed in postorder by recursion: what each of the
arrays of Zhang and Shasha says about them, and that labels and leftmost leaves together
determine the tree.

## Main definitions

* `OrderedTree.postorderNodes` — the nodes in postorder.
* `LeftmostLeaf` — the leftmost leaf under a node.
* `ZhangShasha` — what the arrays have to be.

## Main results

* `parseTree_arrays` — the parser produces them.
-/

namespace OcrOrchestrator
namespace Eval

open Lib

variable {α : Type}

mutual
/-- The nodes in postorder, each with its path and its label. -/
def OrderedTree.postorderNodes (p : List ℕ) : OrderedTree α → List (List ℕ × α)
  | .node label children => postorderChildren p 0 children ++ [(p, label)]

/-- The nodes of the children of `p` from child number `i` on. -/
def postorderChildren (p : List ℕ) (i : ℕ) : List (OrderedTree α) → List (List ℕ × α)
  | [] => []
  | t :: ts => t.postorderNodes (p ++ [i]) ++ postorderChildren p (i + 1) ts
end

/-- The nodes of a tree, or of no tree. -/
def rootNodes (s : Option (OrderedTree α)) : List (List ℕ × α) :=
  s.elim [] (OrderedTree.postorderNodes [])

/-- The height of a tree, or of no tree. -/
def rootHeight (s : Option (OrderedTree α)) : ℕ := s.elim 0 OrderedTree.height

section Nodes
variable (ns : List (List ℕ × α))

/-- The node number `i`, counted from 1. -/
def NodeAt (i : ℕ) (x : List ℕ × α) : Prop := 0 < i ∧ ns[i - 1]? = some x

/-- A node under `x` that has no node below it, and none under `x` to its left. -/
structure LeftmostLeaf (x y : List ℕ × α) : Prop where
  under : x.1 <+: y.1
  leaf : ∀ z ∈ ns, y.1 <+: z.1 → z = y
  leftmost : ∀ z ∈ ns, x.1 <+: z.1 → ¬ pathLeft z.1 y.1

/-- The arrays of Zhang and Shasha. -/
structure ZhangShasha (height : ℕ) (a : Tree α) : Prop where
  labels : a.labels = none :: ns.map fun x => some x.2
  length : a.leftmost.length = ns.length + 1
  leaf : ∀ i x, NodeAt ns i x → ∃ y, NodeAt ns (a.left i) y ∧ LeftmostLeaf ns x y
  subtree : ∀ i x, NodeAt ns i x →
    {k | ∃ y, NodeAt ns k y ∧ x.1 <+: y.1} = Set.Icc (a.left i) i
  ranges : ∀ i k x y, NodeAt ns i x → NodeAt ns k y →
    Disjoint (Set.Icc (a.left i) i) (Set.Icc (a.left k) k) ∨
      Set.Icc (a.left i) i ⊆ Set.Icc (a.left k) k ∨ Set.Icc (a.left k) k ⊆ Set.Icc (a.left i) i
  ascending : a.keyroots.Pairwise (· < ·)
  keyroot : ∀ k, k ∈ a.keyroots ↔
    (0 < k ∧ k ≤ ns.length) ∧ ∀ k', k < k' → k' ≤ ns.length → a.left k' ≠ a.left k
  once : ∀ i x, NodeAt ns i x → ∃! k, k ∈ a.keyroots ∧ a.left k = a.left i
  root : a.keyroots.getLast? = if ns = [] then none else some ns.length
  depth : a.depth = height

end Nodes

/-! ## Entries and nodes -/

mutual
theorem OrderedTree.map_node_entries (s : ℕ) (p : List ℕ) : ∀ t : OrderedTree α,
    (t.entries s p).map Entry.node = t.postorderNodes p
  | .node label children => by
    simp only [OrderedTree.entries, OrderedTree.postorderNodes, List.map_append,
      map_node_childEntries s p 0 children, List.map_cons, List.map_nil, Entry.node]

theorem map_node_childEntries (s : ℕ) (p : List ℕ) (i : ℕ) : ∀ ts : List (OrderedTree α),
    (childEntries s p i ts).map Entry.node = postorderChildren p i ts
  | [] => rfl
  | t :: ts => by
    simp only [childEntries, postorderChildren, List.map_append,
      OrderedTree.map_node_entries s (p ++ [i]) t, map_node_childEntries _ p (i + 1) ts]
end

namespace OrderedTree
variable (t : OrderedTree α) {i k : ℕ} {x y : List ℕ × α}

theorem length_postorderNodes : (t.postorderNodes []).length = t.size := by
  rw [← t.map_node_entries 1, List.length_map, size]

theorem nodeAt_iff :
    NodeAt (t.postorderNodes []) i x ↔ (0 < i ∧ i ≤ t.size) ∧ (t.entry i).node = x := by
  rw [NodeAt, ← t.map_node_entries 1, List.getElem?_map, and_assoc]
  refine and_congr_right fun hi => ?_
  by_cases hn : i ≤ t.size
  · obtain ⟨hlt, he⟩ := t.entry_eq hi hn
    simp [hn, List.getElem?_eq_getElem hlt, he]
  · have hge : (t.entries 1 []).length ≤ i - 1 := by
      rw [size] at hn
      omega
    simp [hn, List.getElem?_eq_none hge]

theorem mem_postorderNodes_iff :
    x ∈ t.postorderNodes [] ↔ ∃ i, NodeAt (t.postorderNodes []) i x := by
  rw [List.mem_iff_getElem?]
  constructor
  · rintro ⟨i, hi⟩
    exact ⟨i + 1, Nat.succ_pos i, hi⟩
  · rintro ⟨i, -, hi⟩
    exact ⟨i - 1, hi⟩

/-- A node is under another just when its number is in the range of the other. -/
theorem isPrefix_iff (hx : NodeAt (t.postorderNodes []) i x)
    (hy : NodeAt (t.postorderNodes []) k y) : x.1 <+: y.1 ↔ t.flatten.left i ≤ k ∧ k ≤ i := by
  obtain ⟨hi, rfl⟩ := t.nodeAt_iff.1 hx
  obtain ⟨hk, rfl⟩ := t.nodeAt_iff.1 hy
  have hbounds := t.flatten_left_bounds hi.1 hi.2
  have hanc := t.embeds_entry.anc i (Finset.mem_Ioc.2 hi) k (Finset.mem_Ioc.2 hk)
  simp only [pathOrder, postorder] at hanc
  by_cases hik : i = k
  · subst hik
    exact iff_of_true (List.prefix_refl _) ⟨hbounds.2, le_rfl⟩
  · have hne : (t.entry i).node.1 ≠ (t.entry k).node.1 := by
      rcases Nat.lt_or_gt_of_ne hik with hlt | hlt
      · have hbefore := t.entry_before hi.1 hlt hk.2
        have hstart := (t.block_entries 1 []).start _ (t.entry_mem hi.1 hi.2)
        exact (hbefore.relations hstart.2).1
      · have hbefore := t.entry_before hk.1 hlt hi.2
        have hstart := (t.block_entries 1 []).start _ (t.entry_mem hk.1 hk.2)
        exact (hbefore.relations hstart.2).1.symm
    constructor
    · intro hunder
      have := hanc.1 ⟨hunder, hne⟩
      omega
    · intro hrange
      exact (hanc.2 ⟨hrange.1, by omega⟩).1

/-- A node is to the left of another just when it comes before the range of the other. -/
theorem pathLeft_iff (hx : NodeAt (t.postorderNodes []) i x)
    (hy : NodeAt (t.postorderNodes []) k y) : pathLeft x.1 y.1 ↔ i < t.flatten.left k := by
  obtain ⟨hi, rfl⟩ := t.nodeAt_iff.1 hx
  obtain ⟨hk, rfl⟩ := t.nodeAt_iff.1 hy
  exact t.embeds_entry.left i (Finset.mem_Ioc.2 hi) k (Finset.mem_Ioc.2 hk)

/-- The node where the range of a node starts is its leftmost leaf. -/
theorem leftmostLeaf_left (hx : NodeAt (t.postorderNodes []) i x) :
    ∃ y, NodeAt (t.postorderNodes []) (t.flatten.left i) y ∧
      LeftmostLeaf (t.postorderNodes []) x y := by
  obtain ⟨hi, hentry⟩ := t.nodeAt_iff.1 hx
  have hbounds := t.flatten_left_bounds hi.1 hi.2
  have hy : NodeAt (t.postorderNodes []) (t.flatten.left i) (t.entry (t.flatten.left i)).node :=
    t.nodeAt_iff.2 ⟨⟨by omega, by omega⟩, rfl⟩
  -- the range of the leaf is the leaf alone
  have hself : t.flatten.left (t.flatten.left i) = t.flatten.left i :=
    le_antisymm (t.postorder_flatten.le _)
      (t.postorder_flatten.nested i _ le_rfl (t.postorder_flatten.le i))
  refine ⟨_, hy, (t.isPrefix_iff hx hy).2 ⟨le_rfl, hbounds.2⟩, fun z hz hunder => ?_,
    fun z hz hunder hleft => ?_⟩
  · obtain ⟨k, hk⟩ := t.mem_postorderNodes_iff.1 hz
    have hrange := (t.isPrefix_iff hy hk).1 hunder
    obtain rfl : k = t.flatten.left i := by omega
    exact Option.some.inj (hk.2.symm.trans hy.2)
  · obtain ⟨k, hk⟩ := t.mem_postorderNodes_iff.1 hz
    have hrange := (t.isPrefix_iff hx hk).1 hunder
    have hbefore := (t.pathLeft_iff hk hy).1 hleft
    omega

/-- Two ranges are nested or disjoint. -/
theorem ranges_flatten (i k : ℕ) :
    Disjoint (Set.Icc (t.flatten.left i) i) (Set.Icc (t.flatten.left k) k) ∨
      Set.Icc (t.flatten.left i) i ⊆ Set.Icc (t.flatten.left k) k ∨
        Set.Icc (t.flatten.left k) k ⊆ Set.Icc (t.flatten.left i) i := by
  have hnested : ∀ {i k : ℕ}, i ≤ k → t.flatten.left k ≤ i →
      Set.Icc (t.flatten.left i) i ⊆ Set.Icc (t.flatten.left k) k := fun hik hki =>
    Set.Icc_subset_Icc (t.postorder_flatten.nested _ _ hki hik) hik
  have hdisjoint : ∀ {i k : ℕ}, i < t.flatten.left k →
      Disjoint (Set.Icc (t.flatten.left i) i) (Set.Icc (t.flatten.left k) k) := by
    intro i k hlt
    refine Set.disjoint_left.2 fun m hmi hmk => ?_
    have := hmi.2.trans_lt (hlt.trans_le hmk.1)
    omega
  rcases Nat.le_total i k with hik | hki
  · rcases Nat.lt_or_ge i (t.flatten.left k) with hlt | hge
    · exact .inl (hdisjoint hlt)
    · exact .inr (.inl (hnested hik hge))
  · rcases Nat.lt_or_ge k (t.flatten.left i) with hlt | hge
    · exact .inl (hdisjoint hlt).symm
    · exact .inr (.inr (hnested hki hge))

theorem mem_keyroots_flatten : k ∈ t.flatten.keyroots ↔
    (0 < k ∧ k ≤ t.size) ∧
      ∀ k', k < k' → k' ≤ t.size → t.flatten.left k' ≠ t.flatten.left k :=
  mem_keyrootScan_iff

/-- A leftmost leaf belongs to one keyroot. -/
theorem existsUnique_keyroot (hi : 0 < i) (hn : i ≤ t.size) :
    ∃! k, k ∈ t.flatten.keyroots ∧ t.flatten.left k = t.flatten.left i := by
  obtain ⟨k, hk, -, hleft⟩ := t.numbered_flatten.covered i hi (by rwa [t.flatten_size])
  refine ⟨k, ⟨hk, hleft⟩, ?_⟩
  rintro m ⟨hm, hmleft⟩
  have hk' := t.mem_keyroots_flatten.1 hk
  have hm' := t.mem_keyroots_flatten.1 hm
  rcases lt_trichotomy m k with hlt | heq | hlt
  · exact absurd (hleft.trans hmleft.symm) (hm'.2 k hlt hk'.1.2)
  · exact heq
  · exact absurd (hmleft.trans hleft.symm) (hk'.2 m hlt hm'.1.2)

/-- The root is the last keyroot. -/
theorem getLast?_keyroots : t.flatten.keyroots.getLast? = some t.size := by
  have hroot : t.size ∈ t.flatten.keyroots :=
    t.mem_keyroots_flatten.2 ⟨⟨t.size_pos, le_rfl⟩, fun k' hlt hle => by omega⟩
  obtain ⟨pre, post, hsplit⟩ := List.append_of_mem hroot
  have hascending : t.flatten.keyroots.Pairwise (· < ·) := keyrootScan_ascending _ _
  cases post with
  | nil => rw [hsplit, List.getLast?_concat]
  | cons k post =>
    -- nothing comes after the root
    have hk : k ∈ t.flatten.keyroots := by simp [hsplit]
    rw [hsplit, List.pairwise_append] at hascending
    have hlt := (List.pairwise_cons.1 hascending.2.1).1 k (List.mem_cons_self ..)
    have hle := (t.mem_keyroots_flatten.1 hk).1.2
    omega

theorem zhangShasha_flatten : ZhangShasha (t.postorderNodes []) t.height t.flatten where
  labels := by
    rw [← t.map_node_entries 1, List.map_map]
    rfl
  length := by
    rw [← t.map_node_entries 1]
    simp [flatten]
  leaf i x hx := t.leftmostLeaf_left hx
  subtree i x hx := by
    have hi := (t.nodeAt_iff.1 hx).1
    have hbounds := t.flatten_left_bounds hi.1 hi.2
    ext k
    rw [Set.mem_ofPred_eq, Set.mem_Icc]
    constructor
    · rintro ⟨y, hy, hunder⟩
      exact (t.isPrefix_iff hx hy).1 hunder
    · rintro hrange
      have hy := t.nodeAt_iff.2 ⟨⟨by omega, by omega⟩, (rfl : (t.entry k).node = _)⟩
      exact ⟨_, hy, (t.isPrefix_iff hx hy).2 hrange⟩
  ranges i k x y _ _ := t.ranges_flatten i k
  ascending := keyrootScan_ascending _ _
  keyroot k := by
    rw [t.length_postorderNodes]
    exact t.mem_keyroots_flatten
  once i x hx := by
    have hi := (t.nodeAt_iff.1 hx).1
    exact t.existsUnique_keyroot hi.1 hi.2
  root := by
    have hne : t.postorderNodes [] ≠ [] := by
      rw [← List.length_pos_iff, t.length_postorderNodes]
      exact t.size_pos
    rw [if_neg hne, t.length_postorderNodes, t.getLast?_keyroots]
  depth := rfl

/-- Labels and leftmost leaves determine the tree. -/
theorem eq_of_arrays {t t' : OrderedTree α} (hlabels : t.flatten.labels = t'.flatten.labels)
    (hleftmost : t.flatten.leftmost = t'.flatten.leftmost) : t = t' := by
  have hlabel : (t.entries 1 []).map Entry.label = (t'.entries 1 []).map Entry.label := by
    refine List.map_injective_iff.2 (Option.some_injective α) ?_
    simpa [flatten, Function.comp_def] using hlabels
  have hstart : (t.entries 1 []).map Entry.start = (t'.entries 1 []).map Entry.start := by
    simpa [flatten] using hleftmost
  have hzip : ∀ E : List (Entry α), E.map Entry.core =
      (E.map Entry.start).zip (E.map Entry.label) := by
    intro E
    rw [List.zip_map']
    rfl
  exact eq_of_core_eq (by rw [hzip, hzip, hlabel, hstart])

end OrderedTree

/-! ## The parser -/

theorem zhangShasha_flattenRoot (s : Option (OrderedTree α)) :
    ZhangShasha (rootNodes s) (rootHeight s) (flattenRoot s) := by
  cases s with
  | some t => exact t.zhangShasha_flatten
  | none =>
    have hnone : ∀ {i x}, ¬ NodeAt (rootNodes (none : Option (OrderedTree α))) i x := by
      rintro i x ⟨-, hi⟩
      simp [rootNodes] at hi
    exact ⟨rfl, rfl, fun _ _ hx => (hnone hx).elim, fun _ _ hx => (hnone hx).elim,
      fun _ _ _ _ hx => (hnone hx).elim, .nil, fun k => by simp [flattenRoot, rootNodes]; omega,
      fun _ _ hx => (hnone hx).elim, rfl, rfl⟩

theorem eq_of_rootArrays {s t : Option (OrderedTree α)}
    (hlabels : (flattenRoot s).labels = (flattenRoot t).labels)
    (hleftmost : (flattenRoot s).leftmost = (flattenRoot t).leftmost) : s = t := by
  have hsize : ∀ t : OrderedTree α, t.flatten.labels.length ≠ 1 := by
    intro t hone
    have hpos := t.size_pos
    rw [← t.flatten_size, Tree.size, hone] at hpos
    exact absurd hpos (Nat.lt_irrefl 0)
  cases s with
  | none =>
    cases t with
    | none => rfl
    | some t => exact absurd (congrArg List.length hlabels).symm (hsize t)
  | some s =>
    cases t with
    | none => exact absurd (congrArg List.length hlabels) (hsize s)
    | some t => rw [OrderedTree.eq_of_arrays hlabels hleftmost]

/-- **The parser produces the arrays of Zhang and Shasha.**  For every document that stands for
a tree, or for none, the walk ends without an error and returns them; and documents with the
same labels and leftmost leaves stand for the same tree. -/
theorem parseTree_arrays :
    (∀ (labelKey childrenKey : String) (a : Option (Node α)) (s : Option (OrderedTree α)),
      StandsFor a s → ∃ ta, parseTree labelKey childrenKey a = .ok ta ∧
        ZhangShasha (rootNodes s) (rootHeight s) ta) ∧
      ∀ (labelKey childrenKey labelKey' childrenKey' : String) (a b : Option (Node α))
        (s t : Option (OrderedTree α)) (ta tb : Tree α), StandsFor a s → StandsFor b t →
          parseTree labelKey childrenKey a = .ok ta →
            parseTree labelKey' childrenKey' b = .ok tb →
              ta.labels = tb.labels → ta.leftmost = tb.leftmost → s = t := by
  constructor
  · intro labelKey childrenKey a s h
    exact ⟨_, parseTree_of_standsFor labelKey childrenKey h, zhangShasha_flattenRoot s⟩
  · intro labelKey childrenKey labelKey' childrenKey' a b s t ta tb ha hb hta htb hlabels hleftmost
    rw [parseTree_of_standsFor labelKey childrenKey ha] at hta
    rw [parseTree_of_standsFor labelKey' childrenKey' hb] at htb
    obtain rfl := Except.ok.inj hta
    obtain rfl := Except.ok.inj htb
    exact eq_of_rootArrays hlabels hleftmost

/-- A page with two children. -/
theorem parseTree_arrays_page : ∃ ta, parseTree "type" "children"
      (some (.mapping (some "page") [.mapping (some "table") [], .value "title"])) = .ok ta ∧
    ZhangShasha [([0], "table"), ([1], "title"), ([], "page")] 2 ta :=
  parseTree_arrays.1 "type" "children" _
    (some (.node "page" [.node "table" [], .node "title" []])) (.some rfl)

end Eval
end OcrOrchestrator
