import OcrOrchestrator.Eval.Distance
import OcrOrchestrator.Lib.MappingMetric

/-!
# The tree edit distance is a metric

The value `tree_edit_distance` computes is the least cost of a mapping, so symmetry, the
triangle inequality and the bound by the difference of the sizes are facts about mappings.
That the distance separates trees needs one thing more: the numbers of the nodes, their
labels and where their subtrees start determine the tree.  This is shown by building the
tree again with a stack.

## Main definitions

* `rebuild` — one step of building trees from their nodes in postorder.
-/

namespace OcrOrchestrator
namespace Eval

open Lib

variable {α : Type}

/-! ## The arrays determine the tree -/

/-- One node in postorder, with the number its subtree starts at.  The trees on the stack
that start no earlier are its children. -/
def rebuild (stack : List (ℕ × OrderedTree α)) (node : ℕ × α) : List (ℕ × OrderedTree α) :=
  (node.1, .node node.2 ((stack.takeWhile fun x => node.1 ≤ x.1).map Prod.snd).reverse) ::
    stack.dropWhile fun x => node.1 ≤ x.1

/-- What `rebuild` needs of an entry. -/
def Entry.core (e : Entry α) : ℕ × α := (e.start, e.label)

/-- The trees that start at `s` or later are all taken, and none of those before. -/
theorem rebuild_append {s : ℕ} {new old : List (ℕ × OrderedTree α)} (label : α)
    (hnew : ∀ x ∈ new, s ≤ x.1) (hold : ∀ x ∈ old, x.1 < s) :
    rebuild (new ++ old) (s, label) = (s, .node label (new.map Prod.snd).reverse) :: old := by
  have htake : (new ++ old).takeWhile (fun x => decide (s ≤ x.1)) = new := by
    rw [List.takeWhile_append_of_pos (by simpa using hnew)]
    cases old with
    | nil => simp
    | cons x old =>
      have := hold x (by simp)
      simp [this]
  have hdrop : (new ++ old).dropWhile (fun x => decide (s ≤ x.1)) = old := by
    rw [List.dropWhile_append_of_pos (by simpa using hnew)]
    cases old with
    | nil => simp
    | cons x old =>
      have := hold x (by simp)
      simp [this]
  rw [rebuild, htake, hdrop]

mutual
/-- The entries of a tree leave the tree on the stack. -/
theorem rebuild_entries (s : ℕ) (p : List ℕ) : ∀ (t : OrderedTree α)
    (stack : List (ℕ × OrderedTree α)), (∀ x ∈ stack, x.1 < s) →
      ((t.entries s p).map Entry.core).foldl rebuild stack = (s, t) :: stack
  | .node label children, stack, hstack => by
    obtain ⟨new, hfold, hchildren, hnew⟩ := rebuild_childEntries s p 0 children stack hstack
    rw [OrderedTree.entries, List.map_append, List.foldl_append, hfold]
    simp only [List.map_cons, List.map_nil, List.foldl_cons, List.foldl_nil, Entry.core]
    rw [rebuild_append label hnew hstack, hchildren]

/-- The entries of a sequence of trees leave the trees on the stack, the last on top. -/
theorem rebuild_childEntries (s : ℕ) (p : List ℕ) (i : ℕ) : ∀ (ts : List (OrderedTree α))
    (stack : List (ℕ × OrderedTree α)), (∀ x ∈ stack, x.1 < s) →
      ∃ new, ((childEntries s p i ts).map Entry.core).foldl rebuild stack = new ++ stack ∧
        (new.map Prod.snd).reverse = ts ∧ ∀ x ∈ new, s ≤ x.1
  | [], stack, _ => ⟨[], by simp [childEntries], rfl, by simp⟩
  | t :: ts, stack, hstack => by
    have hlen : 0 < (t.entries s (p ++ [i])).length := by
      cases t with
      | node label children => simp [OrderedTree.entries]
    have hstack' : ∀ x ∈ (s, t) :: stack, x.1 < s + (t.entries s (p ++ [i])).length := by
      intro x hx
      rcases List.mem_cons.1 hx with rfl | hx
      · simpa using hlen
      · have := hstack x hx
        omega
    obtain ⟨new, hfold, hts, hnew⟩ := rebuild_childEntries _ p (i + 1) ts _ hstack'
    refine ⟨new ++ [(s, t)], ?_, ?_, ?_⟩
    · rw [childEntries, List.map_append, List.foldl_append, rebuild_entries s _ t stack hstack,
        hfold, List.append_assoc, List.singleton_append]
    · simp [hts]
    · intro x hx
      rcases List.mem_append.1 hx with hx | hx
      · have := hnew x hx
        omega
      · obtain rfl := List.mem_singleton.1 hx
        exact le_rfl
end

/-- Two trees with the same labels and subtree starts in postorder are the same. -/
theorem eq_of_core_eq {s t : OrderedTree α}
    (h : (s.entries 1 []).map Entry.core = (t.entries 1 []).map Entry.core) : s = t := by
  have hs := rebuild_entries 1 [] s [] (by simp)
  have ht := rebuild_entries 1 [] t [] (by simp)
  rw [h, ht] at hs
  simpa using hs.symm

/-! ## Separation -/

section Distance
variable [DecidableEq α]

/-- A mapping that leaves nothing out and keeps the labels is between equal trees. -/
theorem eq_of_full {s t : OrderedTree α} {M : Finset ((List ℕ × α) × (List ℕ × α))}
    (hM : M ⊆ treeNodes (some s) ×ˢ treeNodes (some t))
    (htai : Tai (pathOrder α) (pathOrder α) M)
    (hfull : Full (fun x y => x.2 = y.2) (treeNodes (some s)) (treeNodes (some t)) M) :
    s = t := by
  simp only [treeNodes, s.nodes_toFinset, t.nodes_toFinset] at hM hfull
  rw [← Finset.prodMap_image_product] at hM
  obtain ⟨N, hN, rfl⟩ := Finset.subset_image_iff.1 hM
  have hN' : N ⊆ Finset.Ioc 0 s.size ×ˢ Finset.Ioc 0 t.size := Finset.coe_subset.1 hN
  obtain ⟨hsize, hsame⟩ := (Full.of_image s.embeds_entry t.embeds_entry hN' hfull).same_numbers
    s.postorder_flatten t.postorder_flatten (fun i hi hn => (s.flatten_left_bounds hi hn).1)
    (fun i hi hn => (t.flatten_left_bounds hi hn).1) hN'
    ((tai_image_iff s.embeds_entry t.embeds_entry hN').1 htai)
  refine eq_of_core_eq (List.ext_getElem (by simpa [OrderedTree.size] using hsize) ?_)
  intro i his hit
  simp only [List.length_map] at his hit
  have hi : i + 1 ≤ s.size := his
  obtain ⟨hlabel, hleft⟩ := hsame (i + 1) (by omega) hi
  rw [s.flatten_left (by omega) hi, t.flatten_left (by omega) (by omega)] at hleft
  obtain ⟨his', hs⟩ := s.entry_eq (i := i + 1) (by omega) hi
  obtain ⟨hit', ht⟩ := t.entry_eq (i := i + 1) (by omega) (by omega)
  simp only [Entry.node, hs, ht, Nat.add_sub_cancel] at hlabel hleft
  simp only [List.getElem_map, Entry.core, hlabel, hleft]

/-- Only equal trees have a mapping that costs nothing. -/
theorem zero_mem_editCosts_iff {s t : Option (OrderedTree α)} : 0 ∈ editCosts s t ↔ s = t := by
  constructor
  · rintro ⟨M, hM, htai, hcost⟩
    have hfull := editCost_eq_zero_iff.1 hcost.symm
    cases s with
    | none =>
      cases t with
      | none => rfl
      | some t =>
        have hroot : ([], t.label) ∈ treeNodes (some t) := by
          cases t with
          | node label children => simp [treeNodes, OrderedTree.nodes, OrderedTree.label]
        obtain ⟨x, hx⟩ := hfull.snd _ hroot
        simpa [treeNodes] using hM hx
    | some s =>
      cases t with
      | none =>
        have hroot : ([], s.label) ∈ treeNodes (some s) := by
          cases s with
          | node label children => simp [treeNodes, OrderedTree.nodes, OrderedTree.label]
        obtain ⟨x, hx⟩ := hfull.fst _ hroot
        simpa [treeNodes] using hM hx
      | some t => rw [eq_of_full hM htai hfull]
  · rintro rfl
    -- the identity
    refine ⟨(treeNodes s).image fun x => (x, x), ?_, ?_, ?_⟩
    · intro x hx
      obtain ⟨y, hy, rfl⟩ := Finset.mem_image.1 hx
      exact Finset.mem_product.2 ⟨hy, hy⟩
    · intro x hx y hy
      obtain ⟨x, -, rfl⟩ := Finset.mem_image.1 hx
      obtain ⟨y, -, rfl⟩ := Finset.mem_image.1 hy
      simp
    · refine (editCost_eq_zero_iff.2 ⟨?_, ?_, ?_⟩).symm
      · exact fun i hi => ⟨i, Finset.mem_image.2 ⟨i, hi, rfl⟩⟩
      · exact fun j hj => ⟨j, Finset.mem_image.2 ⟨j, hj, rfl⟩⟩
      · intro x hx
        obtain ⟨y, -, rfl⟩ := Finset.mem_image.1 hx
        rfl

/-! ## The laws of a metric -/

theorem mem_editCosts_comm {s t : Option (OrderedTree α)} {c : ℕ} (h : c ∈ editCosts s t) :
    c ∈ editCosts t s := by
  obtain ⟨M, hM, htai, rfl⟩ := h
  exact ⟨M.image Prod.swap, image_swap_subset hM, htai.swap,
    (editCost_swap _ _ (fun _ _ => eq_comm) _ _ M).symm⟩

/-- Costs of mappings in a row bound the cost of a mapping. -/
theorem exists_editCosts_le_add {s t u : Option (OrderedTree α)} {c d : ℕ}
    (hc : c ∈ editCosts s t) (hd : d ∈ editCosts t u) : ∃ e ∈ editCosts s u, e ≤ c + d := by
  obtain ⟨M, hM, htaiM, rfl⟩ := hc
  obtain ⟨N, hN, htaiN, rfl⟩ := hd
  exact ⟨_, ⟨compose M N, compose_subset hM hN, htaiM.compose htaiN, rfl⟩,
    editCost_compose_le hM htaiM hN htaiN⟩

theorem size_le_add_of_mem_editCosts {s t : Option (OrderedTree α)} {c : ℕ}
    (h : c ∈ editCosts s t) :
    (flattenRoot s).size ≤ (flattenRoot t).size + c ∧
      (flattenRoot t).size ≤ (flattenRoot s).size + c := by
  obtain ⟨M, hM, htai, rfl⟩ := h
  simpa only [card_treeNodes] using
    card_le_card_add_editCost (fun x y => x.2 = y.2) hM htai

/-- **The tree edit distance is a metric.**  For all documents that stand for ordered
labelled trees, `none` for the empty one, all parse, and the computed value is 0 exactly for
documents of the same tree, does not depend on the order of the two, satisfies the triangle
inequality and is at least the difference of the sizes. -/
theorem treeEditDistance_metric (labelKey childrenKey : String) (a b c : Option (Node α))
    (s t u : Option (OrderedTree α)) (ha : StandsFor a s) (hb : StandsFor b t)
    (hc : StandsFor c u) :
    ∃ ta tb tc, parseTree labelKey childrenKey a = .ok ta ∧
      parseTree labelKey childrenKey b = .ok tb ∧ parseTree labelKey childrenKey c = .ok tc ∧
      (treeEditDistance ta tb = 0 ↔ s = t) ∧
      treeEditDistance ta tb = treeEditDistance tb ta ∧
      treeEditDistance ta tc ≤ treeEditDistance ta tb + treeEditDistance tb tc ∧
      ta.size ≤ tb.size + treeEditDistance ta tb ∧
      tb.size ≤ ta.size + treeEditDistance ta tb := by
  have hst := isLeast_editCosts s t
  have hts := isLeast_editCosts t s
  have htu := isLeast_editCosts t u
  have hsu := isLeast_editCosts s u
  refine ⟨_, _, _, parseTree_of_standsFor labelKey childrenKey ha,
    parseTree_of_standsFor labelKey childrenKey hb,
    parseTree_of_standsFor labelKey childrenKey hc, ?_, ?_, ?_, ?_⟩
  · rw [← zero_mem_editCosts_iff]
    constructor
    · intro hzero
      exact hzero ▸ hst.1
    · intro hmem
      exact Nat.le_zero.1 (hst.2 hmem)
  · exact le_antisymm (hst.2 (mem_editCosts_comm hts.1)) (hts.2 (mem_editCosts_comm hst.1))
  · obtain ⟨e, he, hle⟩ := exists_editCosts_le_add hst.1 htu.1
    exact (hsu.2 he).trans hle
  · exact size_le_add_of_mem_editCosts hst.1

/-- A page with one child, the page alone, and no page. -/
theorem treeEditDistance_metric_page :
    StandsFor (some (.mapping (some "page") [.value "title"]))
        (some (.node "page" [.node "title" []])) ∧
      ∃ ta tb tc, parseTree "type" "children"
          (some (.mapping (some "page") [.value "title"])) = .ok ta ∧
        parseTree "type" "children" (some (.mapping (some "page") [])) = .ok tb ∧
        parseTree "type" "children" (none : Option (Node String)) = .ok tc ∧
        (treeEditDistance ta tb = 0 ↔
          (some (.node "page" [.node "title" []]) : Option (OrderedTree String)) =
            some (.node "page" [])) ∧
        treeEditDistance ta tb = treeEditDistance tb ta ∧
        treeEditDistance ta tc ≤ treeEditDistance ta tb + treeEditDistance tb tc ∧
        ta.size ≤ tb.size + treeEditDistance ta tb ∧
        tb.size ≤ ta.size + treeEditDistance ta tb :=
  ⟨.some rfl, treeEditDistance_metric "type" "children" _ _ _ _ _ _ (.some rfl) (.some rfl) .none⟩

end Distance
end Eval
end OcrOrchestrator
