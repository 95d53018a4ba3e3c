import OcrOrchestrator.Eval.Ted
import OcrOrchestrator.Eval.OrderedTree
import OcrOrchestrator.Lib.Fold

/-!
# What the parser produces

The walk of `parse_tree` never sees a path and never recurses.  This module says which tree
a document stands for, what a run of the walk emits for it, and what the keyroot scan finds
in the array of leftmost leaves.

## Main definitions

* `Node.toTree`, `StandsFor` — the tree a well-formed document stands for.
* `OrderedTree.flatten` — the arrays of a tree; `parseTree_of_standsFor` says they are the
  ones the parser returns.
* `Tree.Numbered` — what the distance needs to know of a parsed tree.
-/

namespace OcrOrchestrator
namespace Eval

open Lib

variable {α : Type}

/-! ## Documents and trees -/

mutual
/-- The tree a node stands for.  There is none if a label is missing somewhere or some
children are not a sequence. -/
def Node.toTree : Node α → Option (OrderedTree α)
  | .value v => some (.node v [])
  | .mapping (some label) children => (toTrees children).map (.node label)
  | .mapping none _ => none
  | .malformed _ _ => none

/-- The trees a sequence of nodes stands for. -/
def toTrees : List (Node α) → Option (List (OrderedTree α))
  | [] => some []
  | c :: cs =>
    match c.toTree, toTrees cs with
    | some t, some ts => some (t :: ts)
    | _, _ => none
end

/-- The document stands for the tree; `none` is the empty one. -/
def StandsFor (a : Option (Node α)) (s : Option (OrderedTree α)) : Prop :=
  Option.Rel (fun n t => n.toTree = some t) a s

/-! ## What the walk emits -/

/-- The arrays after these entries were emitted, and the depth raised to `depth`. -/
def Flat.emit (flat : Flat α) (E : List (Entry α)) (depth : ℕ) : Flat α where
  labels := flat.labels ++ E.map fun e => some e.label
  leftmost := flat.leftmost ++ E.map Entry.start
  maxDepth := max flat.maxDepth depth

section Walk
variable {labelKey childrenKey : String}

/-- Emitting one block after the other. -/
theorem Flat.emit_emit (flat : Flat α) (E F : List (Entry α)) (d d' : ℕ) :
    (flat.emit E d).emit F d' = flat.emit (E ++ F) (max d d') := by
  simp [Flat.emit, max_assoc]

/-- A node that is taken off the stack for the second time is emitted. -/
theorem walk_expanded {node : Node α} {label : α} (h : labelOf labelKey node = .ok label)
    (s d : ℕ) (stack : List (Frame α)) (flat : Flat α) :
    walk labelKey childrenKey (⟨node, true, s, d⟩ :: stack) flat =
      walk labelKey childrenKey stack
        { flat with labels := flat.labels ++ [some label]
                    leftmost := flat.leftmost ++ [s] } := by
  rw [walk]
  simp [h]

/-- A node that is taken off the stack for the first time goes back under its children. -/
theorem walk_unexpanded {node : Node α} {children : List (Node α)}
    (h : childrenOf childrenKey node = .ok children) (s d : ℕ) (stack : List (Frame α))
    (flat : Flat α) :
    walk labelKey childrenKey (⟨node, false, s, d⟩ :: stack) flat =
      walk labelKey childrenKey
        (children.map (fun child => ⟨child, false, 0, d + 1⟩) ++
          ⟨node, true, flat.labels.length, d⟩ :: stack)
        { flat with maxDepth := max flat.maxDepth d } := by
  rw [walk, ← expand_eq]
  simp only [Bool.false_eq_true, if_false]
  split
  · rename_i e he
    simp [h] at he
  · rename_i cs hcs
    obtain rfl : children = cs := by simpa [h] using hcs
    rfl

variable (labelKey childrenKey) in
/-- The walk takes this node off the stack, and later stands where it stood, with the tree
emitted.  Nodes of depth `d + 1` are the ones below a node of depth `d`. -/
def WalksNode (n : Node α) (t : OrderedTree α) : Prop :=
  ∀ (s d : ℕ) (p : List ℕ) (stack : List (Frame α)) (flat : Flat α),
    walk labelKey childrenKey (⟨n, false, s, d + 1⟩ :: stack) flat =
      walk labelKey childrenKey stack
        (flat.emit (t.entries flat.labels.length p) (d + t.height))

variable (labelKey childrenKey) in
/-- The same for the children of a node, once the depth of that node was noted. -/
def WalksChildren (cs : List (Node α)) (ts : List (OrderedTree α)) : Prop :=
  ∀ (d : ℕ) (p : List ℕ) (i : ℕ) (stack : List (Frame α)) (flat : Flat α),
    d ≤ flat.maxDepth →
    walk labelKey childrenKey (cs.map (fun c => ⟨c, false, 0, d + 1⟩) ++ stack) flat =
      walk labelKey childrenKey stack
        (flat.emit (childEntries flat.labels.length p i ts) (d + childHeight ts))

theorem WalksChildren.nil : WalksChildren labelKey childrenKey ([] : List (Node α)) [] := by
  intro d p i stack flat hd
  have : flat.emit [] d = flat := by
    simp [Flat.emit, hd]
  simp only [List.map_nil, List.nil_append, childEntries, childHeight, Nat.add_zero, this]

/-- The first child, then the rest. -/
theorem WalksChildren.cons {c : Node α} {cs : List (Node α)} {t : OrderedTree α}
    {ts : List (OrderedTree α)} (hc : WalksNode labelKey childrenKey c t)
    (hcs : WalksChildren labelKey childrenKey cs ts) :
    WalksChildren labelKey childrenKey (c :: cs) (t :: ts) := by
  intro d p i stack flat hd
  have hd' : d ≤ (flat.emit (t.entries flat.labels.length (p ++ [i])) (d + t.height)).maxDepth :=
    le_trans hd (le_max_left _ _)
  have hlen : (flat.emit (t.entries flat.labels.length (p ++ [i])) (d + t.height)).labels.length =
      flat.labels.length + (t.entries flat.labels.length (p ++ [i])).length := by
    simp [Flat.emit]
  rw [List.map_cons, List.cons_append, hc 0 d (p ++ [i]), hcs d p (i + 1) stack _ hd', hlen,
    Flat.emit_emit, childEntries, childHeight, Nat.add_max_add_left]

/-- A node: note the depth, walk the children, emit the label. -/
theorem WalksNode.root {n : Node α} {label : α} {cs : List (Node α)}
    {ts : List (OrderedTree α)} (hlabel : labelOf labelKey n = .ok label)
    (hchildren : childrenOf childrenKey n = .ok cs)
    (hcs : WalksChildren labelKey childrenKey cs ts) :
    WalksNode labelKey childrenKey n (.node label ts) := by
  intro s d p stack flat
  rw [walk_unexpanded hchildren, hcs (d + 1) p 0 _ _ (le_max_right _ _), walk_expanded hlabel]
  congr 1
  simp only [Flat.emit, OrderedTree.entries, OrderedTree.height, List.map_append, List.map_cons,
    List.map_nil, List.append_assoc, Flat.mk.injEq, true_and]
  omega

variable (labelKey childrenKey) in
mutual
/-- The walk emits the tree a node stands for. -/
theorem walksNode : ∀ (n : Node α) (t : OrderedTree α), n.toTree = some t →
    WalksNode labelKey childrenKey n t
  | .value v, t, h => by
    obtain rfl : OrderedTree.node v [] = t := by simpa [Node.toTree] using h
    exact WalksNode.root rfl rfl .nil
  | .mapping (some label) children, t, h => by
    rw [Node.toTree, Option.map_eq_some_iff] at h
    obtain ⟨ts, hts, rfl⟩ := h
    exact WalksNode.root rfl rfl (walksChildren children ts hts)
  | .mapping none children, t, h => by simp [Node.toTree] at h
  | .malformed label ty, t, h => by simp [Node.toTree] at h

/-- The walk emits the trees a sequence of nodes stands for. -/
theorem walksChildren : ∀ (cs : List (Node α)) (ts : List (OrderedTree α)),
    toTrees cs = some ts → WalksChildren labelKey childrenKey cs ts
  | [], ts, h => by
    obtain rfl : [] = ts := by simpa [toTrees] using h
    exact .nil
  | c :: cs, ts, h => by
    rw [toTrees] at h
    split at h
    · rename_i t ts' ht hts
      obtain rfl : t :: ts' = ts := by simpa using h
      exact .cons (walksNode c t ht) (walksChildren cs ts' hts)
    · cases h
end

variable (labelKey childrenKey) in
mutual
/-- A node that stands for no tree stops the walk, whatever is below it on the stack. -/
theorem walk_stops : ∀ n : Node α, n.toTree = none → ∀ (s d : ℕ) (stack : List (Frame α))
    (flat : Flat α), ∃ e, walk labelKey childrenKey (⟨n, false, s, d + 1⟩ :: stack) flat = .error e
  | .value v, h => by simp [Node.toTree] at h
  | .malformed label ty, _ => by
    intro s d stack flat
    refine ⟨.notASequence childrenKey ty, ?_⟩
    rw [walk]
    simp only [Bool.false_eq_true, if_false]
    split
    · rename_i e he
      obtain rfl : TreeError.notASequence childrenKey ty = e := by simpa [childrenOf] using he
      rfl
    · rename_i cs hcs
      simp [childrenOf] at hcs
  | .mapping label children, h => by
    intro s d stack flat
    have hpushed : childrenOf childrenKey (.mapping label children) = .ok children := rfl
    rw [walk_unexpanded hpushed]
    cases hts : toTrees children with
    | none => exact walk_stops_children children hts _ _ _
    | some ts =>
      -- the children are walked, and then the missing label is noticed
      have hwalk := walksChildren labelKey childrenKey children ts hts
      cases label with
      | some label => simp [Node.toTree, hts] at h
      | none =>
        refine ⟨.missingLabel labelKey (.mapping none children), ?_⟩
        rw [hwalk (d + 1) [] 0 _ _ (le_max_right _ _), walk]
        simp [labelOf]

/-- Nor does the walk get past a sequence of nodes one of which stands for no tree. -/
theorem walk_stops_children : ∀ cs : List (Node α), toTrees cs = none → ∀ (d : ℕ)
    (stack : List (Frame α)) (flat : Flat α), ∃ e,
      walk labelKey childrenKey (cs.map (fun c => ⟨c, false, 0, d + 1⟩) ++ stack) flat = .error e
  | [], h => by simp [toTrees] at h
  | c :: cs, h => by
    intro d stack flat
    rw [List.map_cons, List.cons_append]
    cases ht : c.toTree with
    | none => exact walk_stops c ht _ _ _ _
    | some t =>
      have hts : toTrees cs = none := by
        cases hts : toTrees cs with
        | none => rfl
        | some ts => simp [toTrees, ht, hts] at h
      rw [walksNode labelKey childrenKey c t ht 0 d []]
      exact walk_stops_children cs hts _ _ _
end

end Walk

/-- The arrays of a tree. -/
def OrderedTree.flatten (t : OrderedTree α) : Tree α where
  labels := none :: (t.entries 1 []).map fun e => some e.label
  leftmost := 0 :: (t.entries 1 []).map Entry.start
  keyroots := keyrootScan (0 :: (t.entries 1 []).map Entry.start) (t.entries 1 []).length
  depth := t.height

/-- The parser flattens the tree a node stands for, whatever the keys. -/
theorem parseTree_of_toTree (labelKey childrenKey : String) {n : Node α} {t : OrderedTree α}
    (h : n.toTree = some t) :
    parseTree labelKey childrenKey (some n) = .ok t.flatten := by
  have hwalk := walksNode labelKey childrenKey n t h 0 0 [] [] ⟨[none], [0], 0⟩
  rw [walk] at hwalk
  simp only [parseTree, hwalk]
  simp [Flat.emit, OrderedTree.flatten, bind, Except.bind]

/-- The arrays of a tree, or of no tree. -/
def flattenRoot : Option (OrderedTree α) → Tree α
  | none => ⟨[none], [0], [], 0⟩
  | some t => t.flatten

/-- The parser accepts what stands for a tree, or for no tree, and flattens it. -/
theorem parseTree_of_standsFor (labelKey childrenKey : String) {a : Option (Node α)}
    {s : Option (OrderedTree α)} (h : StandsFor a s) :
    parseTree labelKey childrenKey a = .ok (flattenRoot s) := by
  cases h with
  | some h => exact parseTree_of_toTree labelKey childrenKey h
  | none => rfl

/-- Whatever the parser accepts stands for a tree, or for no tree. -/
theorem exists_standsFor_of_parseTree {labelKey childrenKey : String} {a : Option (Node α)}
    {t : Tree α} (h : parseTree labelKey childrenKey a = .ok t) :
    ∃ s, StandsFor a s ∧ t = flattenRoot s := by
  suffices hs : ∃ s, StandsFor a s by
    obtain ⟨s, hs⟩ := hs
    rw [parseTree_of_standsFor labelKey childrenKey hs] at h
    exact ⟨s, hs, (Except.ok.inj h).symm⟩
  cases a with
  | none => exact ⟨none, .none⟩
  | some n =>
    cases hn : n.toTree with
    | some t => exact ⟨some t, .some hn⟩
    | none =>
      obtain ⟨e, he⟩ := walk_stops labelKey childrenKey n hn 0 0 [] ⟨[none], [0], 0⟩
      simp only [parseTree, he] at h
      cases h

namespace OrderedTree
variable (t : OrderedTree α) {i k : ℕ}

theorem flatten_size : t.flatten.size = t.size := by
  simp [Tree.size, flatten, size]

theorem flatten_left (hi : 0 < i) (hn : i ≤ t.size) : t.flatten.left i = (t.entry i).start := by
  obtain ⟨h, he⟩ := t.entry_eq hi hn
  obtain ⟨i, rfl⟩ : ∃ k, i = k + 1 := ⟨i - 1, by omega⟩
  simp only [Nat.add_sub_cancel] at h he
  simp [Tree.left, flatten, he, h]

theorem flatten_label (hi : 0 < i) (hn : i ≤ t.size) :
    t.flatten.label i = some (t.entry i).label := by
  obtain ⟨h, he⟩ := t.entry_eq hi hn
  obtain ⟨i, rfl⟩ : ∃ k, i = k + 1 := ⟨i - 1, by omega⟩
  simp only [Nat.add_sub_cancel] at h he
  simp [Tree.label, flatten, he, h]

/-- Outside the tree the array of leftmost leaves reads as the sentinel. -/
theorem flatten_left_of_out (h : i = 0 ∨ t.size < i) : t.flatten.left i = 0 := by
  rcases h with rfl | h
  · rfl
  · obtain ⟨i, rfl⟩ : ∃ k, i = k + 1 := ⟨i - 1, by omega⟩
    have : (t.entries 1 []).length ≤ i := by
      rw [size] at h
      omega
    simp [Tree.left, flatten, this]

/-- A subtree starts within the tree, and no later than its root. -/
theorem flatten_left_bounds (hi : 0 < i) (hn : i ≤ t.size) :
    1 ≤ t.flatten.left i ∧ t.flatten.left i ≤ i := by
  have h := (t.block_entries 1 []).start _ (t.entry_mem hi hn)
  rw [t.entry_index hi hn] at h
  rwa [t.flatten_left hi hn]

/-- The array of leftmost leaves is a postorder numbering. -/
theorem postorder_flatten : Postorder t.flatten.left := by
  refine ⟨fun i => ?_, fun i k hik hki => ?_⟩
  · by_cases hout : i = 0 ∨ t.size < i
    · rw [t.flatten_left_of_out hout]
      omega
    · exact (t.flatten_left_bounds (by omega) (by omega)).2
  · by_cases hout : i = 0 ∨ t.size < i
    · rw [t.flatten_left_of_out hout]
      omega
    · have hi := t.flatten_left_bounds (i := i) (by omega) (by omega)
      rcases Nat.lt_or_eq_of_le hki with hlt | rfl
      · have hk : 0 < k := by omega
        rw [t.flatten_left (by omega) (by omega)] at hik ⊢
        rw [t.flatten_left hk (by omega)]
        -- `k` is not to the left of `i`, so it is below it
        rcases t.entry_before hk hlt (by omega) with ⟨-, hstart⟩ | ⟨-, hidx⟩
        · exact hstart
        · rw [t.entry_index hk (by omega)] at hidx
          omega
      · exact le_rfl

/-- The numbers keep both relations of the tree. -/
theorem embeds_entry : (postorder t.flatten.left).Embeds (pathOrder α) (Finset.Ioc 0 t.size)
    fun i => (t.entry i).node := by
  have hrel : ∀ {i k}, 0 < i → i < k → k ≤ t.size →
      (t.entry i).path ≠ (t.entry k).path ∧
      ¬ (pathOrder α).anc (t.entry i).node (t.entry k).node ∧
      ((pathOrder α).anc (t.entry k).node (t.entry i).node ↔ t.flatten.left k ≤ i) ∧
      ¬ (pathOrder α).left (t.entry k).node (t.entry i).node ∧
      ((pathOrder α).left (t.entry i).node (t.entry k).node ↔ i < t.flatten.left k) := by
    intro i k hi hik hk
    have hbounds := t.flatten_left_bounds hi (by omega)
    have h := (t.entry_before hi hik hk).relations (by
      rw [t.entry_index hi (by omega), ← t.flatten_left hi (by omega)]
      exact hbounds.2)
    rwa [t.entry_index hi (by omega), ← t.flatten_left (by omega) hk] at h
  refine ⟨?_, ?_, ?_⟩
  · intro i hi k hk hik
    rw [Finset.mem_Ioc] at hi hk
    have hpath : (t.entry i).path = (t.entry k).path := congrArg Prod.fst hik
    rcases lt_trichotomy i k with hlt | heq | hlt
    · exact absurd hpath (hrel hi.1 hlt hk.2).1
    · exact heq
    · exact absurd hpath.symm (hrel hk.1 hlt hi.2).1
  · intro i hi k hk
    rw [Finset.mem_Ioc] at hi hk
    simp only [postorder]
    rcases lt_trichotomy i k with hlt | rfl | hlt
    · exact iff_of_false (hrel hi.1 hlt hk.2).2.1 (by omega)
    · exact iff_of_false (fun h => h.2 rfl) (by omega)
    · rw [(hrel hk.1 hlt hi.2).2.2.1]
      omega
  · intro i hi k hk
    rw [Finset.mem_Ioc] at hi hk
    simp only [postorder]
    have hki := (t.flatten_left_bounds hk.1 hk.2).2
    rcases lt_trichotomy i k with hlt | rfl | hlt
    · exact (hrel hi.1 hlt hk.2).2.2.2.2
    · exact iff_of_false (not_pathLeft_of_isPrefix (List.prefix_refl _)).1 (by omega)
    · exact iff_of_false (hrel hk.1 hlt hi.2).2.2.2.1 (by omega)

end OrderedTree

/-! ## Keyroots -/

/-- What the scan knows after the nodes `visited`, the highest first: the leftmost values it
has seen, and the keyroots among these nodes, descending. -/
structure Scanned (leftmost : List ℕ) (visited : List ℕ) (st : Finset ℕ × List ℕ) : Prop where
  seen : ∀ x, x ∈ st.1 ↔ ∃ k ∈ visited, leftmost.getD k 0 = x
  descending : st.2.Pairwise (· > ·)
  mem_iff : ∀ k, k ∈ st.2 ↔ k ∈ visited ∧
    ∀ k' ∈ visited, k < k' → leftmost.getD k' 0 ≠ leftmost.getD k 0

/-- One step of the scan goes on to a node below all visited ones. -/
theorem Scanned.step {leftmost visited : List ℕ} {st : Finset ℕ × List ℕ} {k : ℕ}
    (h : Scanned leftmost visited st) (hk : ∀ k' ∈ visited, k < k') :
    Scanned leftmost (visited ++ [k]) (keyrootStep leftmost st k) := by
  have hold : ∀ k' ∈ visited, (∀ k'' ∈ visited ++ [k], k' < k'' →
      leftmost.getD k'' 0 ≠ leftmost.getD k' 0) ↔
      ∀ k'' ∈ visited, k' < k'' → leftmost.getD k'' 0 ≠ leftmost.getD k' 0 := by
    intro k' hk'
    have := hk k' hk'
    constructor
    · intro h k'' hk''
      exact h k'' (List.mem_append_left _ hk'')
    · intro h k'' hk'' hlt
      rcases List.mem_append.1 hk'' with hk'' | hk''
      · exact h k'' hk'' hlt
      · rw [List.mem_singleton] at hk''
        omega
  have hnew : (∀ k'' ∈ visited ++ [k], k < k'' → leftmost.getD k'' 0 ≠ leftmost.getD k 0) ↔
      leftmost.getD k 0 ∉ st.1 := by
    rw [h.seen]
    constructor
    · rintro h' ⟨k'', hk'', heq⟩
      exact h' k'' (List.mem_append_left _ hk'') (hk k'' hk'') heq
    · intro h' k'' hk'' hlt heq
      rcases List.mem_append.1 hk'' with hk'' | hk''
      · exact h' ⟨k'', hk'', heq⟩
      · rw [List.mem_singleton] at hk''
        omega
  have hnotMem : k ∉ visited := fun hmem => absurd (hk k hmem) (lt_irrefl k)
  rw [keyrootStep]
  split
  · rename_i hseen
    refine ⟨fun x => ?_, h.descending, fun k' => ?_⟩
    · rw [h.seen]
      constructor
      · rintro ⟨k', hk', hx⟩
        exact ⟨k', List.mem_append_left _ hk', hx⟩
      · rintro ⟨k', hk', hx⟩
        rcases List.mem_append.1 hk' with hk' | hk'
        · exact ⟨k', hk', hx⟩
        · rw [List.mem_singleton] at hk'
          subst hk'
          exact (h.seen x).1 (hx ▸ hseen)
    · rw [h.mem_iff, List.mem_append, List.mem_singleton, or_and_right]
      constructor
      · rintro ⟨hk', hall⟩
        exact Or.inl ⟨hk', (hold k' hk').2 hall⟩
      · rintro (⟨hk', hall⟩ | ⟨rfl, hall⟩)
        · exact ⟨hk', (hold k' hk').1 hall⟩
        · exact absurd hseen (hnew.1 hall)
  · rename_i hseen
    refine ⟨fun x => ?_, ?_, fun k' => ?_⟩
    · simp only [Finset.mem_insert, h.seen, List.mem_append, List.mem_singleton, or_and_right,
        exists_or, exists_eq_left]
      rw [or_comm, eq_comm]
    · refine List.pairwise_append.2 ⟨h.descending, List.pairwise_singleton _ _, fun k' hk' x hx => ?_⟩
      obtain rfl := List.mem_singleton.1 hx
      exact hk k' ((h.mem_iff k').1 hk').1
    · rw [List.mem_append, List.mem_singleton, h.mem_iff, List.mem_append, List.mem_singleton,
        or_and_right]
      refine or_congr ?_ ?_
      · exact and_congr_right fun hk' => (hold k' hk').symm
      · refine ⟨fun hk' => ⟨hk', ?_⟩, And.left⟩
        subst hk'
        exact hnew.2 hseen

/-- The scan finds the keyroots: the nodes that no later node shares its leftmost leaf
with. -/
theorem scanned_keyrootScan (leftmost : List ℕ) (n : ℕ) :
    Scanned leftmost (List.range' 1 n).reverse
      ((List.range' 1 n).reverse.foldl (keyrootStep leftmost) (∅, [])) := by
  refine foldl_induction (keyrootStep leftmost) _ _ (Scanned leftmost) ?_ ?_
  · exact ⟨by simp, List.Pairwise.nil, by simp⟩
  · intro pre k post st hxs h
    refine h.step fun k' hk' => ?_
    -- the scan runs from the last node down
    have hdesc : (List.range' 1 n).reverse.Pairwise (· > ·) :=
      List.pairwise_reverse.2 List.pairwise_lt_range'
    rw [hxs] at hdesc
    exact (List.pairwise_append.1 hdesc).2.2 k' hk' k (List.mem_cons_self ..)

theorem mem_keyrootScan_iff {leftmost : List ℕ} {n k : ℕ} :
    k ∈ keyrootScan leftmost n ↔
      (0 < k ∧ k ≤ n) ∧ ∀ k', k < k' → k' ≤ n → leftmost.getD k' 0 ≠ leftmost.getD k 0 := by
  rw [keyrootScan, List.mem_reverse, (scanned_keyrootScan leftmost n).mem_iff]
  simp only [List.mem_reverse, List.mem_range'_1]
  constructor
  · rintro ⟨hk, hall⟩
    exact ⟨by omega, fun k' hlt hn => hall k' (by omega) hlt⟩
  · rintro ⟨hk, hall⟩
    exact ⟨by omega, fun k' hk' hlt => hall k' hlt (by omega)⟩

theorem keyrootScan_ascending (leftmost : List ℕ) (n : ℕ) :
    (keyrootScan leftmost n).Pairwise (· < ·) :=
  List.pairwise_reverse.2 (scanned_keyrootScan leftmost n).descending

/-- Every node has a keyroot, at or above it, with the same leftmost leaf. -/
theorem exists_keyroot {leftmost : List ℕ} {n u : ℕ} (hu : 0 < u) (hn : u ≤ n) :
    ∃ r ∈ keyrootScan leftmost n, u ≤ r ∧ leftmost.getD r 0 = leftmost.getD u 0 := by
  -- by induction on the number of nodes after `u`
  induction hd : n - u using Nat.strong_induction_on generalizing u with
  | _ d ih =>
    by_cases hlast : ∀ k', u < k' → k' ≤ n → leftmost.getD k' 0 ≠ leftmost.getD u 0
    · exact ⟨u, mem_keyrootScan_iff.2 ⟨⟨hu, hn⟩, hlast⟩, le_rfl, rfl⟩
    · push Not at hlast
      obtain ⟨k', hlt, hk', heq⟩ := hlast
      obtain ⟨r, hr, hle, hleft⟩ := ih (n - k') (by omega) (by omega) hk' rfl
      exact ⟨r, hr, by omega, by rw [hleft, heq]⟩

/-! ## Parsed trees -/

/-- What the distance relies on: the leftmost leaves number the tree in postorder, and the
keyroots, in ascending order, are enough to reach every leftmost leaf. -/
structure Tree.Numbered (t : Tree α) : Prop where
  postorder : Postorder t.left
  pos : ∀ i, 0 < i → i ≤ t.size → 0 < t.left i
  root : t.left t.size = 1
  ascending : t.keyroots.Pairwise (· < ·)
  keyroot_bounds : ∀ r ∈ t.keyroots, 0 < r ∧ r ≤ t.size
  covered : ∀ u, 0 < u → u ≤ t.size → ∃ r ∈ t.keyroots, u ≤ r ∧ t.left r = t.left u

/-- The nodes on the left spine below `r`: those of its subtree that share its leftmost
leaf. -/
def Tree.OnSpine (t : Tree α) (r u : ℕ) : Prop :=
  0 < u ∧ u ≤ r ∧ t.left u = t.left r

/-- A node of a keyroot's subtree that is off its spine is on the spine of an earlier
keyroot. -/
theorem Tree.Numbered.exists_earlier {t : Tree α} (h : t.Numbered) {pre post : List ℕ}
    {r u : ℕ} (hk : t.keyroots = pre ++ r :: post) (hl : t.left r ≤ u) (hu : u ≤ r)
    (hne : t.left u ≠ t.left r) : ∃ k ∈ pre, t.OnSpine k u := by
  have hr : 0 < r ∧ r ≤ t.size := h.keyroot_bounds r (by simp [hk])
  have hpos := h.pos r hr.1 hr.2
  obtain ⟨k, hmem, huk, hleft⟩ := h.covered u (by omega) (by omega)
  -- were `k` above `r`, then `u`, `k` and `r` would share their leftmost leaf
  have hlt : k < r := by
    by_contra hge
    have hle := h.postorder.le u
    have h₁ := h.postorder.nested r u hl hu
    have h₂ := h.postorder.nested k r (by omega) (by omega)
    omega
  rw [hk, List.mem_append, List.mem_cons] at hmem
  have hasc := h.ascending
  rw [hk, List.pairwise_append] at hasc
  have hpre : k ∈ pre := by
    rcases hmem with hmem | rfl | hmem
    · exact hmem
    · omega
    · have := (List.pairwise_cons.1 hasc.2.1).1 k hmem
      omega
  exact ⟨k, hpre, by omega, huk, hleft.symm⟩

namespace OrderedTree

/-- The whole tree starts at the first node. -/
theorem flatten_left_size (t : OrderedTree α) : t.flatten.left t.size = 1 := by
  rw [t.flatten_left t.size_pos le_rfl]
  cases t with
  | node label children => simp [entry, size, entries]

theorem numbered_flatten (t : OrderedTree α) : t.flatten.Numbered where
  postorder := t.postorder_flatten
  pos i hi hn := by
    rw [t.flatten_size] at hn
    exact (t.flatten_left_bounds hi hn).1
  root := by rw [t.flatten_size]; exact t.flatten_left_size
  ascending := keyrootScan_ascending _ _
  keyroot_bounds r hr := by
    rw [t.flatten_size]
    exact (mem_keyrootScan_iff.1 hr).1
  covered u hu hn := by
    rw [t.flatten_size] at hn
    exact exists_keyroot hu hn

end OrderedTree

end Eval
end OcrOrchestrator
