import OcrOrchestrator.Lib.Postorder

/-!
# Ordered labelled trees, by path and by number

The abstract side of `app/eval/ted.py`.  A node of a tree is named by the path that leads
to it from the root, which makes ancestry and left-to-right order plain.  The code names
nodes by their number in postorder and remembers where each subtree starts.  This module
lists the nodes of a tree with both names and shows that the numbers say as much as the
paths do.

## Main definitions

* `OrderedTree`, `OrderedTree.nodes`, `pathOrder` — trees, their nodes, and the relations on
  paths.
* `OrderedTree.entries` — the nodes in postorder, with number, start, path and label.
* `Block` — a list of entries in which numbers and paths agree.
-/

namespace OcrOrchestrator
namespace Eval

open Lib

/-! ## Ordered labelled trees -/

/-- A finite ordered labelled tree. -/
inductive OrderedTree (α : Type) where
  | node (label : α) (children : List (OrderedTree α))

variable {α : Type}

mutual
/-- The nodes of a tree whose root is reached by the path `p`: each is named by the path
that leads to it, child number by child number, and carries its label. -/
def OrderedTree.nodes (p : List ℕ) : OrderedTree α → List (List ℕ × α)
  | .node label children => (p, label) :: childNodes p 0 children

/-- The nodes of the children of `p` from child number `i` on. -/
def childNodes (p : List ℕ) (i : ℕ) : List (OrderedTree α) → List (List ℕ × α)
  | [] => []
  | t :: ts => t.nodes (p ++ [i]) ++ childNodes p (i + 1) ts
end

mutual
/-- The number of levels of a tree. -/
def OrderedTree.height : OrderedTree α → ℕ
  | .node _ children => childHeight children + 1

/-- The number of levels of a sequence of trees. -/
def childHeight : List (OrderedTree α) → ℕ
  | [] => 0
  | t :: ts => max t.height (childHeight ts)
end

/-! ## Paths -/

/-- `p` leads to the left of `q`: where the two paths part, `p` takes the earlier child. -/
def pathLeft : List ℕ → List ℕ → Prop
  | i :: p, j :: q => i < j ∨ (i = j ∧ pathLeft p q)
  | _, _ => False

/-- Ancestry and left-to-right order of nodes named by their paths. -/
def pathOrder (α : Type) : NodeOrder (List ℕ × α) where
  anc x y := x.1 <+: y.1 ∧ x.1 ≠ y.1
  left x y := pathLeft x.1 y.1

theorem pathLeft_append (c : List ℕ) {p q : List ℕ} (h : pathLeft p q) :
    pathLeft (c ++ p) (c ++ q) := by
  induction c with
  | nil => exact h
  | cons i c ih => exact Or.inr ⟨rfl, ih⟩

/-- Two paths through different children of one node. -/
theorem pathLeft_of_child {p q r : List ℕ} {i j : ℕ} (hq : p ++ [i] <+: q)
    (hr : p ++ [j] <+: r) (hij : i < j) : pathLeft q r := by
  obtain ⟨q', rfl⟩ := hq
  obtain ⟨r', rfl⟩ := hr
  rw [List.append_assoc, List.append_assoc]
  exact pathLeft_append p (Or.inl hij)

/-- A path that leads on from another parts with it in neither direction. -/
theorem not_pathLeft_of_isPrefix {p q : List ℕ} (h : p <+: q) :
    ¬ pathLeft p q ∧ ¬ pathLeft q p := by
  induction p generalizing q with
  | nil => cases q <;> simp [pathLeft]
  | cons i p ih =>
    cases q with
    | nil => simp at h
    | cons j q =>
      obtain ⟨rfl, hpq⟩ := List.cons_prefix_cons.1 h
      have := ih hpq
      simp [pathLeft, this]

theorem pathLeft_asymm {p q : List ℕ} (h : pathLeft p q) : ¬ pathLeft q p := by
  induction p generalizing q with
  | nil => simp [pathLeft] at h
  | cons i p ih =>
    cases q with
    | nil => simp [pathLeft] at h
    | cons j q =>
      rcases h with h | ⟨rfl, h⟩
      · rintro (h' | ⟨rfl, -⟩) <;> omega
      · rintro (h' | ⟨-, h'⟩)
        · omega
        · exact ih h h'

/-! ## Postorder -/

/-- One node in postorder: its number, the number its subtree starts at, the path to it and its
label. -/
structure Entry (α : Type) where
  index : ℕ
  start : ℕ
  path : List ℕ
  label : α

/-- The node an entry is about. -/
def Entry.node (e : Entry α) : List ℕ × α := (e.path, e.label)

mutual
/-- The nodes of a tree in postorder, for a tree whose first node gets the number `s` and
whose root is reached by the path `p`. -/
def OrderedTree.entries (s : ℕ) (p : List ℕ) : OrderedTree α → List (Entry α)
  | .node label children =>
    childEntries s p 0 children ++
      [⟨s + (childEntries s p 0 children).length, s, p, label⟩]

/-- The nodes of the children of `p` from child number `i` on, in postorder. -/
def childEntries (s : ℕ) (p : List ℕ) (i : ℕ) : List (OrderedTree α) → List (Entry α)
  | [] => []
  | t :: ts =>
    t.entries s (p ++ [i]) ++
      childEntries (s + (t.entries s (p ++ [i])).length) p (i + 1) ts
end

/-- Two nodes, the first before the second in postorder: either it is below the second, whose
subtree then starts no later, or it is to the left, and the other subtree starts after
it. -/
def Entry.Before (x y : Entry α) : Prop :=
  ((y.path <+: x.path ∧ y.path ≠ x.path) ∧ y.start ≤ x.start) ∨
    (pathLeft x.path y.path ∧ x.index < y.start)

/-- A block of entries numbered from `s` on, in which numbers and paths agree. -/
structure Block (s : ℕ) (E : List (Entry α)) : Prop where
  index : E.map Entry.index = List.range' s E.length
  start : ∀ e ∈ E, s ≤ e.start ∧ e.start ≤ e.index
  before : E.Pairwise Entry.Before

namespace Block
variable {s : ℕ} {E F : List (Entry α)}

theorem nil : Block s ([] : List (Entry α)) :=
  ⟨rfl, by simp, List.Pairwise.nil⟩

theorem index_lt (h : Block s E) {e : Entry α} (he : e ∈ E) : e.index < s + E.length := by
  have hmem : e.index ∈ E.map Entry.index := List.mem_map_of_mem he
  rw [h.index, List.mem_range'_1] at hmem
  exact hmem.2

/-- Two blocks in a row, the first to the left of the second. -/
theorem append (hE : Block s E) (hF : Block (s + E.length) F)
    (hleft : ∀ x ∈ E, ∀ y ∈ F, pathLeft x.path y.path) : Block s (E ++ F) := by
  refine ⟨?_, ?_, ?_⟩
  · rw [List.map_append, hE.index, hF.index, List.length_append, ← List.range'_append_1]
  · intro e he
    rcases List.mem_append.1 he with he | he
    · exact hE.start e he
    · have := hF.start e he
      omega
  · refine List.pairwise_append.2 ⟨hE.before, hF.before, fun x hx y hy => Or.inr ⟨hleft x hx y hy, ?_⟩⟩
    have hx' := hE.index_lt hx
    have hy' := hF.start y hy
    omega

/-- A node after the block of its descendants. -/
theorem root (h : Block s E) {p : List ℕ} (label : α)
    (hbelow : ∀ e ∈ E, p <+: e.path ∧ p ≠ e.path) :
    Block s (E ++ [⟨s + E.length, s, p, label⟩]) := by
  refine ⟨?_, ?_, ?_⟩
  · rw [List.map_append, h.index, List.length_append, ← List.range'_append_1]
    rfl
  · intro e he
    rcases List.mem_append.1 he with he | he
    · exact h.start e he
    · obtain rfl := List.mem_singleton.1 he
      simp
  · refine List.pairwise_append.2 ⟨h.before, List.pairwise_singleton _ _, fun x hx y hy => ?_⟩
    obtain rfl := List.mem_singleton.1 hy
    exact Or.inl ⟨hbelow x hx, (h.start x hx).1⟩

end Block

mutual
/-- Every node of a tree is reached through its root. -/
theorem OrderedTree.prefix_of_mem_entries {s : ℕ} {p : List ℕ} :
    ∀ (t : OrderedTree α), ∀ e ∈ t.entries s p, p <+: e.path
  | .node label children, e, he => by
    rw [OrderedTree.entries] at he
    rcases List.mem_append.1 he with he | he
    · obtain ⟨j, -, hj⟩ := prefix_of_mem_childEntries children e he
      exact (List.prefix_append p [j]).trans hj
    · obtain rfl := List.mem_singleton.1 he
      exact List.prefix_refl p

/-- Every node below `p` is reached through a child of `p`. -/
theorem prefix_of_mem_childEntries {s : ℕ} {p : List ℕ} {i : ℕ} :
    ∀ (ts : List (OrderedTree α)), ∀ e ∈ childEntries s p i ts,
      ∃ j, i ≤ j ∧ p ++ [j] <+: e.path
  | [], e, he => by simp [childEntries] at he
  | t :: ts, e, he => by
    rw [childEntries] at he
    rcases List.mem_append.1 he with he | he
    · exact ⟨i, le_rfl, OrderedTree.prefix_of_mem_entries t e he⟩
    · obtain ⟨j, hij, hj⟩ := prefix_of_mem_childEntries ts e he
      exact ⟨j, by omega, hj⟩
end

mutual
/-- The entries of a tree are a block. -/
theorem OrderedTree.block_entries (s : ℕ) (p : List ℕ) :
    ∀ t : OrderedTree α, Block s (t.entries s p)
  | .node label children => by
    rw [OrderedTree.entries]
    refine (block_childEntries s p 0 children).root label fun e he => ?_
    obtain ⟨j, -, hj⟩ := prefix_of_mem_childEntries children e he
    refine ⟨(List.prefix_append p [j]).trans hj, fun hp => ?_⟩
    have hlen := hj.length_le
    rw [← hp, List.length_append, List.length_singleton] at hlen
    omega

/-- So are those of a sequence of trees. -/
theorem block_childEntries (s : ℕ) (p : List ℕ) (i : ℕ) :
    ∀ ts : List (OrderedTree α), Block s (childEntries s p i ts)
  | [] => by rw [childEntries]; exact Block.nil
  | t :: ts => by
    rw [childEntries]
    refine (OrderedTree.block_entries s (p ++ [i]) t).append
      (block_childEntries _ p (i + 1) ts) fun x hx y hy => ?_
    have hxp := OrderedTree.prefix_of_mem_entries t x hx
    obtain ⟨j, hij, hyp⟩ := prefix_of_mem_childEntries ts y hy
    exact pathLeft_of_child hxp hyp (by omega)
end

mutual
/-- The entries of a tree are its nodes. -/
theorem OrderedTree.mem_nodes_iff {s : ℕ} {p : List ℕ} {x : List ℕ × α} :
    ∀ t : OrderedTree α, x ∈ t.nodes p ↔ ∃ e ∈ t.entries s p, e.node = x
  | .node label children => by
    rw [OrderedTree.nodes, OrderedTree.entries, List.mem_cons,
      mem_childNodes_iff (s := s) children]
    simp only [List.mem_append, List.mem_singleton, or_and_right, exists_or, exists_eq_left]
    rw [or_comm, eq_comm]
    rfl

/-- The entries of a sequence of trees are its nodes. -/
theorem mem_childNodes_iff {s : ℕ} {p : List ℕ} {i : ℕ} {x : List ℕ × α} :
    ∀ ts : List (OrderedTree α),
      x ∈ childNodes p i ts ↔ ∃ e ∈ childEntries s p i ts, e.node = x
  | [] => by simp [childNodes, childEntries]
  | t :: ts => by
    rw [childNodes, childEntries, List.mem_append, OrderedTree.mem_nodes_iff (s := s) t,
      mem_childNodes_iff (s := s + (t.entries s (p ++ [i])).length) ts]
    simp only [List.mem_append, or_and_right, exists_or]
end

/-! ## Numbers and paths -/

/-- What the numbers of two nodes say about their paths. -/
theorem Entry.Before.relations {x y : Entry α} (h : x.Before y) (hx : x.start ≤ x.index) :
    x.path ≠ y.path ∧ ¬ (pathOrder α).anc x.node y.node ∧
      ((pathOrder α).anc y.node x.node ↔ y.start ≤ x.index) ∧
      ¬ (pathOrder α).left y.node x.node ∧
      ((pathOrder α).left x.node y.node ↔ x.index < y.start) := by
  simp only [pathOrder, Entry.node]
  rcases h with ⟨⟨hpre, hne⟩, hstart⟩ | ⟨hleft, hlt⟩
  · have hnot := not_pathLeft_of_isPrefix hpre
    have hanti : ¬ x.path <+: y.path := fun h => hne (hpre.eq_of_length_le h.length_le)
    have hle : y.start ≤ x.index := by omega
    exact ⟨hne.symm, fun h => hanti h.1, iff_of_true ⟨hpre, hne⟩ hle, hnot.1,
      iff_of_false hnot.2 (by omega)⟩
  · have hxy : ¬ x.path <+: y.path := fun h => (not_pathLeft_of_isPrefix h).1 hleft
    have hyx : ¬ y.path <+: x.path := fun h => (not_pathLeft_of_isPrefix h).2 hleft
    exact ⟨fun h => hxy (h ▸ List.prefix_refl _), fun h => hxy h.1,
      iff_of_false (fun h => hyx h.1) (by omega), pathLeft_asymm hleft,
      iff_of_true hleft hlt⟩

namespace OrderedTree

/-- The label of the root. -/
def label : OrderedTree α → α
  | .node label _ => label

/-- The number of nodes. -/
def size (t : OrderedTree α) : ℕ := (t.entries 1 []).length

/-- The node with number `i`; the default is never looked at. -/
def entry (t : OrderedTree α) (i : ℕ) : Entry α :=
  (t.entries 1 []).getD (i - 1) ⟨0, 0, [], t.label⟩

theorem size_pos (t : OrderedTree α) : 0 < t.size := by
  cases t with
  | node label children => simp [size, entries]

variable (t : OrderedTree α) {i k : ℕ}

theorem entry_eq (hi : 0 < i) (hn : i ≤ t.size) :
    ∃ h : i - 1 < (t.entries 1 []).length, t.entry i = (t.entries 1 [])[i - 1] := by
  have h : i - 1 < (t.entries 1 []).length := by
    have : i ≤ (t.entries 1 []).length := hn
    omega
  exact ⟨h, by simp [entry, h]⟩

theorem entry_mem (hi : 0 < i) (hn : i ≤ t.size) : t.entry i ∈ t.entries 1 [] := by
  obtain ⟨h, he⟩ := t.entry_eq hi hn
  rw [he]
  exact List.getElem_mem h

theorem entry_index (hi : 0 < i) (hn : i ≤ t.size) : (t.entry i).index = i := by
  obtain ⟨h, he⟩ := t.entry_eq hi hn
  have hindex : ((t.entries 1 []).map Entry.index)[i - 1]? =
      (List.range' 1 (t.entries 1 []).length)[i - 1]? := by
    rw [(t.block_entries 1 []).index]
  rw [List.getElem?_map, List.getElem?_eq_getElem h, List.getElem?_range' h] at hindex
  rw [he]
  simp only [Option.map_some, Option.some.injEq] at hindex
  omega

theorem entry_before (hi : 0 < i) (hik : i < k) (hn : k ≤ t.size) :
    (t.entry i).Before (t.entry k) := by
  obtain ⟨h₁, he₁⟩ := t.entry_eq hi (by omega)
  obtain ⟨h₂, he₂⟩ := t.entry_eq (by omega : 0 < k) hn
  rw [he₁, he₂]
  exact List.pairwise_iff_getElem.1 (t.block_entries 1 []).before _ _ h₁ h₂ (by omega)

variable [DecidableEq α]

/-- The numbers name all nodes of the tree. -/
theorem nodes_toFinset :
    (t.nodes []).toFinset = (Finset.Ioc 0 t.size).image fun i => (t.entry i).node := by
  ext x
  rw [List.mem_toFinset, mem_nodes_iff (s := 1) t]
  simp only [Finset.mem_image, Finset.mem_Ioc]
  constructor
  · rintro ⟨e, he, rfl⟩
    obtain ⟨i, hi, rfl⟩ := List.getElem_of_mem he
    refine ⟨i + 1, ⟨by omega, hi⟩, ?_⟩
    simp [entry, hi]
  · rintro ⟨i, ⟨hi, hn⟩, rfl⟩
    exact ⟨_, t.entry_mem hi hn, rfl⟩

end OrderedTree
end Eval
end OcrOrchestrator
