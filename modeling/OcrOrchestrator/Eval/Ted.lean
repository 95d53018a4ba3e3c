import Mathlib.Data.Finset.Insert
import Mathlib.Algebra.BigOperators.Group.List.Basic
import Mathlib.Algebra.GroupWithZero.Nat

/-!
# Tree edit distance

`app/eval/ted.py`: how a nested document is flattened into postorder arrays, and how the
distance of two flattened trees is computed.

A node arrives as an arbitrary Python value.  What the code looks at is whether it is a
mapping, and if so what it holds under the label key and under the children key; a `Node`
keeps exactly that.  Labels are compared and never inspected, so their type is left open.

The arrays keep the sentinel at position 0.  A matrix is a function of its two indices: the
code allocates both with more cells than it ever uses.

## Main definitions

* `parseTree` — the walk with an explicit stack, and the keyroot scan.
* `treeEditDistance` — one forest pass for every pair of keyroots.
-/

namespace OcrOrchestrator
namespace Eval

/-- A tree node, as `parse_tree` reads it under its two keys.

A value that is not a mapping is its own label.  A mapping has a label, unless the key is
missing, and a sequence of children, which is empty when the key is missing or holds a
value Python counts as false.  It is malformed when the children are a string or no
sequence at all. -/
inductive Node (α : Type) where
  | value (v : α)
  | mapping (label : Option α) (children : List (Node α))
  | malformed (label : Option α) (childrenType : String)

/-- The two `ValueError`s of the parser: "tree node is missing {label_key!r}: {node!r}" and
"{children_key!r} must be a sequence, got {type(children).__name__}". -/
inductive TreeError (α : Type) where
  | missingLabel (labelKey : String) (node : Node α)
  | notASequence (childrenKey childrenType : String)

/-- `_label_of`. -/
def labelOf {α : Type} (labelKey : String) : Node α → Except (TreeError α) α
  | .value v => .ok v
  | .mapping (some label) _ => .ok label
  | .malformed (some label) _ => .ok label
  | node => .error (.missingLabel labelKey node)

/-- `_children_of`. -/
def childrenOf {α : Type} (childrenKey : String) : Node α → Except (TreeError α) (List (Node α))
  | .value _ => .ok []
  | .mapping _ children => .ok children
  | .malformed _ childrenType => .error (.notASequence childrenKey childrenType)

/-- A tree flattened into postorder arrays, all of them 1-indexed with a sentinel at 0. -/
structure Tree (α : Type) where
  labels : List (Option α)
  leftmost : List ℕ
  keyroots : List ℕ
  depth : ℕ

namespace Tree
variable {α : Type}

/-- The number of nodes: the labels without the sentinel. -/
def size (t : Tree α) : ℕ := t.labels.length - 1

/-- `labels[i]`. -/
def label (t : Tree α) (i : ℕ) : Option α := t.labels.getD i none

/-- `leftmost[i]`: the index of the leftmost leaf under node `i`. -/
def left (t : Tree α) (i : ℕ) : ℕ := t.leftmost.getD i 0

end Tree

/-! ## Parsing -/

section Parse
variable {α : Type}

/-- A stack entry: the node, whether its children have been pushed already, the index its
subtree starts at (known once they have), and its depth. -/
structure Frame (α : Type) where
  node : Node α
  expanded : Bool
  start : ℕ
  depth : ℕ

/-- The arrays under construction, and the greatest depth seen. -/
structure Flat (α : Type) where
  labels : List (Option α)
  leftmost : List ℕ
  maxDepth : ℕ

/-- The stack, top first, after a node with these children is taken off it for the first
time: the node again, to be emitted last, and above it the children, pushed in reverse so
that the leftmost comes out first. -/
def expand (node : Node α) (children : List (Node α)) (here depth : ℕ)
    (stack : List (Frame α)) : List (Frame α) :=
  children.reverse.foldl (fun stack child => ⟨child, false, 0, depth + 1⟩ :: stack)
    (⟨node, true, here, depth⟩ :: stack)

theorem expand_eq (node : Node α) (children : List (Node α)) (here depth : ℕ)
    (stack : List (Frame α)) :
    expand node children here depth stack =
      children.map (fun child => ⟨child, false, 0, depth + 1⟩) ++
        ⟨node, true, here, depth⟩ :: stack := by
  rw [expand, List.foldl_reverse]
  induction children with
  | nil => rfl
  | cons child children ih => simp [ih]

mutual
/-- The number of nodes of a nested node. -/
def Node.count : Node α → ℕ
  | .value _ => 1
  | .mapping _ children => countNodes children + 1
  | .malformed _ _ => 1

/-- The number of nodes of a sequence of nested nodes. -/
def countNodes : List (Node α) → ℕ
  | [] => 0
  | child :: children => child.count + countNodes children
end

/-- How many times the walk will still take a node off the stack because of this entry. -/
def Frame.weight (f : Frame α) : ℕ :=
  if f.expanded then 1 else 2 * f.node.count

/-- Pushing the children of a node leaves less to do than the node itself. -/
theorem weight_expand {node : Node α} {children : List (Node α)} {childrenKey : String}
    (h : childrenOf childrenKey node = .ok children) (here depth : ℕ) (stack : List (Frame α)) :
    ((expand node children here depth stack).map Frame.weight).sum <
      2 * node.count + (stack.map Frame.weight).sum := by
  have hsum : ∀ cs : List (Node α), ((cs.map fun child =>
      (⟨child, false, 0, depth + 1⟩ : Frame α)).map Frame.weight).sum = 2 * countNodes cs := by
    intro cs
    induction cs with
    | nil => rfl
    | cons c cs ih =>
      simp only [List.map_cons, List.sum_cons, ih, countNodes]
      simp only [Frame.weight, Bool.false_eq_true, if_false]
      omega
  have hcount : countNodes children < node.count := by
    cases node with
    | value v =>
      obtain rfl : [] = children := by simpa [childrenOf] using h
      simp [Node.count, countNodes]
    | mapping label cs =>
      obtain rfl : cs = children := by simpa [childrenOf] using h
      simp [Node.count]
    | malformed label ty => simp [childrenOf] at h
  rw [expand_eq, List.map_append, List.sum_append, hsum, List.map_cons, List.sum_cons]
  simp only [Frame.weight, if_true]
  omega

/-- The `while stack` loop of `parse_tree`.  A node is taken off the stack twice: first to
note where its subtree starts and to push its children, then to be emitted. -/
def walk (labelKey childrenKey : String) :
    List (Frame α) → Flat α → Except (TreeError α) (Flat α)
  | [], flat => .ok flat
  | f :: stack, flat =>
    if f.expanded then
      match labelOf labelKey f.node with
      | .error e => .error e
      | .ok label =>
        walk labelKey childrenKey stack
          { flat with labels := flat.labels ++ [some label]
                      leftmost := flat.leftmost ++ [f.start] }
    else
      match _h : childrenOf childrenKey f.node with
      | .error e => .error e
      | .ok children =>
        walk labelKey childrenKey (expand f.node children flat.labels.length f.depth stack)
          { flat with maxDepth := max flat.maxDepth f.depth }
termination_by stack => (stack.map Frame.weight).sum
decreasing_by
  · simp [Frame.weight, *]
  · rename_i hexp
    have := weight_expand _h flat.labels.length f.depth stack
    simpa [Frame.weight, hexp] using this

/-- One step of the keyroot scan: the first node seen with a leftmost value is the highest
one that has it. -/
def keyrootStep (leftmost : List ℕ) (st : Finset ℕ × List ℕ) (k : ℕ) : Finset ℕ × List ℕ :=
  if leftmost.getD k 0 ∈ st.1 then st
  else (insert (leftmost.getD k 0) st.1, st.2 ++ [k])

/-- The keyroots, ascending: the scan runs from the last node down. -/
def keyrootScan (leftmost : List ℕ) (n : ℕ) : List ℕ :=
  ((List.range' 1 n).reverse.foldl (keyrootStep leftmost) (∅, [])).2.reverse

/-- `parse_tree`. -/
def parseTree (labelKey childrenKey : String) : Option (Node α) → Except (TreeError α) (Tree α)
  | none => .ok ⟨[none], [0], [], 0⟩
  | some root => do
    let flat ← walk labelKey childrenKey [⟨root, false, 0, 1⟩] ⟨[none], [0], 0⟩
    .ok ⟨flat.labels, flat.leftmost, keyrootScan flat.leftmost (flat.labels.length - 1),
      flat.maxDepth⟩

end Parse

/-! ## The distance -/

section Distance
variable {α : Type}

/-- A matrix of the dynamic program. -/
abbrev Table := ℕ → ℕ → ℕ

/-- `table[i][j] = value`. -/
def Table.set (table : Table) (i j value : ℕ) : Table :=
  fun i' j' => if i' = i ∧ j' = j then value else table i' j'

@[simp] theorem Table.set_self (table : Table) (i j value : ℕ) :
    table.set i j value i j = value := by
  simp [Table.set]

theorem Table.set_of_ne (table : Table) {i j i' j' : ℕ} (value : ℕ)
    (h : i' ≠ i ∨ j' ≠ j) : table.set i j value i' j' = table i' j' := by
  have : ¬ (i' = i ∧ j' = j) := by omega
  simp [Table.set, this]

/-- The two matrices: subtree distances, kept across passes, and forest distances, reused
by every pass. -/
structure Tables where
  treedist : Table
  forestdist : Table

/-- The base cases of a pass: emptying one forest into the other. -/
def emptyForests (rows cols : ℕ) (forestdist : Table) : Table :=
  let forestdist := (List.range' 1 rows).foldl
    (fun table i => table.set i 0 (table (i - 1) 0 + 1)) (forestdist.set 0 0 0)
  (List.range' 1 cols).foldl (fun table j => table.set 0 j (table 0 (j - 1) + 1)) forestdist

variable [DecidableEq α]

/-- The innermost loop body: cell `(i, j)` of the pass for `rootA` and `rootB`. -/
def forestCell (a b : Tree α) (rootA rootB i : ℕ) (t : Tables) (j : ℕ) : Tables :=
  let spineA := a.left rootA
  let offsetA := spineA - 1
  let spineB := b.left rootB
  let offsetB := spineB - 1
  let nodeA := i + offsetA
  let leftOfA := a.left nodeA
  let nodeB := j + offsetB
  let leftOfB := b.left nodeB
  let delete := t.forestdist (i - 1) j + 1
  let insert := t.forestdist i (j - 1) + 1
  if leftOfA = spineA ∧ leftOfB = spineB then
    -- both forests are whole trees, so this cell is the subtree distance
    let relabel := t.forestdist (i - 1) (j - 1) + (if a.label nodeA = b.label nodeB then 0 else 1)
    let value := if delete < insert then delete else insert
    let value := if relabel < value then relabel else value
    { treedist := t.treedist.set nodeA nodeB value
      forestdist := t.forestdist.set i j value }
  else
    -- match the two subtrees whole, then align what sits to the left of both
    let detached := t.forestdist (leftOfA - 1 - offsetA) (leftOfB - 1 - offsetB) +
      t.treedist nodeA nodeB
    let value := if delete < insert then delete else insert
    let value := if detached < value then detached else value
    { t with forestdist := t.forestdist.set i j value }

/-- Row `i` of a pass. -/
def forestRow (a b : Tree α) (rootA rootB : ℕ) (t : Tables) (i : ℕ) : Tables :=
  (List.range' 1 (rootB - (b.left rootB - 1))).foldl (forestCell a b rootA rootB i) t

/-- The forest pass for one pair of keyroots. -/
def forestPass (a b : Tree α) (rootA : ℕ) (t : Tables) (rootB : ℕ) : Tables :=
  let rows := rootA - (a.left rootA - 1)
  let cols := rootB - (b.left rootB - 1)
  (List.range' 1 rows).foldl (forestRow a b rootA rootB)
    { t with forestdist := emptyForests rows cols t.forestdist }

/-- All passes for one keyroot of the first tree. -/
def keyrootPasses (a b : Tree α) (t : Tables) (rootA : ℕ) : Tables :=
  b.keyroots.foldl (forestPass a b rootA) t

/-- `tree_edit_distance`. -/
def treeEditDistance (a b : Tree α) : ℕ :=
  if a.size = 0 then b.size
  else if b.size = 0 then a.size
  else (a.keyroots.foldl (keyrootPasses a b) ⟨fun _ _ => 0, fun _ _ => 0⟩).treedist a.size b.size

end Distance
end Eval
end OcrOrchestrator
