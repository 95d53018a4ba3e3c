import OcrOrchestrator.Eval.Parse
import OcrOrchestrator.Eval.Text
import OcrOrchestrator.Lib.ExtRat

/-!
# Documents

What `/evaluate` is sent: JSON of any shape, decoded.  Two walks go over it.  `parse_tree`
numbers the nodes for the structure score; `_collect` gathers the text and the boxes for the
other two.  This module gives both the same values to walk over and shows that they see the
same document.

A mapping is kept as the list of its members; looking a key up takes the first.

## Main definitions

* `Value` — a decoded JSON value.
* `Value.toNode`, `parseValue` — a value as `parse_tree` reads it.
* `traverse`, `collect` — the other walk.
* `Value.document` — the tree of nodes, defined by recursion.
-/

namespace OcrOrchestrator
namespace Eval

open Lib

/-- A JSON value, as Python decodes it. -/
inductive Value where
  | null
  | bool (b : Bool)
  | int (n : ℤ)
  | float (x : ExtRat)
  | str (s : Str)
  | list (xs : List Value)
  | dict (members : List (Str × Value))

namespace Value

/-- `type(value).__name__`. -/
def typeName : Value → String
  | null => "NoneType"
  | bool _ => "bool"
  | int _ => "int"
  | float _ => "float"
  | str _ => "str"
  | list _ => "list"
  | dict _ => "dict"

/-- Does Python count the value as true? -/
def truthy : Value → Bool
  | null => false
  | bool b => b
  | int n => n ≠ 0
  | float x => x ≠ .fin 0
  | str s => !s.isEmpty
  | list xs => !xs.isEmpty
  | dict members => !members.isEmpty

/-- `node.get(key) or ()`, where `none` is the empty tuple. -/
def getOrEmpty (key : Str) (members : List (Str × Value)) : Option Value :=
  (members.lookup key).filter truthy

/-- The list a mapping holds under `key`, if it is a mapping and holds one there. -/
def listUnder (key : Str) : Value → List Value
  | dict members =>
    match members.lookup key with
    | some (list xs) => xs
    | _ => []
  | _ => []

section Fold
variable {β : Type}

mutual
/-- Recursion over a value and the lists held under `key`. -/
def fold (key : Str) (f : Value → List β → β) : Value → β
  | dict members => f (dict members) (foldMembers key f members)
  | v => f v []

/-- The results for the list held under `key`. -/
def foldMembers (key : Str) (f : Value → List β → β) : List (Str × Value) → List β
  | [] => []
  | m :: members => if key = m.1 then foldMember key f m else foldMembers key f members

/-- The results for the list that is this member's value. -/
def foldMember (key : Str) (f : Value → List β → β) : Str × Value → List β
  | (_, v) => foldList key f v

/-- The results for a value that is a list. -/
def foldList (key : Str) (f : Value → List β → β) : Value → List β
  | list xs => foldAll key f xs
  | _ => []

/-- The results for the elements of a list. -/
def foldAll (key : Str) (f : Value → List β → β) : List Value → List β
  | [] => []
  | v :: vs => fold key f v :: foldAll key f vs
end

variable (key : Str) (f : Value → List β → β)

theorem foldAll_eq (vs : List Value) : foldAll key f vs = vs.map (fold key f) := by
  induction vs with
  | nil => rfl
  | cons v vs ih => simp [foldAll, ih]

theorem foldMembers_eq (members : List (Str × Value)) :
    foldMembers key f members = (listUnder key (dict members)).map (fold key f) := by
  induction members with
  | nil => rfl
  | cons m members ih =>
    obtain ⟨k, v⟩ := m
    by_cases hk : key = k
    · subst hk
      simp only [foldMembers, foldMember, listUnder, List.lookup_cons_self, if_true]
      cases v <;> simp [foldList, foldAll_eq]
    · have hne : (key == k) = false := by simpa using hk
      simp only [foldMembers, hk, if_false, ih, listUnder, List.lookup_cons, hne]

/-- One step of the recursion, whatever the value. -/
theorem fold_eq (v : Value) : v.fold key f = f v ((v.listUnder key).map (fold key f)) := by
  cases v with
  | dict members => rw [fold, foldMembers_eq]
  | _ => simp [fold, listUnder]

end Fold

/-! ## The two walks -/

/-- A node as `parse_tree` reads it under its two keys.  Labels are compared with `==` and
never inspected: `label` is the class of a label under that comparison. -/
def toNode {α : Type} (label : Value → α) (labelKey childrenKey : Str) : Value → Node α :=
  fold childrenKey fun
    | dict members, children =>
      match getOrEmpty childrenKey members with
      | none => .mapping ((members.lookup labelKey).map label) []
      | some (list _) => .mapping ((members.lookup labelKey).map label) children
      | some v => .malformed ((members.lookup labelKey).map label) v.typeName
    | v, _ => .value (label v)

end Value

instance codePointNeZero : NeZero 0x110000 := ⟨by decide⟩

/-- A string literal of the source. -/
def ofLiteral (s : String) : Str := s.toList.map fun c => Fin.ofNat 0x110000 c.toNat

/-- A key as it is shown in an error. -/
def showKey (key : Str) : String := String.ofList (key.map fun c => Char.ofNat c)

/-- `parse_tree`, on a decoded value. -/
def parseValue {α : Type} (label : Value → α) (labelKey childrenKey : Str) :
    Value → Except (TreeError α) (Tree α)
  | .null => parseTree (showKey labelKey) (showKey childrenKey) none
  | root =>
    parseTree (showKey labelKey) (showKey childrenKey)
      (some (root.toNode label labelKey childrenKey))

section Traverse
variable {σ : Type} (childrenKey : Str)

/-- The stack, top first, after the children of a node are pushed in reverse. -/
def pushChildren (stack : List Value) : Value → List Value
  | .dict members =>
    match Value.getOrEmpty childrenKey members with
    | some (.list children) => children.reverse.foldl (fun stack child => child :: stack) stack
    | _ => stack
  | _ => stack

/-- What a node pushes is the list under the key: an empty list counts as false, and pushing
it would change nothing. -/
theorem pushChildren_eq (stack : List Value) (v : Value) :
    pushChildren childrenKey stack v = v.listUnder childrenKey ++ stack := by
  cases v with
  | dict members =>
    simp only [pushChildren, Value.getOrEmpty, Value.listUnder, List.foldl_reverse]
    cases members.lookup childrenKey with
    | none => simp
    | some child =>
      simp only [Option.filter_some]
      cases child with
      | list xs => cases xs <;> simp [Value.truthy]
      | _ => split <;> simp_all
  | _ => simp [pushChildren, Value.listUnder]

/-- The number of nodes of a value. -/
def Value.weight : Value → ℕ := Value.fold childrenKey fun _ weights => weights.sum + 1

theorem Value.weight_eq (v : Value) : v.weight childrenKey =
    ((v.listUnder childrenKey).map (Value.weight childrenKey)).sum + 1 :=
  Value.fold_eq childrenKey _ v

/-- The `while stack` loop of `_collect`; `visit` is what its body does with a node besides
pushing the children. -/
def traverse (visit : σ → Value → σ) : List Value → σ → σ
  | [], s => s
  | node :: stack, s => traverse visit (pushChildren childrenKey stack node) (visit s node)
termination_by stack => (stack.map (Value.weight childrenKey)).sum
decreasing_by
  rw [pushChildren_eq, List.map_append, List.sum_append, List.map_cons, List.sum_cons,
    Value.weight_eq childrenKey node]
  omega

end Traverse

/-- What `_collect` does with a node: its text, if that is a non-empty string, and its box, if
that is not null.  Only a mapping has either. -/
def gather (textKey bboxKey : Str) (found : List Str × List Value) : Value → List Str × List Value
  | .dict members =>
    let parts :=
      match members.lookup textKey with
      | some (.str s) => if s.isEmpty then found.1 else found.1 ++ [s]
      | _ => found.1
    let boxes :=
      match members.lookup bboxKey with
      | none => found.2
      | some .null => found.2
      | some box => found.2 ++ [box]
    (parts, boxes)
  | _ => found

/-- `"\n".join`. -/
def joinLines (parts : List Str) : Str := List.intercalate [(10 : CodePoint)] parts

/-- `_collect`: the text and the boxes of a document, in document order. -/
def collect (childrenKey textKey bboxKey : Str) : Value → Str × List Value
  | .null => ([], [])
  | root =>
    let found := traverse childrenKey (gather textKey bboxKey) [root] ([], [])
    (joinLines found.1, found.2)

/-! ## The document, by recursion -/

section Recursion
variable {α : Type}

mutual
/-- The labels of a tree in preorder, left to right. -/
def OrderedTree.preorder : OrderedTree α → List α
  | .node label children => label :: preorders children

/-- The labels of a sequence of trees, each in preorder. -/
def preorders : List (OrderedTree α) → List α
  | [] => []
  | t :: ts => t.preorder ++ preorders ts
end

mutual
/-- The nodes of a tree, listed with their paths, are in preorder. -/
theorem OrderedTree.map_snd_nodes : ∀ (t : OrderedTree α) (p : List ℕ),
    (t.nodes p).map Prod.snd = t.preorder
  | .node label children, p => by
    simp [OrderedTree.nodes, OrderedTree.preorder, map_snd_childNodes children p 0]

theorem map_snd_childNodes : ∀ (ts : List (OrderedTree α)) (p : List ℕ) (i : ℕ),
    (childNodes p i ts).map Prod.snd = preorders ts
  | [], p, i => rfl
  | t :: ts, p, i => by
    simp [childNodes, preorders, OrderedTree.map_snd_nodes t, map_snd_childNodes ts p]
end

theorem preorders_eq_flatMap (ts : List (OrderedTree α)) :
    preorders ts = ts.flatMap OrderedTree.preorder := by
  induction ts with
  | nil => rfl
  | cons t ts ih => simp [preorders, ih]

end Recursion

/-- The nodes of a document: each is the value found there, and its children are the elements
of the list it holds under the key. -/
def Value.document (childrenKey : Str) : Value → OrderedTree Value :=
  Value.fold childrenKey OrderedTree.node

theorem Value.document_eq (childrenKey : Str) (v : Value) :
    v.document childrenKey =
      .node v ((v.listUnder childrenKey).map (Value.document childrenKey)) :=
  Value.fold_eq childrenKey _ v

theorem Value.preorder_document (childrenKey : Str) (v : Value) :
    (v.document childrenKey).preorder =
      v :: (v.listUnder childrenKey).flatMap fun c => (c.document childrenKey).preorder := by
  rw [Value.document_eq, OrderedTree.preorder, preorders_eq_flatMap, List.flatMap_map]

/-- The loop visits the documents on the stack one after the other, each in preorder. -/
theorem traverse_eq {σ : Type} (childrenKey : Str) (visit : σ → Value → σ) (stack : List Value)
    (s : σ) : traverse childrenKey visit stack s =
      (stack.flatMap fun v => (v.document childrenKey).preorder).foldl visit s := by
  fun_induction traverse childrenKey visit stack s with
  | case1 s => rfl
  | case2 node stack s ih =>
    rw [ih, pushChildren_eq, List.flatMap_append, List.flatMap_cons, Value.preorder_document,
      List.cons_append, List.foldl_cons]

/-! ## What is gathered -/

/-- The text a node contributes. -/
def Value.textOf (textKey : Str) : Value → Option Str
  | .dict members =>
    match members.lookup textKey with
    | some (.str s) => if s.isEmpty then none else some s
    | _ => none
  | _ => none

/-- The box a node contributes. -/
def Value.bboxOf (bboxKey : Str) : Value → Option Value
  | .dict members =>
    match members.lookup bboxKey with
    | none => none
    | some .null => none
    | some box => some box
  | _ => none

theorem gather_eq (textKey bboxKey : Str) (found : List Str × List Value) (v : Value) :
    gather textKey bboxKey found v =
      (found.1 ++ (v.textOf textKey).toList, found.2 ++ (v.bboxOf bboxKey).toList) := by
  cases v with
  | dict members =>
    simp only [gather, Value.textOf, Value.bboxOf]
    congr 1
    · split
      · split <;> simp
      · simp
    · split <;> simp
  | _ => simp [gather, Value.textOf, Value.bboxOf]

theorem foldl_gather (textKey bboxKey : Str) (vs : List Value) (found : List Str × List Value) :
    vs.foldl (gather textKey bboxKey) found =
      (found.1 ++ vs.filterMap (Value.textOf textKey),
        found.2 ++ vs.filterMap (Value.bboxOf bboxKey)) := by
  induction vs generalizing found with
  | nil => simp
  | cons v vs ih =>
    rw [List.foldl_cons, ih, gather_eq]
    cases htext : v.textOf textKey <;> cases hbox : v.bboxOf bboxKey <;>
      simp [htext, hbox]

/-! ## What is numbered -/

section Numbered
variable {α β : Type}

mutual
/-- A tree with every label replaced. -/
def OrderedTree.map (f : α → β) : OrderedTree α → OrderedTree β
  | .node label children => .node (f label) (mapTrees f children)

def mapTrees (f : α → β) : List (OrderedTree α) → List (OrderedTree β)
  | [] => []
  | t :: ts => t.map f :: mapTrees f ts
end

theorem mapTrees_eq (f : α → β) (ts : List (OrderedTree α)) :
    mapTrees f ts = ts.map (OrderedTree.map f) := by
  induction ts with
  | nil => rfl
  | cons t ts ih => simp [mapTrees, ih]

/-- The same entry with another label. -/
def Entry.map (f : α → β) (e : Entry α) : Entry β := ⟨e.index, e.start, e.path, f e.label⟩

mutual
/-- The numbers and the paths do not depend on the labels. -/
theorem OrderedTree.entries_map (f : α → β) : ∀ (t : OrderedTree α) (s : ℕ) (p : List ℕ),
    (t.map f).entries s p = (t.entries s p).map (Entry.map f)
  | .node label children, s, p => by
    simp [OrderedTree.map, OrderedTree.entries, childEntries_mapTrees f children s p 0, Entry.map]

theorem childEntries_mapTrees (f : α → β) : ∀ (ts : List (OrderedTree α)) (s : ℕ) (p : List ℕ)
    (i : ℕ), childEntries s p i (mapTrees f ts) = (childEntries s p i ts).map (Entry.map f)
  | [], s, p, i => rfl
  | t :: ts, s, p, i => by
    simp [mapTrees, childEntries, OrderedTree.entries_map f t, childEntries_mapTrees f ts]
end

mutual
/-- Postorder and preorder list the same nodes. -/
theorem OrderedTree.entries_perm : ∀ (t : OrderedTree α) (s : ℕ) (p : List ℕ),
    ((t.entries s p).map Entry.node).Perm (t.nodes p)
  | .node label children, s, p => by
    rw [OrderedTree.entries, OrderedTree.nodes, List.map_append]
    exact List.perm_append_comm.trans ((childEntries_perm children s p 0).cons _)

theorem childEntries_perm : ∀ (ts : List (OrderedTree α)) (s : ℕ) (p : List ℕ) (i : ℕ),
    ((childEntries s p i ts).map Entry.node).Perm (childNodes p i ts)
  | [], s, p, i => .nil
  | t :: ts, s, p, i => by
    rw [childEntries, childNodes, List.map_append]
    exact (OrderedTree.entries_perm t s _).append (childEntries_perm ts _ p _)
end

/-- The label of a node: what a mapping holds under the key, or the value itself. -/
def Value.nodeLabel (label : Value → α) (labelKey : Str) : Value → Option α
  | .dict members => (members.lookup labelKey).map label
  | v => some (label v)

variable {label : Value → α} {labelKey childrenKey : Str}

variable (label labelKey childrenKey) in
/-- What the parser makes of a node, with its children read already. -/
theorem Value.toNode_cases (v : Value) :
    (∃ type, v.toNode label labelKey childrenKey =
        .malformed (v.nodeLabel label labelKey) type) ∨
      v.toNode label labelKey childrenKey = .mapping (v.nodeLabel label labelKey)
        ((v.listUnder childrenKey).map (Value.toNode label labelKey childrenKey)) ∨
      ∃ x, v.nodeLabel label labelKey = some x ∧ v.listUnder childrenKey = [] ∧
        v.toNode label labelKey childrenKey = .value x := by
  rw [Value.toNode, Value.fold_eq]
  cases v with
  | dict members =>
    simp only [Value.getOrEmpty, Value.nodeLabel, Value.listUnder]
    cases members.lookup childrenKey with
    | none => simp
    | some child =>
      simp only [Option.filter_some]
      cases child with
      | list xs => cases xs <;> simp [Value.truthy]
      | _ => split <;> simp
  | _ => exact Or.inr (Or.inr ⟨_, rfl, rfl, rfl⟩)

theorem toTrees_forall₂ {cs : List (Node α)} {ts : List (OrderedTree α)}
    (h : toTrees cs = some ts) : List.Forall₂ (fun c t => c.toTree = some t) cs ts := by
  induction cs generalizing ts with
  | nil =>
    obtain rfl : [] = ts := by simpa [toTrees] using h
    exact .nil
  | cons c cs ih =>
    rw [toTrees] at h
    split at h
    · rename_i t ts' ht hts
      obtain rfl : t :: ts' = ts := by simpa using h
      exact .cons ht (ih hts)
    · cases h

theorem map_eq_map_of_forall₂ {γ δ ε : Type} {R : γ → δ → Prop} {f : δ → ε} {g : γ → ε}
    {xs : List γ} {ys : List δ} (h : List.Forall₂ R xs ys)
    (hR : ∀ x ∈ xs, ∀ y, R x y → f y = g x) : ys.map f = xs.map g := by
  induction h with
  | nil => rfl
  | cons hxy _ ih =>
    rw [List.map_cons, List.map_cons, hR _ (List.mem_cons_self ..) _ hxy,
      ih fun x hx => hR x (List.mem_cons_of_mem _ hx)]

variable (childrenKey) in
/-- Induction over a value and the lists held under a key. -/
theorem Value.induction_on {P : Value → Prop}
    (h : ∀ v, (∀ c ∈ Value.listUnder childrenKey v, P c) → P v) (v : Value) : P v := by
  induction hw : v.weight childrenKey using Nat.strong_induction_on generalizing v with
  | _ w ih =>
    refine h v fun c hc => ih _ ?_ c rfl
    have hle : c.weight childrenKey ≤
        ((v.listUnder childrenKey).map (Value.weight childrenKey)).sum :=
      List.le_sum_of_mem (List.mem_map_of_mem hc)
    rw [← hw, Value.weight_eq childrenKey v]
    omega

/-- The tree a document stands for has the document's nodes. -/
theorem Value.map_of_toTree (v : Value) {s : OrderedTree α}
    (h : (v.toNode label labelKey childrenKey).toTree = some s) :
    s.map some = (v.document childrenKey).map (Value.nodeLabel label labelKey) := by
  induction v using Value.induction_on childrenKey generalizing s with
  | h v ih =>
    rw [Value.document_eq, OrderedTree.map, mapTrees_eq]
    obtain ⟨type, hnode⟩ | hnode | ⟨x, hx, hlist, hnode⟩ :=
      v.toNode_cases label labelKey childrenKey
    · simp [hnode, Node.toTree] at h
    · rw [hnode] at h
      cases hlabel : v.nodeLabel label labelKey with
      | none =>
        rw [hlabel] at h
        simp [Node.toTree] at h
      | some x =>
        rw [hlabel, Node.toTree, Option.map_eq_some_iff] at h
        obtain ⟨ts, hts, rfl⟩ := h
        have hall := toTrees_forall₂ hts
        rw [List.forall₂_map_left_iff] at hall
        rw [OrderedTree.map, mapTrees_eq, List.map_map,
          map_eq_map_of_forall₂ hall fun c hc t ht => ih c hc ht]
        rfl
    · obtain rfl : OrderedTree.node x [] = s := by simpa [hnode, Node.toTree] using h
      simp [OrderedTree.map, mapTrees, hx, hlist]

end Numbered

/-! ## One document -/

/-- The nodes of a document in preorder, each with the path that leads to it.  `null` is the
empty document. -/
def Value.nodes (childrenKey : Str) : Value → List (List ℕ × Value)
  | .null => []
  | root => (root.document childrenKey).nodes []

/-- The nodes of a document in postorder, numbered from 1. -/
def Value.entries (childrenKey : Str) : Value → List (Entry Value)
  | .null => []
  | root => (root.document childrenKey).entries 1 []

/-- The nodes `_collect` takes off its stack, in that order. -/
def visited (childrenKey : Str) : Value → List Value
  | .null => []
  | root => traverse childrenKey (fun seen node => seen ++ [node]) [root] []

theorem foldl_concat {γ : Type} (xs seen : List γ) :
    xs.foldl (fun seen x => seen ++ [x]) seen = seen ++ xs := by
  induction xs generalizing seen with
  | nil => simp
  | cons x xs ih => simp [ih]

theorem visited_eq (childrenKey : Str) (root : Value) :
    visited childrenKey root = (root.nodes childrenKey).map Prod.snd := by
  cases root with
  | null => rfl
  | _ =>
    simp only [visited, Value.nodes, OrderedTree.map_snd_nodes, traverse_eq, foldl_concat,
      List.flatMap_singleton, List.nil_append]

theorem collect_eq (childrenKey textKey bboxKey : Str) (root : Value) :
    collect childrenKey textKey bboxKey root =
      (joinLines ((visited childrenKey root).filterMap (Value.textOf textKey)),
        (visited childrenKey root).filterMap (Value.bboxOf bboxKey)) := by
  cases root with
  | null => simp [collect, visited, joinLines]
  | _ => simp only [collect, visited, traverse_eq, foldl_gather, foldl_concat, List.nil_append]

/-- The arrays of the parser, read off the document. -/
theorem arrays_of_parseValue {α : Type} {label : Value → α} {labelKey childrenKey : Str}
    {root : Value} {t : Tree α} (h : parseValue label labelKey childrenKey root = .ok t) :
    t.labels = none ::
        (root.entries childrenKey).map (fun e => e.label.nodeLabel label labelKey) ∧
      t.leftmost = 0 :: (root.entries childrenKey).map Entry.start := by
  by_cases hroot : root = .null
  · subst hroot
    obtain rfl : (⟨[none], [0], [], 0⟩ : Tree α) = t := by
      simpa [parseValue, parseTree] using h
    exact ⟨rfl, rfl⟩
  · have hparse : parseTree (showKey labelKey) (showKey childrenKey)
        (some (root.toNode label labelKey childrenKey)) = .ok t := by
      cases root with
      | null => exact absurd rfl hroot
      | _ => exact h
    obtain ⟨s, hs, rfl⟩ := exists_standsFor_of_parseTree hparse
    cases hs with
    | some hs =>
      rename_i s
      have hentries : root.entries childrenKey = (root.document childrenKey).entries 1 [] := by
        cases root with
        | null => exact absurd rfl hroot
        | _ => rfl
      have hmap := congrArg (OrderedTree.entries 1 []) (root.map_of_toTree hs)
      rw [OrderedTree.entries_map, OrderedTree.entries_map] at hmap
      have hlabels := congrArg (List.map Entry.label) hmap
      have hstarts := congrArg (List.map Entry.start) hmap
      simp only [List.map_map] at hlabels hstarts
      rw [hentries]
      exact ⟨congrArg (none :: ·) hlabels, congrArg (0 :: ·) hstarts⟩

/-- **The two walks see the same document.**  Whatever `parse_tree` accepts, `_collect` with
the same children key takes exactly the numbered nodes off its stack, in preorder, left to
right.  The text is the join of the texts these nodes contribute and the boxes are the boxes
they contribute, both in that order; a node that is no mapping contributes nothing. -/
theorem collect_sees_parsed {α : Type} (label : Value → α)
    (labelKey childrenKey textKey bboxKey : Str) (root : Value) (t : Tree α)
    (h : parseValue label labelKey childrenKey root = .ok t) :
    (t.labels = none ::
        (root.entries childrenKey).map (fun e => e.label.nodeLabel label labelKey) ∧
      t.leftmost = 0 :: (root.entries childrenKey).map Entry.start) ∧
      ((root.entries childrenKey).map Entry.node).Perm (root.nodes childrenKey) ∧
      visited childrenKey root = (root.nodes childrenKey).map Prod.snd ∧
      collect childrenKey textKey bboxKey root =
        (joinLines ((visited childrenKey root).filterMap (Value.textOf textKey)),
          (visited childrenKey root).filterMap (Value.bboxOf bboxKey)) := by
  refine ⟨arrays_of_parseValue h, ?_, visited_eq childrenKey root,
    collect_eq childrenKey textKey bboxKey root⟩
  cases root with
  | null => exact .nil
  | _ => exact OrderedTree.entries_perm _ 1 []

/-- A title with a text and a box. -/
def sampleTitle : Value :=
  .dict [(ofLiteral "type", .str (ofLiteral "title")), (ofLiteral "text", .str (ofLiteral "Hi")),
    (ofLiteral "bbox", .list [.int 0, .int 0, .int 4, .int 1])]

/-- A page with a null box, which has the title and a number for its children. -/
def samplePage : Value :=
  .dict [(ofLiteral "type", .str (ofLiteral "page")), (ofLiteral "bbox", .null),
    (ofLiteral "children", .list [sampleTitle, .int 5])]

/-- Three nodes are numbered and visited; one of them has a text and a box. -/
theorem collect_sees_parsed_page :
    ∃ t : Tree Value,
      parseValue id (ofLiteral "type") (ofLiteral "children") samplePage = .ok t ∧ t.size = 3 ∧
      t.labels = [none, some (.str (ofLiteral "title")), some (.int 5),
        some (.str (ofLiteral "page"))] ∧
      visited (ofLiteral "children") samplePage = [samplePage, sampleTitle, .int 5] ∧
      collect (ofLiteral "children") (ofLiteral "text") (ofLiteral "bbox") samplePage =
        (ofLiteral "Hi", [.list [.int 0, .int 0, .int 4, .int 1]]) := by
  have hparse : parseValue id (ofLiteral "type") (ofLiteral "children") samplePage =
      .ok (OrderedTree.flatten (.node (.str (ofLiteral "page"))
        [.node (.str (ofLiteral "title")) [], .node (.int 5) []])) :=
    parseTree_of_toTree _ _ rfl
  obtain ⟨⟨hlabels, -⟩, -, hvisited, hcollect⟩ := collect_sees_parsed id (ofLiteral "type")
    (ofLiteral "children") (ofLiteral "text") (ofLiteral "bbox") samplePage _ hparse
  have hnodes : visited (ofLiteral "children") samplePage =
      [samplePage, sampleTitle, .int 5] := hvisited.trans rfl
  exact ⟨_, hparse, rfl, hlabels.trans rfl, hnodes, by rw [hcollect, hnodes]; rfl⟩

end Eval
end OcrOrchestrator
