import OcrOrchestrator.Eval.Regions
import OcrOrchestrator.Lib.Prog
import Mathlib.Logic.Function.Basic

/-!
# The matrices of the tree edit distance

`tree_edit_distance` once more, now with every subscript.  Python counts a negative index from
the end, so a wrong offset raises nothing and reads some other cell; and the one forest matrix
is never cleared.  Here the function is a program over the accesses to its two matrices, with
the index arithmetic of the source on integers, and runs on matrices that hold anything.

A run keeps up with `treeEditDistance`, cell by cell where a cell has been written.  What
else the matrices hold is never read.

## Main definitions

* `distanceProgram` — the function as a program over `Access`es.
* `access` — one access, with Python's rule for subscripts.
* `Sound` — every access was allowed by those before it.
* `Agrees`, `Trail` — the cells of a run that hold what the tables of `treeEditDistance` do.

## Main results

* `distanceProgram_sound` — a run is sound and finds the distance, whatever the matrices held.
-/

namespace OcrOrchestrator
namespace Eval

open Lib

/-- The two matrices. -/
inductive Matrix
  | treedist
  | forestdist
  deriving DecidableEq

/-- What the function does with them.  `pass` touches no cell: it says that the pass for a pair
of keyroots begins, and how many rows and columns it is going to fill. -/
inductive Access
  | pass (rows cols : ℤ)
  | read (m : Matrix) (i j : ℤ)
  | write (m : Matrix) (i j value : ℤ)

/-- What an access answers. -/
def Access.Answer : Access → Type
  | .read .. => ℤ
  | _ => Unit

/-- "list index out of range". -/
inductive IndexError
  | raised

/-- A Python subscript: a negative one counts from the end. -/
def subscript (length : ℕ) (i : ℤ) : Option ℕ :=
  let i := if i < 0 then i + length else i
  if 0 ≤ i ∧ i < length then some i.toNat else none

theorem subscript_natCast {length k : ℕ} (h : k < length) : subscript length k = some k := by
  have hneg : ¬ (k : ℤ) < 0 := by omega
  simp [subscript, hneg, h]

/-! ## The program -/

/-- Programs over the accesses. -/
abbrev Program (β : Type) := Prog Access Access.Answer IndexError β

/-- The pass for a pair of keyroots begins. -/
def beginPass (rows cols : ℤ) : Program Unit := Prog.perform (Access.pass rows cols)

/-- `m[i][j]`.  Where the code gives a row a name first, it is still a row of `m`. -/
def readCell (m : Matrix) (i j : ℤ) : Program ℤ := Prog.perform (Access.read m i j)

/-- `m[i][j] = value`. -/
def writeCell (m : Matrix) (i j value : ℤ) : Program Unit :=
  Prog.perform (Access.write m i j value)

/-- `xs[i]`, of one of the tuples of a tree. -/
def item {β : Type} (xs : List β) (i : ℤ) : Program β :=
  match (subscript xs.length i).bind (xs[·]?) with
  | some x => .ret x
  | none => .raise .raised

/-- The base cases of a pass. -/
def baseCases (rows cols : ℤ) : Program Unit := do
  writeCell .forestdist 0 0 0
  Prog.forEach (List.range' 1 rows.toNat) fun i => do
    let above ← readCell .forestdist ((i : ℤ) - 1) 0
    writeCell .forestdist i 0 (above + 1)
  Prog.forEach (List.range' 1 cols.toNat) fun j => do
    let before ← readCell .forestdist 0 ((j : ℤ) - 1)
    writeCell .forestdist 0 j (before + 1)

section Program
variable {α : Type} [DecidableEq α]

/-- The innermost loop body. -/
def cellBody (b : Tree α) (spineA : ℕ) (offsetA nodeA : ℤ) (leftOfA : ℕ) (labelA : Option α)
    (spineB : ℕ) (offsetB : ℤ) (i j : ℕ) : Program Unit := do
  let nodeB : ℤ := j + offsetB
  let above ← readCell .forestdist ((i : ℤ) - 1) j
  let before ← readCell .forestdist i ((j : ℤ) - 1)
  let delete := above + 1
  let insert := before + 1
  -- read in the condition if `nodeA` is on the spine, else in the detached branch
  let leftOfB ← item b.leftmost nodeB
  if leftOfA = spineA ∧ leftOfB = spineB then do
    let diagonal ← readCell .forestdist ((i : ℤ) - 1) ((j : ℤ) - 1)
    let labelB ← item b.labels nodeB
    let relabel := diagonal + if labelA = labelB then 0 else 1
    let value := if delete < insert then delete else insert
    let value := if relabel < value then relabel else value
    writeCell .forestdist i j value
    writeCell .treedist nodeA nodeB value
  else do
    let left ← readCell .forestdist (leftOfA - 1 - offsetA) (leftOfB - 1 - offsetB)
    let last ← readCell .treedist nodeA nodeB
    let detached := left + last
    let value := if delete < insert then delete else insert
    let value := if detached < value then detached else value
    writeCell .forestdist i j value

/-- Row `i` of a pass. -/
def rowBody (a b : Tree α) (spineA : ℕ) (offsetA : ℤ) (spineB : ℕ) (offsetB cols : ℤ) (i : ℕ) :
    Program Unit := do
  let nodeA : ℤ := i + offsetA
  let leftOfA ← item a.leftmost nodeA
  let labelA ← item a.labels nodeA
  Prog.forEach (List.range' 1 cols.toNat)
    (cellBody b spineA offsetA nodeA leftOfA labelA spineB offsetB i)

/-- The pass for one pair of keyroots. -/
def passBody (a b : Tree α) (spineA : ℕ) (offsetA rows : ℤ) (rootB : ℕ) : Program Unit := do
  let spineB ← item b.leftmost rootB
  let offsetB : ℤ := spineB - 1
  let cols : ℤ := rootB - offsetB
  beginPass rows cols
  baseCases rows cols
  Prog.forEach (List.range' 1 rows.toNat) (rowBody a b spineA offsetA spineB offsetB cols)

/-- All passes for one keyroot of the first tree. -/
def keyrootBody (a b : Tree α) (rootA : ℕ) : Program Unit := do
  let spineA ← item a.leftmost rootA
  let offsetA : ℤ := spineA - 1
  let rows : ℤ := rootA - offsetA
  Prog.forEach b.keyroots (passBody a b spineA offsetA rows)

/-- `tree_edit_distance`, with its accesses. -/
def distanceProgram (a b : Tree α) : Program ℤ :=
  if a.size = 0 then .ret b.size
  else if b.size = 0 then .ret a.size
  else do
    Prog.forEach a.keyroots (keyrootBody a b)
    readCell .treedist a.size b.size

end Program

/-! ## Runs -/

/-- What the cells of both matrices hold, and the accesses so far, newest first. -/
structure Memory where
  cells : Matrix × ℕ × ℕ → ℤ
  log : List Access

/-- The cell that a pair of subscripts means, in a matrix with `n₁ + 1` rows and `n₂ + 1`
columns. -/
def cellAt (n₁ n₂ : ℕ) (i j : ℤ) : Option (ℕ × ℕ) :=
  (subscript (n₁ + 1) i).bind fun i => (subscript (n₂ + 1) j).map fun j => (i, j)

/-- One access. -/
def access (n₁ n₂ : ℕ) : (c : Access) → Memory → Except IndexError c.Answer × Memory
  | .pass rows cols, s => (.ok (), { s with log := .pass rows cols :: s.log })
  | .read m i j, s =>
    match cellAt n₁ n₂ i j with
    | some cell => (.ok (s.cells (m, cell)), { s with log := .read m i j :: s.log })
    | none => (.error .raised, s)
  | .write m i j value, s =>
    match cellAt n₁ n₂ i j with
    | some cell => (.ok (), ⟨Function.update s.cells (m, cell) value, .write m i j value :: s.log⟩)
    | none => (.error .raised, s)

theorem cellAt_natCast {n₁ n₂ i j : ℕ} (hi : i ≤ n₁) (hj : j ≤ n₂) :
    cellAt n₁ n₂ i j = some (i, j) := by
  rw [cellAt, subscript_natCast (Nat.lt_succ_of_le hi), subscript_natCast (Nat.lt_succ_of_le hj)]
  rfl

/-- How many rows and columns the pass under way fills. -/
def extent : List Access → Option (ℤ × ℤ)
  | [] => none
  | .pass rows cols :: _ => some (rows, cols)
  | _ :: log => extent log

/-- The accesses of the pass under way. -/
def samePass : List Access → List Access
  | [] => []
  | .pass .. :: _ => []
  | c :: log => c :: samePass log

/-- The cell was written. -/
def Written (m : Matrix) (i j : ℤ) (log : List Access) : Prop :=
  ∃ value, .write m i j value ∈ log

/-- The cell is one that the pass under way fills. -/
def InPass (i j : ℤ) (log : List Access) : Prop :=
  ∃ rows cols, extent log = some (rows, cols) ∧ 0 ≤ i ∧ i ≤ rows ∧ 0 ≤ j ∧ j ≤ cols

/-- What may come after the accesses of `log`.  A forest cell is read after the pass under way
has written it, a subtree cell after any pass has. -/
def Allowed (n₁ n₂ : ℕ) (log : List Access) : Access → Prop
  | .pass rows cols => 0 < rows ∧ rows ≤ n₁ ∧ 0 < cols ∧ cols ≤ n₂
  | .read .forestdist i j => InPass i j log ∧ Written .forestdist i j (samePass log)
  | .read .treedist i j =>
    (0 ≤ i ∧ i ≤ n₁ ∧ 0 ≤ j ∧ j ≤ n₂) ∧ Written .treedist i j log
  | .write .forestdist i j _ => InPass i j log
  | .write .treedist i j _ => 0 ≤ i ∧ i ≤ n₁ ∧ 0 ≤ j ∧ j ≤ n₂

/-- Every access was allowed by those before it. -/
def Sound (n₁ n₂ : ℕ) : List Access → Prop
  | [] => True
  | c :: log => Allowed n₁ n₂ log c ∧ Sound n₁ n₂ log

theorem Written.cons {m : Matrix} {i j : ℤ} {log : List Access} (h : Written m i j log)
    (c : Access) : Written m i j (c :: log) := by
  obtain ⟨value, hmem⟩ := h
  exact ⟨value, List.mem_cons_of_mem _ hmem⟩

theorem written_self (m : Matrix) (i j value : ℤ) (log : List Access) :
    Written m i j (.write m i j value :: log) :=
  ⟨value, List.mem_cons_self⟩

/-- The cheapest of three edits, on integers and on naturals. -/
theorem cheapest_natCast {x y z : ℤ} {p q r : ℕ} (hx : x = p) (hy : y = q) (hz : z = r) :
    (if z < if x < y then x else y then z else if x < y then x else y) =
      ↑(if r < if p < q then p else q then r else if p < q then p else q) := by
  subst hx hy hz
  simp only [← Nat.cast_ite, Int.ofNat_lt]

/-! ## Keeping up with the tables -/

/-- The cells of `m` at `X`, none of them beyond row `r` and column `c`, have been written
according to `log`, and hold what the table does. -/
def Holds (m : Matrix) (r c : ℕ) (X : ℕ → ℕ → Prop) (table : Table)
    (cells : Matrix × ℕ × ℕ → ℤ) (log : List Access) : Prop :=
  ∀ i j, X i j → (i ≤ r ∧ j ≤ c) ∧ Written m i j log ∧ cells (m, i, j) = table i j

namespace Holds
variable {m m' : Matrix} {r c i j d : ℕ} {X X' : ℕ → ℕ → Prop} {table : Table}
  {cells : Matrix × ℕ × ℕ → ℤ} {log : List Access} {a : Access} {cell : ℕ × ℕ} {v : ℤ}

theorem mono (h : Holds m r c X table cells log) (hX : ∀ i j, X' i j → X i j) :
    Holds m r c X' table cells log :=
  fun i j hij => h i j (hX i j hij)

/-- An access that writes nothing. -/
theorem cons (h : Holds m r c X table cells log) : Holds m r c X table cells (a :: log) := by
  intro i j hij
  obtain ⟨hb, hw, hv⟩ := h i j hij
  exact ⟨hb, hw.cons a, hv⟩

/-- A write to the other matrix. -/
theorem write_other (h : Holds m r c X table cells log) (hm : m ≠ m') :
    Holds m r c X table (Function.update cells (m', cell) v) (a :: log) := by
  intro i j hij
  obtain ⟨hb, hw, hv⟩ := h i j hij
  exact ⟨hb, hw.cons a, by simpa [hm] using hv⟩

/-- The same value written to the matrix and to the table: one cell more. -/
theorem write (h : Holds m r c X table cells log) (hi : i ≤ r) (hj : j ≤ c) :
    Holds m r c (fun i' j' => X i' j' ∨ (i' = i ∧ j' = j)) (table.set i j d)
      (Function.update cells (m, i, j) d) (.write m i j d :: log) := by
  intro i' j' hij
  by_cases hnew : i' = i ∧ j' = j
  · obtain ⟨rfl, rfl⟩ := hnew
    exact ⟨⟨hi, hj⟩, written_self .., by simp⟩
  · obtain ⟨hb, hw, hv⟩ := h i' j' (hij.resolve_right hnew)
    have hne : i' ≠ i ∨ j' ≠ j := by omega
    exact ⟨hb, hw.cons _, by simp [hnew, hv, Table.set_of_ne _ _ hne]⟩

end Holds

/-- Between the passes: the accesses were sound, and the subtree cells at `T` agree. -/
structure Agrees (n₁ n₂ : ℕ) (T : ℕ → ℕ → Prop) (t : Tables) (s : Memory) : Prop where
  sound : Sound n₁ n₂ s.log
  tree : Holds .treedist n₁ n₂ T t.treedist s.cells s.log

/-- During a pass with this many rows and columns: also, the forest cells at `D` have been
written in it and agree. -/
structure Trail (n₁ n₂ rows cols : ℕ) (D T : ℕ → ℕ → Prop) (t : Tables) (s : Memory) : Prop
    extends Agrees n₁ n₂ T t s where
  inside : rows ≤ n₁ ∧ cols ≤ n₂
  extent_eq : extent s.log = some (↑rows, ↑cols)
  forest : Holds .forestdist rows cols D t.forestdist s.cells (samePass s.log)

theorem Agrees.mono {n₁ n₂ : ℕ} {T T' : ℕ → ℕ → Prop} {t : Tables} {s : Memory}
    (h : Agrees n₁ n₂ T t s) (hT : ∀ u v, T' u v → T u v) : Agrees n₁ n₂ T' t s :=
  ⟨h.sound, h.tree.mono hT⟩

/-- A pass begins: none of its cells have been written yet. -/
theorem Agrees.begin {n₁ n₂ rows cols : ℕ} {T : ℕ → ℕ → Prop} {t : Tables} {s : Memory}
    (h : Agrees n₁ n₂ T t s) (hrows : 0 < rows ∧ rows ≤ n₁) (hcols : 0 < cols ∧ cols ≤ n₂) :
    (beginPass rows cols).Leads (access n₁ n₂) s fun r s' =>
      r = .ok () ∧ Trail n₁ n₂ rows cols (fun _ _ => False) T t s' := by
  have hallowed : Allowed n₁ n₂ s.log (.pass rows cols) := by
    simp only [Allowed]
    omega
  exact Prog.Leads.perform ⟨rfl, ⟨⟨⟨hallowed, h.sound⟩, h.tree.cons⟩, ⟨hrows.2, hcols.2⟩, rfl,
    fun _ _ hij => hij.elim⟩⟩

namespace Trail
variable {n₁ n₂ rows cols : ℕ} {D D' T T' : ℕ → ℕ → Prop} {t : Tables} {s : Memory}
  {i j d : ℕ} {x y v : ℤ}

/-- Fewer cells agree as well. -/
theorem mono (h : Trail n₁ n₂ rows cols D T t s) (hD : ∀ i j, D' i j → D i j)
    (hT : ∀ u v, T' u v → T u v) : Trail n₁ n₂ rows cols D' T' t s :=
  ⟨h.toAgrees.mono hT, h.inside, h.extent_eq, h.forest.mono hD⟩

theorem inPass (h : Trail n₁ n₂ rows cols D T t s) (hi : i ≤ rows) (hj : j ≤ cols) :
    InPass i j s.log :=
  ⟨rows, cols, h.extent_eq, by omega, by omega, by omega, by omega⟩

theorem readForest (h : Trail n₁ n₂ rows cols D T t s) (hx : x = i) (hy : y = j)
    (hD : D i j) : (readCell .forestdist x y).Leads (access n₁ n₂) s fun r s' =>
      r = .ok ↑(t.forestdist i j) ∧ Trail n₁ n₂ rows cols D T t s' := by
  subst hx hy
  obtain ⟨⟨hi, hj⟩, hwritten, hvalue⟩ := h.forest i j hD
  have hinside := h.inside
  refine Prog.Leads.perform ?_
  simp only [access, cellAt_natCast (hi.trans hinside.1) (hj.trans hinside.2)]
  exact ⟨congrArg _ hvalue, ⟨⟨⟨h.inPass hi hj, hwritten⟩, h.sound⟩, h.tree.cons⟩, h.inside,
    h.extent_eq, h.forest.cons⟩

theorem readTree (h : Trail n₁ n₂ rows cols D T t s) (hx : x = i) (hy : y = j)
    (hT : T i j) : (readCell .treedist x y).Leads (access n₁ n₂) s fun r s' =>
      r = .ok ↑(t.treedist i j) ∧ Trail n₁ n₂ rows cols D T t s' := by
  subst hx hy
  obtain ⟨⟨hi, hj⟩, hwritten, hvalue⟩ := h.tree i j hT
  have hinside : 0 ≤ (i : ℤ) ∧ (i : ℤ) ≤ n₁ ∧ 0 ≤ (j : ℤ) ∧ (j : ℤ) ≤ n₂ := by omega
  refine Prog.Leads.perform ?_
  simp only [access, cellAt_natCast hi hj]
  exact ⟨congrArg _ hvalue, ⟨⟨⟨hinside, hwritten⟩, h.sound⟩, h.tree.cons⟩, h.inside, h.extent_eq,
    h.forest.cons⟩

theorem writeForest (h : Trail n₁ n₂ rows cols D T t s) (hx : x = i) (hy : y = j) (hv : v = d)
    (hi : i ≤ rows) (hj : j ≤ cols) :
    (writeCell .forestdist x y v).Leads (access n₁ n₂) s fun r s' => r = .ok () ∧
      Trail n₁ n₂ rows cols (fun i' j' => D i' j' ∨ (i' = i ∧ j' = j)) T
        { t with forestdist := t.forestdist.set i j d } s' := by
  subst hx hy hv
  have hinside := h.inside
  refine Prog.Leads.perform ?_
  simp only [access, cellAt_natCast (hi.trans hinside.1) (hj.trans hinside.2)]
  exact ⟨rfl, ⟨⟨h.inPass hi hj, h.sound⟩, h.tree.write_other (by decide)⟩, h.inside, h.extent_eq,
    h.forest.write hi hj⟩

theorem writeTree (h : Trail n₁ n₂ rows cols D T t s) (hx : x = i) (hy : y = j) (hv : v = d)
    (hi : i ≤ n₁) (hj : j ≤ n₂) :
    (writeCell .treedist x y v).Leads (access n₁ n₂) s fun r s' => r = .ok () ∧
      Trail n₁ n₂ rows cols D (fun u' v' => T u' v' ∨ (u' = i ∧ v' = j))
        { t with treedist := t.treedist.set i j d } s' := by
  subst hx hy hv
  have hinside : 0 ≤ (i : ℤ) ∧ (i : ℤ) ≤ n₁ ∧ 0 ≤ (j : ℤ) ∧ (j : ℤ) ≤ n₂ := by omega
  refine Prog.Leads.perform ?_
  simp only [access, cellAt_natCast hi hj]
  exact ⟨rfl, ⟨⟨hinside, h.sound⟩, h.tree.write hi hj⟩, h.inside, h.extent_eq,
    h.forest.write_other (by decide)⟩

/-- One value for both matrices. -/
theorem writeBoth (h : Trail n₁ n₂ rows cols D T t s) {x' y' : ℤ} {u w : ℕ} (hx : x = i)
    (hy : y = j) (hx' : x' = u) (hy' : y' = w) (hv : v = d) (hi : i ≤ rows) (hj : j ≤ cols)
    (hu : u ≤ n₁) (hw : w ≤ n₂) :
    (do writeCell .forestdist x y v
        writeCell .treedist x' y' v : Program Unit).Leads (access n₁ n₂) s fun r s' =>
      r = .ok () ∧ Trail n₁ n₂ rows cols (fun i' j' => D i' j' ∨ (i' = i ∧ j' = j))
        (fun u' w' => T u' w' ∨ (u' = u ∧ w' = w))
        ⟨t.treedist.set u w d, t.forestdist.set i j d⟩ s' :=
  (h.writeForest hx hy hv hi hj).bind_ok fun _ h => h.writeTree hx' hy' hv hu hw

/-- The base cases write the first column and the first row. -/
theorem baseCases (h : Trail n₁ n₂ rows cols (fun _ _ => False) T t s) :
    (baseCases rows cols).Leads (access n₁ n₂) s fun r s' => r = .ok () ∧
      Trail n₁ n₂ rows cols (Reached rows cols 1 0) T
        { t with forestdist := emptyForests rows cols t.forestdist } s' := by
  simp only [Eval.baseCases, Int.toNat_natCast]
  refine (h.writeForest (i := 0) (j := 0) (d := 0) rfl rfl rfl (Nat.zero_le _)
    (Nat.zero_le _)).bind_ok fun s h => ?_
  refine (Prog.Leads.forRange (t := t.forestdist.set 0 0 0)
    (g := fun table i => Table.set table i 0 (table (i - 1) 0 + 1))
    (fun k table => Trail n₁ n₂ rows cols (fun i j => i ≤ k ∧ j = 0) T
      { t with forestdist := table }) (h.mono (by omega) fun _ _ h => h) ?_).bind_ok fun s h => ?_
  · intro k table s hk h
    refine (h.readForest (i := k) (j := 0) (by simp) rfl ⟨le_rfl, rfl⟩).bind_ok fun s h => ?_
    refine (h.writeForest (i := k + 1) (j := 0) (d := table k 0 + 1) rfl rfl (by simp) hk
      (Nat.zero_le _)).mono fun r s' h' => ⟨h'.1, ?_⟩
    exact h'.2.mono (by omega) fun _ _ h => h
  refine (Prog.Leads.forRange (g := fun table j => Table.set table 0 j (table 0 (j - 1) + 1))
    (fun k table => Trail n₁ n₂ rows cols (fun i j => (i ≤ rows ∧ j = 0) ∨ (i = 0 ∧ j ≤ k)) T
      { t with forestdist := table }) (h.mono (by omega) fun _ _ h => h) ?_).mono fun r s' h => ?_
  · intro k table s hk h
    refine (h.readForest (i := 0) (j := k) rfl (by simp) (Or.inr ⟨rfl, le_rfl⟩)).bind_ok
      fun s h => ?_
    refine (h.writeForest (i := 0) (j := k + 1) (d := table 0 k + 1) rfl rfl (by simp)
      (Nat.zero_le _) hk).mono fun r s' h' => ⟨h'.1, ?_⟩
    exact h'.2.mono (by omega) fun _ _ h => h
  · refine ⟨h.1, h.2.mono (fun i j hij => ?_) fun _ _ h => h⟩
    simp only [Reached] at hij
    omega

end Trail

/-! ## The passes -/

section Passes
variable {α : Type}

/-- Both arrays of a tree have a place for every node, and the sentinel. -/
structure Tree.Indexed (a : Tree α) : Prop where
  labels : a.labels.length = a.size + 1
  leftmost : a.leftmost.length = a.size + 1

theorem OrderedTree.indexed_flatten (t : OrderedTree α) : t.flatten.Indexed := by
  refine ⟨?_, ?_⟩ <;> simp [Tree.size, flatten]

theorem item_natCast {β : Type} {xs : List β} {i : ℕ} {x : ℤ} (hx : x = i) (hi : i < xs.length) :
    item xs x = .ret xs[i] := by
  subst hx
  simp [item, subscript_natCast hi, hi]

variable {a b : Tree α} {i : ℕ} {x : ℤ}

theorem Tree.Indexed.item_leftmost (h : a.Indexed) (hx : x = i) (hi : i ≤ a.size) :
    item a.leftmost x = .ret (a.left i) := by
  have hlt : i < a.leftmost.length := by rw [h.leftmost]; omega
  simp [item_natCast hx hlt, Tree.left, hlt]

theorem Tree.Indexed.item_labels (h : a.Indexed) (hx : x = i) (hi : i ≤ a.size) :
    item a.labels x = .ret (a.label i) := by
  have hlt : i < a.labels.length := by rw [h.labels]; omega
  simp [item_natCast hx hlt, Tree.label, hlt]

/-- The pass for `rootA` and `rootB` has reached cell `(i, k)`. -/
def PassTrail (a b : Tree α) (rootA rootB : ℕ) (T : ℕ → ℕ → Prop) (i k : ℕ) :
    Tables → Memory → Prop :=
  Trail a.size b.size (rootA - (a.left rootA - 1)) (rootB - (b.left rootB - 1))
    (Reached (rootA - (a.left rootA - 1)) (rootB - (b.left rootB - 1)) i k)
    (Kept a b rootA rootB T i k)

variable [DecidableEq α] {rootA rootB k : ℕ} {T : ℕ → ℕ → Prop} {t : Tables} {s : Memory}

theorem PassTrail.cell (hr : Ready a b rootA rootB T) (hb : b.Indexed)
    (hrootA : rootA ≤ a.size) (hrootB : rootB ≤ b.size) (hi : 0 < i)
    (hrow : i ≤ rootA - (a.left rootA - 1)) (hk : k < rootB - (b.left rootB - 1))
    (h : PassTrail a b rootA rootB T i k t s) :
    (cellBody b (a.left rootA) (a.left rootA - 1) (i + (a.left rootA - 1))
      (a.left (i + (a.left rootA - 1))) (a.label (i + (a.left rootA - 1))) (b.left rootB)
      (b.left rootB - 1) i (k + 1)).Leads (access a.size b.size) s fun r s' => r = .ok () ∧
        PassTrail a b rootA rootB T i (k + 1) (forestCell a b rootA rootB i t (k + 1)) s' := by
  have hA := hr.posA
  have hB := hr.posB
  obtain ⟨hup, hback, hdiag⟩ := reached_neighbours hrow hi hk
  have hnodeB : ((k + 1 : ℕ) : ℤ) + (b.left rootB - 1) = ↑(k + 1 + (b.left rootB - 1)) := by omega
  have hnodeA : (i : ℤ) + (a.left rootA - 1) = ↑(i + (a.left rootA - 1)) := by omega
  unfold cellBody
  refine (h.readForest (i := i - 1) (j := k + 1) (by omega) rfl hup).bind_ok fun s h => ?_
  refine (h.readForest (i := i) (j := k) rfl (by omega) hback).bind_ok fun s h => ?_
  simp only [hb.item_leftmost hnodeB (by omega), hb.item_labels hnodeB (by omega), Prog.ret_bind]
  by_cases hspine : a.left (i + (a.left rootA - 1)) = a.left rootA ∧
      b.left (k + 1 + (b.left rootB - 1)) = b.left rootB
  · rw [if_pos hspine]
    refine (h.readForest (i := i - 1) (j := k) (by omega) (by omega) hdiag).bind_ok fun s h => ?_
    rw [forestCell]
    simp only [hspine, and_self, if_true]
    refine (h.writeBoth (i := i) (j := k + 1) rfl rfl hnodeA hnodeB ?_ hrow hk (by omega)
      (by omega)).mono fun r s' h' => ⟨h'.1, h'.2.mono (fun i' j' h => h.succ) fun u v h => h.succ⟩
    exact cheapest_natCast (by simp) (by simp) (by simp)
  · obtain ⟨hnestA, hnestB, hleft, hlast⟩ := hr.detached hi hrow hk hspine
    rw [if_neg hspine]
    refine (h.readForest (by omega) (by omega) hleft).bind_ok fun s h => ?_
    refine (h.readTree hnodeA hnodeB (Or.inl hlast)).bind_ok fun s h => ?_
    rw [forestCell]
    simp only [hspine, if_false]
    refine (h.writeForest (i := i) (j := k + 1) rfl rfl ?_ hrow hk).mono fun r s' h' =>
      ⟨h'.1, h'.2.mono (fun i' j' h => h.succ) fun u v h => h.succ_detached hspine⟩
    exact cheapest_natCast (by simp) (by simp) (by simp)

theorem PassTrail.row (hr : Ready a b rootA rootB T) (ha : a.Indexed) (hb : b.Indexed)
    (hrootA : rootA ≤ a.size) (hrootB : rootB ≤ b.size) (hi : 0 < i)
    (hrow : i ≤ rootA - (a.left rootA - 1)) (h : PassTrail a b rootA rootB T i 0 t s) :
    (rowBody a b (a.left rootA) (a.left rootA - 1) (b.left rootB) (b.left rootB - 1)
      ↑(rootB - (b.left rootB - 1)) i).Leads (access a.size b.size) s fun r s' => r = .ok () ∧
        PassTrail a b rootA rootB T (i + 1) 0 (forestRow a b rootA rootB t i) s' := by
  have hA := hr.posA
  have hnodeA : (i : ℤ) + (a.left rootA - 1) = ↑(i + (a.left rootA - 1)) := by omega
  simp only [rowBody, ha.item_leftmost hnodeA (by omega), ha.item_labels hnodeA (by omega),
    Prog.ret_bind, Int.toNat_natCast]
  refine (Prog.Leads.forRange (PassTrail a b rootA rootB T i) h fun k t s hk h =>
    h.cell hr hb hrootA hrootB hi hrow hk).mono fun r s' h' => ⟨h'.1, ?_⟩
  exact h'.2.mono (fun i' j' h => h.row) fun u v h => h.row hr.numberedB hr.posB

/-- A pass is sound, and fills the subtree cells of all pairs of spine nodes. -/
theorem Agrees.pass (hr : Ready a b rootA rootB T) (ha : a.Indexed) (hb : b.Indexed)
    (hrootA : rootA ≤ a.size) (hrootB : rootB ≤ b.size) (h : Agrees a.size b.size T t s) :
    (passBody a b (a.left rootA) (a.left rootA - 1) ↑(rootA - (a.left rootA - 1)) rootB).Leads
      (access a.size b.size) s fun r s' => r = .ok () ∧
        Agrees a.size b.size (fun u v => T u v ∨ (a.OnSpine rootA u ∧ b.OnSpine rootB v))
          (forestPass a b rootA t rootB) s' := by
  have hA := hr.posA
  have hB := hr.posB
  have hleA := hr.numberedA.postorder.le rootA
  have hleB := hr.numberedB.postorder.le rootB
  have hcols : (rootB : ℤ) - (b.left rootB - 1) = ↑(rootB - (b.left rootB - 1)) := by omega
  simp only [passBody, hb.item_leftmost rfl hrootB, Prog.ret_bind, hcols, Int.toNat_natCast]
  have hrows : 0 < rootA - (a.left rootA - 1) ∧ rootA - (a.left rootA - 1) ≤ a.size := by omega
  have hcolumns : 0 < rootB - (b.left rootB - 1) ∧ rootB - (b.left rootB - 1) ≤ b.size := by omega
  refine (h.begin hrows hcolumns).bind_ok fun s h => ?_
  refine h.baseCases.bind_ok fun s h => ?_
  refine (Prog.Leads.forRange (fun i => PassTrail a b rootA rootB T (i + 1) 0)
    (h.mono (fun _ _ h => h) fun u v h => hr.kept_start h) fun i t s hi h =>
      h.row hr ha hb hrootA hrootB (by omega) hi).mono fun r s' h' => ⟨h'.1, ?_⟩
  exact h'.2.toAgrees.mono fun u v huv => kept_last huv

/-- The passes for one keyroot of the first tree. -/
theorem Agrees.keyroot (hna : a.Numbered) (hnb : b.Numbered) (ha : a.Indexed) (hb : b.Indexed)
    {pre post : List ℕ} (hk : a.keyroots = pre ++ rootA :: post)
    (h : Agrees a.size b.size (Settled a b pre) t s) :
    (keyrootBody a b rootA).Leads (access a.size b.size) s fun r s' => r = .ok () ∧
      Agrees a.size b.size (Settled a b (pre ++ [rootA])) (keyrootPasses a b t rootA) s' := by
  have hrootA := hna.keyroot_bounds rootA (by simp [hk])
  have hpos := hna.pos _ hrootA.1 hrootA.2
  have hle := hna.postorder.le rootA
  have hrows : (rootA : ℤ) - (a.left rootA - 1) = ↑(rootA - (a.left rootA - 1)) := by omega
  simp only [keyrootBody, ha.item_leftmost rfl hrootA.2, Prog.ret_bind, hrows]
  refine (Prog.Leads.forEach (fun pre₂ => Agrees a.size b.size (Settling a b pre rootA pre₂))
    (h.mono fun u v huv => huv.start) ?_).mono fun r s' h' =>
      ⟨h'.1, h'.2.mono fun u v huv => huv.snoc hnb⟩
  intro pre₂ rootB post₂ t s hk₂ h
  have hrootB := hnb.keyroot_bounds rootB (by simp [hk₂])
  exact (h.pass (ready_settling hna hnb hk hk₂) ha hb hrootA.2 hrootB.2).mono fun r s' h' =>
    ⟨h'.1, h'.2.mono fun u v huv => huv.snoc⟩

/-- A whole run, on well-numbered trees and whatever the matrices held before. -/
theorem leads_distanceProgram (hna : a.Numbered) (hnb : b.Numbered) (ha : a.Indexed)
    (hb : b.Indexed) (hsizeA : 0 < a.size) (hsizeB : 0 < b.size) (cells : Matrix × ℕ × ℕ → ℤ) :
    (distanceProgram a b).Leads (access a.size b.size) ⟨cells, []⟩ fun r s =>
      r = .ok ↑(treeEditDistance a b) ∧ Sound a.size b.size s.log := by
  rw [distanceProgram, treeEditDistance]
  simp only [hsizeA.ne', hsizeB.ne', if_false]
  have hstart : Agrees a.size b.size (Settled a b []) ⟨fun _ _ => 0, fun _ _ => 0⟩ ⟨cells, []⟩ :=
    ⟨trivial, fun u v huv => (settled_nil huv).elim⟩
  refine (Prog.Leads.forEach (fun pre => Agrees a.size b.size (Settled a b pre)) hstart
    fun pre rootA post t s hk h => h.keyroot hna hnb ha hb hk).bind_ok fun s h => ?_
  obtain ⟨-, hwritten, hvalue⟩ := h.tree _ _ (settled_root hna hsizeA hsizeB)
  refine Prog.Leads.perform ?_
  simp only [access, cellAt_natCast le_rfl le_rfl]
  exact ⟨congrArg _ hvalue, ⟨⟨by omega, by omega, by omega, by omega⟩, hwritten⟩, h.sound⟩

end Passes

/-- **No out-of-range and no stale reads.**  For all documents that parse to trees with nodes,
and whatever either matrix holds at first, the function returns the tree edit distance; and of
its accesses, every one of a forest cell is within the rows and columns of its pass, every read
of one comes after a write of the same pass, and every read of a subtree cell after a write of
the same or an earlier pass. -/
theorem distanceProgram_sound {α : Type} [DecidableEq α]
    (labelKey childrenKey labelKey' childrenKey' : String) (da db : Option (Node α))
    (a b : Tree α) (ha : parseTree labelKey childrenKey da = .ok a)
    (hb : parseTree labelKey' childrenKey' db = .ok b) (hsizeA : 0 < a.size) (hsizeB : 0 < b.size)
    (cells : Matrix × ℕ × ℕ → ℤ) :
    ((distanceProgram a b).eval (access a.size b.size) ⟨cells, []⟩).1 =
        .ok ↑(treeEditDistance a b) ∧
      Sound a.size b.size
        ((distanceProgram a b).eval (access a.size b.size) ⟨cells, []⟩).2.log := by
  have hparsed : ∀ {s : Option (OrderedTree α)}, 0 < (flattenRoot s).size →
      (flattenRoot s).Numbered ∧ (flattenRoot s).Indexed := by
    intro s hpos
    cases s with
    | none => exact absurd hpos (Nat.lt_irrefl 0)
    | some t => exact ⟨t.numbered_flatten, t.indexed_flatten⟩
  obtain ⟨s, -, rfl⟩ := exists_standsFor_of_parseTree ha
  obtain ⟨t, -, rfl⟩ := exists_standsFor_of_parseTree hb
  obtain ⟨hna, hia⟩ := hparsed hsizeA
  obtain ⟨hnb, hib⟩ := hparsed hsizeB
  exact leads_distanceProgram hna hnb hia hib hsizeA hsizeB cells

/-- A title lost from a page, on matrices full of leftovers. -/
theorem distanceProgram_sound_page :
    ∃ a b, parseTree "type" "children"
        (some (.mapping (some "page") [.mapping (some "table") [], .value "title"])) = .ok a ∧
      parseTree "type" "children" (some (.mapping (some "page") [.value "table"])) = .ok b ∧
      treeEditDistance a b = 1 ∧
      ((distanceProgram a b).eval (access a.size b.size) ⟨fun _ => 99, []⟩).1 =
        .ok ↑(treeEditDistance a b) ∧
      Sound a.size b.size
        ((distanceProgram a b).eval (access a.size b.size) ⟨fun _ => 99, []⟩).2.log :=
  have ha := parseTree_of_standsFor "type" "children" (a := some (.mapping (some "page")
    [.mapping (some "table") [], .value "title"])) (.some rfl)
  have hb := parseTree_of_standsFor "type" "children"
    (a := some (.mapping (some "page") [.value "table"])) (.some rfl)
  ⟨_, _, ha, hb, by decide, distanceProgram_sound "type" "children" "type" "children" _ _ _ _ ha hb
    (by decide) (by decide) fun _ => 99⟩

end Eval
end OcrOrchestrator
