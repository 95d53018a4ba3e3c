import Mathlib.Algebra.BigOperators.Group.List.Basic
import Mathlib.Data.List.Sort
import Mathlib.Data.List.Nodup

/-!
# Dictionaries

A dictionary is the list of its items, in the order the keys first came in.  Everything a
program does with one here is `d[k] = f(d.get(k))`, so there is one operation that writes and
one that reads.

Dictionaries of numbers are often built by adding to an item at a time.  What such a
dictionary holds under a key is then the total of what was added there; `total` takes that sum
over any list of items, so that it can also be taken before the items are added up.

## Main definitions

* `Dict.get`, `Dict.update` — read and write.
* `total` — the sum of the items of a key.
* `Dict.addAll` — add a list of items, one after the other.
-/

namespace OcrOrchestrator.Lib
variable {K V : Type}

/-- Sorting forgets the order of before. -/
theorem insertionSort_eq_of_perm [LinearOrder K] {l m : List K} (h : l.Perm m) :
    l.insertionSort (· ≤ ·) = m.insertionSort (· ≤ ·) := by
  refine List.Perm.eq_of_pairwise' (r := (· ≤ ·)) ?_ ?_ ?_
  · exact List.pairwise_insertionSort _ _
  · exact List.pairwise_insertionSort _ _
  · exact (List.perm_insertionSort _ _).trans (h.trans (List.perm_insertionSort _ _).symm)

/-- A dictionary, as the list of its items. -/
abbrev Dict (K V : Type) := List (K × V)

namespace Dict

/-- The keys, in the order they came in. -/
def keys (d : Dict K V) : List K := d.map Prod.fst

@[simp] theorem keys_nil : keys ([] : Dict K V) = [] := rfl

@[simp] theorem keys_cons (e : K × V) (d : Dict K V) : keys (e :: d) = e.1 :: keys d := rfl

variable [DecidableEq K]

/-- `d.get(k)`. -/
def get (d : Dict K V) (k : K) : Option V := (d.find? fun e => e.1 = k).map Prod.snd

/-- `del d[k]`. -/
def del (d : Dict K V) (k : K) : Dict K V := d.filter fun e => e.1 ≠ k

/-- `d[k] = f(d.get(k))`. -/
def update (d : Dict K V) (k : K) (f : Option V → V) : Dict K V :=
  match d with
  | [] => [(k, f none)]
  | e :: d => if e.1 = k then (k, f (some e.2)) :: d else e :: update d k f

@[simp] theorem get_nil (k : K) : get ([] : Dict K V) k = none := rfl

theorem get_cons (e : K × V) (d : Dict K V) (k : K) :
    get (e :: d) k = if e.1 = k then some e.2 else get d k := by
  by_cases h : e.1 = k <;> simp [get, h]

theorem get_append (d d' : Dict K V) (k : K) :
    get (d ++ d') k = (get d k).or (get d' k) := by
  induction d with
  | nil => rfl
  | cons e d ih =>
    rw [List.cons_append, get_cons, get_cons, ih]
    by_cases he : e.1 = k <;> simp [he]

theorem get_del (d : Dict K V) (k k' : K) :
    (d.del k).get k' = if k = k' then none else d.get k' := by
  induction d with
  | nil => simp [del]
  | cons e d ih =>
    by_cases he : e.1 = k
    · have hcons : del (e :: d) k = del d k := by simp [del, he]
      rw [hcons, ih, get_cons]
      by_cases hk : k = k' <;> simp [hk, he]
    · have hcons : del (e :: d) k = e :: del d k := by simp [del, he]
      rw [hcons, get_cons, ih, get_cons]
      by_cases hk : k = k'
      · subst hk
        simp [he]
      · simp [hk]

theorem get_update (d : Dict K V) (k k' : K) (f : Option V → V) :
    (d.update k f).get k' = if k = k' then some (f (d.get k)) else d.get k' := by
  induction d with
  | nil => simp [update, get_cons]
  | cons e d ih =>
    by_cases he : e.1 = k
    · by_cases hk : k = k' <;> simp [update, get_cons, he, hk]
    · rw [update, if_neg he, get_cons, ih, get_cons, if_neg he, get_cons]
      by_cases hk : k = k'
      · subst hk
        simp [he]
      · simp [hk]

theorem get_isSome_iff {d : Dict K V} {k : K} : (d.get k).isSome ↔ k ∈ d.keys := by
  simp [get, keys, List.find?_isSome]

theorem get_eq_none_iff {d : Dict K V} {k : K} : d.get k = none ↔ k ∉ d.keys := by
  rw [← get_isSome_iff, Option.not_isSome_iff_eq_none]

theorem mem_keys_update {d : Dict K V} {k k' : K} {f : Option V → V} :
    k' ∈ (d.update k f).keys ↔ k = k' ∨ k' ∈ d.keys := by
  rw [← get_isSome_iff, get_update, ← get_isSome_iff]
  by_cases h : k = k' <;> simp [h]

/-- The items after an update: those of before, and one that `f` made. -/
theorem mem_update {d : Dict K V} {k : K} {f : Option V → V} {e : K × V}
    (h : e ∈ d.update k f) :
    e ∈ d ∨ e = (k, f none) ∨ ∃ v, (k, v) ∈ d ∧ e = (k, f (some v)) := by
  induction d with
  | nil => simpa [update] using h
  | cons x d ih =>
    by_cases hx : x.1 = k
    · rw [update, if_pos hx] at h
      rcases List.mem_cons.1 h with rfl | hd
      · exact .inr (.inr ⟨x.2, by simp [← hx], rfl⟩)
      · exact .inl (by simp [hd])
    · rw [update, if_neg hx] at h
      rcases List.mem_cons.1 h with rfl | hd
      · exact .inl (by simp)
      · rcases ih hd with hold | hnew | ⟨v, hv, he⟩
        · exact .inl (by simp [hold])
        · exact .inr (.inl hnew)
        · exact .inr (.inr ⟨v, by simp [hv], he⟩)

/-- What holds of every item and of what `f` makes holds of every item after an update. -/
theorem forall_update {P : K × V → Prop} {d : Dict K V} {k : K} {f : Option V → V}
    (h : ∀ e ∈ d, P e) (hnone : P (k, f none)) (hsome : ∀ v, P (k, v) → P (k, f (some v))) :
    ∀ e ∈ d.update k f, P e := by
  intro e he
  rcases mem_update he with hold | rfl | ⟨v, hv, rfl⟩
  · exact h e hold
  · exact hnone
  · exact hsome v (h _ hv)

theorem nodup_update {d : Dict K V} (h : d.keys.Nodup) (k : K) (f : Option V → V) :
    (d.update k f).keys.Nodup := by
  induction d with
  | nil => simp [update]
  | cons e d ih =>
    rw [keys_cons, List.nodup_cons] at h
    by_cases he : e.1 = k
    · subst he
      simpa [update] using h
    · rw [update, if_neg he, keys_cons, List.nodup_cons]
      refine ⟨fun hmem => ?_, ih h.2⟩
      rcases mem_keys_update.1 hmem with hk | hd
      · exact he hk.symm
      · exact h.1 hd

/-- An item is what its key holds. -/
theorem get_eq_of_mem {d : Dict K V} (h : d.keys.Nodup) {k : K} {v : V} (hmem : (k, v) ∈ d) :
    d.get k = some v := by
  induction d with
  | nil => simp at hmem
  | cons e d ih =>
    rw [keys_cons, List.nodup_cons] at h
    rw [get_cons]
    rcases List.mem_cons.1 hmem with rfl | hd
    · simp
    · have hne : e.1 ≠ k := by
        rintro rfl
        exact h.1 (List.mem_map.2 ⟨_, hd, rfl⟩)
      rw [if_neg hne, ih h.2 hd]

/-- A key has one item, or none. -/
theorem filter_key {d : Dict K V} (h : d.keys.Nodup) (k : K) :
    (d.filter fun e => e.1 = k) = (d.get k).toList.map fun v => (k, v) := by
  induction d with
  | nil => rfl
  | cons e d ih =>
    rw [keys_cons, List.nodup_cons] at h
    rw [get_cons]
    by_cases he : e.1 = k
    · subst he
      have hrest : (d.filter fun e' => e'.1 = e.1) = [] := by
        rw [List.filter_eq_nil_iff]
        intro e' he'
        simpa using fun heq : e'.1 = e.1 => h.1 (heq ▸ List.mem_map_of_mem he')
      simp [hrest]
    · simp [he, ih h.2]

/-- Reading the items of a key one after the other. -/
theorem foldl_filter_key {d : Dict K V} (h : d.keys.Nodup) (k : K) :
    (d.filter fun e => e.1 = k).foldl (fun _ e => some e.2) none = d.get k := by
  rw [filter_key h]
  cases d.get k <;> rfl

/-! ## Building a dictionary in a loop -/

section Loop
variable {X : Type}

/-- What a loop of updates leaves under a key: only the iterations for that key matter. -/
theorem get_foldl_update (κ : X → K) (f : X → Option V → V) (xs : List X) (d : Dict K V)
    (k : K) : (xs.foldl (fun d x => d.update (κ x) (f x)) d).get k =
      (xs.filter fun x => κ x = k).foldl (fun o x => some (f x o)) (d.get k) := by
  induction xs generalizing d with
  | nil => rfl
  | cons x xs ih =>
    rw [List.foldl_cons, ih, get_update]
    by_cases hx : κ x = k <;> simp [hx]

/-- A loop that fills containers kept under keys, each from `e₀` on: under a key is what the
iterations for that key make of `e₀`. -/
theorem getD_foldl_update (e₀ : V) (κ : X → K) (g : X → V → V) (xs : List X) (d : Dict K V)
    (k : K) : ((xs.foldl (fun d x => d.update (κ x) fun o => g x (o.getD e₀)) d).get k).getD e₀ =
      (xs.filter fun x => κ x = k).foldl (fun e x => g x e) ((d.get k).getD e₀) := by
  induction xs generalizing d with
  | nil => rfl
  | cons x xs ih =>
    rw [List.foldl_cons, ih, get_update]
    by_cases hx : κ x = k <;> simp [hx]

theorem mem_keys_foldl_update (κ : X → K) (f : X → Option V → V) (xs : List X) (d : Dict K V)
    (k : K) : k ∈ (xs.foldl (fun d x => d.update (κ x) (f x)) d).keys ↔
      k ∈ d.keys ∨ ∃ x ∈ xs, κ x = k := by
  induction xs generalizing d with
  | nil => simp
  | cons x xs ih =>
    rw [List.foldl_cons, ih, mem_keys_update]
    simp only [List.mem_cons, exists_eq_or_imp]
    tauto

theorem forall_foldl_update {P : K × V → Prop} (κ : X → K) (f : X → Option V → V) {xs : List X}
    {d : Dict K V} (h : ∀ e ∈ d, P e) (hnone : ∀ x ∈ xs, P (κ x, f x none))
    (hsome : ∀ x ∈ xs, ∀ v, P (κ x, v) → P (κ x, f x (some v))) :
    ∀ e ∈ xs.foldl (fun d x => d.update (κ x) (f x)) d, P e := by
  induction xs generalizing d with
  | nil => exact h
  | cons x xs ih =>
    have hd := forall_update h (hnone x List.mem_cons_self) (hsome x List.mem_cons_self)
    exact ih hd (fun y hy => hnone y (List.mem_cons_of_mem _ hy))
      fun y hy => hsome y (List.mem_cons_of_mem _ hy)

theorem nodup_foldl_update (κ : X → K) (f : X → Option V → V) (xs : List X) {d : Dict K V}
    (h : d.keys.Nodup) : (xs.foldl (fun d x => d.update (κ x) (f x)) d).keys.Nodup := by
  induction xs generalizing d with
  | nil => exact h
  | cons x xs ih => exact ih (nodup_update h _ _)

end Loop

/-! ## Values and order -/

/-- `{k: g(v) for k, v in d.items()}`. -/
def mapValues {W : Type} (d : Dict K V) (g : V → W) : Dict K W := d.map fun e => (e.1, g e.2)

omit [DecidableEq K] in
@[simp] theorem keys_mapValues {W : Type} (d : Dict K V) (g : V → W) :
    (d.mapValues g).keys = d.keys := by
  simp [mapValues, keys]

theorem get_mapValues {W : Type} (d : Dict K V) (g : V → W) (k : K) :
    (d.mapValues g).get k = (d.get k).map g := by
  induction d with
  | nil => rfl
  | cons e d ih =>
    have hcons : mapValues (e :: d) g = (e.1, g e.2) :: mapValues d g := rfl
    rw [hcons, get_cons, get_cons, ih]
    by_cases he : e.1 = k <;> simp [he]

section Order
variable [LinearOrder K]

/-- `sorted(d.items())`; no two keys are the same, so only keys are compared. -/
def sortedItems (d : Dict K V) : Dict K V := d.insertionSort fun a b => a.1 ≤ b.1

/-- `sorted(d)`. -/
def sortedKeys (d : Dict K V) : List K := d.keys.insertionSort (· ≤ ·)

omit [DecidableEq K] in
@[simp] theorem mem_sortedItems {d : Dict K V} {e : K × V} : e ∈ d.sortedItems ↔ e ∈ d :=
  List.mem_insertionSort _

omit [DecidableEq K] in
@[simp] theorem mem_sortedKeys {d : Dict K V} {k : K} : k ∈ d.sortedKeys ↔ k ∈ d.keys :=
  List.mem_insertionSort _

omit [DecidableEq K] in
/-- The order of the keys depends only on which there are. -/
theorem sortedKeys_congr {W : Type} {d : Dict K V} {d' : Dict K W} (h : d.keys.Nodup)
    (h' : d'.keys.Nodup) (hmem : ∀ k, k ∈ d.keys ↔ k ∈ d'.keys) :
    d.sortedKeys = d'.sortedKeys :=
  insertionSort_eq_of_perm ((List.perm_ext_iff_of_nodup h h').2 hmem)

/-- A key has one item among the sorted items. -/
theorem filter_sortedItems {d : Dict K V} (h : d.keys.Nodup) (k : K) :
    (d.sortedItems.filter fun e => e.1 = k) = (d.get k).toList.map fun v => (k, v) := by
  have hperm : d.sortedItems.Perm d := List.perm_insertionSort _ d
  have hfilter := hperm.filter fun e => e.1 = k
  rw [filter_key h] at hfilter
  cases hget : d.get k with
  | none => simpa [hget] using hfilter
  | some v => simpa [hget] using hfilter

end Order
end Dict

/-! ## Totals -/

section Total
variable {M : Type} [AddCommMonoid M] [DecidableEq K]

/-- The sum of the items of a key. -/
def total (l : List (K × M)) (k : K) : M := ((l.filter fun e => e.1 = k).map Prod.snd).sum

@[simp] theorem total_nil (k : K) : total ([] : List (K × M)) k = 0 := rfl

theorem total_cons (e : K × M) (l : List (K × M)) (k : K) :
    total (e :: l) k = (if e.1 = k then e.2 else 0) + total l k := by
  by_cases h : e.1 = k <;> simp [total, h]

theorem total_append (l m : List (K × M)) (k : K) : total (l ++ m) k = total l k + total m k := by
  simp [total]

theorem total_eq_zero {l : List (K × M)} {k : K} (h : ∀ e ∈ l, e.1 ≠ k) : total l k = 0 := by
  rw [total, List.filter_eq_nil_iff.2 (by simpa using h)]
  rfl

theorem total_perm {l m : List (K × M)} (h : l.Perm m) (k : K) : total l k = total m k :=
  ((h.filter _).map _).sum_eq

/-- Renaming the keys. -/
theorem total_map_key {C : Type} [DecidableEq C] {g : C → K} (hg : Function.Injective g)
    (l : List (C × M)) (c : C) : total (l.map fun e => (g e.1, e.2)) (g c) = total l c := by
  induction l with
  | nil => rfl
  | cons e l ih =>
    rw [List.map_cons, total_cons, total_cons, ih]
    simp only [hg.eq_iff]

/-- In a dictionary the total of a key is what it holds. -/
theorem total_eq_get {d : Dict K M} (h : d.keys.Nodup) (k : K) :
    total d k = (d.get k).getD 0 := by
  rw [total, Dict.filter_key h]
  cases d.get k <;> simp

/-- Items derived from a dictionary one key at a time: an update that adds `δ` to the items of
its key adds `δ` to all of them. -/
theorem total_flatMap_update {C : Type} [DecidableEq C] (g : K × V → List (C × M)) (δ : C → M)
    {k : K} {f : Option V → V} {c : C} (hnone : total (g (k, f none)) c = δ c)
    (hsome : ∀ v, total (g (k, f (some v))) c = total (g (k, v)) c + δ c) (d : Dict K V) :
    total ((d.update k f).flatMap g) c = total (d.flatMap g) c + δ c := by
  induction d with
  | nil => simp [Dict.update, hnone]
  | cons e d ih =>
    obtain ⟨k', v⟩ := e
    by_cases he : k' = k
    · subst he
      simp only [Dict.update, if_true, List.flatMap_cons, total_append, hsome]
      exact add_right_comm _ _ _
    · simp only [Dict.update, he, if_false, List.flatMap_cons, total_append, ih, add_assoc]

/-- `d[k] = d.get(k, 0) + a`, for each item `(k, a)` of a list. -/
def Dict.addAll (d : Dict K M) (l : List (K × M)) : Dict K M :=
  l.foldl (fun d e => d.update e.1 fun o => o.getD 0 + e.2) d

theorem total_update_add (d : Dict K M) (k k' : K) (a : M) :
    total (d.update k fun o => o.getD 0 + a) k' = total d k' + if k = k' then a else 0 := by
  have hflat := total_flatMap_update (V := M) (fun e => [e]) (fun c => if k = c then a else 0)
    (k := k) (f := fun o => o.getD 0 + a) (c := k') (by simp [total_cons])
    (fun v => by by_cases h : k = k' <;> simp [total_cons, h]) d
  simpa [List.flatMap_singleton'] using hflat

theorem total_addAll (d : Dict K M) (l : List (K × M)) (k : K) :
    total (d.addAll l) k = total d k + total l k := by
  induction l generalizing d with
  | nil => simp [Dict.addAll]
  | cons e l ih =>
    have hstep : d.addAll (e :: l) = (d.update e.1 fun o => o.getD 0 + e.2).addAll l := rfl
    rw [hstep, ih, total_update_add, total_cons, add_assoc]

theorem nodup_addAll {d : Dict K M} (h : d.keys.Nodup) (l : List (K × M)) :
    (d.addAll l).keys.Nodup :=
  Dict.nodup_foldl_update _ _ l h

theorem mem_keys_addAll {d : Dict K M} {l : List (K × M)} {k : K} :
    k ∈ (d.addAll l).keys ↔ k ∈ d.keys ∨ k ∈ l.map Prod.fst := by
  rw [Dict.addAll, Dict.mem_keys_foldl_update]
  simp

end Total
end OcrOrchestrator.Lib
