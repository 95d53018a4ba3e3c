import Mathlib.Algebra.BigOperators.Fin
import Mathlib.Algebra.BigOperators.Group.List.Basic
import Mathlib.Algebra.GroupWithZero.Nat
import Mathlib.Order.Interval.Finset.Fin

/-!
# Loop rules for left folds

A `for` loop over a sequence, with a mutable state, is a left fold.  The first two rules
below prove an invariant of such a loop from one iteration.  In both the invariant
sees how far the loop has come: as the part of the sequence already visited, or, for
a counting loop, as the number of iterations.  The third is about a loop that carries a
counter of what it has done, the last about one that carries a running total and uses it in
every iteration.
-/

namespace OcrOrchestrator.Lib
variable {σ β : Type}

/-- The rule for a loop over a list: the invariant is indexed by the elements visited so
far, and one iteration adds the next element to them. -/
theorem foldl_induction (f : σ → β → σ) (xs : List β) (s : σ) (P : List β → σ → Prop)
    (h₀ : P [] s)
    (hstep : ∀ pre x post s, xs = pre ++ x :: post → P pre s → P (pre ++ [x]) (f s x)) :
    P xs (xs.foldl f s) := by
  have key : ∀ rest pre s, xs = pre ++ rest → P pre s → P xs (rest.foldl f s) := by
    intro rest
    induction rest with
    | nil =>
      intro pre s hxs h
      rw [List.append_nil] at hxs
      simpa [hxs] using h
    | cons x rest ih =>
      intro pre s hxs h
      refine ih (pre ++ [x]) (f s x) ?_ (hstep pre x rest s hxs h)
      simpa using hxs
  exact key xs [] s rfl h₀

/-- The rule for `for k in range(1, m + 1)`: the invariant is indexed by the number of
iterations done, which is also the last value of the loop variable. -/
theorem foldl_range_induction (f : σ → ℕ → σ) (m : ℕ) (P : ℕ → σ → Prop) {s : σ}
    (h₀ : P 0 s) (hstep : ∀ k s, k < m → P k s → P (k + 1) (f s (k + 1))) :
    P m ((List.range' 1 m).foldl f s) := by
  induction m with
  | zero => exact h₀
  | succ m ih =>
    have hm : P m ((List.range' 1 m).foldl f s) :=
      ih fun k s hk h => hstep k s (by omega) h
    rw [List.range'_concat, List.foldl_append, Nat.one_mul, Nat.add_comm 1 m]
    exact hstep m _ (by omega) hm

/-- A loop whose iterations charge a counter: the state is that of the plain loop, and the
charges add up. -/
theorem foldl_charged {f : σ × ℕ → β → σ × ℕ} {g : σ → β → σ} {c : β → ℕ}
    (h : ∀ s n x, f (s, n) x = (g s x, n + c x)) (xs : List β) (s : σ) (n : ℕ) :
    xs.foldl f (s, n) = (xs.foldl g s, n + (xs.map c).sum) := by
  induction xs generalizing s n with
  | nil => simp
  | cons x xs ih => simp [h, ih, Nat.add_assoc]

/-- A loop over indices that appends an output made from the running total. -/
theorem foldl_running {M : Type} [AddCommMonoid M] {n : ℕ} (g : Fin n → M) (f : Fin n → M → β) :
    (List.finRange n).foldl (fun acc i => (acc.1 + g i, acc.2 ++ [f i (acc.1 + g i)]))
        ((0 : M), ([] : List β)) =
      (∑ i, g i, (List.finRange n).map fun i => f i (∑ j ∈ Finset.Iic i, g j)) := by
  induction n with
  | zero => simp
  | succ n ih =>
    have hinit := ih (fun i => g i.castSucc) fun i => f i.castSucc
    have hprefix : ∀ i : Fin n,
        ∑ j ∈ Finset.Iic i.castSucc, g j = ∑ j ∈ Finset.Iic i, g j.castSucc := by
      intro i
      rw [← Fin.map_castSuccEmb_Iic, Finset.sum_map]
      rfl
    have hlast : ∑ j ∈ Finset.Iic (Fin.last n), g j =
        ∑ i : Fin n, g i.castSucc + g (Fin.last n) := by
      rw [← Fin.sum_univ_castSucc]
      congr 1
      ext j
      simp [Fin.le_last]
    rw [List.finRange_succ_last, List.foldl_append, List.foldl_map, hinit, Fin.sum_univ_castSucc,
      List.map_append, List.map_map]
    simp [hlast, hprefix, Function.comp_def]

end OcrOrchestrator.Lib
