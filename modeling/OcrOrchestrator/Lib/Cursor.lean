import Mathlib.Data.List.Basic
import Mathlib.Order.Defs.LinearOrder

/-!
# Reading an ordered log from a cursor

A log is a list whose entries have keys that grow along it.  A reader has a cursor, and asks
for the entries whose key lies after it; once it has taken some of them, the key of the last
one is its next cursor.  What makes this exact is that the entries after a cursor are a
suffix of the log, and that moving the cursor to an entry of that suffix drops exactly what
was read.

## Main results

* `filter_after_getLast` — what is left once a first part has been read.
* `filter_after_isSuffix` — the entries after a cursor are the end of the log.
-/

namespace OcrOrchestrator.Lib

variable {α ι : Type} (key : α → ι) (lt : ι → ι → Bool)

/-- Is the key after the cursor?  Everything is after no cursor. -/
def after : Option ι → ι → Bool
  | none, _ => true
  | some c, i => lt c i

/-- A strict order on keys. -/
structure StrictKeys : Prop where
  trans : ∀ {a b c}, lt a b = true → lt b c = true → lt a c = true
  irrefl : ∀ a, lt a a = false

variable {key lt} {c : Option ι}

theorem StrictKeys.asymm (h : StrictKeys lt) {a b : ι} (hab : lt a b = true) :
    lt b a = false := by
  by_contra hba
  have haa := h.trans hab (by simpa using hba)
  rw [h.irrefl a] at haa
  cases haa

/-- What is after a key that is after the cursor is after the cursor. -/
theorem StrictKeys.after_trans (h : StrictKeys lt) {a b : ι} (ha : after lt c a = true)
    (hab : lt a b = true) : after lt c b = true := by
  cases c with
  | none => rfl
  | some c => exact h.trans ha hab

/-- **Moving the cursor.**  If the entries after the cursor are `A ++ B`, then those after
the last entry of `A` are `B`. -/
theorem filter_after_getLast (h : StrictKeys lt) {L A B : List α}
    (hL : L.Pairwise fun a b => lt (key a) (key b) = true)
    (hAB : (L.filter fun x => after lt c (key x)) = A ++ B) (hA : A ≠ []) :
    (L.filter fun x => after lt (some (key (A.getLast hA))) (key x)) = B := by
  have hsorted : (A ++ B).Pairwise fun a b => lt (key a) (key b) = true :=
    hAB ▸ hL.sublist List.filter_sublist
  obtain ⟨hpA, -, hcross⟩ := List.pairwise_append.mp hsorted
  have hlast : A.getLast hA ∈ A := List.getLast_mem hA
  have hafter : after lt c (key (A.getLast hA)) = true := by
    have hmem : A.getLast hA ∈ L.filter fun x => after lt c (key x) := by
      rw [hAB]
      exact List.mem_append_left _ hlast
    exact (List.mem_filter.mp hmem).2
  -- going by the old cursor first changes nothing
  have htwice : (L.filter fun x => after lt (some (key (A.getLast hA))) (key x)) =
      (L.filter fun x => after lt c (key x)).filter
        fun x => after lt (some (key (A.getLast hA))) (key x) := by
    rw [List.filter_filter]
    apply List.filter_congr
    intro x _
    cases hx : after lt (some (key (A.getLast hA))) (key x) with
    | false => simp
    | true => simp [h.after_trans hafter hx]
  have hread : (A.filter fun x => after lt (some (key (A.getLast hA))) (key x)) = [] := by
    rw [List.filter_eq_nil_iff]
    intro x hx hgt
    have hxlast : x = A.getLast hA ∨ lt (key x) (key (A.getLast hA)) = true := by
      rw [← List.dropLast_append_getLast hA] at hx hpA
      rcases List.mem_append.mp hx with hx | hx
      · exact .inr ((List.pairwise_append.mp hpA).2.2 x hx _ (List.mem_singleton_self _))
      · exact .inl (List.mem_singleton.mp hx)
    rcases hxlast with rfl | hlt
    · exact absurd hgt (by simp [after, h.irrefl])
    · exact absurd hgt (by simp [after, h.asymm hlt])
  have hleft : (B.filter fun x => after lt (some (key (A.getLast hA))) (key x)) = B := by
    rw [List.filter_eq_self]
    intro x hx
    exact hcross _ hlast x hx
  rw [htwice, hAB, List.filter_append, hread, hleft, List.nil_append]

/-- The entries after a cursor are the end of the log. -/
theorem filter_after_isSuffix (h : StrictKeys lt) {L : List α}
    (hL : L.Pairwise fun a b => lt (key a) (key b) = true) :
    (L.filter fun x => after lt c (key x)) <:+ L := by
  induction L with
  | nil => exact List.nil_suffix
  | cons x L ih =>
    obtain ⟨hx, hrest⟩ := List.pairwise_cons.mp hL
    cases hc : after lt c (key x) with
    | true =>
      have hall : (L.filter fun x => after lt c (key x)) = L := by
        rw [List.filter_eq_self]
        exact fun y hy => h.after_trans hc (hx y hy)
      have hkeep : ((x :: L).filter fun x => after lt c (key x)) = x :: L := by
        rw [List.filter_cons, if_pos hc, hall]
      exact ⟨[], hkeep⟩
    | false =>
      rw [List.filter_cons, if_neg (by simp [hc])]
      exact (ih hrest).trans (List.suffix_cons x L)

end OcrOrchestrator.Lib
