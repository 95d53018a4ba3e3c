import Mathlib.Data.List.Basic
import Mathlib.Order.Bounds.Basic

/-!
# Edit distance of sequences

The number of single-element insertions, deletions and substitutions that turn one sequence
into another, and the recurrence that computes the least such number.  The recurrence takes
elements off the front; read backwards it takes them off the end, which is how a table over
prefixes is filled.

## Main definitions

* `EditStep`, `Edits` — one edit, and a number of edits in a row.
* `editDist` — the recurrence; `isLeast_editDist` says it is the least number of edits.
-/

namespace OcrOrchestrator.Lib

variable {α : Type}

/-! ## Edits -/

/-- One element is inserted, deleted or replaced. -/
inductive EditStep : List α → List α → Prop
  | insert (pre post : List α) (x : α) : EditStep (pre ++ post) (pre ++ x :: post)
  | delete (pre post : List α) (x : α) : EditStep (pre ++ x :: post) (pre ++ post)
  | substitute (pre post : List α) (x y : α) : EditStep (pre ++ x :: post) (pre ++ y :: post)

/-- `n` edits turn one sequence into the other. -/
inductive Edits : ℕ → List α → List α → Prop
  | refl (r : List α) : Edits 0 r r
  | head {n : ℕ} {r s h : List α} (hstep : EditStep r s) (hrest : Edits n s h) :
      Edits (n + 1) r h

namespace EditStep

theorem symm {r s : List α} (h : EditStep r s) : EditStep s r := by
  cases h with
  | insert pre post x => exact .delete pre post x
  | delete pre post x => exact .insert pre post x
  | substitute pre post x y => exact .substitute pre post y x

theorem reverse {r s : List α} (h : EditStep r s) : EditStep r.reverse s.reverse := by
  cases h with
  | insert pre post x => simpa using EditStep.insert post.reverse pre.reverse x
  | delete pre post x => simpa using EditStep.delete post.reverse pre.reverse x
  | substitute pre post x y => simpa using EditStep.substitute post.reverse pre.reverse x y

theorem cons {r s : List α} (z : α) (h : EditStep r s) : EditStep (z :: r) (z :: s) := by
  cases h with
  | insert pre post x => exact .insert (z :: pre) post x
  | delete pre post x => exact .delete (z :: pre) post x
  | substitute pre post x y => exact .substitute (z :: pre) post x y

theorem length_le {r s : List α} (h : EditStep r s) : s.length ≤ r.length + 1 := by
  cases h <;> simp <;> omega

end EditStep

namespace Edits
variable {n m : ℕ} {r s h : List α}

theorem single (hstep : EditStep r s) : Edits 1 r s := .head hstep (.refl s)

theorem trans (h₁ : Edits n r s) (h₂ : Edits m s h) : Edits (n + m) r h := by
  induction h₁ with
  | refl => simpa using h₂
  | @head n r s _ hstep _ ih =>
    have := Edits.head hstep (ih h₂)
    rwa [Nat.add_right_comm] at this

theorem symm (hr : Edits n r h) : Edits n h r := by
  induction hr with
  | refl r => exact .refl r
  | head hstep _ ih => exact ih.trans (single hstep.symm)

theorem reverse (hr : Edits n r h) : Edits n r.reverse h.reverse := by
  induction hr with
  | refl r => exact .refl _
  | head hstep _ ih => exact .head hstep.reverse ih

theorem cons (z : α) (hr : Edits n r h) : Edits n (z :: r) (z :: h) := by
  induction hr with
  | refl r => exact .refl _
  | head hstep _ ih => exact .head (hstep.cons z) ih

theorem shorter (h₁ : Edits n r h) (h₂ : Edits m r h) : Edits (min n m) r h := by
  rcases Nat.le_total n m with hle | hle
  · rwa [Nat.min_eq_left hle]
  · rwa [Nat.min_eq_right hle]

/-- An edit changes the length by one at most. -/
theorem length_le (hr : Edits n r h) : h.length ≤ r.length + n := by
  induction hr with
  | refl r => simp
  | head hstep _ ih =>
    have := hstep.length_le
    omega

end Edits

/-! ## The recurrence -/

variable [DecidableEq α]

/-- Delete the first element, insert the other's first element, or match the two. -/
def editDist : List α → List α → ℕ
  | [], h => h.length
  | _ :: r, [] => r.length + 1
  | x :: r, y :: h =>
    min (editDist r (y :: h) + 1)
      (min (editDist (x :: r) h + 1) (editDist r h + if x = y then 0 else 1))
termination_by r h => r.length + h.length

@[simp] theorem editDist_nil_left (h : List α) : editDist [] h = h.length := by
  rw [editDist]

@[simp] theorem editDist_nil_right (r : List α) : editDist r [] = r.length := by
  cases r <;> simp [editDist]

theorem editDist_cons_cons (x y : α) (r h : List α) :
    editDist (x :: r) (y :: h) = min (editDist r (y :: h) + 1)
      (min (editDist (x :: r) h + 1) (editDist r h + if x = y then 0 else 1)) := by
  rw [editDist]

@[simp] theorem editDist_self (r : List α) : editDist r r = 0 := by
  induction r with
  | nil => simp
  | cons x r ih => simp [editDist_cons_cons, ih]

theorem editDist_cons_left_le (x : α) (r h : List α) :
    editDist (x :: r) h ≤ editDist r h + 1 := by
  cases h with
  | nil => simp
  | cons y h =>
    rw [editDist_cons_cons]
    omega

theorem editDist_cons_right_le (y : α) (r h : List α) :
    editDist r (y :: h) ≤ editDist r h + 1 := by
  cases r with
  | nil => simp
  | cons x r =>
    rw [editDist_cons_cons]
    omega

theorem editDist_cons_cons_le (x y : α) (r h : List α) :
    editDist (x :: r) (y :: h) ≤ editDist r h + 1 := by
  rw [editDist_cons_cons]
  split <;> omega

/-- Without the first element. -/
theorem editDist_le_cons_left (x : α) (r h : List α) :
    editDist r h ≤ editDist (x :: r) h + 1 := by
  induction h with
  | nil => simp; omega
  | cons y h ih =>
    have hright := editDist_cons_right_le y r h
    rw [editDist_cons_cons]
    omega

/-- With another first element. -/
theorem editDist_cons_replace_le (x y : α) (r h : List α) :
    editDist (x :: r) h ≤ editDist (y :: r) h + 1 := by
  induction h with
  | nil => simp
  | cons z h ih =>
    have hleft := editDist_cons_left_le x r (z :: h)
    have hright := editDist_cons_right_le z (x :: r) h
    have hboth := editDist_cons_cons_le x z r h
    rw [editDist_cons_cons y]
    omega

/-- A common first element in front of an edit. -/
theorem editDist_cons_mono {r s : List α} (hrs : ∀ h, editDist r h ≤ editDist s h + 1) (x : α)
    (h : List α) : editDist (x :: r) h ≤ editDist (x :: s) h + 1 := by
  induction h with
  | nil =>
    have := hrs []
    simpa using this
  | cons y h ih =>
    have hfull := hrs (y :: h)
    have hrest := hrs h
    rw [editDist_cons_cons, editDist_cons_cons]
    omega

/-- One edit of the one sequence changes the recurrence by one at most. -/
theorem EditStep.editDist_le {r s : List α} (hstep : EditStep r s) (h : List α) :
    editDist r h ≤ editDist s h + 1 := by
  cases hstep with
  | insert pre post x =>
    induction pre generalizing h with
    | nil => exact editDist_le_cons_left x post h
    | cons z pre ih => exact editDist_cons_mono ih z h
  | delete pre post x =>
    induction pre generalizing h with
    | nil => exact editDist_cons_left_le x post h
    | cons z pre ih => exact editDist_cons_mono ih z h
  | substitute pre post x y =>
    induction pre generalizing h with
    | nil => exact editDist_cons_replace_le x y post h
    | cons z pre ih => exact editDist_cons_mono ih z h

theorem Edits.editDist_le {n : ℕ} {r h : List α} (hr : Edits n r h) : editDist r h ≤ n := by
  induction hr with
  | refl r => simp
  | @head n r s h hstep _ ih =>
    have := hstep.editDist_le h
    omega

/-- The recurrence is a number of edits. -/
theorem edits_editDist (r h : List α) : Edits (editDist r h) r h := by
  induction r, h using editDist.induct with
  | case1 h =>
    induction h with
    | nil => simpa using Edits.refl ([] : List α)
    | cons y h ih =>
      simp only [editDist_nil_left] at ih ⊢
      exact ih.trans (.single (.insert [] h y))
  | case2 x r =>
    rw [editDist_nil_right]
    induction r generalizing x with
    | nil => exact .single (.delete [] [] x)
    | cons y r ih => exact .head (.delete [] _ x) (ih y)
  | case3 x r y h ihdel ihins ihsub =>
    rw [editDist_cons_cons]
    have hdel : Edits (editDist r (y :: h) + 1) (x :: r) (y :: h) := .head (.delete [] r x) ihdel
    have hins : Edits (editDist (x :: r) h + 1) (x :: r) (y :: h) :=
      ihins.trans (.single (.insert [] h y))
    have hsub : Edits (editDist r h + if x = y then 0 else 1) (x :: r) (y :: h) := by
      split
      · rename_i hxy
        subst hxy
        exact ihsub.cons x
      · exact (ihsub.cons x).trans (.single (.substitute [] h x y))
    exact hdel.shorter (hins.shorter hsub)

/-- **The recurrence is the least number of edits.** -/
theorem isLeast_editDist (r h : List α) : IsLeast {n | Edits n r h} (editDist r h) :=
  ⟨edits_editDist r h, fun _ hn => hn.editDist_le⟩

/-! ## Laws -/

theorem editDist_comm (r h : List α) : editDist r h = editDist h r :=
  le_antisymm (edits_editDist h r).symm.editDist_le (edits_editDist r h).symm.editDist_le

theorem editDist_triangle (r s h : List α) : editDist r h ≤ editDist r s + editDist s h :=
  ((edits_editDist r s).trans (edits_editDist s h)).editDist_le

theorem editDist_reverse (r h : List α) : editDist r.reverse h.reverse = editDist r h := by
  refine le_antisymm (edits_editDist r h).reverse.editDist_le ?_
  simpa using (edits_editDist r.reverse h.reverse).reverse.editDist_le

theorem editDist_eq_zero_iff {r h : List α} : editDist r h = 0 ↔ r = h := by
  constructor
  · intro hzero
    have hedits := edits_editDist r h
    rw [hzero] at hedits
    cases hedits
    rfl
  · rintro rfl
    exact editDist_self r

theorem length_le_add_editDist (r h : List α) :
    h.length ≤ r.length + editDist r h ∧ r.length ≤ h.length + editDist r h :=
  ⟨(edits_editDist r h).length_le, (edits_editDist r h).symm.length_le⟩

theorem editDist_le_max (r h : List α) : editDist r h ≤ max r.length h.length := by
  induction r, h using editDist.induct with
  | case1 h => simp
  | case2 x r => simp
  | case3 x r y h _ _ ih =>
    have := editDist_cons_cons_le x y r h
    simp only [List.length_cons]
    omega

/-- The recurrence from the end. -/
theorem editDist_concat (r h : List α) (x y : α) :
    editDist (r ++ [x]) (h ++ [y]) = min (editDist r (h ++ [y]) + 1)
      (min (editDist (r ++ [x]) h + 1) (editDist r h + if x = y then 0 else 1)) := by
  have hback := editDist_cons_cons x y r.reverse h.reverse
  have hx : x :: r.reverse = (r ++ [x]).reverse := by simp
  have hy : y :: h.reverse = (h ++ [y]).reverse := by simp
  rwa [hx, hy, editDist_reverse, editDist_reverse, editDist_reverse, editDist_reverse] at hback

end OcrOrchestrator.Lib
