import Mathlib.Logic.Basic

/-!
# Labelled transition systems

A system of several parties is one state with a partial step function: a label says who
does what, and `none` says that the label is not enabled.  A statement about runs is
often relative to a condition on the single steps, so reachability carries one.

## Main definitions

* `System` — an initial state and a step function.
* `System.Reach` — the states reached by steps that satisfy a condition.
* `System.runAll` — the steps of a list, taken one after the other.
-/

namespace OcrOrchestrator.Lib

/-- States `S` and labels `L`; a step is `none` if its label is not enabled. -/
structure System (S L : Type) where
  init : S
  step : S → L → Option S

namespace System
variable {S L T M : Type}

/-- The states reached by steps that satisfy `allow`. -/
inductive Reach (sys : System S L) (allow : S → L → Bool) : S → Prop where
  | init : Reach sys allow sys.init
  | step {s s' : S} {l : L} (hs : Reach sys allow s) (hallow : allow s l = true)
      (hstep : sys.step s l = some s') : Reach sys allow s'

variable {sys : System S L} {allow : S → L → Bool}

/-- What holds at the start and survives every allowed step holds in every state reached. -/
theorem Reach.invariant {Inv : S → Prop} (h0 : Inv sys.init)
    (hstep : ∀ s l s', Inv s → allow s l = true → sys.step s l = some s' → Inv s')
    {s : S} (hs : sys.Reach allow s) : Inv s := by
  induction hs with
  | init => exact h0
  | step _ hallow h ih => exact hstep _ _ _ ih hallow h

theorem Reach.mono {allow' : S → L → Bool} (h : ∀ s l, allow s l = true → allow' s l = true)
    {s : S} (hs : sys.Reach allow s) : sys.Reach allow' s := by
  induction hs with
  | init => exact .init
  | step _ hallow hstep ih => exact ih.step (h _ _ hallow) hstep

/-- A view of the state that follows another system, standing still or making one allowed
step at a time, only shows states which that system reaches. -/
theorem Reach.simulate {sys' : System T M} {allow' : T → M → Bool} (view : S → T)
    (h0 : view sys.init = sys'.init)
    (hstep : ∀ s l s', sys.Reach allow s → allow s l = true → sys.step s l = some s' →
      view s' = view s ∨
        ∃ m, allow' (view s) m = true ∧ sys'.step (view s) m = some (view s'))
    {s : S} (hs : sys.Reach allow s) : sys'.Reach allow' (view s) := by
  induction hs with
  | init =>
    rw [h0]
    exact .init
  | step hs hallow h ih =>
    rcases hstep _ _ _ hs hallow h with hstay | ⟨m, hm, hmove⟩
    · rw [hstay]
      exact ih
    · exact ih.step hm hmove

/-- Take the steps of a list one after the other, checking each. -/
def runAll (sys : System S L) (allow : S → L → Bool) (s : S) : List L → Option S
  | [] => some s
  | l :: ls =>
    if allow s l then (sys.step s l).bind fun s' => sys.runAll allow s' ls else none

theorem Reach.runAll {s s' : S} {ls : List L} (hs : sys.Reach allow s)
    (h : sys.runAll allow s ls = some s') : sys.Reach allow s' := by
  induction ls generalizing s with
  | nil =>
    obtain rfl := Option.some.inj h
    exact hs
  | cons l ls ih =>
    simp only [System.runAll] at h
    split at h
    · rename_i hallow
      obtain ⟨t, hstep, hrun⟩ := Option.bind_eq_some_iff.mp h
      exact ih (hs.step hallow hstep) hrun
    · cases h

/-- A state with a property is reached if evaluating a list of steps leads to one. -/
theorem exists_of_runAll (sys : System S L) (allow : S → L → Bool) (q : S → Bool)
    (ls : List L) (h : (sys.runAll allow sys.init ls).any q = true) :
    ∃ s, sys.Reach allow s ∧ q s = true := by
  obtain ⟨s, hs, hq⟩ := (Option.any_eq_true _ _).mp h
  exact ⟨s, Reach.init.runAll hs, hq⟩

/-- Every step is allowed. -/
def anyStep : S → L → Bool := fun _ _ => true

end System
end OcrOrchestrator.Lib
