import OcrOrchestrator.Lib.System
import Mathlib.Order.WellFounded
import Mathlib.Tactic.ByContra

/-!
# What a run comes to

A system is live with respect to some of its labels if, whenever one of them stays enabled, one of
them is taken.  In a live run the system gets where it has to go if each of these steps lowers a
rank, no other step raises it, and one of them is enabled as long as there is a way to go.

## Main definitions

* `System.Run` — an infinite run.
* `System.Run.Live` — it does not keep an enabled step waiting for ever.
* `System.Run.ofList` — a list of steps, and then one step that changes nothing.

## Main results

* `System.Run.eventually` — the rule of the rank.
-/

namespace OcrOrchestrator.Lib.System
variable {S L : Type}

/-- An infinite run: states, and labels between them. -/
structure Run (sys : System S L) where
  state : ℕ → S
  label : ℕ → L
  start : state 0 = sys.init
  next : ∀ n, sys.step (state n) (label n) = some (state (n + 1))

namespace Run
variable {sys : System S L}

/-- One of the labels `own` is enabled. -/
def Enabled (sys : System S L) (own : L → Bool) (s : S) : Prop :=
  ∃ l s', own l = true ∧ sys.step s l = some s'

/-- If from some point on one of the labels `own` is always enabled, one of them is taken. -/
def Live (r : sys.Run) (own : L → Bool) : Prop :=
  ∀ n, (∀ m, n ≤ m → Enabled sys own (r.state m)) → ∃ m, n ≤ m ∧ own (r.label m) = true

theorem reach (r : sys.Run) (n : ℕ) : sys.Reach anyStep (r.state n) := by
  induction n with
  | zero =>
    rw [r.start]
    exact .init
  | succ n ih => exact ih.step rfl (r.next n)

/-- What a step preserves is so from some point on. -/
theorem forever (r : sys.Run) {P : S → Prop} {n : ℕ} (hn : P (r.state n))
    (hstep : ∀ s l s', P s → sys.step s l = some s' → P s') : ∀ m, n ≤ m → P (r.state m) := by
  intro m hm
  induction m, hm using Nat.le_induction with
  | base => exact hn
  | succ m _ ih => exact hstep _ _ _ ih (r.next m)

/-- **The rule of the rank**, from a point on. -/
theorem eventually {r : sys.Run} {own : L → Bool} (hlive : r.Live own) (goal : S → Prop)
    {α : Type} {lt : α → α → Prop} (hwf : WellFounded lt) (rank : S → α) (n : ℕ)
    (hstep : ∀ m, n ≤ m → ¬goal (r.state m) →
      lt (rank (r.state (m + 1))) (rank (r.state m)) ∨
        own (r.label m) = false ∧ rank (r.state (m + 1)) = rank (r.state m))
    (henabled : ∀ m, n ≤ m → ¬goal (r.state m) → Enabled sys own (r.state m)) :
    ∃ m, n ≤ m ∧ goal (r.state m) := by
  by_contra hnever
  have hno : ∀ m, n ≤ m → ¬goal (r.state m) := fun m hm hgoal => hnever ⟨m, hm, hgoal⟩
  have hfalls : ∀ a, ∀ m, n ≤ m → rank (r.state m) = a → False := by
    intro a
    induction a using hwf.induction with
    | h a ih =>
      intro m hm hrank
      obtain ⟨k, hk, hown⟩ := hlive m fun k hk => henabled k (hm.trans hk) (hno k (hm.trans hk))
      -- until the next step of its own the rank stands still
      have hstill : ∀ j, m ≤ j → j ≤ k → rank (r.state j) = a := by
        intro j hj
        induction j, hj using Nat.le_induction with
        | base => exact fun _ => hrank
        | succ j hj ihj =>
          intro hle
          have hj' := ihj (by omega)
          rcases hstep j (hm.trans hj) (hno j (hm.trans hj)) with hlt | ⟨-, heq⟩
          · exact absurd rfl (ih _ (hj' ▸ hlt) (j + 1) (by omega))
          · rw [heq, hj']
      have hk' := hstill k hk le_rfl
      rcases hstep k (hm.trans hk) (hno k (hm.trans hk)) with hlt | ⟨hother, -⟩
      · exact ih _ (hk' ▸ hlt) (k + 1) (by omega) rfl
      · rw [hown] at hother
        cases hother
  exact hfalls _ n le_rfl rfl

/-- On the way through a list of steps. -/
theorem step_take {ls : List L} {s f : S} {rest : L} (hrun : sys.runAll anyStep s ls = some f)
    (hrest : sys.step f rest = some f) (n : ℕ) :
    ∃ t t', sys.runAll anyStep s (ls.take n) = some t ∧ sys.step t (ls.getD n rest) = some t' ∧
      sys.runAll anyStep s (ls.take (n + 1)) = some t' := by
  induction ls generalizing s n with
  | nil =>
    obtain rfl := Option.some.inj hrun
    exact ⟨s, s, by simp [runAll], by simpa using hrest, by simp [runAll]⟩
  | cons l ls ih =>
    simp only [runAll, anyStep, if_true] at hrun
    obtain ⟨t, hstep, hrun⟩ := Option.bind_eq_some_iff.mp hrun
    cases n with
    | zero => exact ⟨s, t, rfl, by simpa using hstep, by simp [runAll, anyStep, hstep]⟩
    | succ n =>
      obtain ⟨u, u', hu, hnext, hu'⟩ := ih hrun n
      refine ⟨u, u', ?_, by simpa using hnext, ?_⟩
      · simpa [runAll, anyStep, hstep] using hu
      · simpa [runAll, anyStep, hstep] using hu'

/-- The steps of a list, and then for ever one that changes nothing. -/
def ofList (sys : System S L) (ls : List L) (rest : L) {f : S}
    (hrun : sys.runAll anyStep sys.init ls = some f) (hrest : sys.step f rest = some f) :
    sys.Run where
  state n := (sys.runAll anyStep sys.init (ls.take n)).getD sys.init
  label n := ls.getD n rest
  start := rfl
  next n := by
    obtain ⟨t, t', ht, hstep, ht'⟩ := step_take hrun hrest n
    rw [ht, ht', Option.getD_some, Option.getD_some, hstep]

/-- It is live if nothing is enabled where the list leads. -/
theorem live_ofList {ls : List L} {rest : L} {f : S} {own : L → Bool}
    (hrun : sys.runAll anyStep sys.init ls = some f) (hrest : sys.step f rest = some f)
    (hend : ¬Enabled sys own f) : (ofList sys ls rest hrun hrest).Live own := by
  intro n henabled
  refine absurd (henabled (n + ls.length) (Nat.le_add_right _ _)) ?_
  have hstate : (sys.runAll anyStep sys.init (ls.take (n + ls.length))).getD sys.init = f := by
    rw [List.take_of_length_le (Nat.le_add_left _ _), hrun, Option.getD_some]
  change ¬Enabled sys own ((sys.runAll anyStep sys.init (ls.take (n + ls.length))).getD sys.init)
  rw [hstate]
  exact hend

end Run
end OcrOrchestrator.Lib.System
