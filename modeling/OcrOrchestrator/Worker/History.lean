import OcrOrchestrator.Worker.Tick

/-!
# What a party's history says about it

Conditions on runs are stated in terms of what a worker has done so far, that is, of the
commands it has had answered; invariants are stated in terms of phases.  This module
defines the former and ties them to the latter, once for all of them.

## Main definitions

* `Party.stage?` — the stage a party is in: it has claimed it and has not yet requested
  the transition that ends it.
* `Party.owesPartial`, `Party.owesFinal` — a commit whose event is not published yet.
* `Remembers` — a party in a phase has the history that goes with it.
* `Reach.invariant` — the induction over runs, with phases and histories.
-/

namespace OcrOrchestrator

open Lib PageState Phase

/-- The stage whose claim puts a page in this state. -/
def PageState.stage? : PageState → Option Endpoint
  | layoutRunning => some .layout
  | vlmRunning => some .vlm
  | _ => none

/-! ## Reading a history, newest act first -/

namespace Act

/-- The stage of the latest transition request, if that is a claim that was applied. -/
def stage? : List Act → Option Endpoint
  | request _ target _ _ ok _ :: _ => if ok then target.stage? else none
  | _ :: acts => stage? acts
  | [] => none

/-- Has the layout model been called? -/
def calledLayout : List Act → Bool
  | model .layout _ :: _ => true
  | _ :: acts => calledLayout acts
  | [] => false

/-- The latest applied transition and whether it wrote fields, if nothing was requested or
published since. -/
def owed? : List Act → Option (PageState × Bool)
  | request _ target _ extra ok _ :: _ => if ok then some (target, !extra.isEmpty) else none
  | publish _ _ _ :: _ => none
  | _ :: acts => owed? acts
  | [] => none

/-- Only requests change the stage. -/
theorem stage?_cons {a : Act} {acts : List Act} {ep : Endpoint} (h : stage? (a :: acts) = some ep) :
    stage? acts = some ep ∨
      ∃ key target allowed extra completed, a = request key target allowed extra true completed ∧
        target.stage? = some ep := by
  cases a with
  | request key target allowed extra ok completed =>
    cases ok
    · cases h
    · exact .inr ⟨key, target, allowed, extra, completed, rfl, h⟩
  | _ => exact .inl h

/-- Acts that no reading of a history looks at. -/
def silent : Act → Bool
  | quiet => true
  | look _ _ => true
  | xack _ => true
  | xdel _ => true
  | _ => false

theorem readings_silent {a : Act} (h : a.silent = true) (acts : List Act) :
    stage? (a :: acts) = stage? acts ∧ calledLayout (a :: acts) = calledLayout acts ∧
      owed? (a :: acts) = owed? acts := by
  cases a <;> first | exact ⟨rfl, rfl, rfl⟩ | cases h

end Act

namespace Party

/-- What the party has done, newest first. -/
def acts (p : Party) : List Act := p.log.map fun e => Act.of e.cmd e.answer

/-- The stage the party is in. -/
def stage? (p : Party) : Option Endpoint := Act.stage? p.acts

/-- The party has committed a layout result and not yet published `page.partial`. -/
def owesPartial (p : Party) : Bool := decide (Act.owed? p.acts = some (layoutDone, true))

/-- The party has made its page terminal and not yet published `page.final`. -/
def owesFinal (p : Party) : Bool := (Act.owed? p.acts).any fun x => x.1.terminal

end Party

/-! ## Phases and histories -/

namespace Phase

/-- The stage a phase lies in. -/
def staged : Phase → Option Endpoint
  | calling ep => some ep
  | commitLayout _ => some .layout
  | commitDone => some .vlm
  | degrading => some .vlm
  | failing stage => stage
  | releaseRead (.refused ep) => some ep
  | releaseWrite (.refused ep) _ => some ep
  | _ => none

/-- The endpoint whose refusal is being handled. -/
def refusedAt : Phase → Option Endpoint
  | releaseRead (.refused ep) => some ep
  | releaseWrite (.refused ep) _ => some ep
  | _ => none

/-- Phases before any claim. -/
def unclaimed : Phase → Bool
  | look => true
  | relook => true
  | weighing => true
  | releaseRead .reclaim => true
  | releaseRead .reap => true
  | releaseWrite .reclaim _ => true
  | releaseWrite .reap _ => true
  | forceRead => true
  | forceWrite _ => true
  | _ => false

attribute [simp] staged refusedAt unclaimed

end Phase

/-- A party in phase `φ` has the history that goes with it. -/
structure Remembers (p : Party) (φ : Phase) : Prop where
  staged : ∀ ep, φ.staged = some ep → p.stage? = some ep
  refused : φ.refusedAt = some .layout → Act.calledLayout p.acts = true
  notFinal : φ.refusedAt = some .vlm → p.final = false
  unclaimed : φ.unclaimed = true → p.stage? = none
  unlaid : φ = failing none → p.stage? ≠ some .vlm
  owesPartial : φ = tellPartial → p.owesPartial = true
  owesFinal : ∀ completed, φ = tellFinal completed → p.owesFinal = true

namespace Remembers
variable {cfg : Settings} {p p' : Party} {φ φ' : Phase} {a : Act}

/-! One rule for each kind of phase: what of the history matters there. -/

theorem of_unclaimed (hφ : φ.unclaimed = true) (h : p.stage? = none) : Remembers p φ := by
  unfold Phase.unclaimed at hφ
  split at hφ
  case h_10 => cases hφ
  all_goals constructor <;> simp [h]

theorem of_staged (ep : Endpoint) (hφ : φ.staged = some ep) (hr : φ.refusedAt = none)
    (h : p.stage? = some ep) : Remembers p φ := by
  unfold Phase.staged at hφ
  split at hφ
  case h_8 => cases hφ
  all_goals constructor <;> simp_all

theorem of_refused {ep : Endpoint} (hφ : φ.refusedAt = some ep) (hs : p.stage? = some ep)
    (hlayout : ep = .layout → Act.calledLayout p.acts = true)
    (hvlm : ep = .vlm → p.final = false) : Remembers p φ := by
  unfold Phase.refusedAt at hφ
  split at hφ
  case h_3 => cases hφ
  all_goals
    obtain rfl := Option.some.inj hφ
    constructor <;> simp_all

/-- Phases with nothing to remember. -/
theorem of_plain (h : φ = settling ∨ φ = deleting ∨ φ = ended ∨ φ = requeueing ∨
    φ = tellComplete ∨ ∃ ep, φ = claim ep) : Remembers p φ := by
  rcases h with rfl | rfl | rfl | rfl | rfl | ⟨ep, rfl⟩ <;>
    constructor <;> simp

theorem of_tellPartial (h : p.owesPartial = true) : Remembers p tellPartial := by
  constructor <;> simp [h]

theorem of_tellFinal {completed : Bool} (h : p.owesFinal = true) :
    Remembers p (tellFinal completed) := by
  constructor <;> simp [h]

theorem of_failing_none (h : p.stage? ≠ some .vlm) : Remembers p (failing none) := by
  constructor <;> simp [h]

/-! ## One move -/

theorem of_entered {seen : Option PageState} {stranger : Phase} (h : Remembers p stranger) :
    Remembers p (entered seen stranger) := by
  unfold entered
  split
  · exact of_plain (.inl rfl)
  · split
    · exact of_plain (.inl rfl)
    · split
      · exact h
      · exact of_plain (by simp)

theorem of_afterTerminal {ok completed : Bool} (h : ok = true → p.owesFinal = true) :
    Remembers p (afterTerminal ok completed) := by
  cases ok
  · exact of_plain (.inl rfl)
  · exact of_tellFinal (h rfl)

theorem of_afterLayout {b : Brief} : Remembers p (afterLayout b) := by
  unfold afterLayout
  split <;> exact of_plain (by simp)

/-- After a silent act every reading of the history is as before. -/
theorem silent (hacts : p'.acts = a :: p.acts) (hfin : p'.final = p.final) (ha : a.silent = true)
    (h : Remembers p φ) : Remembers p' φ := by
  obtain ⟨hstage, hcalled, howed⟩ := Act.readings_silent ha p.acts
  rw [← hacts] at hstage hcalled howed
  constructor
  · simpa only [Party.stage?, hstage] using h.staged
  · simpa only [hcalled] using h.refused
  · simpa only [hfin] using h.notFinal
  · simpa only [Party.stage?, hstage] using h.unclaimed
  · simpa only [Party.stage?, hstage] using h.unlaid
  · simpa only [Party.owesPartial, howed] using h.owesPartial
  · simpa only [Party.owesFinal, howed] using h.owesFinal

/-- Where a `release_claim` leaves a party, given the history of its call site. -/
theorem of_released {b : Brief} {site : Site} (hb : b.final = p.final)
    (hreclaim : site = .reclaim → p.stage? = none)
    (hlayout : site = .refused .layout → p.stage? ≠ some .vlm)
    (hvlm : site = .refused .vlm → p.final = false) :
    Remembers p (released b site) := by
  cases site with
  | reclaim => exact of_unclaimed rfl (hreclaim rfl)
  | reap => exact of_plain (by simp [released])
  | refused ep =>
    cases hf : b.final
    · exact of_plain (by simp [released, hf])
    · simp only [released, hf, if_true]
      rw [hb] at hf
      cases ep with
      | layout => exact of_failing_none (hlayout rfl)
      | vlm => simp [hf] at hvlm

/-- A request leads to the history its answer calls for. -/
theorem request {key : PageKey} {target : PageState} {allowed : List PageState}
    {extra : List (PageField × Json)} {next : Bool → Bool → Phase} {ok completed : Bool}
    (hacts : p'.acts = .request key target allowed extra ok completed :: p.acts)
    (hfin : p'.final = p.final) (h : Remembers p φ)
    (hreq : Requests (p.brief cfg) φ target allowed extra next) :
    Remembers p' (next ok completed) := by
  cases hreq with
  | @release site seen target ht =>
    -- Applied or not, the party has no claim any more.
    have hstage : p'.stage? = none := by
      cases ok <;> cases seen <;> simp [reclaimTarget] at ht <;> subst ht <;>
        simp [Party.stage?, hacts, Act.stage?, PageState.stage?]
    refine of_released hfin.symm (fun _ => hstage) (fun _ => by simp [hstage]) ?_
    rintro rfl
    rw [hfin]
    exact h.notFinal rfl
  | claim ep =>
    cases ok
    · exact of_plain (.inl rfl)
    · refine of_staged ep rfl rfl ?_
      cases ep <;> simp [Party.stage?, hacts, Act.stage?, Endpoint.runningState, PageState.stage?]
  | commitLayout layout =>
    cases ok
    · exact of_afterLayout
    · exact of_tellPartial (by simp [Party.owesPartial, hacts, Act.owed?])
  | commitDone =>
    exact of_afterTerminal fun hok => by simp [Party.owesFinal, hacts, Act.owed?, hok]; rfl
  | degrade =>
    exact of_afterTerminal fun hok => by simp [Party.owesFinal, hacts, Act.owed?, hok]; rfl
  | fail =>
    exact of_afterTerminal fun hok => by simp [Party.owesFinal, hacts, Act.owed?, hok]; rfl
  | force seen reason ht =>
    exact of_afterTerminal fun hok => by
      simp only [Party.owesFinal, hacts, Act.owed?, hok, if_true, Option.any_some, forceTarget]
      split <;> rfl

/-- A model's answer leads to the history the next phase calls for. -/
theorem called {ep : Endpoint} {answer : Except Exn Json}
    (hacts : p'.acts = .model ep answer :: p.acts) (hfin : p'.final = p.final)
    (h : Remembers p (calling ep)) : Remembers p' (answered (p.brief cfg) ep answer) := by
  have hstage : p'.stage? = some ep := by
    simpa [Party.stage?, hacts, Act.stage?] using h.staged ep rfl
  cases ep with
  | layout =>
    cases answer with
    | ok layout => exact of_staged .layout rfl rfl hstage
    | error exc =>
      cases hr : exc.refusal.isSome
      · simp only [answered, hr, Bool.false_eq_true, if_false]
        split
        · exact of_staged .layout rfl rfl hstage
        · exact of_plain (by simp)
      · simp only [answered, hr, if_true]
        refine of_refused rfl hstage (fun _ => ?_) (fun h => by cases h)
        simp [hacts, Act.calledLayout]
  | vlm =>
    cases answer with
    | ok body =>
      simp only [answered]
      split <;> exact of_staged .vlm rfl rfl hstage
    | error exc =>
      simp only [answered]
      split
      · rename_i hcond
        refine of_refused rfl hstage (fun h => by cases h) (fun _ => ?_)
        simp only [Party.brief, Bool.and_eq_true, Bool.not_eq_true'] at hcond
        rw [hfin]
        exact hcond.2
      · exact of_staged .vlm rfl rfl hstage

/-- **Histories keep up with phases.** -/
theorem move (hacts : p'.acts = a :: p.acts) (hfin : p'.final = p.final) (h : Remembers p φ)
    (hmove : Move (p.brief cfg) φ a φ') : Remembers p' φ' := by
  cases hmove with
  | request hreq ok completed => exact request hacts hfin h hreq
  | call ep answer => exact called hacts hfin h
  | quiet => exact silent hacts hfin rfl h
  | weighForce => exact of_unclaimed rfl ((silent hacts hfin rfl h).unclaimed rfl)
  | weighRelease => exact of_unclaimed rfl ((silent hacts hfin rfl h).unclaimed rfl)
  | look hrole seen =>
    have h' := silent hacts hfin rfl h
    apply of_entered
    split
    · exact of_unclaimed rfl (h'.unclaimed rfl)
    · exact of_plain (.inl rfl)
  | lookOrphan hrole seen =>
    have h' := silent hacts hfin rfl h
    split
    · exact of_unclaimed rfl (h'.unclaimed rfl)
    · exact of_plain (.inl rfl)
  | relook seen => exact of_entered (of_plain (.inl rfl))
  | @releaseIdle site seen hidle =>
    have h' := silent hacts hfin rfl h
    refine of_released hfin.symm ?_ ?_ ?_ <;> rintro rfl
    · exact h'.unclaimed rfl
    · rw [h'.staged .layout rfl]
      decide
    · rw [hfin]
      exact h.notFinal rfl
  | @releaseRunning site seen hrun =>
    have h' := silent hacts hfin rfl h
    cases site with
    | refused ep =>
      refine of_refused rfl (h'.staged ep rfl) ?_ ?_
      · rintro rfl
        exact h'.refused rfl
      · rintro rfl
        exact h'.notFinal rfl
    | _ => exact of_unclaimed rfl (h'.unclaimed rfl)
  | forceSettled => exact of_plain (.inl rfl)
  | forceOpen => exact of_unclaimed rfl ((silent hacts hfin rfl h).unclaimed rfl)
  | tellPartial => exact of_afterLayout
  | tellFinal => split <;> exact of_plain (by simp)
  | tellComplete => exact of_plain (.inl rfl)
  | requeue => exact of_plain (.inl rfl)
  | settle => exact of_plain (by simp)
  | delete => exact of_plain (by simp)

end Remembers

/-! ## Runs -/

/-- Every live party has the history that goes with its phase. -/
def Remembered (f : Fleet) (φ : ℕ → Phase) : Prop :=
  ∀ t p, f.parties t = some p → Remembers p (φ t)

section Runs
variable {cfg : Settings} {f f' : Fleet} {φ φ' : ℕ → Phase} {l : Label}

theorem Tick.remembered (h : Tick cfg f φ l f' φ') (hr : Remembered f φ) : Remembered f' φ' := by
  intro t q hq
  rcases h.party_cases hq with ⟨hp, hφ⟩ | ⟨-, hφ, hlog⟩ | ⟨p, c, ans, hp, hmove, prog, rfl⟩
  · rw [hφ]
    exact hr t q hp
  · rw [hφ]
    exact Remembers.of_unclaimed rfl (by simp [Party.stage?, Party.acts, hlog, Act.stage?])
  · exact Remembers.move rfl rfl (hr t p hp) hmove

/-- **Induction over runs, with phases**: an invariant of fleets and phases that holds
initially and is kept by every tick holds, for some phases, of every state reached. -/
theorem Reach.invariant {allow : Fleet → Label → Bool} {I : Fleet → (ℕ → Phase) → Prop}
    (hstore : ∀ f l, allow f l = true → storeCallsSucceed f l = true)
    (hinit : ∀ φ, I Fleet.empty φ)
    (hstep : ∀ f φ l f' φ', Reach cfg allow f → Phased cfg f φ → Remembered f φ → I f φ →
      allow f l = true → Tick cfg f φ l f' φ' → I f' φ')
    (h : Reach cfg allow f) : ∃ φ, Phased cfg f φ ∧ Remembered f φ ∧ I f φ := by
  induction h with
  | init =>
    refine ⟨fun _ => ended, ?_, ?_, hinit _⟩ <;>
    · intro t p hp
      cases hp
  | step hf hallow hs ih =>
    obtain ⟨φ, hphased, hrem, hI⟩ := ih
    obtain ⟨φ', htick, hphased'⟩ := step_tick hphased (hstore _ _ hallow) hs
    exact ⟨φ', hphased', htick.remembered hrem, hstep _ _ _ _ _ hf hphased hrem hI hallow htick⟩

end Runs

end OcrOrchestrator
