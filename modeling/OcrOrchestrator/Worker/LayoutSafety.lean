import OcrOrchestrator.Worker.Checkpoint
import OcrOrchestrator.Worker.Exclusivity

/-!
# A page with a layout never fails

FAILED is requested with its whole predecessor set, which contains VLM_RUNNING, by handlers
that believe the page has no layout yet.  A worker in the layout stage is right about that if
no claim of a live worker is rolled back, and one in the VLM stage never asks for FAILED if the
VLM answers with objects.  What is left are parties in no stage, a final attempt that was
refused and a reaper at a task's end: they decide on what they have seen earlier, and write
whatever the page has become.

## Main definitions

* `answersObjects` — the condition on VLM bodies.
* `sparesVlmStage` — the condition on those who fail a page from no stage.
* `FailsEarly` — the invariant.
* `Fleet.LayoutsNeverFail`, `layoutsNeverFail_of_answersObjects` — the result.
-/

namespace OcrOrchestrator

open Lib PageState Phase

/-- Every body the VLM answers is a JSON object. -/
def answersObjects (f : Fleet) : Label → Bool
  | .run t o =>
    match (f.parties t).bind Party.awaited with
    | some (.vlm _) => o.fault.isSome || o.body.isObj
    | _ => true
  | _ => true

/-- A party that is in no stage does not write FAILED over a claim of the VLM stage. -/
def sparesVlmStage (f : Fleet) : Label → Bool
  | .run t _ =>
    match f.parties t with
    | some p =>
      match p.awaited with
      | some (.evalTransition key .failed _ _) =>
        !(p.stage?.isNone && decide (f.redis.state? key = some vlmRunning))
      | _ => true
    | none => true
  | _ => true

theorem sparesVlmStage_spec {f : Fleet} {t : ℕ} {o : Oracle} {p : Party} {c : Cmd}
    {k : Except Exn (Ret c) → Py Unit} {key : PageKey} {allowed : List PageState}
    {extra : List (PageField × Json)} (h : sparesVlmStage f (.run t o) = true)
    (hparty : f.parties t = some p) (hprog : p.prog = .call c k)
    (hc : c = .evalTransition key PageState.failed allowed extra) (hstage : p.stage? = none) :
    f.redis.state? key ≠ some vlmRunning := by
  subst hc
  simpa [sparesVlmStage, hparty, Party.awaited, hprog, hstage] using h

/-- Nobody is about to fail a page from the VLM stage, and no FAILED page has a layout. -/
structure FailsEarly (f : Fleet) (φ : ℕ → Phase) : Prop where
  objects : ∀ t p, f.parties t = some p → φ t ≠ failing (some .vlm)
  failed : ∀ key p, f.redis.pages key = some p → p.state = failed → p.fields .layout = none

/-- Who requests FAILED otherwise is in the layout stage or in none. -/
theorem Remembers.failer {cfg : Settings} {p : Party} {φ : Phase} (h : Remembers p φ)
    {allowed : List PageState} {extra : List (PageField × Json)} {next : Bool → Bool → Phase}
    (hreq : Requests (p.brief cfg) φ PageState.failed allowed extra next)
    (hφ : φ ≠ failing (some .vlm)) : p.stage? = none ∨ p.stage? = some .layout := by
  generalize htarget : PageState.failed = target at hreq
  cases hreq with
  | fail stage error =>
    cases stage with
    | none =>
      have hvlm := h.unlaid rfl
      cases hstage : p.stage? with
      | none => exact .inl rfl
      | some ep =>
        cases ep with
        | layout => exact .inr rfl
        | vlm => exact absurd hstage hvlm
    | some ep =>
      cases ep with
      | layout => exact .inr (h.staged .layout rfl)
      | vlm => exact absurd rfl hφ
  | force => exact .inl (h.unclaimed rfl)
  | @release site seen _ ht =>
    rw [← htarget] at ht
    cases seen <;> cases ht
  | claim ep => cases ep <;> cases htarget
  | commitLayout => cases htarget
  | commitDone => cases htarget
  | degrade => cases htarget

namespace FailsEarly
variable {cfg : Settings} {f f' : Fleet} {φ φ' : ℕ → Phase} {l : Label}

theorem empty : FailsEarly Fleet.empty φ := by
  constructor <;> simp [Fleet.empty, Redis.empty]

/-- Nobody has acted. -/
theorem frame (h : FailsEarly f φ)
    (hparties : ∀ t p, f'.parties t = some p → φ' t = look ∨ f.parties t = some p ∧ φ' t = φ t)
    (hfailed : ∀ key p, f'.redis.pages key = some p → p.state = PageState.failed →
      f.redis.pages key = some p) :
    FailsEarly f' φ' where
  objects := by
    intro t p hp
    rcases hparties t p hp with hlook | ⟨hold, hφ⟩
    · rw [hlook]
      exact Phase.noConfusion
    · rw [hφ]
      exact h.objects t p hold
  failed := fun key p hp hs => h.failed key p (hfailed key p hp hs) hs

/-! ### One act -/

/-- With objects for bodies nobody ends up failing a page from the VLM stage. -/
theorem objects_act {b : Brief} {φ₀ φ₁ : Phase} {a : Act} (hmove : Move b φ₀ a φ₁)
    (hφ : φ₀ ≠ failing (some .vlm))
    (hbody : ∀ body, a = .model .vlm (.ok body) → body.isObj = true) :
    φ₁ ≠ failing (some .vlm) := by
  have hentered : ∀ seen stranger, stranger ≠ failing (some .vlm) →
      entered seen stranger ≠ failing (some .vlm) := by
    intro seen stranger hs
    unfold entered
    split
    · simp
    · split
      · simp
      · split
        · exact hs
        · simp
  have hreleased : ∀ site, released b site ≠ failing (some .vlm) := by
    intro site
    cases site with
    | refused ep =>
      simp only [released]
      split <;> simp
    | _ => simp [released]
  have hafter : afterLayout b ≠ failing (some .vlm) := by
    unfold afterLayout
    split <;> simp
  have hterm : ∀ ok completed, afterTerminal ok completed ≠ failing (some .vlm) := by
    intro ok completed
    cases ok <;> simp [afterTerminal]
  cases hmove with
  | quiet => exact hφ
  | look => exact hentered _ _ (by split <;> simp)
  | lookOrphan => split <;> simp
  | relook => exact hentered _ _ (by simp)
  | releaseIdle => exact hreleased _
  | tellPartial => exact hafter
  | tellFinal => split <;> simp
  | call ep answer =>
    cases ep with
    | layout =>
      cases answer with
      | ok layout => simp [answered]
      | error exc =>
        simp only [answered]
        split
        · simp
        · split <;> simp
    | vlm =>
      cases answer with
      | ok body => simp [answered, hbody body rfl]
      | error exc =>
        simp only [answered]
        split <;> simp
  | request hreq ok completed =>
    cases hreq with
    | release => exact hreleased _
    | claim ep => cases ok <;> simp
    | commitLayout =>
      cases ok
      · simpa using hafter
      · simp
    | _ => exact hterm _ _
  | _ => simp

/-- FAILED is applied only to pages without a layout. -/
theorem failed_from (h : FailsEarly f φ) (hex : Exclusive f) {t : ℕ} {p : Party}
    (hparty : f.parties t = some p) (hrem : Remembers p (φ t)) {st : PageState}
    {allowed : List PageState} {extra : List (PageField × Json)} {next : Bool → Bool → Phase}
    (hreq : Requests (p.brief cfg) (φ t) PageState.failed allowed extra next) (hst : st ∈ allowed)
    (hs : f.redis.state? p.key = some st)
    (hspares : p.stage? = none → f.redis.state? p.key ≠ some vlmRunning) :
    st = pending ∨ st = layoutRunning := by
  have hfrom := hreq.allowed_subset hst
  have hnotVlm : st ≠ vlmRunning := by
    rintro rfl
    rcases hrem.failer hreq (h.objects t p hparty) with hnone | hlayout
    · exact hspares hnone hs
    · rcases hex.state t p .layout hparty hlayout with hrun | ⟨s, hs', hterm⟩
      · rw [hs] at hrun
        cases hrun
      · rw [hs] at hs'
        obtain rfl := Option.some.inj hs'
        cases hterm
  revert hfrom hnotVlm
  cases st <;> decide

end FailsEarly

/-! ## Runs -/

section Runs
variable {cfg : Settings} {f f' : Fleet} {φ φ' : ℕ → Phase} {l : Label}

/-! What one act leaves of the invariant, field by field. -/

section Acts
variable {t : ℕ} {o : Oracle} {p : Party} {c : Cmd} {k : Except Exn (Ret c) → Py Unit} {φ₁ : Phase}

theorem FailsEarly.objects_resume (h : FailsEarly f φ)
    (hobjects : answersObjects f (.run t o) = true) (hparty : f.parties t = some p)
    (hprog : p.prog = .call c k)
    (hmove : Move (p.brief cfg) (φ t) (Act.of c (c.exec cfg o f.redis).1) φ₁) {t' : ℕ} {q : Party}
    (hq : (f.resume t p ⟨c, (c.exec cfg o f.redis).1⟩ (k (c.exec cfg o f.redis).1)
      (c.exec cfg o f.redis).2).parties t' = some q) :
    Function.update φ t φ₁ t' ≠ failing (some .vlm) := by
  by_cases htt : t' = t
  · subst htt
    rw [Function.update_self]
    refine FailsEarly.objects_act hmove (h.objects t' p hparty) ?_
    intro body ha
    obtain ⟨key, rfl⟩ := Act.of_vlm ha
    cases hf : o.fault with
    | none =>
      simp only [Cmd.exec_of_fault_none hf, Act.of, Cmd.apply, Act.model.injEq,
        Except.ok.injEq, true_and] at ha
      simpa [answersObjects, hparty, Party.awaited, hprog, hf, ha] using hobjects
    | some fault => simp [Cmd.exec, hf, Act.of] at ha
  · rw [resume_parties_ne htt] at hq
    rw [Function.update_of_ne htt]
    exact h.objects t' q hq

/-- A page that is FAILED now had no layout, and FAILED brings none. -/
theorem FailsEarly.failed_exec (h : FailsEarly f φ) (hrem : Remembered f φ) (hex : Exclusive f)
    (hagrees : Agrees f) (hspares : sparesVlmStage f (.run t o) = true)
    (hparty : f.parties t = some p) (hprog : p.prog = .call c k)
    (hmove : Move (p.brief cfg) (φ t) (Act.of c (c.exec cfg o f.redis).1) φ₁)
    (heffect : Effect f.redis (c.exec cfg o f.redis).2 (Act.of c (c.exec cfg o f.redis).1))
    {key : PageKey} {page : PageHash} (hpage : (c.exec cfg o f.redis).2.pages key = some page)
    (hfailed : page.state = PageState.failed) : page.fields .layout = none := by
  have hord := hagrees.parties t p hparty
  rw [hprog] at hord
  cases hold : f.redis.pages key with
  | none =>
    rw [Cmd.pages_exec_none hold] at hpage
    cases hpage
  | some page₀ =>
    have hstate : f.redis.state? key = some page₀.state := by simp [Redis.state?, hold]
    have hlayout : page₀.fields .layout = none := by
      rcases heffect.states with
        hsame | ⟨k₀, target, allowed, extra, completed, st, ha, hst, hs₀, hup⟩
      · refine h.failed key page₀ hold ?_
        have hafter := congrFun hsame key
        rw [hstate] at hafter
        simpa [Redis.state?, hpage, hfailed] using hafter.symm
      · have hafter : (c.exec cfg o f.redis).2.state? key = some PageState.failed := by
          simp [Redis.state?, hpage, hfailed]
        rw [hup] at hafter
        by_cases hk : key = k₀
        · subst hk
          rw [Function.update_self, Option.some.injEq] at hafter
          subst hafter
          rw [ha] at hmove
          obtain rfl : key = p.key := hmove.request_key
          obtain ⟨next, hreq⟩ := hmove.requests
          have hfrom := h.failed_from hex hparty (hrem t p hparty) hreq hst hs₀ fun hstage =>
            sparesVlmStage_spec hspares hparty hprog (Act.of_request ha) hstage
          rw [hstate, Option.some.injEq] at hs₀
          exact (hagrees.pages _ page₀ hold).noLayout (hs₀ ▸ hfrom)
        · rw [Function.update_of_ne hk, hstate, Option.some.injEq] at hafter
          exact h.failed key page₀ hold hafter
    obtain ⟨page', hpage', hcase⟩ := Cmd.pages_exec_some cfg o c hold
    obtain rfl := Option.some.inj (hpage'.symm.trans hpage)
    rcases hcase with ⟨-, hfields⟩ | ⟨target, allowed, extra, rfl, -, rfl⟩
    · rw [hfields]
      exact hlayout
    · obtain rfl : target = PageState.failed := hfailed
      obtain ⟨error, rfl⟩ := hord.1.2
      simpa [PageHash.moved, PageHash.hset] using hlayout

end Acts

theorem Tick.failsEarly (h : Tick cfg f φ l f' φ') (hrem : Remembered f φ) (hex : Exclusive f)
    (hagrees : Agrees f) (hobjects : answersObjects f l = true) (hspares : sparesVlmStage f l = true)
    (hfe : FailsEarly f φ) : FailsEarly f' φ' := by
  cases h with
  | submit job totalPages now hnew =>
    refine hfe.frame (fun _ _ hp => .inr ⟨hp, rfl⟩) ?_
    intro key p hp hs
    simp only [initJob] at hp
    split at hp
    · obtain rfl := Option.some.inj hp
      cases hs
    · exact hp
  | enqueue => exact hfe.frame (fun _ _ hp => .inr ⟨hp, rfl⟩) fun _ _ hp _ => hp
  | idle => exact hfe.frame (fun _ _ hp => .inr ⟨hp, rfl⟩) fun _ _ hp _ => hp
  | crash =>
    exact hfe.frame (fun _ _ hp => .inr ⟨(Option.filter_eq_some_iff.mp hp).1, rfl⟩)
      fun _ _ hp _ => hp
  | take _ ht =>
    refine hfe.frame (fun t q hq => ?_) fun _ _ hp _ => hp
    by_cases htn : t = f.next
    · subst htn
      exact .inl (Function.update_self ..)
    · exact .inr ⟨(spawn_parties_ne htn).symm.trans hq, Function.update_of_ne htn ..⟩
  | act hparty hprog hmove heffect _ =>
    constructor
    · intro t' q hq
      exact hfe.objects_resume hobjects hparty hprog hmove hq
    · intro key page hpage hfailed
      exact hfe.failed_exec hrem hex hagrees hspares hparty hprog hmove heffect hpage hfailed

/-- A page whose layout is on record is not FAILED: if it is terminal, it is DONE or
FALLBACK_DONE. -/
def Fleet.LayoutsNeverFail (f : Fleet) : Prop :=
  ∀ key p, f.redis.pages key = some p → (p.fields .layout).isSome = true →
    p.state ≠ PageState.failed ∧
      (p.state.terminal = true → p.state = done ∨ p.state = fallbackDone)

/-- **A page with a committed layout never fails**, whatever the model endpoints do, as long as
VLM bodies are objects, no claim of a live worker is rolled back by another, and nobody who is in
no stage fails a page in the VLM stage. -/
theorem layoutsNeverFail_of_answersObjects
    (h : Reach cfg (fun f l => storeCallsSucceed f l && answersObjects f l &&
      sparesLiveClaims f l && sparesVlmStage f l) f) :
    f.LayoutsNeverFail := by
  have hexclusive : ∀ {g : Fleet}, Reach cfg (fun f l => storeCallsSucceed f l &&
      answersObjects f l && sparesLiveClaims f l && sparesVlmStage f l) g → Exclusive g := by
    intro g hg
    obtain ⟨-, -, -, -, hex⟩ := hg.exclusive (by
      intro f l hl
      simp only [Bool.and_eq_true] at hl
      exact ⟨hl.1.1.1, hl.1.2⟩)
    exact hex
  obtain ⟨φ, -, -, hfe⟩ := h.invariant (I := FailsEarly)
    (fun f l hl => by simp only [Bool.and_eq_true] at hl; exact hl.1.1.1)
    (fun φ => FailsEarly.empty)
    (fun f _ l _ _ hf _ hrem hI hl htick => by
      simp only [Bool.and_eq_true] at hl
      exact htick.failsEarly hrem (hexclusive hf) hf.agrees hl.1.1.2 hl.2 hI)
  intro key p hp hlayout
  have hfailed : p.state ≠ PageState.failed := by
    intro hs
    simp [hfe.failed key p hp hs] at hlayout
  refine ⟨hfailed, ?_⟩
  revert hfailed
  cases p.state <;> decide

end Runs

/-- Does the first page of the first job have a layout, and is it in this state? -/
def Fleet.firstPageLaidOut (s : PageState) (f : Fleet) : Bool :=
  (f.redis.pages ⟨0, 0⟩).any fun p => (p.fields .layout).isSome && decide (p.state = s)

/-- The page of `recoveredPage` goes on: the third worker, on its final attempt, is refused and
releases its claim; before it writes FAILED, another one takes the remaining entry and commits the
layout.  The write is rejected, and the page is finished after a handoff. -/
def refusedPage : List Label :=
  recoveredPage ++ [.run 4 (.raises 95000 (.rateLimitTimeout .layout 5 0))] ++ runs 4 2 95000 ++
  [.start 5, .ready 5, .deliver 5 .main 95000] ++ runs 5 5 95000 ++ runs 4 3 95000 ++
  runs 5 5 95000 ++ [.deliver 5 .main 95000] ++ runs 6 5 95000

/-- Two recoveries and a refused final attempt beside a live worker meet the conditions. -/
theorem layoutsNeverFail_refusedPage :
    ∃ f : Fleet, f.firstPageLaidOut done = true ∧ f.LayoutsNeverFail := by
  obtain ⟨f, hf, hq⟩ := Reach.exists_of_runAll {}
    (fun f l => storeCallsSucceed f l && answersObjects f l && sparesLiveClaims f l &&
      sparesVlmStage f l) (Fleet.firstPageLaidOut done) refusedPage (by decide +kernel)
  exact ⟨f, hq, layoutsNeverFail_of_answersObjects hf⟩

/-- One worker, one page; the VLM answers `null`, which has no `get`. -/
def nullBody : List Label :=
  [.initJob 0 1 1000, .enqueue ⟨0, 0⟩ 1000 "t", .start 1, .ready 1, .deliver 1 .lead 1000] ++
  runs 0 10 1000 ++ [.deliver 1 .main 1000] ++ runs 1 3 1000 ++
  [.run 1 ⟨1000, .null, 0, none⟩] ++ runs 1 1 1000

/-- A VLM body that is not an object fails a page with a layout. -/
theorem failed_by_nullBody : ¬∀ f, Reach {} storeCallsSucceed f → f.LayoutsNeverFail := by
  intro hall
  obtain ⟨f, hf, hq⟩ := Reach.exists_of_runAll {} storeCallsSucceed
    (Fleet.firstPageLaidOut PageState.failed) nullBody (by decide +kernel)
  simp only [Fleet.firstPageLaidOut, Option.any_eq_true, Bool.and_eq_true, decide_eq_true_eq] at hq
  obtain ⟨p, hp, hlayout, hs⟩ := hq
  exact (hall f hf ⟨0, 0⟩ p hp hlayout).1 hs

end OcrOrchestrator
