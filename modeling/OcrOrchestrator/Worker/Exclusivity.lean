import OcrOrchestrator.Worker.Ledger

/-!
# One worker per stage

A claim carries no owner, so a `release_claim` cannot tell the claim of a vanished worker
from a fresh one by somebody else.  A recovering worker that reads the first and finds the
second when it writes takes that claim away, and the stage can be claimed again.  Nothing
else breaks exclusivity: in every run without such a write at most one live worker is in a
stage of a page, and one that is refused rolls back no claim but its own.

## Main definitions

* `sparesLiveClaims` — the condition on rollbacks.
* `Fleet.ExclusiveStages`, `Fleet.RollsBackOwn` — what it gives.
* `Exclusive` — the invariant.
* `exclusive_of_sparesLiveClaims` — the result.
-/

namespace OcrOrchestrator

open Lib PageState Phase

/-! ## The condition on rollbacks -/

/-- A party that is in no stage does not roll back the claim of another live worker. -/
def sparesLiveClaims (f : Fleet) : Label → Bool
  | .run t _ =>
    match f.parties t with
    | some p =>
      match p.awaited with
      | some (.evalTransition key target [seen] _) =>
        !(p.stage?.isNone && decide (reclaimTarget seen = some target) &&
          decide (f.redis.state? key = some seen) &&
          f.anyOther t fun q => decide (q.key = key) && q.stage?.isSome)
      | _ => true
    | none => true
  | _ => true

theorem sparesLiveClaims_spec {f : Fleet} {t : ℕ} {o : Oracle} {p : Party} {key : PageKey}
    {target seen : PageState} {extra : List (PageField × Json)}
    (h : sparesLiveClaims f (.run t o) = true) (hparty : f.parties t = some p)
    (hawaited : p.awaited = some (.evalTransition key target [seen] extra))
    (hstage : p.stage? = none) (htarget : reclaimTarget seen = some target)
    (hs : f.redis.state? key = some seen) :
    f.anyOther t (fun q => decide (q.key = key) && q.stage?.isSome) = false := by
  simpa [sparesLiveClaims, hparty, hawaited, hstage, htarget, hs] using h

namespace Fleet

/-- At most one live worker is in a stage of a page. -/
def ExclusiveStages (f : Fleet) : Prop :=
  ∀ t t' p p', f.parties t = some p → f.parties t' = some p' → p.key = p'.key →
    p.stage?.isSome = true → p'.stage?.isSome = true → t = t'

/-- If a rollback by party `t` is about to be applied, it takes no claim away from another live
worker. -/
def RollsBackOwn (f : Fleet) (t : ℕ) : Prop :=
  ∀ p key target seen extra, f.parties t = some p →
    p.awaited = some (.evalTransition key target [seen] extra) →
    reclaimTarget seen = some target → f.redis.state? key = some seen →
    ∀ t' p', f.parties t' = some p' → t' ≠ t → p'.key = key → p'.stage? = none

end Fleet

/-! ## The invariant -/

/-- A party in a stage is alone in it, and has the page in that stage or terminal. -/
structure Exclusive (f : Fleet) : Prop where
  one : ∀ t t' p p', f.parties t = some p → f.parties t' = some p' → p.key = p'.key →
    p.stage?.isSome = true → p'.stage?.isSome = true → t = t'
  state : ∀ t p ep, f.parties t = some p → p.stage? = some ep →
    f.redis.state? p.key = some ep.runningState ∨ f.Terminal p.key

/-- A party whose request, if applied, moves the page out of a running state without making it
terminal is itself in a stage, or the request is a rollback. -/
theorem Remembers.mover {cfg : Settings} {p : Party} {φ : Phase} (h : Remembers p φ)
    {target st : PageState} {allowed : List PageState} {extra : List (PageField × Json)}
    {next : Bool → Bool → Phase} (hreq : Requests (p.brief cfg) φ target allowed extra next)
    (hst : st ∈ allowed) (hrun : st.running = true) (hterm : target.terminal = false) :
    p.stage?.isSome = true ∨
      p.stage? = none ∧ allowed = [st] ∧ reclaimTarget st = some target := by
  cases hreq with
  | @release site seen target ht =>
    obtain rfl := List.mem_singleton.mp hst
    cases site with
    | refused ep => exact .inl (by rw [h.staged ep rfl]; rfl)
    | _ => exact .inr ⟨h.unclaimed rfl, rfl, ht⟩
  | commitLayout => exact .inl (by rw [h.staged .layout rfl]; rfl)
  | claim ep => exfalso; cases ep <;> revert hst hrun <;> cases st <;> decide
  | commitDone => cases hterm
  | degrade => cases hterm
  | fail => cases hterm
  | force seen =>
    exfalso
    revert hterm
    unfold forceTarget
    split <;> decide

theorem PageState.stage?_isSome (s : PageState) : s.stage?.isSome = s.running := by
  cases s <;> rfl

theorem PageState.runningState_of_stage? {s : PageState} {ep : Endpoint} (h : s.stage? = some ep) :
    s = ep.runningState := by
  cases s <;> cases h <;> rfl

theorem PageState.terminal_of_stage? {s : PageState} (h : s.stage?.isSome = true) :
    s.terminal = false := by
  cases s <;> first | rfl | cases h

namespace Exclusive
variable {cfg : Settings} {f f' : Fleet} {φ φ' : ℕ → Phase} {l : Label}

theorem empty : Exclusive Fleet.empty := by
  constructor <;> simp [Fleet.empty]

/-- Nobody has entered a stage, and no page has moved. -/
theorem frame (h : Exclusive f) (hbooks : Books f)
    (hback : ∀ t q', f'.parties t = some q' → q'.stage? = none ∨
      ∃ q, f.parties t = some q ∧ q'.key = q.key ∧ ∀ ep, q'.stage? = some ep → q.stage? = some ep)
    (hstate : ∀ key, f.enqueued key = true → f'.redis.state? key = f.redis.state? key) :
    Exclusive f' := by
  have hstage : ∀ {t q' ep}, f'.parties t = some q' → q'.stage? = some ep →
      ∃ q, f.parties t = some q ∧ q'.key = q.key ∧ q.stage? = some ep := by
    intro t q' ep hq' hep
    rcases hback t q' hq' with hnone | ⟨q, hq, hkey, hst⟩
    · rw [hnone] at hep
      cases hep
    · exact ⟨q, hq, hkey, hst ep hep⟩
  constructor
  · intro t t' p p' hp hp' hkey hs hs'
    obtain ⟨ep, hep⟩ := Option.isSome_iff_exists.mp hs
    obtain ⟨ep', hep'⟩ := Option.isSome_iff_exists.mp hs'
    obtain ⟨q, hq, hk, hqs⟩ := hstage hp hep
    obtain ⟨q', hq', hk', hqs'⟩ := hstage hp' hep'
    exact h.one t t' q q' hq hq' (by rw [← hk, ← hk', hkey]) (by rw [hqs]; rfl) (by rw [hqs']; rfl)
  · intro t p ep hp hep
    obtain ⟨q, hq, hk, hqs⟩ := hstage hp hep
    have hsame := hstate q.key (hbooks.partyPage t q hq)
    rw [Fleet.Terminal, hk, hsame]
    exact h.state t q ep hq hqs

/-! ### An applied transition

A claim finds the page idle; anything else comes from the one party in the stage, makes the page
terminal, or is a rollback that spares the live. -/

section Applied
variable {t : ℕ} {p : Party} {e : Event} {prog : Py Unit} {s' : Redis} {target st : PageState}
  {allowed : List PageState} {extra : List (PageField × Json)} {completed : Bool}
  {next : Bool → Bool → Phase}

/-- If the page stays open, nobody else is in a stage of it. -/
theorem alone (h : Exclusive f) (hphased : Phased cfg f φ) (hparty : f.parties t = some p)
    (hrem : Remembers p (φ t)) (hreq : Requests (p.brief cfg) (φ t) target allowed extra next)
    (hst : st ∈ allowed) (hs : f.redis.state? p.key = some st)
    (hspares : p.stage? = none → allowed = [st] → reclaimTarget st = some target →
      f.anyOther t (fun q => decide (q.key = p.key) && q.stage?.isSome) = false)
    (hopen : target.terminal = false) {t' : ℕ} {q : Party} (hq : f.parties t' = some q)
    (hne : t' ≠ t) (hkey : q.key = p.key) : q.stage? = none := by
  cases hep : q.stage? with
  | none => rfl
  | some ep =>
    exfalso
    have hstopen : st.terminal = false :=
      terminal_eq_false_of_mem_predecessors (hreq.allowed_subset hst)
    have hrun : st.running = true := by
      rcases h.state t' q ep hq hep with hrun | ⟨s, hs', hterm⟩
      · rw [hkey, hs] at hrun
        rw [Option.some.inj hrun]
        cases ep <;> rfl
      · rw [hkey, hs] at hs'
        rw [← Option.some.inj hs', hstopen] at hterm
        cases hterm
    rcases hrem.mover hreq hst hrun hopen with hstage | ⟨hnone, hallowed, htarget⟩
    · exact hne (h.one t' t q p hq hparty hkey (by rw [hep]; rfl) hstage)
    · have hother := hspares hnone hallowed htarget
      rw [Fleet.anyOther_eq_true.mpr ⟨t', q, (hphased t' q hq).1, hne, hq, by simp [hkey, hep]⟩]
        at hother
      cases hother

/-- The party that has acted is in the stage its target opens, if any. -/
theorem stage?_resume {key : PageKey}
    (hacts : Act.of e.cmd e.answer = .request key target allowed extra true completed) {q : Party}
    (hq : (f.resume t p e prog s').parties t = some q) :
    q.key = p.key ∧ q.stage? = target.stage? := by
  obtain rfl := resume_parties_self hq
  exact ⟨rfl, by simp [Party.stage?, Party.acts, hacts, Act.stage?]⟩

theorem one_applied (h : Exclusive f)
    (halone : target.terminal = false → ∀ t' q, f.parties t' = some q → t' ≠ t →
      q.key = p.key → q.stage? = none)
    (hacts : Act.of e.cmd e.answer = .request p.key target allowed extra true completed)
    {t₁ t₂ : ℕ} {q₁ q₂ : Party} (hq₁ : (f.resume t p e prog s').parties t₁ = some q₁)
    (hq₂ : (f.resume t p e prog s').parties t₂ = some q₂) (hkey : q₁.key = q₂.key)
    (hs₁ : q₁.stage?.isSome = true) (hs₂ : q₂.stage?.isSome = true) : t₁ = t₂ := by
  by_cases h₁ : t₁ = t <;> by_cases h₂ : t₂ = t
  · rw [h₁, h₂]
  · subst h₁
    obtain ⟨hk, hst₁⟩ := stage?_resume hacts hq₁
    rw [resume_parties_ne h₂] at hq₂
    rw [hst₁] at hs₁
    rw [halone (terminal_of_stage? hs₁) t₂ q₂ hq₂ h₂ (by rw [← hkey, hk])] at hs₂
    cases hs₂
  · subst h₂
    obtain ⟨hk, hst₂⟩ := stage?_resume hacts hq₂
    rw [resume_parties_ne h₁] at hq₁
    rw [hst₂] at hs₂
    rw [halone (terminal_of_stage? hs₂) t₁ q₁ hq₁ h₁ (by rw [hkey, hk])] at hs₁
    cases hs₁
  · rw [resume_parties_ne h₁] at hq₁
    rw [resume_parties_ne h₂] at hq₂
    exact h.one t₁ t₂ q₁ q₂ hq₁ hq₂ hkey hs₁ hs₂

theorem state_applied (h : Exclusive f)
    (hup : s'.state? = Function.update f.redis.state? p.key (some target))
    (halone : target.terminal = false → ∀ t' q, f.parties t' = some q → t' ≠ t →
      q.key = p.key → q.stage? = none)
    (hacts : Act.of e.cmd e.answer = .request p.key target allowed extra true completed)
    {t' : ℕ} {q : Party} {ep : Endpoint} (hq : (f.resume t p e prog s').parties t' = some q)
    (hep : q.stage? = some ep) :
    (f.resume t p e prog s').redis.state? q.key = some ep.runningState ∨
      (f.resume t p e prog s').Terminal q.key := by
  by_cases htt : t' = t
  · subst htt
    obtain ⟨hk, hstage⟩ := stage?_resume hacts hq
    rw [hstage] at hep
    left
    simp only [Fleet.resume, hk, hup, Function.update_self]
    rw [runningState_of_stage? hep]
  · rw [resume_parties_ne htt] at hq
    by_cases hk : q.key = p.key
    · right
      cases hopen : target.terminal
      · rw [halone hopen t' q hq htt hk] at hep
        cases hep
      · exact ⟨target, by simp [Fleet.resume, hup, hk], hopen⟩
    · rcases h.state t' q ep hq hep with hrun | ⟨s, hs', hterm⟩
      · left
        simpa [Fleet.resume, hup, hk] using hrun
      · exact .inr ⟨s, by rw [← hs']; simp [Fleet.resume, hup, hk], hterm⟩

end Applied

end Exclusive

/-- A party that has acted has the history of its act. -/
theorem acts_resumed {f : Fleet} {t : ℕ} {p q : Party} {e : Event} {prog : Py Unit} {s : Redis}
    (h : (f.resume t p e prog s).parties t = some q) :
    q.acts = Act.of e.cmd e.answer :: p.acts ∧ q.key = p.key := by
  obtain rfl := resume_parties_self h
  exact ⟨rfl, rfl⟩

section Runs
variable {cfg : Settings} {f f' : Fleet} {φ φ' : ℕ → Phase} {l : Label}

theorem Tick.exclusive (h : Tick cfg f φ l f' φ') (hphased : Phased cfg f φ)
    (hrem : Remembered f φ) (hbooks : Books f) (hspares : sparesLiveClaims f l = true)
    (hex : Exclusive f) : Exclusive f' := by
  cases h with
  | submit job totalPages now hnew =>
    refine hex.frame hbooks (fun t q hq => .inr ⟨q, hq, rfl, fun _ h => h⟩) ?_
    intro key hq
    exact hbooks.state?_submit hnew hq
  | enqueue => exact hex.frame hbooks (fun t q hq => .inr ⟨q, hq, rfl, fun _ h => h⟩) fun _ _ => rfl
  | idle => exact hex.frame hbooks (fun t q hq => .inr ⟨q, hq, rfl, fun _ h => h⟩) fun _ _ => rfl
  | crash =>
    refine hex.frame hbooks (fun t q hq => .inr ?_) fun _ _ => rfl
    exact ⟨q, (Option.filter_eq_some_iff.mp hq).1, rfl, fun _ h => h⟩
  | take _ ht =>
    refine hex.frame hbooks (fun t q hq => ?_) fun _ _ => rfl
    by_cases htn : t = f.next
    · subst htn
      obtain rfl := Option.some.inj (spawn_parties_self.symm.trans hq)
      exact .inl (by simp [Party.stage?, Party.acts, ht.log, Act.stage?])
    · exact .inr ⟨q, (spawn_parties_ne htn).symm.trans hq, rfl, fun _ h => h⟩
  | @act t o p c k φ₁ hparty hprog hmove heffect _ =>
    by_cases happlied : ∃ key target allowed extra completed,
        Act.of c (c.exec cfg o f.redis).1 = .request key target allowed extra true completed
    · obtain ⟨key, target, allowed, extra, completed, ha⟩ := happlied
      rw [ha] at hmove heffect
      obtain rfl : key = p.key := hmove.request_key
      obtain ⟨-, ⟨st, hst, hs⟩, hup⟩ := heffect.2.2.resolve_right (by simp)
      obtain ⟨next, hreq⟩ := hmove.requests
      have hawaited : p.awaited = some (.evalTransition p.key target allowed extra) := by
        rw [← Act.of_request ha]
        simp [Party.awaited, hprog]
      have halone : target.terminal = false → ∀ t' q, f.parties t' = some q → t' ≠ t →
          q.key = p.key → q.stage? = none := by
        intro hopen t' q hq hne hkey
        refine hex.alone hphased hparty (hrem t p hparty) hreq hst hs ?_ hopen hq hne hkey
        rintro hnone rfl htarget
        exact sparesLiveClaims_spec hspares hparty hawaited hnone htarget hs
      constructor
      · intro t₁ t₂ q₁ q₂ hq₁ hq₂ hkey hs₁ hs₂
        exact hex.one_applied halone ha hq₁ hq₂ hkey hs₁ hs₂
      · intro t' q ep hq hep
        exact hex.state_applied hup halone ha hq hep
    · refine hex.frame hbooks ?_ ?_
      · intro t' q hq
        by_cases htt : t' = t
        · subst htt
          obtain ⟨hacts, hkey⟩ := acts_resumed hq
          refine .inr ⟨p, hparty, hkey, fun ep hep => ?_⟩
          rw [Party.stage?, hacts] at hep
          refine (Act.stage?_cons hep).resolve_right ?_
          rintro ⟨key, target, allowed, extra, completed, ha, -⟩
          exact happlied ⟨key, target, allowed, extra, completed, ha⟩
        · rw [resume_parties_ne htt] at hq
          exact .inr ⟨q, hq, rfl, fun _ h => h⟩
      · intro key _
        rcases heffect.states with hsame | ⟨k, target, allowed, extra, completed, st, ha, -⟩
        · exact congrFun hsame key
        · exact absurd ⟨k, target, allowed, extra, completed, ha⟩ happlied

/-- In a phased fleet a party only asks for transitions of its own page. -/
theorem Phased.awaits_own (h : Phased cfg f φ) {t : ℕ} {p : Party} {key : PageKey}
    {target : PageState} {allowed : List PageState} {extra : List (PageField × Json)}
    (hparty : f.parties t = some p)
    (hawaited : p.awaited = some (.evalTransition key target allowed extra)) : key = p.key := by
  obtain ⟨-, hfollows⟩ := h t p hparty
  cases hprog : p.prog with
  | ret a => simp [Party.awaited, hprog] at hawaited
  | raise e => simp [Party.awaited, hprog] at hawaited
  | call c k =>
    simp only [Party.awaited, hprog, Option.some.injEq] at hawaited
    subst hawaited
    rw [hprog] at hfollows
    -- Whatever the script would answer, the phase is one that asks for this.
    obtain ⟨φ₁, hmove, -⟩ := hfollows (.ok (Reply.rejected none)) ⟨fun _ => rfl, fun _ => rfl⟩
    exact hmove.request_key

/-- Under the condition the next rollback takes no claim of another live worker: a party in a
stage is alone in it, and the others are covered by the condition. -/
theorem Exclusive.rollsBackOwn (h : Exclusive f) (hphased : Phased cfg f φ) {t : ℕ} {o : Oracle}
    (hspares : sparesLiveClaims f (.run t o) = true) : f.RollsBackOwn t := by
  intro p key target seen extra hparty hawaited htarget hs t' q hq hne hkey
  cases hep : q.stage? with
  | none => rfl
  | some ep =>
    exfalso
    cases hstage : p.stage? with
    | some ep' =>
      have hown := hphased.awaits_own hparty hawaited
      exact hne (h.one t' t q p hq hparty (hkey.trans hown) (by rw [hep]; rfl) (by rw [hstage]; rfl))
    | none =>
      have hother := sparesLiveClaims_spec hspares hparty hawaited hstage htarget hs
      rw [Fleet.anyOther_eq_true.mpr ⟨t', q, (hphased t' q hq).1, hne, hq, by simp [hkey, hep]⟩]
        at hother
      cases hother

/-- The invariants that hold when rollbacks spare live claims. -/
theorem Reach.exclusive {allow : Fleet → Label → Bool}
    (hallow : ∀ f l, allow f l = true → storeCallsSucceed f l = true ∧ sparesLiveClaims f l = true)
    (h : Reach cfg allow f) :
    ∃ φ, Phased cfg f φ ∧ Remembered f φ ∧ Books f ∧ Exclusive f :=
  h.invariant (I := fun f _ => Books f ∧ Exclusive f) (fun f l hl => (hallow f l hl).1)
    (fun _ => ⟨Books.empty, Exclusive.empty⟩)
    fun f _ l _ _ _ hphased hrem hI hl htick =>
      ⟨htick.books hI.1, htick.exclusive hphased hrem hI.1 (hallow f l hl).2 hI.2⟩

/-- **Stages are exclusive** when no recovering worker rolls back the claim of another live
worker; and no step that respects this, a refused worker's rollback included, takes such a claim
away. -/
theorem exclusive_of_sparesLiveClaims
    (h : Reach cfg (fun f l => storeCallsSucceed f l && sparesLiveClaims f l) f) :
    f.ExclusiveStages ∧
      ∀ t o, sparesLiveClaims f (.run t o) = true → f.RollsBackOwn t := by
  obtain ⟨φ, hphased, -, -, hex⟩ := h.exclusive (by
    intro f l hl
    simpa only [Bool.and_eq_true] using hl)
  exact ⟨hex.one, fun t o hspares => hex.rollsBackOwn hphased hspares⟩

end Runs

/-- A worker is refused, requeues and crashes before it acknowledges.  A reaper recovers the old
entry and sees the page unclaimed; before it requeues, a second worker takes the new entry and
claims the layout stage.  That worker crashes too, a reaper rolls its claim back, and a third one
claims the stage. -/
def recoveredPage : List Label :=
  [.initJob 0 1 1000, .enqueue ⟨0, 0⟩ 1000 "t", .start 1, .ready 1, .deliver 1 .lead 1000] ++
  runs 0 3 1000 ++ [.run 0 (.raises 1000 (.rateLimitTimeout .layout 5 0))] ++ runs 0 4 1000 ++
  [.crash 1, .start 3, .ready 3, .reap 3 .lead ⟨1000, 0⟩ 40000] ++ runs 1 3 40000 ++
  [.start 2, .ready 2, .deliver 2 .main 40000] ++ runs 2 3 40000 ++ runs 1 4 40000 ++
  [.crash 2, .reap 3 .main ⟨1000, 0⟩ 80000] ++ runs 3 8 80000 ++
  [.start 4, .ready 4, .deliver 4 .main 95000] ++ runs 4 3 95000

/-- Is the party in a stage of the first page of the first job? -/
def Party.worksOnFirstPage (p : Party) : Bool :=
  decide (p.key = ⟨0, 0⟩) && p.stage?.isSome

/-- Two recoveries, one of them beside a live worker in a stage, meet the condition. -/
theorem exclusive_recoveredPage :
    ∃ f : Fleet, (f.parties 4).any Party.worksOnFirstPage = true ∧ f.ExclusiveStages ∧
      ∀ t o, sparesLiveClaims f (.run t o) = true → f.RollsBackOwn t := by
  obtain ⟨f, hf, hq⟩ := Reach.exists_of_runAll {}
    (fun f l => storeCallsSucceed f l && sparesLiveClaims f l)
    (fun f => (f.parties 4).any Party.worksOnFirstPage) recoveredPage (by decide +kernel)
  exact ⟨f, hq, exclusive_of_sparesLiveClaims hf⟩

/-- A worker is refused, requeues and crashes before it acknowledges; a second worker takes
the new entry and claims the layout stage; a reaper recovers the old entry and rolls that
claim back; a third worker claims the stage again. -/
def rolledBackClaim : List Label :=
  [.initJob 0 1 1000, .enqueue ⟨0, 0⟩ 1000 "t", .start 1, .ready 1, .deliver 1 .lead 1000] ++
  runs 0 3 1000 ++ [.run 0 (.raises 1000 (.rateLimitTimeout .layout 5 0))] ++ runs 0 4 1000 ++
  [.crash 1, .start 2, .ready 2, .deliver 2 .main 2000] ++ runs 1 3 2000 ++
  [.start 3, .ready 3, .reap 3 .lead ⟨1000, 0⟩ 40000] ++ runs 2 8 40000 ++
  [.start 4, .ready 4, .deliver 4 .main 40000] ++ runs 3 3 40000

/-- Without the condition two live workers are in the same stage, although no live worker's entry
was ever reaped. -/
theorem shared_by_rolledBackClaim :
    ¬∀ f, Reach {} (fun f l => storeCallsSucceed f l && reapsOnlyOrphans f l) f →
      f.ExclusiveStages ∧ ∀ t, f.RollsBackOwn t := by
  intro hall
  obtain ⟨f, hf, hq⟩ := Reach.exists_of_runAll {}
    (fun f l => storeCallsSucceed f l && reapsOnlyOrphans f l)
    (fun f => (f.parties 1).any Party.worksOnFirstPage && (f.parties 3).any Party.worksOnFirstPage)
    rolledBackClaim (by decide +kernel)
  simp only [Bool.and_eq_true, Option.any_eq_true, Party.worksOnFirstPage, decide_eq_true_eq] at hq
  obtain ⟨⟨p, hp, hkey, hs⟩, p', hp', hkey', hs'⟩ := hq
  have hsame := (hall f hf).1 1 3 p p' hp hp' (hkey.trans hkey'.symm) hs hs'
  cases hsame

end OcrOrchestrator
