import OcrOrchestrator.Worker.Step

/-!
# State and stored results agree

The fields of a page hash are written only next to a transition and are never erased, so
the state of a page says which of them it has.  This holds in every state a fleet reaches,
whatever raises: the argument is about single commands, and needs to know of the programs
only which commands they can issue at all.

## Main definitions

* `Cmd.Orderly` — the transitions that the worker and the reaper ever ask for, with the
  fields that go with them.
* `Cmd.Issued`, `Fleet.Issues` — every command of a coroutine is about the task it works on.
* `PageHash.Consistent` — state and fields agree.
* `Reach.consistent`, `Reach.layout_kept` — in every state reached, and a committed layout
  is never lost again.
-/

namespace OcrOrchestrator

open Lib PageState

/-- The transitions the worker and the reaper ask for, with the fields they write.  Every
other command leaves the fields of a page alone. -/
def Cmd.Orderly : Cmd → Prop
  | .evalTransition _ target allowed extra =>
      (∀ s ∈ allowed, s ∈ predecessors target) ∧
        match target with
        | pending => extra = []
        | layoutRunning => extra = []
        | layoutDone => (∃ layout, extra = [(.layout, layout)]) ∨
            (extra = [] ∧ allowed = [vlmRunning])
        | vlmRunning => extra = []
        | done => ∃ vlm confidence,
            extra = [(.vlm, vlm), (.confidence, confidence), (.degraded, .num 0)]
        | fallbackDone => ∃ reason, extra = fallbackFields reason
        | failed => ∃ error, extra = [(.error, error)]
  | _ => True

/-! ## Which commands the programs issue -/

/-- What a coroutine that works on an entry can issue: everything is about the page, the job
or the entry of the task. -/
inductive Cmd.Issued (task : PageTask) : Cmd → Prop
  | hgetallPage : Issued task (.hgetallPage task.key)
  | evalTransition {target : PageState} {allowed : List PageState}
      {extra : List (PageField × Json)}
      (h : Cmd.Orderly (.evalTransition task.key target allowed extra)) :
      Issued task (.evalTransition task.key target allowed extra)
  | pexpirePages (total : ℕ) : Issued task (.pexpirePages task.key.job total)
  | hmgetProgress : Issued task (.hmgetProgress task.jobId)
  | publish (body : EventBody) : Issued task (.publish task.key.job body)
  | xaddMain (countAttempt : Bool) (now : ℕ) :
      Issued task (.xaddMain (requeueFields task countAttempt now))
  | xack : Issued task (.xack task.stream task.entryId)
  | xdel : Issued task (.xdel task.stream task.entryId)
  | layout : Issued task (.layout task.key)
  | vlm : Issued task (.vlm task.key)
  | resolvePage : Issued task (.resolvePage task.key)
  | deleteDocument : Issued task (.deleteDocument task.jobId)
  | time : Issued task .time

theorem Cmd.Issued.orderly {task : PageTask} {c : Cmd} (h : c.Issued task) : c.Orderly := by
  cases h with
  | evalTransition h => exact h
  | _ => trivial

/-- A command that is about two tasks with different attempts adds no entry, as an added entry
would tell the attempt. -/
theorem Cmd.Issued.ne_xaddMain {task task' : PageTask} {c : Cmd} (h : c.Issued task)
    (h' : c.Issued task') (hattempt : task.attempt + 1 < task'.attempt) (fields : RawTask) :
    c ≠ .xaddMain fields := by
  rintro rfl
  cases h with
  | xaddMain counted t =>
    generalize hf : requeueFields task counted t = fields at h'
    cases h' with
    | xaddMain counted' t' =>
      have htold := congrArg RawTask.attempt hf
      simp only [requeueFields, Option.some.injEq, RawValue.int.injEq] at htold
      split at htold <;> split at htold <;> omega

section Programs
variable {task : PageTask}

/-- Programs all of whose commands are orderly. -/
abbrev OrderlyProg {α : Type} (p : Py α) : Prop := p.All Cmd.Orderly

/-- Programs all of whose commands are about the task. -/
abbrev IssuedProg (task : PageTask) {α : Type} (p : Py α) : Prop := p.All (Cmd.Issued task)

theorem issued_getPage (task : PageTask) : IssuedProg task (getPage task.key) :=
  Prog.all_perform .hgetallPage

/-- A transition asks for its script call, and perhaps for the sweep. -/
theorem issued_transition {target : PageState} {allowed : Option (List PageState)}
    {extra : List (PageField × Json)}
    (h : Cmd.Orderly (.evalTransition task.key target (allowed.getD (predecessors target)) extra)) :
    IssuedProg task (transition task.key target allowed extra) := by
  simp only [transition]
  split
  · trivial
  · refine Prog.all_bind (Prog.all_perform (.evalTransition h)) fun reply => ?_
    split
    · refine Prog.all_bind (Prog.all_tryCatch (Prog.all_perform (.pexpirePages _)) fun exc => ?_)
        fun _ => trivial
      split <;> trivial
    · trivial

theorem issued_emit (event : EventKind) (res : TransitionResult) (payload : List (String × Json)) :
    IssuedProg task (emit true event res task.key payload) := by
  unfold emit
  split
  · trivial
  · refine Prog.all_tryCatch (Prog.all_bind (Prog.all_perform (.publish _)) fun _ => ?_)
      fun exc => ?_
    · split
      · exact Prog.all_bind (Prog.all_perform (.publish _)) fun _ => trivial
      · trivial
    · split <;> trivial

theorem issued_releaseClaim : IssuedProg task (releaseClaim task.key) := by
  refine Prog.all_bind (issued_getPage task) ?_
  rintro (_ | page)
  · trivial
  · cases ht : reclaimTarget page.state with
    | none =>
      simp only [ht]
      trivial
    | some target =>
      simp only [ht]
      refine Prog.all_bind (issued_transition ⟨?_, ?_⟩) fun _ => trivial
      · intro s hs
        rw [List.mem_singleton.mp hs]
        exact mem_predecessors_of_reclaimTarget ht
      · cases hs : page.state <;> rw [hs] at ht <;> simp [reclaimTarget] at ht <;> subst ht <;> simp

theorem issued_degrade (cause : Exn) : IssuedProg task (degrade true task.key cause) :=
  Prog.all_bind (issued_transition ⟨fun _ h => h, _, rfl⟩) fun _ =>
    Prog.all_bind (issued_emit _ _ _) fun _ => trivial

theorem issued_failPage (error : String) : IssuedProg task (failPage true task.key error) :=
  Prog.all_bind (issued_transition ⟨fun _ h => h, _, rfl⟩) fun _ => issued_emit _ _ _

theorem issued_forceTerminal (reason : String) :
    IssuedProg task (forceTerminal true task.key reason) := by
  refine Prog.all_bind (issued_getPage task) ?_
  rintro (_ | page)
  · trivial
  · cases hdeg : degradable page.state
    · simp only [hdeg]
      split
      · trivial
      · refine Prog.all_bind (issued_transition ⟨fun _ h => h, _, rfl⟩) fun applied => ?_
        split
        · trivial
        · exact Prog.all_bind (issued_emit _ _ _) fun _ => trivial
    · simp only [hdeg]
      split
      · trivial
      · refine Prog.all_bind (issued_transition ⟨fun _ h => h, _, rfl⟩) fun applied => ?_
        split
        · trivial
        · exact Prog.all_bind (issued_emit _ _ _) fun _ => trivial

theorem issued_enterPage (reclaim : Bool) : IssuedProg task (enterPage task.key reclaim) := by
  refine Prog.all_bind (issued_getPage task) ?_
  rintro (_ | page)
  · trivial
  · simp only
    split
    · trivial
    · split
      · split
        · trivial
        · refine Prog.all_bind issued_releaseClaim fun _ => ?_
          refine Prog.all_bind (issued_getPage task) ?_
          rintro (_ | page)
          · trivial
          · simp only
            split
            · trivial
            · split <;> trivial
      · trivial

theorem issued_layoutStage (handoff : Bool) :
    IssuedProg task (layoutStage true task.key handoff) := by
  refine Prog.all_bind (issued_transition ⟨fun _ h => h, rfl⟩) fun claim => ?_
  split
  · trivial
  · refine Prog.all_bind (Prog.all_perform .layout) fun layout => ?_
    refine Prog.all_bind (issued_transition ⟨fun _ h => h, .inl ⟨_, rfl⟩⟩) fun _ => ?_
    refine Prog.all_bind (issued_emit _ _ _) fun _ => ?_
    split <;> trivial

theorem issued_vlmStage (finalAttempt resumed : Bool) :
    IssuedProg task (vlmStage true task.key finalAttempt resumed) := by
  refine Prog.all_bind (issued_transition ⟨fun _ h => h, rfl⟩) fun claim => ?_
  split
  · trivial
  · refine Prog.all_bind (Prog.all_tryCatch
      (Prog.all_bind (Prog.all_perform .vlm) fun _ => trivial) fun exc => ?_) ?_
    · split
      · trivial
      · exact Prog.all_bind (issued_degrade exc) fun _ => trivial
    · rintro (result | vlm)
      · trivial
      · refine Prog.all_bind (by cases vlm <;> trivial) fun confidence => ?_
        refine Prog.all_bind (issued_transition ⟨fun _ h => h, _, _, rfl⟩) fun _ => ?_
        exact Prog.all_bind (issued_emit _ _ _) fun _ => trivial

theorem issued_processPage (finalAttempt handoff reclaim : Bool) :
    IssuedProg task (processPage true task.key finalAttempt handoff reclaim) := by
  refine Prog.all_bind (issued_enterPage reclaim) ?_
  rintro (result | state)
  · trivial
  · refine Prog.all_tryCatch ?_ fun exc => ?_
    · unfold runStages
      split
      · refine Prog.all_bind (issued_layoutStage handoff) ?_
        rintro (_ | result)
        · exact issued_vlmStage finalAttempt _
        · trivial
      · exact issued_vlmStage finalAttempt _
    · unfold onStageError
      split
      · refine Prog.all_bind issued_releaseClaim fun _ => ?_
        split
        · exact Prog.all_bind (issued_failPage _) fun _ => trivial
        · trivial
      · split
        · exact Prog.all_bind (issued_failPage _) fun _ => trivial
        · trivial

theorem issued_ack (task : PageTask) : IssuedProg task (ack task) :=
  Prog.all_bind (Prog.all_perform .xack) fun _ => Prog.all_perform .xdel

theorem issued_requeue (task : PageTask) (countAttempt : Bool) :
    IssuedProg task (requeue task countAttempt) :=
  Prog.all_bind (Prog.all_perform .time) fun _ =>
    Prog.all_bind (Prog.all_perform (.xaddMain _ _)) fun _ => issued_ack task

theorem issued_maybeDeleteDocument (task : PageTask) :
    IssuedProg task (maybeDeleteDocument task.jobId) := by
  refine Prog.all_bind (Prog.all_perform .hmgetProgress) ?_
  rintro ⟨done, total⟩
  simp only
  split
  · exact Prog.all_perform .deleteDocument
  · trivial

theorem issued_handlePage (cfg : Settings) (task : PageTask) (final : Bool) :
    IssuedProg task (handlePage cfg task final) := by
  refine Prog.all_bind (Prog.all_perform .resolvePage) fun _ => Prog.all_bind ?_ ?_
  · refine Prog.all_tryCatch (Prog.all_bind (issued_processPage _ _ _) fun _ => trivial) ?_
    intro exc
    split
    · refine Prog.all_bind ?_ fun _ => trivial
      unfold onPageCrash
      split
      · refine Prog.all_bind (issued_forceTerminal _) fun _ => ?_
        exact Prog.all_bind (issued_ack task) fun _ => issued_maybeDeleteDocument task
      · exact Prog.all_bind issued_releaseClaim fun _ => issued_requeue task true
    · trivial
  · rintro (_ | result)
    · trivial
    · simp only
      split
      · exact issued_requeue task false
      · split
        · exact issued_requeue task true
        · exact Prog.all_bind (issued_ack task) fun _ => issued_maybeDeleteDocument task

theorem issued_recover (cfg : Settings) (task : PageTask) :
    IssuedProg task (recover cfg task) := by
  refine Prog.all_bind (issued_getPage task) ?_
  rintro (_ | page)
  · exact issued_ack task
  · simp only
    split
    · exact issued_ack task
    · refine Prog.all_bind (Prog.all_perform .time) fun now => ?_
      split
      · exact Prog.all_bind (issued_forceTerminal _) fun _ => issued_ack task
      · exact Prog.all_bind issued_releaseClaim fun _ => issued_requeue task true

/-- A party that has not run yet only has commands about its task ahead. -/
theorem issued_of_starts {cfg : Settings} {p : Party} (h : p.Starts cfg) :
    IssuedProg p.task p.prog := by
  rcases h with ⟨-, hprog⟩ | ⟨-, hprog⟩ <;> rw [hprog]
  · exact issued_handlePage ..
  · exact issued_recover ..

end Programs

/-! ## Pages -/

/-- State and fields of a page agree. -/
structure PageHash.Consistent (p : PageHash) : Prop where
  noLayout : p.state = pending ∨ p.state = layoutRunning → p.fields .layout = none
  layout : p.state = layoutDone ∨ p.state = vlmRunning ∨ p.state = done ∨ p.state = fallbackDone →
    (p.fields .layout).isSome = true
  done : p.state = done → (p.fields .vlm).isSome = true ∧ p.fields .degraded = some (.num 0)
  fallback : p.state = fallbackDone →
    p.fields .degraded = some (.num 1) ∧ (p.fields .fallbackReason).isSome = true
  noVlm : p.state ≠ PageState.done → p.fields .vlm = none

namespace PageHash.Consistent

theorem initial (index : ℤ) (nowMs ttlMs : ℕ) : (PageHash.initial index nowMs ttlMs).Consistent := by
  constructor <;> simp [PageHash.initial]

/-- An orderly transition keeps a page consistent. -/
theorem moved {p : PageHash} (h : p.Consistent) {key : PageKey} {target : PageState}
    {allowed : List PageState} {extra : List (PageField × Json)} (now ttlMs : ℕ)
    (hord : Cmd.Orderly (.evalTransition key target allowed extra)) (hin : p.state ∈ allowed) :
    (p.moved target now ttlMs extra).Consistent := by
  obtain ⟨hpred, hextra⟩ := hord
  have hfrom := hpred _ hin
  have hnoVlm := h.noVlm
  have hlayout := h.layout
  have hnoLayout := h.noLayout
  cases target <;> simp only at hextra
  · -- Back to PENDING: from LAYOUT_RUNNING, which has no layout yet.
    subst hextra
    have hs : p.state = layoutRunning := by revert hfrom; cases p.state <;> decide
    constructor <;> simp_all [PageHash.moved, PageHash.hset]
  · subst hextra
    have hs : p.state = pending := by revert hfrom; cases p.state <;> decide
    constructor <;> simp_all [PageHash.moved, PageHash.hset]
  · have hs : p.state = layoutRunning ∨ p.state = vlmRunning := by
      revert hfrom; cases p.state <;> decide
    rcases hextra with ⟨layout, rfl⟩ | ⟨rfl, rfl⟩
    · rcases hs with hs | hs <;> constructor <;> simp_all [PageHash.moved, PageHash.hset]
    · have hs : p.state = vlmRunning := List.mem_singleton.mp hin
      constructor <;> simp_all [PageHash.moved, PageHash.hset]
  · subst hextra
    have hs : p.state = layoutDone := by revert hfrom; cases p.state <;> decide
    constructor <;> simp_all [PageHash.moved, PageHash.hset]
  · obtain ⟨vlm, confidence, rfl⟩ := hextra
    have hs : p.state = vlmRunning := by revert hfrom; cases p.state <;> decide
    constructor <;> simp_all [PageHash.moved, PageHash.hset, Function.update]
  · obtain ⟨reason, rfl⟩ := hextra
    have hs : p.state = layoutDone ∨ p.state = vlmRunning := by
      revert hfrom; cases p.state <;> decide
    rcases hs with hs | hs <;> constructor <;>
      simp_all [PageHash.moved, PageHash.hset, fallbackFields, Function.update]
  · obtain ⟨error, rfl⟩ := hextra
    have hs : p.state ≠ PageState.done := by revert hfrom; cases p.state <;> decide
    constructor <;> simp_all [PageHash.moved, PageHash.hset, Function.update]

/-- Only the state and the fields matter. -/
theorem congr {p p' : PageHash} (h : p.Consistent) (hs : p'.state = p.state)
    (hf : p'.fields = p.fields) : p'.Consistent := by
  constructor <;> rw [hs, hf]
  · exact h.noLayout
  · exact h.layout
  · exact h.done
  · exact h.fallback
  · exact h.noVlm

/-- With a layout on record the page is past the layout stage for good. -/
theorem past_layout {p : PageHash} (h : p.Consistent) (hl : (p.fields .layout).isSome = true) :
    p.state ≠ pending ∧ p.state ≠ layoutRunning := by
  constructor <;> intro hs <;> simp [h.noLayout (by simp [hs])] at hl

end PageHash.Consistent

/-- `HSET` erases nothing. -/
theorem PageHash.isSome_hset {p : PageHash} (extra : List (PageField × Json)) {f : PageField}
    (h : (p.fields f).isSome = true) : ((p.hset extra).fields f).isSome = true := by
  unfold PageHash.hset
  generalize p.fields = fields at h ⊢
  induction extra generalizing fields with
  | nil => exact h
  | cons x extra ih =>
    apply ih
    by_cases hf : f = x.1
    · subst hf
      simp
    · simpa [hf] using h

/-! ## Parties -/

/-- Every live party has only commands about its own task ahead. -/
def Fleet.Issues (f : Fleet) : Prop :=
  ∀ t p, f.parties t = some p → IssuedProg p.task p.prog

/-- What every program starts with and every live party has ahead, it has ahead after a
step. -/
theorem Step.all_parties {cfg : Settings} {f f' : Fleet} {l : Label} (hstep : Step cfg f l f')
    {P : PageTask → Cmd → Prop} (hstarts : ∀ p : Party, p.Starts cfg → p.prog.All (P p.task))
    (h : ∀ t p, f.parties t = some p → p.prog.All (P p.task)) :
    ∀ t p, f'.parties t = some p → p.prog.All (P p.task) := by
  intro t q hq
  cases hstep with
  | submit => exact h t q hq
  | enqueue => exact h t q hq
  | idle => exact h t q hq
  | take hl htaken hstarting =>
    by_cases ht : t = f.next
    · subst ht
      obtain rfl := Option.some.inj (spawn_parties_self.symm.trans hq)
      exact hstarts _ hstarting
    · exact h t q ((spawn_parties_ne ht).symm.trans hq)
  | crash c => exact h t q (Option.filter_eq_some_iff.mp hq).1
  | @run t' o p c k hparty hprog =>
    by_cases ht : t = t'
    · subst ht
      obtain rfl := resume_parties_self hq
      have hall := h t p hparty
      rw [hprog] at hall
      exact hall.2 _
    · rw [resume_parties_ne ht] at hq
      exact h t q hq

theorem Fleet.Issues.step {cfg : Settings} {f f' : Fleet} {l : Label} (h : f.Issues)
    (hstep : Step cfg f l f') : f'.Issues :=
  hstep.all_parties (fun _ => issued_of_starts) h

/-! ## Fleets -/

/-- Every page is consistent, every page belongs to a job, every live party is orderly. -/
structure Agrees (f : Fleet) : Prop where
  pages : ∀ key p, f.redis.pages key = some p → p.Consistent
  pageJob : ∀ key, (f.redis.pages key).isSome = true → (f.redis.jobs key.job).isSome = true
  parties : ∀ t p, f.parties t = some p → OrderlyProg p.prog

/-- The layout of this page is on record. -/
def Fleet.HasLayout (f : Fleet) (key : PageKey) : Prop :=
  ∃ p, f.redis.pages key = some p ∧ (p.fields .layout).isSome = true

section Fleets
variable {cfg : Settings} {f f' : Fleet} {l : Label}

/-- A command keeps pages consistent, and layouts on record. -/
theorem Agrees.exec (h : Agrees f) (cfg : Settings) {c : Cmd} (o : Oracle) (hc : c.Orderly) :
    (∀ key p, (c.exec cfg o f.redis).2.pages key = some p → p.Consistent) ∧
      ∀ key p, f.redis.pages key = some p → (p.fields .layout).isSome = true →
        ∃ p', (c.exec cfg o f.redis).2.pages key = some p' ∧
          (p'.fields .layout).isSome = true := by
  constructor
  · intro key p' hp'
    cases hp : f.redis.pages key with
    | none =>
      rw [Cmd.pages_exec_none hp] at hp'
      cases hp'
    | some p =>
      obtain ⟨q, hq, hcase⟩ := Cmd.pages_exec_some cfg o c hp
      obtain rfl := Option.some.inj (hq.symm.trans hp')
      rcases hcase with ⟨hs, hf⟩ | ⟨target, allowed, extra, rfl, hin, rfl⟩
      · exact (h.pages key p hp).congr hs hf
      · exact (h.pages key p hp).moved _ _ hc hin
  · intro key p hp hl
    obtain ⟨q, hq, hcase⟩ := Cmd.pages_exec_some cfg o c hp
    refine ⟨q, hq, ?_⟩
    rcases hcase with ⟨-, hf⟩ | ⟨target, allowed, extra, -, -, rfl⟩
    · rw [hf]
      exact hl
    · exact PageHash.isSome_hset extra hl

/-- **One step** keeps state and fields in agreement and every layout on record. -/
theorem Agrees.step (h : Agrees f) (hstep : f.step cfg l = some f') :
    Agrees f' ∧ ∀ key, f.HasLayout key → f'.HasLayout key := by
  have hparties : ∀ t p, f'.parties t = some p → OrderlyProg p.prog :=
    (step_spec hstep).all_parties (P := fun _ => Cmd.Orderly)
      (fun _ hstarts => (issued_of_starts hstarts).mono fun _ h => h.orderly) h.parties
  cases step_spec hstep with
  | submit job totalPages now hnew =>
    have hother : ∀ key, (f.redis.pages key).isSome = true → key.job ≠ job := by
      rintro key hkey rfl
      simpa [hnew] using h.pageJob key hkey
    refine ⟨⟨?_, ?_, hparties⟩, ?_⟩
    · intro key p hp
      simp only [initJob] at hp
      split at hp
      · obtain rfl := Option.some.inj hp
        exact .initial _ _ _
      · exact h.pages key p hp
    · intro key hkey
      by_cases hj : key.job = job
      · simp [initJob, hj]
      · simp only [initJob, hj, false_and, if_false] at hkey
        simpa [initJob, hj] using h.pageJob key hkey
    · rintro key ⟨p, hp, hl⟩
      refine ⟨p, ?_, hl⟩
      simp [initJob, hother key (by simp [hp]), hp]
  | enqueue => exact ⟨⟨h.pages, h.pageJob, hparties⟩, fun _ hl => hl⟩
  | idle => exact ⟨⟨h.pages, h.pageJob, hparties⟩, fun _ hl => hl⟩
  | take => exact ⟨⟨h.pages, h.pageJob, hparties⟩, fun _ hl => hl⟩
  | crash => exact ⟨⟨h.pages, h.pageJob, hparties⟩, fun _ hl => hl⟩
  | @run t o p c k hparty hprog =>
    have hord := h.parties t p hparty
    rw [hprog] at hord
    obtain ⟨hpages, hkept⟩ := h.exec cfg o hord.1
    refine ⟨⟨hpages, ?_, hparties⟩, ?_⟩
    · intro key hkey
      refine Cmd.jobs_isSome_exec (h.pageJob key ?_)
      cases hp : f.redis.pages key with
      | none => simp [Fleet.resume, Cmd.pages_exec_none hp] at hkey
      | some p => rfl
    · rintro key ⟨p, hp, hl⟩
      exact hkept key p hp hl

theorem Reach.agrees {allow : Fleet → Label → Bool} (h : Reach cfg allow f) : Agrees f := by
  induction h with
  | init => constructor <;> simp [Fleet.empty, Redis.empty]
  | step _ _ hstep ih => exact (ih.step hstep).1

/-- The fleet can get from one state to the other. -/
def Fleet.Leads (cfg : Settings) : Fleet → Fleet → Prop :=
  Relation.ReflTransGen fun f f' => ∃ l, f.step cfg l = some f'

/-- A layout on record stays on record. -/
theorem Agrees.leads (h : Agrees f) (hlead : Fleet.Leads cfg f f') :
    Agrees f' ∧ ∀ key, f.HasLayout key → f'.HasLayout key := by
  induction hlead with
  | refl => exact ⟨h, fun _ hl => hl⟩
  | tail _ hstep ih =>
    obtain ⟨l, hstep⟩ := hstep
    obtain ⟨hagrees, hkept⟩ := ih.1.step hstep
    exact ⟨hagrees, fun key hl => hkept key (ih.2 key hl)⟩

/-- **State and stored results agree** in every state a fleet reaches, and once the layout of
a page is on record it stays there and the page never goes back to the layout stage. -/
theorem Reach.consistent (h : Reach cfg (fun _ _ => true) f) :
    (∀ key p, f.redis.pages key = some p → p.Consistent) ∧
      ∀ f' key, Fleet.Leads cfg f f' → f.HasLayout key →
        ∃ p', f'.redis.pages key = some p' ∧ (p'.fields .layout).isSome = true ∧
          p'.state ≠ pending ∧ p'.state ≠ layoutRunning := by
  refine ⟨h.agrees.pages, ?_⟩
  intro f' key hlead hl
  obtain ⟨hagrees, hkept⟩ := h.agrees.leads hlead
  obtain ⟨p', hp', hl'⟩ := hkept key hl
  exact ⟨p', hp', hl', (hagrees.pages key p' hp').past_layout hl'⟩

end Fleets

/-- The finished page is consistent, and its layout is still on record. -/
theorem consistent_onePageJob :
    ∃ f : Fleet, (f.redis.state? ⟨0, 0⟩ = some done ∧ f.HasLayout ⟨0, 0⟩) ∧
      ∀ p, f.redis.pages ⟨0, 0⟩ = some p → p.Consistent := by
  obtain ⟨f, hf, hq⟩ := Reach.exists_of_runAll {} (fun _ _ => true)
    (fun f => decide (f.redis.state? ⟨0, 0⟩ = some done) &&
      (f.redis.pages ⟨0, 0⟩).any fun p => (p.fields .layout).isSome) onePageJob (by decide +kernel)
  simp only [Bool.and_eq_true, decide_eq_true_eq, Option.any_eq_true] at hq
  exact ⟨f, hq, Reach.consistent hf |>.1 _⟩

end OcrOrchestrator
