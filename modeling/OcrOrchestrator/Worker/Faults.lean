import OcrOrchestrator.Worker.Pipeline

/-!
# One page, alone, with calls that raise

`processPage` runs by itself on a store in which every call may raise an `Exception`, before
or after it took effect.  The handler acknowledges the entry when the outcome says that the
page is finished, so such an outcome should leave the page terminal.  It does not always:
FAILED is no legal successor of LAYOUT_DONE, and the two outer handlers return FAILED whether
or not the transition was applied.  `strands` says exactly for which faults that happens.

A fault schedule answers the `n`-th call of each kind; as `processPage` has no loop, every
sequence of faults is one.

## Main definitions

* `CallKind`, `Schedule`, `faulty` — calls that raise as the schedule says.
* `Stranded` — the outcome is acknowledged, and the page is neither absent nor terminal.
* `Schedule.strands` — the schedules that strand a page.
* `not_stranded_iff` — exactly these do.
-/

namespace OcrOrchestrator

open Lib PageState

/-- The calls of `processPage`, told apart by what they ask for. -/
inductive CallKind where
  | read
  | rollback
  | claimLayout
  | layout
  | commitLayout
  | claimVlm
  | vlm
  | fallback
  | finish
  | fail
  | publish
  | sweep
  | other
  deriving DecidableEq

/-- The kind of a command.  LAYOUT_DONE is a rollback when it writes no field. -/
def Cmd.kind : Cmd → CallKind
  | .hgetallPage _ => .read
  | .evalTransition _ target _ extra =>
    match target with
    | pending => .rollback
    | layoutRunning => .claimLayout
    | layoutDone => if extra.isEmpty then .rollback else .commitLayout
    | vlmRunning => .claimVlm
    | done => .finish
    | fallbackDone => .fallback
    | failed => .fail
  | .layout _ => .layout
  | .vlm _ => .vlm
  | .publish _ _ => .publish
  | .pexpirePages _ _ => .sweep
  | _ => .other

/-- What the `n`-th call of each kind meets. -/
abbrev Schedule := CallKind → ℕ → Oracle

/-- Whatever is raised is an `Exception`. -/
def Schedule.Ordinary (sched : Schedule) : Prop :=
  ∀ kind n fault, (sched kind n).fault = some fault → fault.exn.isException = true

/-- The store, and how many calls of each kind were made. -/
structure Calls where
  count : CallKind → ℕ
  redis : Redis

/-- Nothing was called yet. -/
def Calls.start (s : Redis) : Calls := ⟨fun _ => 0, s⟩

/-- One more call of a kind. -/
def bump (kind : CallKind) (n : CallKind → ℕ) : CallKind → ℕ :=
  Function.update n kind (n kind + 1)

/-- One call under the schedule. -/
def faulty (cfg : Settings) (sched : Schedule) (c : Cmd) (st : Calls) :
    Except Exn (Ret c) × Calls :=
  let out := c.exec cfg (sched c.kind (st.count c.kind)) st.redis
  (out.1, ⟨bump c.kind st.count, out.2⟩)

/-- The outcomes with which `_handle_page` acknowledges an entry as finished. -/
def Outcome.finished : Outcome → Bool
  | .completed => true
  | .resumed => true
  | .degraded => true
  | .failed => true
  | .alreadyTerminal => true
  | _ => false

/-- The page exists and is not terminal. -/
def isOpen (st : Option PageState) : Bool := st.any fun s => !s.terminal

/-- The outcome says the page is finished, and it is not. -/
def Stranded (key : PageKey) (r : Except Exn PageResult) (st : Calls) : Prop :=
  ∃ res, r = .ok res ∧ res.outcome.finished = true ∧ isOpen (st.redis.state? key) = true

/-! ## The schedules that strand a page -/

namespace Schedule

/-- The `n`-th call of this kind is answered. -/
def answers (sched : Schedule) (kind : CallKind) (n : ℕ) : Bool := (sched kind n).fault.isNone

/-- The outer handlers, entered with this exception and the page in this state, return FAILED
and leave the page open: the request for FAILED is answered, and rejected because the page is
in LAYOUT_DONE.  A refusal gets there on the final attempt only, and also from VLM_RUNNING,
which it rolls back first. -/
def handlerStrands (sched : Schedule) (reads rollbacks : ℕ) (final : Bool) (st : PageState)
    (exc : Exn) : Bool :=
  sched.answers .fail 0 &&
    if exc.refusal.isSome then
      final && sched.answers .read reads &&
        (decide (st = layoutDone) ||
          (decide (st = vlmRunning) && sched.answers .rollback rollbacks))
    else decide (st = layoutDone)

/-- A commit of the VLM stage that raises before it took effect. -/
def commitStrands (sched : Schedule) (reads rollbacks : ℕ) (final : Bool) (kind : CallKind) :
    Bool :=
  match (sched kind 0).fault with
  | some ⟨false, exc⟩ => sched.handlerStrands reads rollbacks final vlmRunning exc
  | _ => false

/-- The VLM stage: its claim raises, or the commit its answer leads to does. -/
def vlmStrands (sched : Schedule) (reads rollbacks : ℕ) (final : Bool) : Bool :=
  match (sched .claimVlm 0).fault with
  | some ⟨tookEffect, exc⟩ =>
    sched.handlerStrands reads rollbacks final (if tookEffect then vlmRunning else layoutDone) exc
  | none =>
    match (sched .vlm 0).fault with
    | some fault =>
      !(fault.exn.refusal.isSome && !final) && sched.commitStrands reads rollbacks final .fallback
    | none => (sched .vlm 0).body.isObj && sched.commitStrands reads rollbacks final .finish

/-- The layout stage: its commit raises after it took effect, or the VLM stage follows. -/
def layoutStrands (sched : Schedule) (reads rollbacks : ℕ) (final handoff : Bool) : Bool :=
  sched.answers .claimLayout 0 && sched.answers .layout 0 &&
    match (sched .commitLayout 0).fault with
    | some ⟨tookEffect, exc⟩ =>
      tookEffect && sched.handlerStrands reads rollbacks final layoutDone exc
    | none => !handoff && sched.vlmStrands reads rollbacks final

/-- The whole run, from the state the page is found in. -/
def strands (sched : Schedule) (final handoff reclaim : Bool) : Option PageState → Bool
  | some pending => sched.answers .read 0 && sched.layoutStrands 1 0 final handoff
  | some layoutDone => sched.answers .read 0 && sched.vlmStrands 1 0 final
  | some layoutRunning => reclaims && sched.layoutStrands 3 1 final handoff
  | some vlmRunning => reclaims && sched.vlmStrands 3 1 final
  | _ => false
where
  /-- The entry check rolls the page back and looks again. -/
  reclaims : Bool := reclaim && sched.answers .read 0 && sched.answers .read 1 &&
    sched.answers .rollback 0 && sched.answers .read 2

end Schedule

/-! ## Single calls -/

/-- The page is in this state, and so many calls of each kind were made.  Publishing and the
expiry sweep change neither. -/
structure At (key : PageKey) (st : Option PageState) (n : CallKind → ℕ) (calls : Calls) : Prop where
  state : calls.redis.state? key = st
  count : ∀ kind, kind ≠ .publish → kind ≠ .sweep → calls.count kind = n kind

/-- The state after a request that took effect, if the page was in an allowed state. -/
def moved (target : PageState) (allowed : List PageState) (st : Option PageState) :
    Option PageState :=
  if st.any (fun s => decide (s ∈ allowed)) then some target else st

section Single
variable {cfg : Settings} {sched : Schedule} {key : PageKey} {st : Option PageState}
  {n : CallKind → ℕ} {calls : Calls}

theorem At.bump {kind : CallKind} {st' : Option PageState} {s : Redis} (h : At key st n calls)
    (hs : s.state? key = st') : At key st' (bump kind n) ⟨OcrOrchestrator.bump kind calls.count, s⟩ := by
  refine ⟨hs, fun kind' hpublish hsweep => ?_⟩
  by_cases hk : kind' = kind
  · subst hk
    simp [OcrOrchestrator.bump, h.count kind' hpublish hsweep]
  · simp [OcrOrchestrator.bump, hk, h.count kind' hpublish hsweep]

/-- An uncounted call that leaves the state alone. -/
theorem At.uncounted {kind : CallKind} {s : Redis} (h : At key st n calls)
    (hkind : kind = .publish ∨ kind = .sweep) (hs : s.state? key = st) :
    At key st n ⟨OcrOrchestrator.bump kind calls.count, s⟩ := by
  refine ⟨hs, fun kind' hpublish hsweep => ?_⟩
  have hk : kind' ≠ kind := by
    rcases hkind with rfl | rfl
    · exact hpublish
    · exact hsweep
  simp [OcrOrchestrator.bump, hk, h.count kind' hpublish hsweep]

theorem apply_evalTransition (o : Oracle) (s : Redis) (target : PageState)
    (allowed : List PageState) (extra : List (PageField × Json)) :
    ((Cmd.evalTransition key target allowed extra).apply cfg o s).1.ok =
        (s.state? key).any (fun s => decide (s ∈ allowed)) ∧
      ((Cmd.evalTransition key target allowed extra).apply cfg o s).2.state? key =
        moved target allowed (s.state? key) := by
  cases hp : s.pages key with
  | none =>
    simp [Cmd.apply, Redis.state?, hp, transitionScript_missing, Reply.rejected, moved]
  | some p =>
    by_cases hin : p.state ∈ allowed
    · simp [Cmd.apply, Redis.state?, hp, transitionScript_applied hin, moved, hin]
    · simp [Cmd.apply, Redis.state?, hp, transitionScript_rejected hin, Reply.rejected, moved, hin]

/-- A counted call: it raises, before or after its effect, or is answered. -/
theorem leads_call {c : Cmd} {post : Except Exn (Ret c) → Calls → Prop} (h : At key st n calls)
    (hpublish : c.kind ≠ .publish) (hsweep : c.kind ≠ .sweep)
    (hraise : ∀ fault s, (sched c.kind (n c.kind)).fault = some fault →
      s = (if fault.tookEffect then
        (c.apply cfg (sched c.kind (n c.kind)) calls.redis).2 else calls.redis) →
      post (.error fault.exn) ⟨bump c.kind calls.count, s⟩)
    (hok : sched.answers c.kind (n c.kind) = true →
      post (.ok (c.apply cfg (sched c.kind (n c.kind)) calls.redis).1)
        ⟨bump c.kind calls.count, (c.apply cfg (sched c.kind (n c.kind)) calls.redis).2⟩) :
    (await c).Leads (faulty cfg sched) calls post := by
  apply Prog.Leads.perform
  simp only [faulty, h.count _ hpublish hsweep, Cmd.exec]
  cases hf : (sched c.kind (n c.kind)).fault with
  | none => exact hok (by simp [Schedule.answers, hf])
  | some fault => exact hraise fault _ hf rfl

theorem leads_getPage {post : Except Exn (Option PageHash) → Calls → Prop} (h : At key st n calls)
    (hraise : ∀ exc calls', sched.answers .read (n .read) = false → post (.error exc) calls')
    (hok : sched.answers .read (n .read) = true → ∀ page calls', page.map PageHash.state = st →
      At key st (bump .read n) calls' → post (.ok page) calls') :
    (getPage key).Leads (faulty cfg sched) calls post := by
  refine leads_call h (by simp [Cmd.kind]) (by simp [Cmd.kind]) ?_ ?_
  · rintro fault _ hf rfl
    exact hraise _ _ (by
      have hf : (sched .read (n .read)).fault = some fault := hf
      simp [Schedule.answers, hf])
  · intro hanswers
    exact hok hanswers _ _ h.state (h.bump h.state)

/-- Publishing and the sweep move no page, and raise at most an `Exception`. -/
theorem leads_uncounted (hord : sched.Ordinary) {c : Cmd} (h : At key st n calls)
    (hkind : c.kind = .publish ∨ c.kind = .sweep)
    (hstate : ∀ o s, (c.apply cfg o s).2.state? = s.state?) :
    (await c).Leads (faulty cfg sched) calls fun r calls' =>
      At key st n calls' ∧ ∀ exc, r = .error exc → exc.isException = true := by
  apply Prog.Leads.perform
  refine ⟨h.uncounted hkind ?_, fun exc hexc => ?_⟩
  · rcases Cmd.exec_state cfg (sched c.kind (calls.count c.kind)) c calls.redis with hs | hs <;>
      rw [hs]
    · exact h.state
    · rw [hstate, h.state]
  · cases hf : (sched c.kind (calls.count c.kind)).fault with
    | none => simp [faulty, Cmd.exec, hf] at hexc
    | some fault =>
      simp only [faulty, Cmd.exec, hf, Except.error.injEq] at hexc
      exact hexc ▸ hord _ _ _ hf

/-- Where a piece of the program ends: with an exception, or with a value. -/
def Leaves {α : Type} (raises : Exn → Calls → Prop) (returns : α → Calls → Prop) :
    Except Exn α → Calls → Prop
  | .error exc, calls => raises exc calls
  | .ok a, calls => returns a calls

@[simp] theorem leaves_error {α : Type} {raises : Exn → Calls → Prop}
    {returns : α → Calls → Prop} {exc : Exn} :
    Leaves raises returns (.error exc) calls ↔ raises exc calls := Iff.rfl

/-- A transition.  The sweep that may follow it never raises and moves no page. -/
theorem leads_transition (hord : sched.Ordinary) (kind : CallKind) (sources : List PageState)
    {target : PageState} {allowedFrom : Option (List PageState)}
    {fields : List (PageField × Json)} {post : Except Exn TransitionResult → Calls → Prop}
    (h : At key st n calls)
    (hsources : allowedFrom.getD (predecessors target) = sources) (hne : sources.isEmpty = false)
    (hkind : (Cmd.evalTransition key target sources fields).kind = kind)
    (hcounted : kind ≠ .publish ∧ kind ≠ .sweep)
    (hraise : ∀ fault calls', (sched kind (n kind)).fault = some fault →
      At key (if fault.tookEffect then moved target sources st else st) (bump kind n) calls' →
      post (.error fault.exn) calls')
    (hok : sched.answers kind (n kind) = true → ∀ res calls',
      res.ok = st.any (fun s => decide (s ∈ sources)) →
      At key (moved target sources st) (bump kind n) calls' → post (.ok res) calls') :
    (transition key target allowedFrom fields).Leads (faulty cfg sched) calls post := by
  subst hkind
  subst hsources
  simp only [transition, hne, Bool.false_eq_true, if_false]
  generalize allowedFrom.getD (predecessors target) = sources at *
  refine Prog.Leads.bind (m := Leaves
    (fun exc calls' => post (.error exc) calls')
    fun (reply : Reply) calls' =>
      sched.answers (Cmd.evalTransition key target sources fields).kind
          (n (Cmd.evalTransition key target sources fields).kind) = true ∧
        reply.ok = st.any (fun s => decide (s ∈ sources)) ∧
        At key (moved target sources st)
          (bump (Cmd.evalTransition key target sources fields).kind n) calls') ?_ ?_
    (fun _ _ h => h)
  · refine leads_call h hcounted.1 hcounted.2 ?_ ?_
    · rintro fault _ hf rfl
      refine hraise fault _ hf (h.bump ?_)
      cases fault.tookEffect
      · exact h.state
      · simp only [if_true, apply_evalTransition, h.state]
    · intro hanswers
      refine ⟨hanswers, ?_, h.bump ?_⟩ <;> rw [← h.state]
      · exact (apply_evalTransition ..).1
      · exact (apply_evalTransition ..).2
  · rintro reply calls' ⟨hanswers, hreply, hat⟩
    split
    · refine Prog.Leads.bind_ok (a := ()) (Q := At key (moved target sources st)
        (bump (Cmd.evalTransition key target sources fields).kind n)) ?_ fun calls'' hat' =>
          hok hanswers _ calls'' hreply hat'
      refine Prog.Leads.tryCatch (leads_uncounted hord hat (.inr rfl) fun o s =>
        Redis.state?_pexpirePages ..) ?_ ?_
      · exact fun _ _ h => ⟨rfl, h.1⟩
      · rintro exc calls'' ⟨hat', hexc⟩
        simp only [hexc exc rfl, if_true]
        exact ⟨rfl, hat'⟩
    · exact hok hanswers _ calls' hreply hat

/-- Publishing changes no page, and what it raises is swallowed. -/
theorem leads_emit (hord : sched.Ordinary) {results : Bool} {event : EventKind}
    {res : TransitionResult} {payload : List (String × Json)}
    {post : Except Exn Unit → Calls → Prop} (h : At key st n calls)
    (hok : ∀ calls', At key st n calls' → post (.ok ()) calls') :
    (emit results event res key payload).Leads (faulty cfg sched) calls post := by
  unfold emit
  split
  · exact hok calls h
  · have hpublish : ∀ (body : EventBody) {calls : Calls}, At key st n calls →
        (await (.publish key.job body)).Leads (faulty cfg sched) calls fun r calls' =>
          At key st n calls' ∧ ∀ exc, r = .error exc → exc.isException = true :=
      fun body _ h => leads_uncounted hord h (.inl rfl) fun _ _ => rfl
    refine Prog.Leads.tryCatch (m := fun r calls' =>
      At key st n calls' ∧ ∀ exc, r = .error exc → exc.isException = true) ?_ ?_ ?_
    · refine Prog.Leads.bind (hpublish _ h) ?_ ?_
      · rintro _ calls' ⟨h', -⟩
        split
        · refine Prog.Leads.bind (hpublish _ h') ?_ ?_
          · rintro _ calls'' ⟨h'', -⟩
            exact ⟨h'', fun _ hexc => by cases hexc⟩
          · exact fun _ _ h => ⟨h.1, fun _ hexc => h.2 _ (by cases hexc; rfl)⟩
        · exact ⟨h', fun _ hexc => by cases hexc⟩
      · exact fun _ _ h => ⟨h.1, fun _ hexc => h.2 _ (by cases hexc; rfl)⟩
    · exact fun _ calls' h => hok calls' h.1
    · rintro exc calls' ⟨h', hexc⟩
      simp only [hexc exc rfl, if_true]
      exact hok calls' h'

end Single

/-! ## The pieces of `processPage` -/

theorem stranded_ok {key : PageKey} {res : PageResult} {calls : Calls} :
    Stranded key (.ok res) calls ↔
      res.outcome.finished = true ∧ isOpen (calls.redis.state? key) = true := by
  constructor
  · rintro ⟨_, hres, h⟩
    cases hres
    exact h
  · exact fun h => ⟨res, rfl, h⟩

/-- A page that is not stranded is absent or terminal once it is reported finished. -/
theorem not_stranded {key : PageKey} {r : Except Exn PageResult} {calls : Calls} :
    ¬Stranded key r calls ↔ ∀ res, r = .ok res → res.outcome.finished = true →
      calls.redis.state? key = none ∨
        ∃ st, calls.redis.state? key = some st ∧ st.terminal = true := by
  cases hst : calls.redis.state? key with
  | none => simp [Stranded, hst, isOpen]
  | some st => simp [Stranded, hst, isOpen]

theorem not_stranded_error {key : PageKey} {exc : Exn} {calls : Calls} :
    ¬Stranded key (.error exc) calls := by
  rintro ⟨_, hres, -⟩
  cases hres

section Pieces
variable {cfg : Settings} {sched : Schedule} {key : PageKey} {st : PageState}
  {n : CallKind → ℕ} {calls : Calls}

/-- Where a rollback leaves a page. -/
def rolledBack (st : PageState) : PageState := (reclaimTarget st).getD st

/-- FAILED is legal from every open state but LAYOUT_DONE. -/
theorem isOpen_failed (st : PageState) :
    isOpen (moved failed (predecessors failed) (some st)) = decide (st = layoutDone) := by
  cases st <;> rfl

theorem isOpen_failed_rolledBack (st : PageState) :
    isOpen (moved failed (predecessors failed) (some (rolledBack st))) =
      (decide (st = layoutDone) || decide (st = vlmRunning)) := by
  cases st <;> rfl

theorem leads_releaseClaim (hord : sched.Ordinary) {post : Except Exn Unit → Calls → Prop}
    (h : At key (some st) n calls)
    (hraise : ∀ exc calls', (sched.answers .read (n .read) &&
      (!st.running || sched.answers .rollback (n .rollback))) = false → post (.error exc) calls')
    (hok : (sched.answers .read (n .read) &&
        (!st.running || sched.answers .rollback (n .rollback))) = true →
      ∀ calls', At key (some (rolledBack st))
        (if st.running then bump .rollback (bump .read n) else bump .read n) calls' →
      post (.ok ()) calls') :
    (releaseClaim key).Leads (faulty cfg sched) calls post := by
  have hrunning := reclaimTarget_isSome st
  refine Prog.Leads.bind (m := Leaves
    (fun exc calls' => post (.error exc) calls')
    fun page calls' => sched.answers .read (n .read) = true ∧ page.map PageHash.state = some st ∧
        At key (some st) (bump .read n) calls') ?_ ?_ (fun _ _ h => h)
  · refine leads_getPage h ?_ ?_
    · exact fun exc calls' hread => hraise exc calls' (by simp [hread])
    · exact fun hread page calls' hpage hat => ⟨hread, hpage, hat⟩
  · rintro page calls' ⟨hread, hpage, hat⟩
    obtain ⟨p, rfl, rfl⟩ := Option.map_eq_some_iff.mp hpage
    cases htarget : reclaimTarget p.state with
    | none =>
      rw [htarget] at hrunning
      simp only [htarget]
      refine hok (by simp [hread, ← hrunning]) calls' ?_
      simpa [rolledBack, htarget, ← hrunning] using hat
    | some target =>
      rw [htarget] at hrunning
      simp only [htarget]
      have hkind : (Cmd.evalTransition key target [p.state] []).kind = .rollback := by
        revert htarget
        cases p.state <;> simp [reclaimTarget] <;> rintro rfl <;> rfl
      have hrollback : bump .read n .rollback = n .rollback := rfl
      refine Prog.Leads.bind (m := Leaves
        (fun exc calls'' => post (.error exc) calls'')
        fun _ calls'' => post (.ok ()) calls'') ?_ (fun _ _ h => h) (fun _ _ h => h)
      refine leads_transition hord .rollback [p.state] hat rfl rfl hkind (by decide) ?_ ?_
      · intro fault calls'' hf _
        exact hraise _ _ (by simp [← hrunning, Schedule.answers, ← hrollback, hf])
      · intro hanswers res calls'' _ hat'
        refine hok (by rw [hrollback] at hanswers; simp [hread, hanswers]) calls'' ?_
        simpa [rolledBack, htarget, ← hrunning, moved] using hat'

theorem leads_failPage (hord : sched.Ordinary) {results : Bool} {error : String}
    {post : Except Exn Unit → Calls → Prop} (h : At key (some st) n calls)
    (hraise : ∀ exc calls', sched.answers .fail (n .fail) = false → post (.error exc) calls')
    (hok : sched.answers .fail (n .fail) = true → ∀ calls',
      At key (moved failed (predecessors failed) (some st)) (bump .fail n) calls' →
      post (.ok ()) calls') :
    (failPage results key error).Leads (faulty cfg sched) calls post := by
  refine Prog.Leads.bind (m := Leaves
    (fun exc calls' => post (.error exc) calls')
    fun _ calls' => sched.answers .fail (n .fail) = true ∧
        At key (moved failed (predecessors failed) (some st)) (bump .fail n) calls') ?_ ?_
    (fun _ _ h => h)
  · refine leads_transition hord .fail (predecessors failed) h rfl rfl rfl (by decide) ?_ ?_
    · exact fun fault calls' hf _ => hraise _ _ (by simp [Schedule.answers, hf])
    · exact fun hanswers _ calls' _ hat => ⟨hanswers, hat⟩
  · rintro _ calls' ⟨hanswers, hat⟩
    exact leads_emit hord hat fun calls'' hat' => hok hanswers calls'' hat'

/-- **The outer handlers** strand a page exactly when they find it where FAILED is illegal. -/
theorem leads_onStageError (hord : sched.Ordinary) {results final : Bool} {exc : Exn}
    (h : At key (some st) n calls) (hfail : n .fail = 0) (hexc : exc.isException = true) :
    (onStageError results key final exc).Leads (faulty cfg sched) calls fun r calls' =>
      Stranded key r calls' ↔
        sched.handlerStrands (n .read) (n .rollback) final st exc = true := by
  unfold onStageError
  cases hrefusal : exc.refusal with
  | none =>
    simp only [hexc, if_true]
    refine Prog.Leads.bind (m := Leaves
      (fun _ _ => sched.answers .fail 0 = false)
      fun _ calls' => sched.answers .fail 0 = true ∧
          calls'.redis.state? key = moved failed (predecessors failed) (some st)) ?_ ?_ ?_
    · refine leads_failPage hord h ?_ ?_ <;> rw [hfail]
      · exact fun _ _ hanswers => hanswers
      · exact fun hanswers calls' hat => ⟨hanswers, hat.state⟩
    · rintro _ calls' ⟨hanswers, hstate⟩
      change Stranded key (.ok _) calls' ↔ _
      rw [stranded_ok, hstate, isOpen_failed]
      simp [Schedule.handlerStrands, hrefusal, hanswers, Outcome.finished]
    · intro e calls' hanswers
      rw [leaves_error] at hanswers
      simp [not_stranded_error, Schedule.handlerStrands, hanswers]
  | some x =>
    obtain ⟨endpoint, retryAfterS⟩ := x
    refine Prog.Leads.bind (m := Leaves
      (fun _ _ => (sched.answers .read (n .read) &&
          (!st.running || sched.answers .rollback (n .rollback))) = false)
      fun _ calls' => (sched.answers .read (n .read) &&
          (!st.running || sched.answers .rollback (n .rollback))) = true ∧
        ∃ n', n' .fail = 0 ∧ At key (some (rolledBack st)) n' calls') ?_ ?_ ?_
    · refine leads_releaseClaim hord h (fun _ _ hraise => hraise) fun hanswers calls' hat => ?_
      refine ⟨hanswers, _, ?_, hat⟩
      split <;> exact hfail
    · rintro _ calls' ⟨hanswers, n', hfail', hat⟩
      cases final
      · -- A refusal with budget left is not an outcome that finishes the page.
        change Stranded key (.ok _) calls' ↔ _
        simp [stranded_ok, Outcome.finished, Schedule.handlerStrands, hrefusal]
      · simp only [if_true]
        refine Prog.Leads.bind (m := Leaves
          (fun _ _ => sched.answers .fail 0 = false)
          fun _ calls' => sched.answers .fail 0 = true ∧
              calls'.redis.state? key = moved failed (predecessors failed) (some (rolledBack st)))
          ?_ ?_ ?_
        · refine leads_failPage hord hat ?_ ?_ <;> rw [hfail']
          · exact fun _ _ hanswers => hanswers
          · exact fun hanswers calls' hat => ⟨hanswers, hat.state⟩
        · rintro _ calls'' ⟨hfailed, hstate⟩
          change Stranded key (.ok _) calls'' ↔ _
          rw [stranded_ok, hstate, isOpen_failed_rolledBack]
          simp only [Bool.and_eq_true, Bool.or_eq_true] at hanswers
          have hrollback : st = vlmRunning → sched.answers .rollback (n .rollback) = true := by
            rintro rfl
            exact hanswers.2.resolve_left (by decide)
          simp only [Schedule.handlerStrands, hrefusal, hfailed, Outcome.finished, hanswers.1]
          by_cases hvlm : st = vlmRunning
          · simp [hvlm, hrollback hvlm]
          · simp [hvlm]
        · intro e calls'' hfailed
          rw [leaves_error] at hfailed
          simp [not_stranded_error, Schedule.handlerStrands, hfailed]
    · -- A rollback that raises ends the run without an outcome.
      intro e calls' hraise
      have hraise : (sched.answers .read (n .read) &&
        (!st.running || sched.answers .rollback (n .rollback))) = false := hraise
      simp only [Bool.and_eq_false_iff, Bool.or_eq_false_iff] at hraise
      simp only [not_stranded_error, Schedule.handlerStrands, hrefusal, false_iff]
      rcases hraise with hread | ⟨hrunning, hrollback⟩
      · simp [hread]
      · have hne : st ≠ layoutDone := by
          rintro rfl
          cases hrunning
        simp [hne, hrollback]

/-- What a stage leaves: a result that strands nothing, or an exception with which the outer
handlers strand the page if and only if `strands` says so. -/
def StageLeaves (sched : Schedule) (key : PageKey) (reads rollbacks : ℕ) (final strands : Bool) :
    Except Exn PageResult → Calls → Prop
  | .ok res, calls => ¬Stranded key (.ok res) calls ∧ strands = false
  | .error exc, calls => exc.isException = true ∧ ∃ st n, At key (some st) n calls ∧
      n .read = reads ∧ n .rollback = rollbacks ∧ n .fail = 0 ∧
      strands = sched.handlerStrands reads rollbacks final st exc

/-- A page in a terminal state is not stranded. -/
theorem not_stranded_of_terminal {res : PageResult} (h : At key (some st) n calls)
    (hterm : st.terminal = true) : ¬Stranded key (.ok res) calls := by
  rw [stranded_ok, h.state]
  simp [isOpen, hterm]

/-- The handlers leave a terminal page alone. -/
theorem handlerStrands_of_terminal (hterm : st.terminal = true) (reads rollbacks : ℕ)
    (final : Bool) (exc : Exn) : sched.handlerStrands reads rollbacks final st exc = false := by
  have hdone : st ≠ layoutDone := by
    rintro rfl
    cases hterm
  have hvlm : st ≠ vlmRunning := by
    rintro rfl
    cases hterm
  simp [Schedule.handlerStrands, hdone, hvlm]

/-- The commit of the VLM stage, with its event. -/
theorem leads_commit (hord : sched.Ordinary) (kind : CallKind) {results : Bool}
    {target : PageState} {fields : List (PageField × Json)} {payload : List (String × Json)}
    {res : PageResult} (final : Bool) (h : At key (some vlmRunning) n calls)
    (hkind : (Cmd.evalTransition key target (predecessors target) fields).kind = kind)
    (hcounted : kind ≠ .publish ∧ kind ≠ .sweep ∧ kind ≠ .read ∧ kind ≠ .rollback ∧ kind ≠ .fail)
    (hpred : vlmRunning ∈ predecessors target) (hterm : target.terminal = true)
    (hunused : n kind = 0) (hfail : n .fail = 0) :
    (do
      let committed ← transition key target none fields
      emit results .pageFinal committed key payload
      return res : Py PageResult).Leads (faulty cfg sched) calls
      (StageLeaves sched key (n .read) (n .rollback) final
        (sched.commitStrands (n .read) (n .rollback) final kind)) := by
  obtain ⟨hpublish, hsweep, hread, hrollback, hkfail⟩ := hcounted
  have hmoved : moved target (predecessors target) (some vlmRunning) = some target := by
    simp [moved, hpred]
  refine Prog.Leads.bind (m := Leaves
    (fun exc calls' => StageLeaves sched key (n .read) (n .rollback) final
        (sched.commitStrands (n .read) (n .rollback) final kind) (.error exc) calls')
    fun _ calls' => sched.answers kind 0 = true ∧ At key (some target) (bump kind n) calls') ?_ ?_
    (fun _ _ h => h)
  · refine leads_transition hord kind (predecessors target) h rfl
      (by simp [predecessors_ne_nil]) hkind ⟨hpublish, hsweep⟩ ?_ ?_ <;> rw [hmoved, hunused]
    · intro fault calls' hf hat
      obtain ⟨tookEffect, exc⟩ := fault
      have hreads : bump kind n .read = n .read := Function.update_of_ne (Ne.symm hread) _ _
      have hrollbacks : bump kind n .rollback = n .rollback :=
        Function.update_of_ne (Ne.symm hrollback) _ _
      have hfails : bump kind n .fail = 0 := (Function.update_of_ne (Ne.symm hkfail) _ _).trans hfail
      cases tookEffect
      · refine ⟨hord _ _ _ hf, vlmRunning, _, hat, hreads, hrollbacks, hfails, ?_⟩
        simp [Schedule.commitStrands, hf]
      · refine ⟨hord _ _ _ hf, target, _, hat, hreads, hrollbacks, hfails, ?_⟩
        rw [handlerStrands_of_terminal hterm]
        simp [Schedule.commitStrands, hf]
    · exact fun hanswers _ calls' _ hat => ⟨hanswers, hat⟩
  · rintro _ calls' ⟨hanswers, hat⟩
    refine Prog.Leads.bind_ok (leads_emit hord hat fun calls'' hat' => ⟨rfl, hat'⟩)
      fun calls'' hat' => ⟨not_stranded_of_terminal hat' hterm, ?_⟩
    simp only [Schedule.answers, Option.isNone_iff_eq_none] at hanswers
    simp [Schedule.commitStrands, hanswers]

/-- The guarded VLM call, from the claimed stage: an exception for the outer handlers, a page
completed without the VLM, or the body of the answer. -/
theorem leads_callVlm (hord : sched.Ordinary) {results : Bool} (final : Bool)
    (h : At key (some vlmRunning) n calls) (hclaimed : (sched .claimVlm 0).fault = none)
    (hunused : ∀ kind, kind = .vlm ∨ kind = .fallback ∨ kind = .fail → n kind = 0) :
    (callVlm results key final).Leads (faulty cfg sched) calls fun r calls' => match r with
      | .error exc => StageLeaves sched key (n .read) (n .rollback) final
          (sched.vlmStrands (n .read) (n .rollback) final) (.error exc) calls'
      | .ok (.inl res) => StageLeaves sched key (n .read) (n .rollback) final
          (sched.vlmStrands (n .read) (n .rollback) final) (.ok res) calls'
      | .ok (.inr body) => (sched .vlm 0).fault = none ∧ body = (sched .vlm 0).body ∧
          At key (some vlmRunning) (bump .vlm n) calls' := by
  have hvlm : n (Cmd.vlm key).kind = 0 := hunused .vlm (by simp)
  refine Prog.Leads.tryCatch (m := fun (r : Except Exn (PageResult ⊕ Json)) calls' => match r with
    | .error exc => (∃ tookEffect, (sched .vlm 0).fault = some ⟨tookEffect, exc⟩) ∧
        At key (some vlmRunning) (bump .vlm n) calls'
    | .ok (.inl _) => False
    | .ok (.inr body) => (sched .vlm 0).fault = none ∧ body = (sched .vlm 0).body ∧
        At key (some vlmRunning) (bump .vlm n) calls') ?_ ?_ ?_
  · refine Prog.Leads.bind (m := Leaves
      (fun exc calls' => (∃ tookEffect, (sched .vlm 0).fault = some ⟨tookEffect, exc⟩) ∧
          At key (some vlmRunning) (bump .vlm n) calls')
      fun body calls' => (sched .vlm 0).fault = none ∧ body = (sched .vlm 0).body ∧
          At key (some vlmRunning) (bump .vlm n) calls') ?_ (fun _ _ h => h) (fun _ _ h => h)
    refine leads_call h (by simp [Cmd.kind]) (by simp [Cmd.kind]) ?_ ?_ <;> rw [hvlm]
    · rintro fault _ hf rfl
      refine ⟨⟨fault.tookEffect, hf⟩, h.bump ?_⟩
      cases fault.tookEffect <;> exact h.state
    · intro hanswers
      have hanswers : sched.answers .vlm 0 = true := hanswers
      exact ⟨by simpa [Schedule.answers] using hanswers, rfl, h.bump h.state⟩
  · rintro (_ | body) calls' hbody
    · exact hbody.elim
    · exact hbody
  · rintro exc calls' ⟨⟨tookEffect, hf⟩, hat⟩
    have hstrands : sched.vlmStrands (n .read) (n .rollback) final =
        (!(exc.refusal.isSome && !final) &&
          sched.commitStrands (n .read) (n .rollback) final .fallback) := by
      simp [Schedule.vlmStrands, hclaimed, hf]
    cases hcond : exc.refusal.isSome && !final
    · simp only [Bool.false_eq_true, if_false]
      rw [hstrands, hcond, Bool.not_false, Bool.true_and]
      refine Prog.Leads.bind (leads_commit hord .fallback final hat rfl (by decide) (by decide) rfl
        (hunused .fallback (by simp)) (hunused .fail (by simp))) ?_ (fun _ _ h => h)
      exact fun _ _ h => h
    · -- A refusal with budget left goes to the outer handlers, which release the claim.
      simp only [if_true]
      simp only [Bool.and_eq_true, Bool.not_eq_true'] at hcond
      refine ⟨hord _ _ _ hf, vlmRunning, _, hat, rfl, rfl, hunused .fail (by simp), ?_⟩
      rw [hstrands]
      simp [Schedule.handlerStrands, hcond.1, hcond.2]

/-- **The VLM stage**, on a page with a committed layout. -/
theorem leads_vlmStage (hord : sched.Ordinary) {results resumed : Bool} (final : Bool)
    (h : At key (some layoutDone) n calls)
    (hunused : ∀ kind, kind = .claimVlm ∨ kind = .vlm ∨ kind = .fallback ∨ kind = .finish ∨
      kind = .fail → n kind = 0) :
    (vlmStage results key final resumed).Leads (faulty cfg sched) calls
      (StageLeaves sched key (n .read) (n .rollback) final
        (sched.vlmStrands (n .read) (n .rollback) final)) := by
  refine Prog.Leads.bind (m := Leaves
    (fun exc calls' => StageLeaves sched key (n .read) (n .rollback) final
        (sched.vlmStrands (n .read) (n .rollback) final) (.error exc) calls')
    fun claim calls' => (sched .claimVlm 0).fault = none ∧ claim.ok = true ∧
        At key (some vlmRunning) (bump .claimVlm n) calls') ?_ ?_ (fun _ _ h => h)
  · refine leads_transition hord .claimVlm (predecessors vlmRunning) h rfl rfl rfl (by decide)
      ?_ ?_ <;> rw [hunused .claimVlm (by simp)]
    · intro fault calls' hf hat
      obtain ⟨tookEffect, exc⟩ := fault
      refine ⟨hord _ _ _ hf, if tookEffect then vlmRunning else layoutDone, bump .claimVlm n, ?_,
        rfl, rfl, hunused .fail (by simp), by simp [Schedule.vlmStrands, hf]⟩
      cases tookEffect
      · exact hat
      · exact hat
    · intro hanswers claim calls' hclaim hat
      exact ⟨by simpa [Schedule.answers] using hanswers, hclaim, hat⟩
  · rintro claim calls' ⟨hclaimed, hclaim, hat⟩
    simp only [hclaim, Bool.not_true, Bool.false_eq_true, if_false]
    refine Prog.Leads.bind (leads_callVlm hord final hat hclaimed fun kind hkind => ?_) ?_
      (fun _ _ h => h)
    · rcases hkind with rfl | rfl | rfl
      · exact hunused .vlm (by simp)
      · exact hunused .fallback (by simp)
      · exact hunused .fail (by simp)
    · rintro (res | body) calls'' hres
      · exact hres
      · obtain ⟨hanswered, rfl, hat'⟩ := hres
        have hstrands : sched.vlmStrands (n .read) (n .rollback) final =
            ((sched .vlm 0).body.isObj &&
              sched.commitStrands (n .read) (n .rollback) final .finish) := by
          simp [Schedule.vlmStrands, hclaimed, hanswered]
        rw [hstrands]
        cases hbody : (sched .vlm 0).body with
        | obj members =>
          simp only [getConfidence, Prog.pure_eq_ret, Prog.ret_bind, Json.isObj, Bool.true_and]
          exact leads_commit (n := bump .vlm (bump .claimVlm n)) hord .finish final hat' rfl
            (by decide) (by decide) rfl (hunused .finish (by simp)) (hunused .fail (by simp))
        | _ =>
          -- A body without a `get` method raises, with the page still in the stage.
          refine ⟨rfl, vlmRunning, _, hat', rfl, rfl, hunused .fail (by simp), ?_⟩
          simp [Json.isObj, Schedule.handlerStrands, Exn.refusal]

/-- **The layout stage**, on a pending page. -/
theorem leads_layoutStage (hord : sched.Ordinary) {results handoff : Bool} (final : Bool)
    (h : At key (some pending) n calls)
    (hunused : ∀ kind, kind = .claimLayout ∨ kind = .layout ∨ kind = .commitLayout ∨
      kind = .fail → n kind = 0) :
    (layoutStage results key handoff).Leads (faulty cfg sched) calls fun r calls' => match r with
      | .error exc => StageLeaves sched key (n .read) (n .rollback) final
          (sched.layoutStrands (n .read) (n .rollback) final handoff) (.error exc) calls'
      | .ok (some res) => StageLeaves sched key (n .read) (n .rollback) final
          (sched.layoutStrands (n .read) (n .rollback) final handoff) (.ok res) calls'
      | .ok none =>
          At key (some layoutDone) (bump .commitLayout (bump .layout (bump .claimLayout n))) calls' ∧
          sched.layoutStrands (n .read) (n .rollback) final handoff =
            sched.vlmStrands (n .read) (n .rollback) final := by
  have hraised : ∀ (st : PageState) (n' : CallKind → ℕ) {kind : CallKind} {fault : Fault}
      {calls' : Calls}, (sched kind 0).fault = some fault → At key (some st) n' calls' →
      n' .read = n .read → n' .rollback = n .rollback → n' .fail = 0 →
      sched.layoutStrands (n .read) (n .rollback) final handoff =
        sched.handlerStrands (n .read) (n .rollback) final st fault.exn →
      StageLeaves sched key (n .read) (n .rollback) final
        (sched.layoutStrands (n .read) (n .rollback) final handoff) (.error fault.exn) calls' :=
    fun _ _ _ _ _ hf hat hread hrollback hfail hstrands =>
      ⟨hord _ _ _ hf, _, _, hat, hread, hrollback, hfail, hstrands⟩
  -- The handlers fail a page that has no layout yet.
  have hearly : ∀ {st : PageState} (exc : Exn), st = pending ∨ st = layoutRunning →
      sched.handlerStrands (n .read) (n .rollback) final st exc = false := by
    rintro st exc (rfl | rfl) <;> simp [Schedule.handlerStrands]
  refine Prog.Leads.bind (m := Leaves
    (fun exc calls' => StageLeaves sched key (n .read) (n .rollback) final
        (sched.layoutStrands (n .read) (n .rollback) final handoff) (.error exc) calls')
    fun claim calls' => sched.answers .claimLayout 0 = true ∧ claim.ok = true ∧
        At key (some layoutRunning) (bump .claimLayout n) calls') ?_ ?_ (fun _ _ h => h)
  · refine leads_transition hord .claimLayout (predecessors layoutRunning) h rfl rfl rfl
      (by decide) ?_ ?_ <;> rw [hunused .claimLayout (by simp)]
    · intro fault calls' hf hat
      have hstrands : sched.layoutStrands (n .read) (n .rollback) final handoff = false := by
        simp [Schedule.layoutStrands, Schedule.answers, hf]
      obtain ⟨tookEffect, exc⟩ := fault
      cases tookEffect
      · exact hraised pending _ hf hat rfl rfl (hunused .fail (by simp)) (by
          rw [hstrands, hearly _ (.inl rfl)])
      · exact hraised layoutRunning _ hf hat rfl rfl (hunused .fail (by simp)) (by
          rw [hstrands, hearly _ (.inr rfl)])
    · exact fun hanswers claim calls' hclaim hat => ⟨hanswers, hclaim, hat⟩
  · rintro claim calls' ⟨hclaimed, hclaim, hat⟩
    simp only [hclaim, Bool.not_true, Bool.false_eq_true, if_false]
    have hlayout : bump .claimLayout n (Cmd.layout key).kind = 0 := hunused .layout (by simp)
    refine Prog.Leads.bind (m := Leaves
      (fun exc calls' => StageLeaves sched key (n .read) (n .rollback) final
          (sched.layoutStrands (n .read) (n .rollback) final handoff) (.error exc) calls')
      fun _ calls' => sched.answers .layout 0 = true ∧
          At key (some layoutRunning) (bump .layout (bump .claimLayout n)) calls') ?_ ?_
      (fun _ _ h => h)
    · refine leads_call hat (by simp [Cmd.kind]) (by simp [Cmd.kind]) ?_ ?_ <;> rw [hlayout]
      · rintro fault _ hf rfl
        have hf : (sched .layout 0).fault = some fault := hf
        refine hraised layoutRunning (bump .layout (bump .claimLayout n)) hf (hat.bump ?_)
          rfl rfl (hunused .fail (by simp)) ?_
        · cases fault.tookEffect <;> exact hat.state
        · rw [hearly _ (.inr rfl)]
          simp [Schedule.layoutStrands, Schedule.answers, hf]
      · exact fun hanswers => ⟨hanswers, hat.bump hat.state⟩
    · rintro layout calls' ⟨hcalled, hat⟩
      have hstrands : sched.layoutStrands (n .read) (n .rollback) final handoff =
          match (sched .commitLayout 0).fault with
          | some ⟨tookEffect, exc⟩ =>
            tookEffect && sched.handlerStrands (n .read) (n .rollback) final layoutDone exc
          | none => !handoff && sched.vlmStrands (n .read) (n .rollback) final := by
        simp [Schedule.layoutStrands, hclaimed, hcalled]
      refine Prog.Leads.bind (m := Leaves
        (fun exc calls' => StageLeaves sched key (n .read) (n .rollback) final
            (sched.layoutStrands (n .read) (n .rollback) final handoff) (.error exc) calls')
        fun _ calls' => (sched .commitLayout 0).fault = none ∧ At key (some layoutDone)
            (bump .commitLayout (bump .layout (bump .claimLayout n))) calls') ?_ ?_
        (fun _ _ h => h)
      · refine leads_transition hord .commitLayout (predecessors layoutDone) hat rfl rfl rfl
          (by decide) ?_ ?_ <;>
          rw [show bump .layout (bump .claimLayout n) .commitLayout = 0 from
            hunused .commitLayout (by simp)]
        · intro fault calls' hf hat'
          obtain ⟨tookEffect, exc⟩ := fault
          cases tookEffect
          · exact hraised layoutRunning _ hf hat' rfl rfl (hunused .fail (by simp)) (by
              rw [hstrands, hf, hearly _ (.inr rfl)]; rfl)
          · exact hraised layoutDone _ hf hat' rfl rfl (hunused .fail (by simp)) (by
              rw [hstrands, hf]; rfl)
        · exact fun hanswers _ calls' _ hat' => ⟨by simpa [Schedule.answers] using hanswers, hat'⟩
      · rintro _ calls'' ⟨hcommitted, hat'⟩
        refine Prog.Leads.bind_ok (leads_emit hord hat' fun calls₃ hat₃ => ⟨rfl, hat₃⟩)
          fun calls₃ hat₃ => ?_
        rw [hcommitted] at hstrands
        cases handoff
        · exact ⟨hat₃, by simpa using hstrands⟩
        · -- A handoff does not finish the page.
          exact ⟨by simp [stranded_ok, Outcome.finished], by simpa using hstrands⟩

/-- What the two stages with the outer handlers strand, from the state they start in. -/
def Schedule.stagesStrand (sched : Schedule) (reads rollbacks : ℕ) (final handoff : Bool)
    (st : PageState) : Bool :=
  if st = pending then sched.layoutStrands reads rollbacks final handoff
  else sched.vlmStrands reads rollbacks final

theorem leads_stages (hord : sched.Ordinary) {results final handoff : Bool}
    (hst : st = pending ∨ st = layoutDone) (h : At key (some st) n calls)
    (hunused : ∀ kind, kind ≠ .read → kind ≠ .rollback → n kind = 0) :
    (Prog.tryCatch (runStages results key final handoff st)
      (onStageError results key final)).Leads (faulty cfg sched) calls fun r calls' =>
        Stranded key r calls' ↔
          sched.stagesStrand (n .read) (n .rollback) final handoff st = true := by
  refine Prog.Leads.tryCatch (m := StageLeaves sched key (n .read) (n .rollback) final
    (sched.stagesStrand (n .read) (n .rollback) final handoff st)) ?_ ?_ ?_
  · rcases hst with rfl | rfl
    · simp only [runStages, if_true, Schedule.stagesStrand]
      refine Prog.Leads.bind (leads_layoutStage hord final h fun kind hkind => ?_) ?_
        (fun _ _ h => h)
      · rcases hkind with rfl | rfl | rfl | rfl <;> exact hunused _ (by decide) (by decide)
      · rintro (_ | res) calls' hres
        · obtain ⟨hat, hstrands⟩ := hres
          simp only
          rw [hstrands]
          refine leads_vlmStage (n := bump .commitLayout (bump .layout (bump .claimLayout n)))
            hord final hat fun kind hkind => ?_
          rcases hkind with rfl | rfl | rfl | rfl | rfl <;>
            exact hunused _ (by decide) (by decide)
        · exact hres
    · simp only [runStages, reduceCtorEq, if_false, Schedule.stagesStrand, Prog.pure_eq_ret,
        Prog.ret_bind]
      refine leads_vlmStage hord final h fun kind hkind => ?_
      rcases hkind with rfl | rfl | rfl | rfl | rfl <;> exact hunused _ (by decide) (by decide)
  · rintro res calls' ⟨hnot, hstrands⟩
    simp [hnot, hstrands]
  · rintro exc calls' ⟨hexc, st', n', hat, hread, hrollback, hfail, hstrands⟩
    rw [hstrands, ← hread, ← hrollback]
    exact leads_onStageError hord hat hfail hexc

/-- A page that does not exist is not stranded. -/
theorem not_stranded_of_absent {res : PageResult} (h : At key none n calls) :
    ¬Stranded key (.ok res) calls := by
  rw [stranded_ok, h.state]
  simp [isOpen]

/-- What the entry check leaves: the run ends here and strands nothing, or the stages decide. -/
def EntryLeaves (sched : Schedule) (key : PageKey) (final handoff strands : Bool) :
    Except Exn (PageResult ⊕ PageState) → Calls → Prop
  | .error _, _ => strands = false
  | .ok (.inl res), calls => ¬Stranded key (.ok res) calls ∧ strands = false
  | .ok (.inr st), calls => (st = pending ∨ st = layoutDone) ∧ ∃ n, At key (some st) n calls ∧
      (∀ kind, kind ≠ .read → kind ≠ .rollback → n kind = 0) ∧
      strands = sched.stagesStrand (n .read) (n .rollback) final handoff st

/-- The stages start from a page that was rolled back. -/
theorem leads_reclaim (hord : sched.Ordinary) {final handoff : Bool} (hst : st.running = true)
    (hread : sched.answers .read 0 = true) (h : At key (some st) (bump .read fun _ => 0) calls) :
    (do
      releaseClaim key
      match ← getPage key with
      | none => return .inl { outcome := .failed, detail := "page state missing" }
      | some page =>
        if page.state.terminal then
          return .inl { outcome := .alreadyTerminal, detail := page.state.value }
        if page.state.running then
          return .inl { outcome := .ownedByOther, detail := page.state.value }
        return .inr page.state : Py (PageResult ⊕ PageState)).Leads (faulty cfg sched) calls
      (EntryLeaves sched key final handoff
        (sched.strands final handoff true (some st))) := by
  -- Both running states roll back to a state a stage starts from.
  have hback : rolledBack st = pending ∨ rolledBack st = layoutDone := by
    revert hst
    cases st <;> decide
  have hstrands : sched.strands final handoff true (some st) =
      (sched.answers .read 1 && sched.answers .rollback 0 && sched.answers .read 2 &&
        sched.stagesStrand 3 1 final handoff (rolledBack st)) := by
    revert hst
    cases st <;> simp [PageState.running, Schedule.strands, Schedule.strands.reclaims, hread,
      Schedule.stagesStrand, rolledBack, reclaimTarget]
  rw [hstrands]
  refine Prog.Leads.bind (m := Leaves
    (fun _ _ => (sched.answers .read 1 && sched.answers .rollback 0) = false)
    fun _ calls' => (sched.answers .read 1 && sched.answers .rollback 0) = true ∧
        At key (some (rolledBack st)) (bump .rollback (bump .read (bump .read fun _ => 0)))
          calls') ?_ ?_ ?_
  · refine leads_releaseClaim hord h ?_ ?_ <;> rw [hst]
    · exact fun _ _ hraise => hraise
    · exact fun hanswers calls' hat => ⟨hanswers, hat⟩
  · rintro _ calls' ⟨hanswers, hat⟩
    rw [hanswers, Bool.true_and]
    refine Prog.Leads.bind (m := Leaves
      (fun _ _ => sched.answers .read 2 = false)
      fun page calls' => sched.answers .read 2 = true ∧
          page.map PageHash.state = some (rolledBack st) ∧ At key (some (rolledBack st))
            (bump .read (bump .rollback (bump .read (bump .read fun _ => 0)))) calls') ?_ ?_ ?_
    · exact leads_getPage hat (fun _ _ hraise => hraise) fun hread' page calls'' hpage hat' =>
        ⟨hread', hpage, hat'⟩
    · rintro page calls'' ⟨hread', hpage, hat'⟩
      obtain ⟨p, rfl, hp⟩ := Option.map_eq_some_iff.mp hpage
      have hplain : (rolledBack st).terminal = false ∧ (rolledBack st).running = false := by
        rcases hback with hback | hback <;> rw [hback] <;> decide
      simp only [hp, hplain.1, hplain.2, Bool.false_eq_true, if_false, hread', Bool.true_and]
      refine ⟨hback, _, hat', fun kind hread hrollback => ?_, rfl⟩
      simp [bump, hread, hrollback]
    · intro e calls'' hraise
      have hraise : sched.answers .read 2 = false := hraise
      simp [EntryLeaves, hraise]
  · intro e calls' hraise
    have hraise : (sched.answers .read 1 && sched.answers .rollback 0) = false := hraise
    simp [EntryLeaves, hraise]

theorem leads_enterPage (hord : sched.Ordinary) (final handoff reclaim : Bool)
    {st : Option PageState} (h : At key st (fun _ => 0) calls) :
    (enterPage key reclaim).Leads (faulty cfg sched) calls
      (EntryLeaves sched key final handoff (sched.strands final handoff reclaim st)) := by
  refine Prog.Leads.bind (m := Leaves
    (fun _ _ => sched.strands final handoff reclaim st = false)
    fun page calls' => sched.answers .read 0 = true ∧ page.map PageHash.state = st ∧
        At key st (bump .read fun _ => 0) calls') ?_ ?_ (fun _ _ h => h)
  · refine leads_getPage h (fun exc calls' hread => ?_) fun hread page calls' hpage hat =>
      ⟨hread, hpage, hat⟩
    have hread : sched.answers .read 0 = false := hread
    rcases st with _ | st
    · rfl
    · cases st <;> simp [Schedule.strands, Schedule.strands.reclaims, hread]
  · rintro (_ | page) calls' ⟨hread, rfl, hat⟩
    · exact ⟨not_stranded_of_absent hat, rfl⟩
    · simp only [Option.map_some] at hat ⊢
      cases hterm : page.state.terminal
      · cases hrunning : page.state.running
        · -- Neither terminal nor running: the stages run.
          simp only [Bool.false_eq_true, if_false]
          have hplain : page.state = pending ∨ page.state = layoutDone := by
            revert hterm hrunning
            cases page.state <;> decide
          refine ⟨hplain, _, hat, fun kind hread hrollback => by simp [bump, hread], ?_⟩
          rcases hplain with hplain | hplain <;>
            simp [hplain, Schedule.strands, Schedule.stagesStrand, hread, bump]
        · simp only [Bool.false_eq_true, if_false, if_true]
          cases reclaim
          · -- Somebody else's claim is left alone.
            refine ⟨by simp [stranded_ok, Outcome.finished], ?_⟩
            revert hrunning
            cases page.state <;> simp [PageState.running, Schedule.strands,
              Schedule.strands.reclaims]
          · exact leads_reclaim hord hrunning hread hat
      · simp only [if_true]
        refine ⟨not_stranded_of_terminal hat hterm, ?_⟩
        revert hterm
        cases page.state <;> first | exact fun _ => rfl | (intro hterm; cases hterm)

end Pieces

/-- **Exactly the schedules of `strands`** make `processPage` report a finished page that is
not finished. -/
theorem not_stranded_iff (cfg : Settings) (sched : Schedule) (hord : sched.Ordinary)
    (results final handoff reclaim : Bool) (key : PageKey) (s : Redis) :
    (processPage results key final handoff reclaim).Leads (faulty cfg sched) (Calls.start s)
        (fun r calls => ∀ res, r = .ok res → res.outcome.finished = true →
          calls.redis.state? key = none ∨
            ∃ st, calls.redis.state? key = some st ∧ st.terminal = true) ↔
      sched.strands final handoff reclaim (s.state? key) = false := by
  have hstart : At key (s.state? key) (fun _ => 0) (Calls.start s) := ⟨rfl, fun _ _ _ => rfl⟩
  have hexact : (processPage results key final handoff reclaim).Leads (faulty cfg sched)
      (Calls.start s) fun r calls => Stranded key r calls ↔
        sched.strands final handoff reclaim (s.state? key) = true := by
    refine Prog.Leads.bind (leads_enterPage hord final handoff reclaim hstart) ?_ ?_
    · rintro (res | st) calls hentered
      · obtain ⟨hnot, hstrands⟩ := hentered
        change Stranded key (.ok res) calls ↔ _
        simp [hnot, hstrands]
      · obtain ⟨hst, n, hat, hunused, hstrands⟩ := hentered
        rw [hstrands]
        exact leads_stages hord hst hat hunused
    · intro exc calls hstrands
      have hstrands : sched.strands final handoff reclaim (s.state? key) = false := hstrands
      simp [not_stranded_error, hstrands]
  have hexact : Stranded key _ _ ↔ _ := hexact
  rw [Bool.eq_false_iff, ne_eq, ← hexact]
  exact not_stranded.symm

/-- The connection drops on every call of one kind, before it takes effect. -/
def dropsOn (kind : CallKind) : Schedule := fun kind' _ =>
  ⟨1000, .obj [], 0,
    if kind' = kind then some ⟨false, .exception "ConnectionError" "connection lost"⟩ else none⟩

theorem dropsOn_ordinary (kind : CallKind) : (dropsOn kind).Ordinary := by
  intro kind' n fault h
  simp only [dropsOn] at h
  split at h
  · cases h
    rfl
  · cases h

/-- A job of one page that was just submitted. -/
def submitted : Redis := initJob {} 1000 0 1 Redis.empty

/-- A layout commit that is lost before it took effect fails the page, as it should. -/
theorem not_stranded_by_commitLayout :
    (dropsOn .commitLayout).Ordinary ∧
      (processPage true ⟨0, 0⟩ false false false).Leads (faulty {} (dropsOn .commitLayout))
        (Calls.start submitted) fun r calls => ∀ res, r = .ok res → res.outcome.finished = true →
          calls.redis.state? ⟨0, 0⟩ = none ∨
            ∃ st, calls.redis.state? ⟨0, 0⟩ = some st ∧ st.terminal = true :=
  ⟨dropsOn_ordinary _, (not_stranded_iff {} _ (dropsOn_ordinary _) true false false false ⟨0, 0⟩
    submitted).mpr (by decide)⟩

/-- A VLM claim that is lost before it took effect makes `processPage` return FAILED for a page
that stays in LAYOUT_DONE. -/
theorem stranded_by_claimVlm :
    ¬∀ sched : Schedule, sched.Ordinary → ∀ (results final handoff reclaim : Bool) (key : PageKey)
      (s : Redis), (processPage results key final handoff reclaim).Leads (faulty {} sched)
        (Calls.start s) fun r calls => ∀ res, r = .ok res → res.outcome.finished = true →
          calls.redis.state? key = none ∨
            ∃ st, calls.redis.state? key = some st ∧ st.terminal = true := by
  intro hall
  have hrun : ∃ res calls, (processPage true ⟨0, 0⟩ false false false).eval
      (faulty {} (dropsOn .claimVlm)) (Calls.start submitted) = (.ok res, calls) ∧
        res.outcome = .failed ∧ calls.redis.state? ⟨0, 0⟩ = some layoutDone := by
    refine ⟨_, _, rfl, ?_, ?_⟩ <;> decide +kernel
  obtain ⟨res, calls, hrun, hres, hstate⟩ := hrun
  have hclaim := hall (dropsOn .claimVlm) (dropsOn_ordinary _) true false false false ⟨0, 0⟩ submitted
  simp only [Prog.Leads, hrun] at hclaim
  rcases hclaim res rfl (by rw [hres]; rfl) with hnone | ⟨st, hst, hterm⟩
  · rw [hstate] at hnone
    cases hnone
  · rw [hstate] at hst
    cases hst
    cases hterm

end OcrOrchestrator
