import OcrOrchestrator.Lib.Protocol
import OcrOrchestrator.Worker.Fleet

/-!
# The protocol a party follows

`handlePage` and `recover` are walked through once, here, and summed up as an automaton:
the phases are the points at which a party is about to act on shared state, the moves say
what it may do there and where it goes on each answer.  Everything proved later about a
fleet is an argument about these phases.

The walk assumes that store and queue calls do not raise, which is the setting of the
claims about crashes; under store faults the crash handler of `handlePage` runs as well.
Model calls, publishing and the file system may raise anything.

## Main definitions

* `Act` — a command with its answer, reduced to what the protocol looks at.
* `Phase`, `Move` — the automaton.
* `follows_handlePage`, `follows_recover` — the two programs follow it.
-/

namespace OcrOrchestrator

open Lib PageState

/-- What a party knows about itself from the start. -/
structure Brief where
  task : PageTask
  role : Role
  final : Bool
  handoff : Bool

namespace Brief

def key (b : Brief) : PageKey := b.task.key

end Brief

/-- A command with its answer, as far as the protocol looks at it. -/
inductive Act where
  /-- Nothing the protocol looks at: the clock, the file system, expiry times. -/
  | quiet
  | look (key : PageKey) (seen : Option PageState)
  | request (key : PageKey) (target : PageState) (allowed : List PageState)
      (extra : List (PageField × Json)) (ok completed : Bool)
  | model (endpoint : Endpoint) (answer : Except Exn Json)
  | publish (job : JobId) (body : EventBody) (ok : Bool)
  | add (fields : RawTask)
  | xack (entry : Lane × StreamId)
  | xdel (entry : Lane × StreamId)

/-- The script's answer completed the job: the test `completedJob` makes of it. -/
def Reply.completed (r : Reply) : Bool :=
  r.ok && decide (0 < r.totalPages) && decide (r.totalPages ≤ r.doneCount)

/-- The act behind an answered command. -/
def Act.of : (c : Cmd) → Except Exn (Ret c) → Act
  | .hgetallPage key, .ok page => .look key (page.map PageHash.state)
  | .evalTransition key target allowed extra, .ok reply =>
      .request key target allowed extra reply.ok reply.completed
  | .layout _, answer => .model .layout answer
  | .vlm _, answer => .model .vlm answer
  | .publish job body, answer => .publish job body answer.toBool
  | .xaddMain fields, .ok _ => .add fields
  | .xack lane id, .ok _ => .xack (lane, id)
  | .xdel lane id, .ok _ => .xdel (lane, id)
  | _, _ => .quiet

/-- Where a `release_claim` is called from. -/
inductive Site where
  /-- Re-reading one's own pending entry finds the page running. -/
  | reclaim
  /-- A model endpoint refused the call. -/
  | refused (endpoint : Endpoint)
  /-- A reaper recovers an orphan. -/
  | reap
  deriving DecidableEq

/-- The points at which a party is about to act. -/
inductive Phase where
  | look
  | relook
  | releaseRead (site : Site)
  | releaseWrite (site : Site) (seen : PageState)
  | claim (endpoint : Endpoint)
  | calling (endpoint : Endpoint)
  | commitLayout (layout : Json)
  | tellPartial
  | commitDone
  | degrading
  /-- About to request FAILED; `some endpoint`: from that stage, with the claim still held,
  `none`: after a refusal on the final attempt, with the claim released. -/
  | failing (stage : Option Endpoint)
  | weighing
  | forceRead
  | forceWrite (seen : PageState)
  | tellFinal (completed : Bool)
  | tellComplete
  | requeueing
  | settling
  | deleting
  | ended

/-- The state a stage's claim puts the page in. -/
def Endpoint.runningState : Endpoint → PageState
  | .layout => layoutRunning
  | .vlm => vlmRunning

/-- Where `force_terminal` drives a page it saw in this state. -/
def forceTarget (seen : PageState) : PageState :=
  if degradable seen then fallbackDone else failed

namespace Phase

/-- After the entry check saw `seen`; `stranger` is what to do with a running page. -/
def entered (seen : Option PageState) (stranger : Phase) : Phase :=
  match seen with
  | none => settling
  | some s =>
    if s.terminal then settling
    else if s.running then stranger
    else claim (if s = pending then .layout else .vlm)

/-- After a layout commit and its event. -/
def afterLayout (b : Brief) : Phase := if b.handoff then requeueing else claim .vlm

/-- About to write what `force_terminal` has decided. -/
def forces : Phase → Bool
  | forceWrite _ => true
  | _ => false

/-- After a `release_claim`. -/
def released (b : Brief) : Site → Phase
  | .reclaim => relook
  | .refused _ => if b.final then failing none else requeueing
  | .reap => requeueing

/-- After a transition that should make the page terminal. -/
def afterTerminal (ok completed : Bool) : Phase :=
  if ok then tellFinal completed else settling

/-- About to publish an event. -/
def telling : Phase → Bool
  | tellPartial => true
  | tellFinal _ => true
  | tellComplete => true
  | _ => false

@[simp] theorem telling_afterLayout (b : Brief) : (afterLayout b).telling = false := by
  unfold afterLayout
  split <;> rfl

@[simp] theorem telling_released (b : Brief) (site : Site) : (released b site).telling = false := by
  cases site with
  | refused ep =>
    simp only [released]
    split <;> rfl
  | _ => rfl

theorem telling_entered (seen : Option PageState) {stranger : Phase}
    (h : stranger.telling = false) : (entered seen stranger).telling = false := by
  unfold entered
  split
  · rfl
  · split
    · rfl
    · split
      · exact h
      · rfl

end Phase

open Phase

/-- The transitions a phase may request, and where it goes on an answer. -/
inductive Requests (b : Brief) :
    Phase → PageState → List PageState → List (PageField × Json) → (Bool → Bool → Phase) → Prop
  | release {site : Site} {seen target : PageState} (h : reclaimTarget seen = some target) :
      Requests b (releaseWrite site seen) target [seen] [] fun _ _ => released b site
  | claim (ep : Endpoint) :
      Requests b (claim ep) ep.runningState (predecessors ep.runningState) []
        fun ok _ => if ok then calling ep else settling
  | commitLayout (layout : Json) :
      Requests b (commitLayout layout) layoutDone (predecessors layoutDone) [(.layout, layout)]
        fun ok _ => if ok then tellPartial else afterLayout b
  | commitDone (vlm confidence : Json) :
      Requests b commitDone done (predecessors done)
        [(.vlm, vlm), (.confidence, confidence), (.degraded, .num 0)] afterTerminal
  | degrade (reason : String) :
      Requests b degrading fallbackDone (predecessors fallbackDone) (fallbackFields reason)
        afterTerminal
  | fail (stage : Option Endpoint) (error : String) :
      Requests b (failing stage) failed (predecessors failed) [(.error, .str error)] afterTerminal
  | force (seen : PageState) (reason : String) (h : seen.terminal = false) :
      Requests b (forceWrite seen) (forceTarget seen) (predecessors (forceTarget seen))
        (if degradable seen then fallbackFields reason else [(.error, .str reason)])
        afterTerminal

/-- Where an answer of a model endpoint leads. -/
def Phase.answered (b : Brief) : Endpoint → Except Exn Json → Phase
  | .layout, .ok layout => commitLayout layout
  | .layout, .error exc =>
      if exc.refusal.isSome then releaseRead (.refused .layout)
      else if exc.isException then failing (some .layout) else ended
  | .vlm, .ok body => if body.isObj then commitDone else failing (some .vlm)
  | .vlm, .error exc =>
      if exc.refusal.isSome && !b.final then releaseRead (.refused .vlm) else degrading

/-- The automaton.  What `force_terminal` has seen it acts upon at once. -/
inductive Move (b : Brief) : Phase → Act → Phase → Prop
  | quiet {φ : Phase} (h : φ.forces = false) : Move b φ .quiet φ
  | weighForce : Move b weighing .quiet forceRead
  | weighRelease : Move b weighing .quiet (releaseRead .reap)
  | look (hrole : b.role = .handler) (seen : Option PageState) :
      Move b look (.look b.key seen)
        (entered seen (if b.task.recovered then releaseRead .reclaim else settling))
  | lookOrphan (hrole : b.role = .reaper) (seen : Option PageState) :
      Move b look (.look b.key seen)
        (if seen.any (fun s => !s.terminal) then weighing else settling)
  | relook (seen : Option PageState) :
      Move b relook (.look b.key seen) (entered seen settling)
  | releaseIdle {site : Site} {seen : Option PageState} (h : seen.any PageState.running = false) :
      Move b (releaseRead site) (.look b.key seen) (released b site)
  | releaseRunning {site : Site} {seen : PageState} (h : seen.running = true) :
      Move b (releaseRead site) (.look b.key (some seen)) (releaseWrite site seen)
  | forceSettled {seen : Option PageState} (h : seen.any (fun s => !s.terminal) = false) :
      Move b forceRead (.look b.key seen) settling
  | forceOpen {seen : PageState} (h : seen.terminal = false) :
      Move b forceRead (.look b.key (some seen)) (forceWrite seen)
  | request {φ : Phase} {target : PageState} {allowed : List PageState}
      {extra : List (PageField × Json)} {next : Bool → Bool → Phase}
      (h : Requests b φ target allowed extra next) (ok completed : Bool) :
      Move b φ (.request b.key target allowed extra ok completed) (next ok completed)
  | call (ep : Endpoint) (answer : Except Exn Json) :
      Move b (calling ep) (.model ep answer) (answered b ep answer)
  | tellPartial (body : EventBody) (hkind : body.event = .pagePartial)
      (hpage : body.pageIndex = some b.key.index) (ok : Bool) :
      Move b tellPartial (.publish b.key.job body ok) (afterLayout b)
  | tellFinal (completed : Bool) (body : EventBody) (hkind : body.event = .pageFinal)
      (hpage : body.pageIndex = some b.key.index) (ok : Bool) :
      Move b (tellFinal completed) (.publish b.key.job body ok)
        (if ok && completed then tellComplete else settling)
  | tellComplete (body : EventBody) (hkind : body.event = .jobComplete) (ok : Bool) :
      Move b tellComplete (.publish b.key.job body ok) settling
  | requeue (countAttempt : Bool) (now : ℕ) :
      Move b requeueing (.add (requeueFields b.task countAttempt now)) settling
  | settle : Move b settling (.xack (b.task.stream, b.task.entryId)) deleting
  | delete : Move b deleting (.xdel (b.task.stream, b.task.entryId)) ended

/-- The script only reports a completed job for a terminal target. -/
def Cmd.Truthful : (c : Cmd) → Except Exn (Ret c) → Prop
  | .evalTransition _ target _ _, .ok reply => target.terminal = false → reply.completed = false
  | _, _ => True

/-- The protocol of a party, in an environment where store and queue calls succeed. -/
def pageProtocol (b : Brief) : Protocol Cmd Ret Exn Phase where
  may c r := (c.isStoreOrQueue = true → r.toBool = true) ∧ c.Truthful r
  move φ c r φ' := Move b φ (Act.of c r) φ'

/-! ## The pieces of the two programs

Each lemma says from which phase a piece runs and in which phase it leaves off.  An
exception that is not an `Exception` passes through every handler and ends the party, so
all that matters of the phase it leaves is that no event is owed. -/

section Pieces
variable {b : Brief} {φ : Phase}

/-- What a piece leaves behind: a result in a phase, or an exception nobody catches. -/
def Ends {α : Type} (post : α → Phase → Prop) : Except Exn α → Phase → Prop
  | .ok a, φ => post a φ
  | .error e, φ => e.isException = false ∧ φ.telling = false

/-- A party ends, normally or not, with no event owed. -/
def NothingOwed : Except Exn Unit → Phase → Prop := fun _ φ => φ.telling = false

/-- A store or queue command is only ever answered with a value here. -/
theorem follows_store {c : Cmd} {post : Except Exn (Ret c) → Phase → Prop}
    (hc : c.isStoreOrQueue = true)
    (h : ∀ a, c.Truthful (.ok a) → ∃ φ', Move b φ (Act.of c (.ok a)) φ' ∧ post (.ok a) φ') :
    (await c).Follows (pageProtocol b) post φ := by
  apply Prog.Follows.perform
  rintro (e | a) hr
  · simp [pageProtocol, hc, Except.toBool] at hr
  · exact h a hr.2

theorem follows_getPage {post : Except Exn (Option PageHash) → Phase → Prop}
    (h : ∀ page, ∃ φ', Move b φ (.look b.key (page.map PageHash.state)) φ' ∧
      post (.ok page) φ') :
    (getPage b.key).Follows (pageProtocol b) post φ :=
  follows_store rfl fun page _ => h page

/-- No phase asks for a transition from nowhere. -/
theorem Requests.allowed_ne_nil {target : PageState} {allowed : List PageState}
    {extra : List (PageField × Json)} {next : Bool → Bool → Phase}
    (h : Requests b φ target allowed extra next) : allowed.isEmpty = false := by
  cases h with
  | release => rfl
  | _ => simp [predecessors_ne_nil]

/-- Every requested transition is a move of the table. -/
theorem Requests.allowed_subset {s target : PageState} {allowed : List PageState}
    {extra : List (PageField × Json)} {next : Bool → Bool → Phase}
    (hreq : Requests b φ target allowed extra next) (h : s ∈ allowed) : s ∈ predecessors target := by
  cases hreq with
  | release ht =>
    rw [List.mem_singleton.mp h]
    exact mem_predecessors_of_reclaimTarget ht
  | _ => exact h

/-- No answer leads to a `force_terminal`. -/
theorem Requests.forces_next {target : PageState} {allowed : List PageState}
    {extra : List (PageField × Json)} {next : Bool → Bool → Phase}
    (h : Requests b φ target allowed extra next) (ok completed : Bool) :
    (next ok completed).forces = false := by
  have hafter : (afterLayout b).forces = false := by
    unfold afterLayout
    split <;> rfl
  cases h with
  | @release site =>
    cases site with
    | refused ep =>
      simp only [released]
      split <;> rfl
    | _ => rfl
  | commitLayout => cases ok <;> first | exact hafter | rfl
  | _ => cases ok <;> rfl

/-- A transition moves on by its request; the sweep it may trigger is quiet. -/
theorem follows_transition (allowed : Option (List PageState)) {target : PageState}
    {extra : List (PageField × Json)} {next : Bool → Bool → Phase}
    (h : Requests b φ target (allowed.getD (predecessors target)) extra next) :
    (transition b.key target allowed extra).Follows (pageProtocol b)
      (Ends fun res φ' => φ' = next res.ok res.completedJob ∧
        (target.terminal = false → res.completedJob = false)) φ := by
  simp only [transition, h.allowed_ne_nil, Bool.false_eq_true, if_false]
  refine Prog.Follows.bind (m := fun r φ' => ∃ reply : Reply, r = .ok reply ∧
    φ' = next reply.ok reply.completed ∧
    (target.terminal = false → reply.completed = false)) ?_ ?_ ?_
  · exact follows_store rfl fun reply ht =>
      ⟨_, .request h reply.ok reply.completed, reply, rfl, rfl, ht⟩
  · rintro reply _ ⟨_, hr, rfl, ht⟩
    obtain rfl := Except.ok.inj hr
    split
    · refine Prog.Follows.bind (m := fun r φ' => r = .ok () ∧
        φ' = next reply.ok reply.completed) ?_ ?_ ?_
      · refine Prog.Follows.tryCatch (m := fun r φ' => r = .ok () ∧
          φ' = next reply.ok reply.completed) ?_ ?_ ?_
        · exact follows_store rfl fun _ _ => ⟨_, .quiet (h.forces_next _ _), rfl, rfl⟩
        · exact fun _ _ h => h
        · rintro e φ' ⟨he, -⟩
          cases he
      · rintro _ _ ⟨-, rfl⟩
        exact ⟨rfl, ht⟩
      · rintro e φ' ⟨he, -⟩
        cases he
    · exact ⟨rfl, ht⟩
  · rintro e φ' ⟨reply, hr, -⟩
    cases hr

/-- A published event: the answer, success or not, is a move. -/
theorem follows_publish {body : EventBody} {post : Except Exn (StreamId × ℕ) → Phase → Prop}
    (h : ∀ r : Except Exn (StreamId × ℕ), ∃ φ', Move b φ (.publish b.key.job body r.toBool) φ' ∧
      post r φ') :
    (await (.publish b.key.job body)).Follows (pageProtocol b) post φ :=
  Prog.Follows.perform fun r _ => h r

/-- The final event of a terminal transition, and the job's if it completed the job. -/
theorem follows_emitFinal {res : TransitionResult} {payload : List (String × Json)}
    (h : φ = afterTerminal res.ok res.completedJob) :
    (emit true .pageFinal res b.key payload).Follows (pageProtocol b)
      (Ends fun _ φ' => φ' = settling) φ := by
  subst h
  unfold emit
  cases hok : res.ok
  · exact rfl
  simp only [Bool.not_true, Bool.or_self, Bool.false_eq_true, if_false, afterTerminal, if_true]
  refine Prog.Follows.tryCatch (m := fun _ φ' => φ' = settling) ?_ ?_ ?_
  · refine Prog.Follows.bind (m := fun r φ' => φ' =
      if r.toBool && res.completedJob then tellComplete else settling) ?_ ?_ ?_
    · exact follows_publish fun r => ⟨_, .tellFinal _ _ rfl rfl _, rfl⟩
    · rintro a _ rfl
      cases res.completedJob
      · exact rfl
      · refine Prog.Follows.bind (m := fun _ φ' => φ' = settling) ?_ ?_ ?_
        · exact follows_publish fun r => ⟨_, .tellComplete _ rfl _, rfl⟩
        · rintro _ _ rfl
          exact rfl
        · exact fun _ _ h => h
    · rintro e _ rfl
      rfl
  · exact fun _ _ h => h
  · rintro e _ rfl
    cases he : e.isException
    · exact ⟨he, rfl⟩
    · exact rfl

/-- The partial event of a layout commit. -/
theorem follows_emitPartial {res : TransitionResult} {payload : List (String × Json)}
    (h : φ = if res.ok then tellPartial else afterLayout b)
    (hcomplete : res.completedJob = false) :
    (emit true .pagePartial res b.key payload).Follows (pageProtocol b)
      (Ends fun _ φ' => φ' = afterLayout b) φ := by
  subst h
  unfold emit
  cases hok : res.ok
  · exact rfl
  simp only [Bool.not_true, Bool.or_self, Bool.false_eq_true, if_false, if_true]
  refine Prog.Follows.tryCatch (m := fun _ φ' => φ' = afterLayout b) ?_ ?_ ?_
  · refine Prog.Follows.bind (m := fun _ φ' => φ' = afterLayout b) ?_ ?_ ?_
    · exact follows_publish fun r => ⟨_, .tellPartial _ rfl rfl _, rfl⟩
    · rintro a _ rfl
      simp only [hcomplete, Bool.false_eq_true, if_false]
      exact rfl
    · exact fun _ _ h => h
  · exact fun _ _ h => h
  · rintro e _ rfl
    cases he : e.isException
    · exact ⟨he, telling_afterLayout b⟩
    · exact rfl

/-- `release_claim` ends where its call site goes on, whatever it found. -/
theorem follows_releaseClaim (site : Site) :
    (releaseClaim b.key).Follows (pageProtocol b) (Ends fun _ φ' => φ' = released b site)
      (releaseRead site) := by
  refine Prog.Follows.bind (m := Ends fun page φ' => φ' =
    (page.bind fun q => (reclaimTarget q.state).map fun _ => q.state).elim (released b site)
      (releaseWrite site)) ?_ ?_ (fun _ _ h => h)
  · apply follows_getPage
    rintro (_ | page)
    · exact ⟨_, .releaseIdle rfl, rfl⟩
    · have hrun := reclaimTarget_isSome page.state
      cases ht : reclaimTarget page.state with
      | none =>
        rw [ht] at hrun
        exact ⟨_, .releaseIdle hrun.symm, by simp [Ends, ht]⟩
      | some target =>
        rw [ht] at hrun
        exact ⟨_, .releaseRunning hrun.symm, by simp [Ends, ht]⟩
  · rintro (_ | page) _ rfl
    · exact rfl
    · cases ht : reclaimTarget page.state with
      | none =>
        simp only [ht, Option.bind_some, Option.map_none]
        exact rfl
      | some target =>
        simp only [ht, Option.bind_some, Option.map_some]
        refine Prog.Follows.bind (follows_transition (some [page.state])
          (.release ht)) ?_ (fun _ _ h => h)
        rintro _ _ ⟨rfl, -⟩
        exact rfl

/-- A terminal transition with its events: the common tail of the four ways to finish. -/
theorem follows_finish {α : Type} (post : α → Phase → Prop) {target : PageState}
    {extra : List (PageField × Json)} {payload : List (String × Json)}
    {k : TransitionResult → Py α}
    (h : Requests b φ target (predecessors target) extra afterTerminal)
    (hk : ∀ res, (k res).Follows (pageProtocol b) (Ends post) settling) :
    (do
      let res ← transition b.key target none extra
      emit true .pageFinal res b.key payload
      k res : Py α).Follows (pageProtocol b) (Ends post) φ := by
  refine Prog.Follows.bind (follows_transition none h) ?_ (fun _ _ h => h)
  rintro res φ' ⟨hφ', -⟩
  refine Prog.Follows.bind (follows_emitFinal hφ') ?_ (fun _ _ h => h)
  rintro _ _ rfl
  exact hk res

theorem follows_degrade (cause : Exn) :
    (degrade true b.key cause).Follows (pageProtocol b)
      (Ends fun res φ' => res.outcome = .degraded ∧ φ' = settling) degrading :=
  follows_finish _ (.degrade _) fun _ => ⟨rfl, rfl⟩

theorem follows_failPage (stage : Option Endpoint) (error : String) :
    (failPage true b.key error).Follows (pageProtocol b) (Ends fun _ φ' => φ' = settling)
      (failing stage) := by
  refine Prog.Follows.bind (follows_transition none (.fail stage error)) ?_
    (fun _ _ h => h)
  rintro res φ' ⟨hφ', -⟩
  exact follows_emitFinal hφ'

theorem follows_forceTerminal (reason : String) :
    (forceTerminal true b.key reason).Follows (pageProtocol b) (Ends fun _ φ' => φ' = settling)
      forceRead := by
  refine Prog.Follows.bind (m := Ends fun page φ' => φ' =
    match page with
    | some q => if q.state.terminal then settling else forceWrite q.state
    | none => settling) ?_ ?_ (fun _ _ h => h)
  · apply follows_getPage
    rintro (_ | page)
    · exact ⟨_, .forceSettled rfl, rfl⟩
    · cases ht : page.state.terminal
      · exact ⟨_, .forceOpen ht, by simp [Ends, ht]⟩
      · exact ⟨_, .forceSettled (by simp [ht]), by simp [Ends, ht]⟩
  · rintro (_ | page) _ rfl
    · exact rfl
    · cases ht : page.state.terminal
      · simp only [ht, Bool.false_eq_true, if_false]
        refine Prog.Follows.bind (follows_transition none
          (.force page.state reason ht)) ?_ (fun _ _ h => h)
        rintro res φ' ⟨rfl, -⟩
        cases hok : res.ok
        · simp only [Bool.not_false, if_true]
          exact rfl
        · simp only [Bool.not_true, Bool.false_eq_true, if_false]
          refine Prog.Follows.bind (follows_emitFinal (by rw [hok])) ?_ (fun _ _ h => h)
          rintro _ _ rfl
          exact rfl
      · simp only [ht, if_true]
        exact rfl

/-- An outcome after which the entry is settled, not requeued. -/
def Outcome.settles (b : Brief) (o : Outcome) : Prop :=
  ¬(o = .handoff ∨ (o = .saturated ∧ b.final = false))

/-- What the entry check leaves: a result for an entry to settle, or a stage to claim. -/
def Entered (b : Brief) : PageResult ⊕ PageState → Phase → Prop
  | .inl res, φ => res.outcome.settles b ∧ φ = settling
  | .inr s, φ => φ = claim (if s = pending then .layout else .vlm)

/-- The tail of the entry check, on the page it read last. -/
theorem entered_ends {seen : PageState} {stranger : Phase} {detail : String}
    {p : Py (PageResult ⊕ PageState)}
    (hrunning : seen.running = true → p.Follows (pageProtocol b) (Ends (Entered b)) stranger) :
    (if seen.terminal then
        pure (.inl { outcome := .alreadyTerminal, detail })
      else if seen.running then p else pure (.inr seen) :
      Py (PageResult ⊕ PageState)).Follows (pageProtocol b) (Ends (Entered b))
      (entered (some seen) stranger) := by
  cases ht : seen.terminal
  · cases hr : seen.running
    · simp only [entered, ht, hr, Bool.false_eq_true, if_false]
      exact rfl
    · simp only [entered, ht, hr, Bool.false_eq_true, if_false, if_true]
      exact hrunning hr
  · simp only [entered, ht, if_true]
    exact ⟨by simp [Outcome.settles], rfl⟩

theorem follows_enterPage (hrole : b.role = .handler) :
    (enterPage b.key b.task.recovered).Follows (pageProtocol b) (Ends (Entered b)) look := by
  refine Prog.Follows.bind (m := Ends fun page φ' => φ' =
    entered (page.map PageHash.state)
      (if b.task.recovered then releaseRead .reclaim else settling)) ?_ ?_ (fun _ _ h => h)
  · exact follows_getPage fun page => ⟨_, .look hrole _, rfl⟩
  rintro (_ | page) _ rfl
  · exact ⟨by simp [Outcome.settles], rfl⟩
  · apply entered_ends
    intro hrunning
    cases b.task.recovered
    · exact ⟨by simp [Outcome.settles], rfl⟩
    · refine Prog.Follows.bind (follows_releaseClaim .reclaim) ?_ (fun _ _ h => h)
      rintro _ _ rfl
      refine Prog.Follows.bind (m := Ends fun page φ' => φ' =
        entered (page.map PageHash.state) settling) ?_ ?_ (fun _ _ h => h)
      · exact follows_getPage fun page => ⟨_, .relook _, rfl⟩
      · rintro (_ | page) _ rfl
        · exact ⟨by simp [Outcome.settles], rfl⟩
        · apply entered_ends
          intro _
          exact ⟨by simp [Outcome.settles], rfl⟩

/-- An exception of a stage, with the phase in which the outer handlers find the page. -/
def Raised (ep : Endpoint) (e : Exn) (φ : Phase) : Prop :=
  (e.isException = false ∧ φ.telling = false) ∨
    (e.refusal.isSome = true ∧ φ = releaseRead (.refused ep)) ∨
    (e.refusal = none ∧ φ = failing (some ep))

/-- What a stage leaves: a result in a phase, or an exception for the outer handlers. -/
def StageEnds {α : Type} (ep : Endpoint) (post : α → Phase → Prop) :
    Except Exn α → Phase → Prop
  | .ok a, φ => post a φ
  | .error e, φ => Raised ep e φ

/-- A result and the phase in which `handlePage` goes on with the entry. -/
def Disposed (b : Brief) (res : PageResult) (φ : Phase) : Prop :=
  (res.outcome.settles b ∧ φ = settling) ∨ (¬res.outcome.settles b ∧ φ = requeueing)

theorem follows_layoutStage :
    (layoutStage true b.key b.handoff).Follows (pageProtocol b)
      (StageEnds .layout fun early φ' => match early with
        | some res => Disposed b res φ'
        | none => φ' = claim .vlm) (claim .layout) := by
  refine Prog.Follows.bind (follows_transition none (.claim .layout)) ?_ (fun _ _ h => .inl h)
  rintro res _ ⟨rfl, -⟩
  cases hok : res.ok
  · exact .inl ⟨by simp [Outcome.settles], rfl⟩
  simp only [Bool.not_true, Bool.false_eq_true, if_false, if_true]
  refine Prog.Follows.bind (m := fun r φ' => φ' = answered b .layout r) ?_ ?_ ?_
  · exact Prog.Follows.perform fun r _ => ⟨_, .call .layout r, rfl⟩
  · rintro layout _ rfl
    refine Prog.Follows.bind (follows_transition none (.commitLayout layout)) ?_
      (fun _ _ h => .inl h)
    rintro committed _ ⟨rfl, hcomplete⟩
    refine Prog.Follows.bind (follows_emitPartial rfl (hcomplete rfl)) ?_ (fun _ _ h => .inl h)
    rintro _ _ rfl
    cases hh : b.handoff
    · simp only [afterLayout, hh, Bool.false_eq_true, if_false]
      exact rfl
    · simp only [afterLayout, hh, if_true]
      exact .inr ⟨by simp [Outcome.settles], rfl⟩
  · rintro e _ rfl
    cases hr : e.refusal with
    | some x => exact .inr (.inl ⟨by simp [hr], by simp [answered, hr]⟩)
    | none =>
      cases he : e.isException
      · exact .inl ⟨he, by simp [answered, hr, he, telling]⟩
      · exact .inr (.inr ⟨hr, by simp [answered, hr, he]⟩)

theorem follows_callVlm :
    (callVlm true b.key b.final).Follows (pageProtocol b)
      (StageEnds .vlm fun r φ' => match r with
        | .inl res => Disposed b res φ'
        | .inr vlm => φ' = if vlm.isObj then commitDone else failing (some .vlm))
      (calling .vlm) := by
  refine Prog.Follows.tryCatch (m := fun r φ' => match r with
    | .ok (.inl _) => False
    | .ok (.inr vlm) => φ' = answered b .vlm (.ok vlm)
    | .error e => φ' = answered b .vlm (.error e)) ?_ ?_ ?_
  · refine Prog.Follows.bind (m := fun r φ' => φ' = answered b .vlm r) ?_
      (fun _ _ h => h) (fun _ _ h => h)
    exact Prog.Follows.perform fun r _ => ⟨_, .call .vlm r, rfl⟩
  · rintro (_ | vlm) φ' h
    · exact h.elim
    · exact h
  · rintro e _ rfl
    cases hcond : e.refusal.isSome && !b.final
    · simp only [answered, hcond, Bool.false_eq_true, if_false]
      refine Prog.Follows.bind (follows_degrade e) ?_ (fun _ _ h => .inl h)
      rintro res _ ⟨hres, rfl⟩
      exact .inl ⟨by simp [Outcome.settles, hres], rfl⟩
    · simp only [answered, hcond, if_true]
      exact .inr (.inl ⟨by simp_all, rfl⟩)

theorem follows_vlmStage (resumed : Bool) :
    (vlmStage true b.key b.final resumed).Follows (pageProtocol b)
      (StageEnds .vlm (Disposed b)) (claim .vlm) := by
  refine Prog.Follows.bind (follows_transition none (.claim .vlm)) ?_ (fun _ _ h => .inl h)
  rintro res _ ⟨rfl, -⟩
  cases hok : res.ok
  · exact .inl ⟨by simp [Outcome.settles], rfl⟩
  simp only [Bool.not_true, Bool.false_eq_true, if_false, if_true]
  refine Prog.Follows.bind follows_callVlm ?_ (fun _ _ h => h)
  rintro (res | vlm) φ' h
  · exact h
  · obtain rfl : φ' = _ := h
    cases vlm with
    | obj members =>
      simp only [getConfidence, Prog.pure_eq_ret, Prog.ret_bind, Json.isObj, if_true]
      refine Prog.Follows.mono (follows_finish (Disposed b) (.commitDone _ _)
        fun _ => .inl ⟨?_, rfl⟩) ?_
      · cases resumed <;> simp [Outcome.settles]
      · rintro (e | a) φ' h
        · exact .inl h
        · exact h
    | _ => exact .inr (.inr ⟨rfl, rfl⟩)

/-- The two outer handlers end every exception of a stage. -/
theorem follows_onStageError {ep : Endpoint} {e : Exn}
    (h : Raised ep e φ) :
    (onStageError true b.key b.final e).Follows (pageProtocol b) (Ends (Disposed b)) φ := by
  rcases h with ⟨he, hφ⟩ | ⟨hr, rfl⟩ | ⟨hr, rfl⟩
  · have hr : e.refusal = none := by
      cases hr : e.refusal with
      | none => rfl
      | some x => simp [Exn.isException_of_refusal hr] at he
    simp only [onStageError, hr, he, Bool.false_eq_true, if_false]
    exact ⟨he, hφ⟩
  · obtain ⟨⟨endpoint, retryAfterS⟩, hr⟩ := Option.isSome_iff_exists.mp hr
    simp only [onStageError, hr]
    refine Prog.Follows.bind (follows_releaseClaim (.refused ep)) ?_ (fun _ _ h => h)
    rintro _ _ rfl
    cases hf : b.final
    · simp only [released, hf, Bool.false_eq_true, if_false]
      exact .inr ⟨by simp [Outcome.settles, hf], rfl⟩
    · simp only [released, hf, if_true]
      refine Prog.Follows.bind (follows_failPage none _) ?_ (fun _ _ h => h)
      rintro _ _ rfl
      exact .inl ⟨by simp [Outcome.settles], rfl⟩
  · simp only [onStageError, hr]
    cases he : e.isException
    · exact ⟨he, rfl⟩
    · refine Prog.Follows.bind (follows_failPage (some ep) _) ?_ (fun _ _ h => h)
      rintro _ _ rfl
      exact .inl ⟨by simp [Outcome.settles], rfl⟩

theorem follows_runStages (state : PageState) :
    (runStages true b.key b.final b.handoff state).Follows (pageProtocol b)
      (fun r φ' => match r with
        | .ok res => Disposed b res φ'
        | .error e => ∃ ep, Raised ep e φ') (claim (if state = pending then .layout else .vlm)) := by
  have hvlm : ∀ resumed, (vlmStage true b.key b.final resumed).Follows (pageProtocol b)
      (fun r φ' => match r with
        | .ok res => Disposed b res φ'
        | .error e => ∃ ep, Raised ep e φ') (claim .vlm) := by
    intro resumed
    refine (follows_vlmStage resumed).mono ?_
    rintro (e | res) φ' h
    · exact ⟨.vlm, h⟩
    · exact h
  unfold runStages
  split
  · refine Prog.Follows.bind follows_layoutStage ?_ (fun e φ' h => ⟨.layout, h⟩)
    rintro (_ | res) φ' h
    · obtain rfl : φ' = _ := h
      exact hvlm _
    · exact h
  · exact hvlm _

theorem follows_processPage (hrole : b.role = .handler) :
    (processPage true b.key b.final b.handoff b.task.recovered).Follows (pageProtocol b)
      (Ends (Disposed b)) look := by
  refine Prog.Follows.bind (follows_enterPage hrole) ?_ (fun _ _ h => h)
  rintro (res | state) φ' h
  · exact .inl h
  · obtain rfl := h
    refine Prog.Follows.tryCatch (follows_runStages state) (fun _ _ h => h) ?_
    rintro e φ' ⟨ep, h⟩
    exact follows_onStageError h

theorem follows_ack {post : Except Exn Unit → Phase → Prop} (h : post (.ok ()) ended) :
    (ack b.task).Follows (pageProtocol b) post settling := by
  refine Prog.Follows.bind (m := fun r φ' => r = .ok () ∧ φ' = deleting) ?_ ?_ ?_
  · exact follows_store rfl fun _ _ => ⟨_, .settle, rfl, rfl⟩
  · rintro _ _ ⟨-, rfl⟩
    exact follows_store rfl fun _ _ => ⟨_, .delete, h⟩
  · rintro _ _ ⟨h, -⟩
    cases h

theorem follows_requeue (countAttempt : Bool) :
    (requeue b.task countAttempt).Follows (pageProtocol b) NothingOwed requeueing := by
  refine Prog.Follows.bind (m := fun _ φ' => φ' = requeueing) ?_ ?_ (by rintro _ _ rfl; rfl)
  · exact Prog.Follows.perform fun r _ => ⟨_, by cases r <;> exact .quiet rfl, rfl⟩
  · rintro now _ rfl
    refine Prog.Follows.bind (m := fun _ φ' => φ' = settling) ?_ ?_ (by rintro _ _ rfl; rfl)
    · exact follows_store rfl fun _ _ => ⟨_, .requeue countAttempt now, rfl⟩
    · rintro _ _ rfl
      exact follows_ack rfl

/-- Nothing after the settlement touches the page or its entry. -/
theorem follows_maybeDeleteDocument (job : JobId) :
    (maybeDeleteDocument job).Follows (pageProtocol b) NothingOwed ended := by
  refine Prog.Follows.bind (m := fun _ φ' => φ' = ended) ?_ ?_ (by rintro _ _ rfl; rfl)
  · exact follows_store rfl fun _ _ => ⟨_, .quiet rfl, rfl⟩
  · rintro ⟨done, total⟩ _ rfl
    simp only
    split
    · exact Prog.Follows.perform fun r _ => ⟨_, .quiet rfl, rfl⟩
    · exact rfl

/-- **The handler follows the protocol** from its first look at the page. -/
theorem follows_handlePage (cfg : Settings) (hrole : b.role = .handler)
    (hhandoff : b.handoff = cfg.stageHandoff) :
    (handlePage cfg b.task b.final).Follows (pageProtocol b) NothingOwed look := by
  refine Prog.Follows.bind (m := fun _ φ' => φ' = look) ?_ ?_ (by rintro _ _ rfl; rfl)
  · exact Prog.Follows.perform fun r _ => ⟨_, .quiet rfl, rfl⟩
  rintro _ _ rfl
  refine Prog.Follows.bind (m := Ends fun r φ' => match r with
    | some res => Disposed b res φ'
    | none => False) ?_ ?_ (fun _ _ h => h.2)
  · refine Prog.Follows.tryCatch (m := Ends fun r φ' => match r with
      | some res => Disposed b res φ'
      | none => False) ?_ (fun _ _ h => h) ?_
    · rw [← hhandoff]
      exact Prog.Follows.bind (follows_processPage hrole) (fun _ _ h => h) (fun _ _ h => h)
    · rintro e φ' ⟨he, hφ'⟩
      simp only [he, Bool.false_eq_true, if_false]
      exact ⟨he, hφ'⟩
  · rintro (_ | res) φ' h
    · exact h.elim
    · simp only
      rcases h with ⟨hs, rfl⟩ | ⟨hs, rfl⟩
      · rw [if_neg (fun h => hs (.inl h)),
          if_neg (fun h => hs (.inr ⟨h.1, by simpa using h.2⟩))]
        refine Prog.Follows.bind (m := fun _ φ' => φ' = ended) (follows_ack rfl) ?_
          (by rintro _ _ rfl; rfl)
        rintro _ _ rfl
        exact follows_maybeDeleteDocument _
      · rcases not_not.mp hs with h | ⟨h, hf⟩
        · rw [if_pos h]
          exact follows_requeue false
        · rw [if_neg (by simp [h]), if_pos ⟨h, by simp [hf]⟩]
          exact follows_requeue true

/-- **A reaper's recovery follows the protocol** from its first look at the page. -/
theorem follows_recover (cfg : Settings) (hrole : b.role = .reaper) :
    (recover cfg b.task).Follows (pageProtocol b) NothingOwed look := by
  refine Prog.Follows.bind (m := Ends fun page φ' => φ' =
    if (page.map PageHash.state).any (fun s => !s.terminal) then weighing else settling) ?_ ?_
    (fun _ _ h => h.2)
  · exact follows_getPage fun page => ⟨_, .lookOrphan hrole _, rfl⟩
  rintro (_ | page) _ rfl
  · exact follows_ack rfl
  · cases ht : page.state.terminal
    · simp only [Option.map_some, Option.any_some, ht, Bool.not_false, if_true,
        Bool.false_eq_true, if_false]
      -- The clock is read in the phase `weighing`, and what it says decides the way out.
      intro r hr
      cases r with
      | error e => exact ⟨_, .quiet rfl, rfl⟩
      | ok now =>
        cases hx : exhausted cfg b.task now
        · refine ⟨_, .weighRelease, ?_⟩
          change Prog.Follows _ _ (if exhausted cfg b.task now then _ else _) _
          simp only [hx, Bool.false_eq_true, if_false]
          refine Prog.Follows.bind (follows_releaseClaim .reap) ?_ (fun _ _ h => h.2)
          rintro _ _ rfl
          exact follows_requeue true
        · refine ⟨_, .weighForce, ?_⟩
          change Prog.Follows _ _ (if exhausted cfg b.task now then _ else _) _
          simp only [hx, if_true]
          refine Prog.Follows.bind (follows_forceTerminal _) ?_ (fun _ _ h => h.2)
          rintro _ _ rfl
          exact follows_ack rfl
    · simp only [Option.map_some, Option.any_some, ht, Bool.not_true, Bool.false_eq_true,
        if_false, if_true]
      exact follows_ack rfl

end Pieces

end OcrOrchestrator
