import OcrOrchestrator.Queue.Accounting
import OcrOrchestrator.Worker.Events

/-!
# The end of a job

The commit that makes the last page terminal is told so by the script, and its worker
publishes `job.complete` after its own final event.  The final events of other pages are
published by other workers, at their own pace: nothing makes the completing worker wait for
them.  If it happens to be the last one, `job.complete` is the last event, and every page
has been announced before it.

## Main definitions

* `Fleet.CompleteLast` — `job.complete` comes after a final event of every page.
* `completesLast` — the condition: whoever completes a job is the last one with news of it.
* `completeLast_of_completesLast` — the result.
-/

namespace OcrOrchestrator

open Lib PageState Phase

/-- `job.complete` comes after every final event of the job, and every page of the job has
one. -/
structure Fleet.CompleteLast (f : Fleet) : Prop where
  last : ∀ job, ∀ c ∈ (f.redis.results job).log, c.body.event = .jobComplete →
    ∀ e ∈ (f.redis.results job).log, e.body.event = .pageFinal →
      e.seq < c.seq ∧ e.id.before c.id = true
  told : ∀ job, ∀ c ∈ (f.redis.results job).log, c.body.event = .jobComplete →
    ∀ i : ℤ, (f.redis.pages ⟨job, i⟩).isSome = true →
      ∃ e ∈ (f.redis.results job).log, e.body.isFor .pageFinal i = true

/-! ## The condition on runs -/

/-- `job.complete` is published only while no other live worker owes a final event of the
job. -/
def completesLast (f : Fleet) : Label → Bool
  | .run t _ =>
    match (f.parties t).bind Party.awaited with
    | some (.publish job body) =>
      decide (body.event ≠ .jobComplete) || !f.anyOther t fun q =>
        decide (q.key.job = job) && q.owesFinal
    | _ => true
  | _ => true

/-- No worker crashes between a terminal transition and its final event. -/
def finalsSurvive (f : Fleet) : Label → Bool
  | .crash c => !f.anyParty fun q => decide (q.consumer = c) && q.owesFinal
  | _ => true

/-! ## Moves towards the last event -/

namespace Move
variable {b : Brief} {φ φ' : Phase} {a : Act}

/-- A page that was made terminal is announced next. -/
theorem made_terminal {key : PageKey} {target : PageState} {allowed : List PageState}
    {extra : List (PageField × Json)} {completed : Bool}
    (h : Move b φ (.request key target allowed extra true completed) φ')
    (ht : target.terminal = true) : φ' = Phase.tellFinal completed := by
  cases h with
  | request hreq =>
    cases hreq with
    | @release site seen target hr =>
      cases seen <;> simp [reclaimTarget] at hr <;> subst hr <;> cases ht
    | claim ep => cases ep <;> cases ht
    | commitLayout => cases ht
    | _ => rfl

/-- A final event that is due is published next, or something unrelated happens. -/
theorem of_tellFinal {completed : Bool} (h : Move b (Phase.tellFinal completed) a φ') :
    (φ' = Phase.tellFinal completed ∧ a = .quiet) ∨
      ∃ body ok, body.isFor .pageFinal b.key.index = true ∧ a = .publish b.key.job body ok := by
  cases h with
  | quiet => exact .inl ⟨rfl, rfl⟩
  | tellFinal _ body hkind hpage ok =>
    exact .inr ⟨body, ok, EventBody.isFor_iff.mpr ⟨hkind, hpage⟩, rfl⟩
  | request hreq => cases hreq

/-- The last event becomes due after the final event of a completing worker. -/
theorem to_tellComplete (h : Move b φ a Phase.tellComplete) :
    (φ = Phase.tellComplete ∧ a = .quiet) ∨
      (φ = Phase.tellFinal true ∧ ∃ body ok, a = .publish b.key.job body ok) := by
  rcases h.telling rfl with
    hstay | ⟨target, allowed, extra, next, ok, completed, hreq, rfl, hnext⟩ | ⟨hφ, -, hpublish⟩
  · exact .inl hstay
  · have htell : true = (next ok completed).telling := congrArg Phase.telling hnext
    cases hreq with
    | release => simp at htell
    | commitLayout layout =>
      cases ok
      · simp at htell
      · cases hnext
    | _ => cases ok <;> cases hnext
  · exact .inr ⟨hφ, hpublish⟩

/-- The last event is published when it is due, and nothing else is due then. -/
theorem publish_complete {job : JobId} {body : EventBody} {ok : Bool}
    (h : Move b φ (.publish job body ok) φ') (hkind : body.event = .jobComplete) :
    φ = Phase.tellComplete ∧ job = b.key.job ∧ φ' = settling := by
  cases h with
  | tellComplete => exact ⟨rfl, rfl, rfl⟩
  | tellFinal _ _ hfinal =>
    rw [hfinal] at hkind
    cases hkind
  | tellPartial _ hparts =>
    rw [hparts] at hkind
    cases hkind

end Move

/-- Who is about to publish a final event has made its page terminal. -/
theorem Remembers.owesFinal_of_owing {p : Party} {φ : Phase} (h : Remembers p φ)
    (howing : finalNotice.owing φ = true) : p.owesFinal = true := by
  cases φ with
  | tellFinal completed => exact h.owesFinal completed rfl
  | _ => cases howing

/-- A worker's job exists. -/
theorem Books.partyJob {f : Fleet} (h : Books f) {t : ℕ} {p : Party} (hp : f.parties t = some p) :
    (f.redis.jobs p.key.job).isSome = true := by
  have hqueued := h.queued p.key (h.partyPage t p hp)
  rw [Redis.isSome_state?] at hqueued
  exact h.pageJob p.key hqueued

/-! ## The invariant -/

/-- Every page the job has is terminal. -/
def Redis.AllDone (s : Redis) (job : JobId) : Prop :=
  ∀ (i : ℤ) (st : PageState), s.state? ⟨job, i⟩ = some st → st.terminal = true

/-- The job's last event is out. -/
def Redis.Closed (s : Redis) (job : JobId) : Prop :=
  ∃ c ∈ (s.results job).log, c.body.event = .jobComplete

/-- The final event of the page is out, or somebody alive is about to publish it. -/
def Told (f : Fleet) (φ : ℕ → Phase) (key : PageKey) : Prop :=
  f.redis.announced .pageFinal key ≠ 0 ∨
    ∃ t p, f.parties t = some p ∧ p.key = key ∧ finalNotice.owing (φ t) = true

/-- What leads to, and follows from, the last event of a job. -/
structure Closing (f : Fleet) (φ : ℕ → Phase) : Prop where
  ordered : ∀ job, (f.redis.results job).Ordered
  accounted : ∀ key, (f.redis.pages key).isSome = true → ∃ n, Accounted f.redis key.job n
  told : ∀ key, f.Terminal key → Told f φ key
  closing : ∀ t p, f.parties t = some p → φ t = tellFinal true ∨ φ t = tellComplete →
    f.redis.AllDone p.key.job
  closed : ∀ job, f.redis.Closed job → (f.redis.jobs job).isSome = true ∧ f.redis.AllDone job ∧
    ∀ t p, f.parties t = some p → p.key.job = job → finalNotice.owing (φ t) = false
  last : ∀ job, (f.redis.results job).log.Pairwise fun a b =>
    ¬(a.body.event = .jobComplete ∧ b.body.event = .pageFinal)

namespace Closing
variable {cfg : Settings} {f f' : Fleet} {φ φ' : ℕ → Phase} {l : Label}

theorem empty (φ : ℕ → Phase) : Closing Fleet.empty φ where
  ordered := fun _ => ResultStream.ordered_empty
  accounted := by simp [Fleet.empty, Redis.empty]
  told := by simp [Fleet.empty, Redis.empty, Fleet.Terminal, Redis.state?]
  closing := by simp [Fleet.empty]
  closed := by simp [Fleet.empty, Redis.empty, Redis.Closed, ResultStream.empty]
  last := fun _ => List.Pairwise.nil

/-- What the invariant says about the streams. -/
theorem completeLast (h : Closing f φ) : f.CompleteLast := by
  constructor
  · intro job c hc hcomplete e he hfinal
    refine List.Pairwise.forall_of_forall_of_flip (R := fun a b : ResultEntry =>
      a.body.event = .pageFinal → b.body.event = .jobComplete →
        a.seq < b.seq ∧ a.id.before b.id = true) ?_ ?_ ?_ he hc hfinal hcomplete
    · intro x _ hx hx'
      rw [hx] at hx'
      cases hx'
    · exact (h.ordered job).pairwise.imp fun hab _ _ => hab
    · exact (h.last job).imp fun hab hb ha => absurd ⟨ha, hb⟩ hab
  · intro job c hc hcomplete i hpage
    obtain ⟨-, hall, hnone⟩ := h.closed job ⟨c, hc, hcomplete⟩
    obtain ⟨st, hst⟩ := Option.isSome_iff_exists.mp ((Redis.isSome_state? _ _).trans hpage)
    rcases h.told ⟨job, i⟩ ⟨st, hst, hall i st hst⟩ with hout | ⟨t, p, hp, hkey, howing⟩
    · obtain ⟨e, he, hfor⟩ := List.countP_pos_iff.mp (Nat.pos_of_ne_zero hout)
      exact ⟨e, he, hfor⟩
    · rw [hnone t p hp (by rw [hkey])] at howing
      cases howing

/-- A tick that publishes nothing, requests nothing and ends nobody who owes a final event. -/
theorem frame (h : Closing f φ) (hresults : f'.redis.results = f.redis.results)
    (hjobs : ∀ job, (f.redis.jobs job).isSome = true → (f'.redis.jobs job).isSome = true)
    (haccounted : ∀ key, (f'.redis.pages key).isSome = true → ∃ n, Accounted f'.redis key.job n)
    (hstate : ∀ key : PageKey, (f.redis.jobs key.job).isSome = true →
      f'.redis.state? key = f.redis.state? key)
    (hterminal : ∀ key, f'.Terminal key → f.Terminal key)
    (hparties : ∀ t p, f'.parties t = some p → finalNotice.owing (φ' t) = true ∨
      φ' t = tellComplete → f.parties t = some p ∧ φ' t = φ t)
    (hpage : ∀ t p, f.parties t = some p → (f.redis.jobs p.key.job).isSome = true)
    (hsurvive : ∀ t p, f.parties t = some p → finalNotice.owing (φ t) = true →
      f'.parties t = some p ∧ φ' t = φ t) : Closing f' φ' := by
  have halldone : ∀ job, (f.redis.jobs job).isSome = true → f.redis.AllDone job →
      f'.redis.AllDone job := by
    intro job hjob hall i st hst
    rw [hstate ⟨job, i⟩ hjob] at hst
    exact hall i st hst
  constructor
  · rw [hresults]
    exact h.ordered
  · exact haccounted
  · intro key hterm
    rcases h.told key (hterminal key hterm) with hout | ⟨t, p, hp, hkey, howing⟩
    · left
      rwa [Redis.announced, hresults]
    · obtain ⟨hp', hφ⟩ := hsurvive t p hp howing
      exact .inr ⟨t, p, hp', hkey, by rw [hφ]; exact howing⟩
  · intro t p hp hφ
    obtain ⟨hp', hsame⟩ := hparties t p hp (by
      rcases hφ with hφ | hφ
      · rw [hφ]
        exact .inl rfl
      · exact .inr hφ)
    rw [hsame] at hφ
    exact halldone _ (hpage t p hp') (h.closing t p hp' hφ)
  · intro job hclosed
    rw [Redis.Closed, hresults] at hclosed
    obtain ⟨hjob, hall, hnone⟩ := h.closed job hclosed
    refine ⟨hjobs job hjob, halldone job hjob hall, fun t p hp hkey => ?_⟩
    cases howing : finalNotice.owing (φ' t)
    · rfl
    · obtain ⟨hp', hsame⟩ := hparties t p hp (.inl howing)
      rw [hsame, hnone t p hp' hkey] at howing
      cases howing
  · rw [hresults]
    exact h.last

/-- Counters depend on the hashes only. -/
theorem accounted_of_eq (h : Closing f φ) {s' : Redis} (hpages : s'.pages = f.redis.pages)
    (hjobs : s'.jobs = f.redis.jobs) (key : PageKey) (hkey : (s'.pages key).isSome = true) :
    ∃ n, Accounted s' key.job n := by
  rw [hpages] at hkey
  obtain ⟨n, hn⟩ := h.accounted key hkey
  refine ⟨n, hn.congr (by rw [hjobs]) fun i => ?_⟩
  rw [Redis.state?, hpages, Redis.state?]

end Closing

/-! ## One act -/

/-- Nothing is requested successfully of a job that is done. -/
theorem Redis.AllDone.not_applied {s s' : Redis} {b : Brief} {φ φ' : Phase} {target : PageState}
    {allowed : List PageState} {extra : List (PageField × Json)} {completed : Bool}
    (h : s.AllDone b.key.job)
    (hmove : Move b φ (.request b.key target allowed extra true completed) φ')
    (heffect : Effect s s' (.request b.key target allowed extra true completed)) : False := by
  obtain ⟨-, ⟨st, hst, hs⟩, -⟩ := heffect.2.2.resolve_right (by simp)
  obtain ⟨next, hreq⟩ := hmove.requests
  have hopen := terminal_eq_false_of_mem_predecessors (hreq.allowed_subset hst)
  rw [h b.key.index st hs] at hopen
  cases hopen

/-- A job that is done stays done. -/
theorem Redis.AllDone.act {s s' : Redis} {b : Brief} {φ φ' : Phase} {a : Act} {job : JobId}
    (h : s.AllDone job) (hmove : Move b φ a φ') (heffect : Effect s s' a) : s'.AllDone job := by
  intro i st hst
  rcases heffect.states with hsame | ⟨key, target, allowed, extra, completed, _, rfl, -, -, hup⟩
  · rw [hsame] at hst
    exact h i st hst
  · obtain rfl := hmove.request_key
    by_cases hk : (⟨job, i⟩ : PageKey) = b.key
    · have hjob : b.key.job = job := by rw [← hk]
      exact absurd heffect fun he => Redis.AllDone.not_applied (hjob ▸ h) hmove he
    · rw [hup, Function.update_of_ne hk] at hst
      exact h i st hst

section Act
variable {cfg : Settings} {f : Fleet} {φ : ℕ → Phase} {t : ℕ} {o : Oracle} {p : Party} {c : Cmd}
  {k : Except Exn (Ret c) → Py Unit} {φ₁ : Phase}

/-- The commands of a party keep the counters. -/
theorem Closing.act_accounted (h : Closing f φ) (hparty : f.parties t = some p)
    (hprog : p.prog = .call c k) (hstore : storeCallsSucceed f (.run t o) = true)
    (hmove : Move (p.brief cfg) (φ t) (Act.of c (c.exec cfg o f.redis).1) φ₁) (key : PageKey)
    (hkey : ((c.exec cfg o f.redis).2.pages key).isSome = true) :
    ∃ n, Accounted (c.exec cfg o f.redis).2 key.job n := by
  have hbefore : (f.redis.pages key).isSome = true := by
    cases hp : f.redis.pages key with
    | none =>
      rw [Cmd.pages_exec_none hp] at hkey
      cases hkey
    | some page => rfl
  obtain ⟨n, hn⟩ := h.accounted key hbefore
  refine ⟨n, hn.exec cfg o c ?_⟩
  rintro key' target allowed extra rfl st hst
  have hok : o.fault = none := by
    simpa [storeCallsSucceed, hparty, Party.awaited, hprog, Cmd.isStoreOrQueue] using hstore
  rw [Cmd.exec_of_fault_none hok] at hmove
  obtain ⟨next, hreq⟩ := Move.requests hmove
  exact hreq.allowed_subset hst

/-- Whoever is told that it completed the job has completed it. -/
theorem Closing.act_completed (h : Closing f φ) (hbooks : Books f) (hparty : f.parties t = some p)
    {target : PageState} {allowed : List PageState} {extra : List (PageField × Json)}
    (ha : Act.of c (c.exec cfg o f.redis).1 = .request p.key target allowed extra true true)
    (hmove : Move (p.brief cfg) (φ t) (Act.of c (c.exec cfg o f.redis).1) φ₁) :
    (c.exec cfg o f.redis).2.AllDone p.key.job := by
  obtain rfl := Act.of_request ha
  have hpage := hbooks.queued p.key (hbooks.partyPage t p hparty)
  rw [Redis.isSome_state?] at hpage
  obtain ⟨n, hn⟩ := h.accounted p.key hpage
  rw [ha] at hmove
  obtain ⟨next, hreq⟩ := hmove.requests
  obtain ⟨haccounted, hreport⟩ := hn.evalTransition cfg o p.key extra fun st hst =>
    hreq.allowed_subset hst
  have hok : o.fault = none := by
    cases hf : o.fault with
    | none => rfl
    | some fault => simp [Cmd.exec, hf, Act.of] at ha
  rw [Cmd.exec_of_fault_none hok] at ha ⊢
  simp only [Act.of, Reply.completed, Act.request.injEq, Bool.and_eq_true, decide_eq_true_eq,
    true_and] at ha
  have hall := (hreport.mp ⟨rfl, ha.1, ha.2.1.2, ha.2.2⟩).2
  intro i st hst
  exact haccounted.terminal_of_allTerminal hall hst

/-- A page that is told of stays so: its event is published by whoever owes it. -/
theorem Told.act {key : PageKey} (h : Told f φ key) (hparty : f.parties t = some p)
    (hprog : p.prog = .call c k) (hpublishes : publishesSucceed f (.run t o) = true)
    (hmove : Move (p.brief cfg) (φ t) (Act.of c (c.exec cfg o f.redis).1) φ₁)
    (heffect : Effect f.redis (c.exec cfg o f.redis).2 (Act.of c (c.exec cfg o f.redis).1))
    (hgoes : φ₁.telling = true → ∃ c' k', k (c.exec cfg o f.redis).1 = .call c' k') :
    Told (f.resume t p ⟨c, (c.exec cfg o f.redis).1⟩ (k (c.exec cfg o f.redis).1)
      (c.exec cfg o f.redis).2) (Function.update φ t φ₁) key := by
  rcases h with hout | ⟨t', q, hq, rfl, howing⟩
  · left
    rcases heffect.announced .pageFinal key with hsame | ⟨-, -, -, -, -, hmore⟩
    · exact fun hzero => hout (hsame.symm.trans hzero)
    · exact fun hzero => by
        have hzero : (c.exec cfg o f.redis).2.announced .pageFinal key = 0 := hzero
        omega
  · by_cases htt : t' = t
    · subst htt
      obtain rfl := Option.some.inj (hparty.symm.trans hq)
      obtain ⟨completed, hφ⟩ : ∃ completed, φ t' = tellFinal completed := by
        revert howing
        cases φ t' <;> simp [finalNotice]
      rw [hφ] at hmove
      rcases hmove.of_tellFinal with ⟨rfl, -⟩ | ⟨body, ok, hfor, ha⟩
      · obtain ⟨c', k', hcall⟩ := hgoes rfl
        exact .inr ⟨t', _, resume_parties_call hcall, rfl, by simp [finalNotice]⟩
      · -- No publish fails, so the event is in the log now.
        left
        obtain rfl := Act.of_publish ha
        have hok : o.fault = none := by
          simpa [publishesSucceed, hparty, Party.awaited, hprog] using hpublishes
        have hfor : body.isFor .pageFinal p.key.index = true := hfor
        have hjob : (p.brief cfg).key.job = p.key.job := rfl
        simp only [Fleet.resume, Cmd.exec_of_fault_none hok, Cmd.apply, Redis.announced, hjob,
          Function.update_self, ResultStream.publishScript_log, List.countP_append,
          List.countP_singleton, hfor, if_true]
        omega
    · refine .inr ⟨t', q, (resume_parties_ne htt).trans hq, rfl, ?_⟩
      rw [Function.update_of_ne htt]
      exact howing

/-- Who makes a page terminal owes its event. -/
theorem Told.of_request {target : PageState} {allowed : List PageState}
    {extra : List (PageField × Json)} {completed : Bool}
    (ha : Act.of c (c.exec cfg o f.redis).1 = .request p.key target allowed extra true completed)
    (hterm : target.terminal = true)
    (hmove : Move (p.brief cfg) (φ t) (Act.of c (c.exec cfg o f.redis).1) φ₁)
    (hgoes : φ₁.telling = true → ∃ c' k', k (c.exec cfg o f.redis).1 = .call c' k') :
    Told (f.resume t p ⟨c, (c.exec cfg o f.redis).1⟩ (k (c.exec cfg o f.redis).1)
      (c.exec cfg o f.redis).2) (Function.update φ t φ₁) p.key := by
  rw [ha] at hmove
  obtain rfl := hmove.made_terminal hterm
  obtain ⟨c', k', hcall⟩ := hgoes rfl
  exact .inr ⟨t, _, resume_parties_call hcall, rfl, by simp [finalNotice]⟩

/-- A job whose last event is out has nothing due any more, and nothing becomes due. -/
theorem Closing.act_closed (h : Closing f φ) (hphased : Phased cfg f φ) (hrem : Remembered f φ)
    (hbooks : Books f) (hlast : completesLast f (.run t o) = true)
    (hparty : f.parties t = some p) (hprog : p.prog = .call c k)
    (hmove : Move (p.brief cfg) (φ t) (Act.of c (c.exec cfg o f.redis).1) φ₁)
    (heffect : Effect f.redis (c.exec cfg o f.redis).2 (Act.of c (c.exec cfg o f.redis).1))
    {job : JobId} (hclosed : (c.exec cfg o f.redis).2.Closed job) :
    ((c.exec cfg o f.redis).2.jobs job).isSome = true ∧ (c.exec cfg o f.redis).2.AllDone job ∧
      ∀ t' q, (f.resume t p ⟨c, (c.exec cfg o f.redis).1⟩ (k (c.exec cfg o f.redis).1)
        (c.exec cfg o f.redis).2).parties t' = some q → q.key.job = job →
        finalNotice.owing (Function.update φ t φ₁ t') = false := by
  -- On a job that is done nothing new becomes due.
  have hdone : f.redis.AllDone p.key.job → finalNotice.owing φ₁ = true →
      finalNotice.owing (φ t) = true := by
    intro hall howing
    rcases finalNotice.enters hmove howing with ⟨howed, -⟩ | ⟨target, allowed, extra, done, ha, -⟩
    · exact howed
    · rw [ha] at hmove heffect
      exact (Redis.AllDone.not_applied hall hmove heffect).elim
  by_cases hbefore : f.redis.Closed job
  · obtain ⟨hjob, hall, hnone⟩ := h.closed job hbefore
    refine ⟨Cmd.jobs_isSome_exec hjob, hall.act hmove heffect, fun t' q hq hkey => ?_⟩
    by_cases htt : t' = t
    · subst htt
      obtain rfl := resume_parties_self hq
      have hkey : p.key.job = job := hkey
      rw [Function.update_self]
      cases howing : finalNotice.owing φ₁
      · rfl
      · rw [← hnone t' p hparty hkey, hdone (hkey ▸ hall) howing]
    · rw [resume_parties_ne htt] at hq
      rw [Function.update_of_ne htt]
      exact hnone t' q hq hkey
  · -- This act published the last event.
    obtain ⟨x, hx, hcomplete⟩ := hclosed
    have hx : x ∈ ((c.exec cfg o f.redis).2.results job).log := hx
    rcases heffect.log job with hsame | ⟨body, ok, e, ha, hbody, hlog⟩
    · rw [hsame] at hx
      exact absurd ⟨x, hx, hcomplete⟩ hbefore
    · rw [hlog, List.mem_append, List.mem_singleton] at hx
      have hkind : body.event = .jobComplete := by
        rcases hx with hx | rfl
        · exact absurd ⟨x, hx, hcomplete⟩ hbefore
        · rwa [← hbody]
      have hpublish := ha ▸ hmove
      obtain ⟨hφ, hjob, hsettling⟩ := hpublish.publish_complete hkind
      obtain rfl : job = p.key.job := hjob
      refine ⟨Cmd.jobs_isSome_exec (hbooks.partyJob hparty),
        (h.closing t p hparty (.inr hφ)).act hmove heffect, fun t' q hq hkey => ?_⟩
      by_cases htt : t' = t
      · subst htt
        rw [Function.update_self, hsettling]
        rfl
      · rw [resume_parties_ne htt] at hq
        rw [Function.update_of_ne htt]
        cases howing : finalNotice.owing (φ t')
        · rfl
        · -- Somebody else owes a final event of the job: excluded.
          obtain rfl := Act.of_publish ha
          have hother : f.anyOther t (fun q' => decide (q'.key.job = p.key.job) &&
              q'.owesFinal) = true :=
            Fleet.anyOther_eq_true.mpr ⟨t', q, (hphased t' q hq).1, htt, hq,
              by simp [hkey, (hrem t' q hq).owesFinal_of_owing howing]⟩
          simp [completesLast, hparty, Party.awaited, hprog, hkind, hother] at hlast

end Act

/-- **One act** on the way to the last event. -/
theorem Closing.act {cfg : Settings} {f : Fleet} {φ : ℕ → Phase} {t : ℕ} {o : Oracle} {p : Party}
    {c : Cmd} {k : Except Exn (Ret c) → Py Unit} {φ₁ : Phase} (h : Closing f φ)
    (hphased : Phased cfg f φ) (hrem : Remembered f φ) (hbooks : Books f)
    (hstore : storeCallsSucceed f (.run t o) = true)
    (hpublishes : publishesSucceed f (.run t o) = true)
    (hlast : completesLast f (.run t o) = true) (hparty : f.parties t = some p)
    (hprog : p.prog = .call c k)
    (hmove : Move (p.brief cfg) (φ t) (Act.of c (c.exec cfg o f.redis).1) φ₁)
    (heffect : Effect f.redis (c.exec cfg o f.redis).2 (Act.of c (c.exec cfg o f.redis).1))
    (hgoes : φ₁.telling = true → ∃ c' k', k (c.exec cfg o f.redis).1 = .call c' k') :
    Closing (f.resume t p ⟨c, (c.exec cfg o f.redis).1⟩ (k (c.exec cfg o f.redis).1)
      (c.exec cfg o f.redis).2) (Function.update φ t φ₁) := by
  constructor
  · intro job
    rcases heffect.results with hsame | ⟨job', body, ok, maxlen, now, trim, -, hup⟩
    · simp only [Fleet.resume, hsame]
      exact h.ordered job
    · simp only [Fleet.resume, hup]
      by_cases hj : job = job'
      · subst hj
        rw [Function.update_self]
        exact (h.ordered job).publish maxlen now trim body
      · rw [Function.update_of_ne hj]
        exact h.ordered job
  · exact h.act_accounted hparty hprog hstore hmove
  · rintro key ⟨st, hst, hterm⟩
    have hst : (c.exec cfg o f.redis).2.state? key = some st := hst
    rcases heffect.states with hsame | ⟨key', target, allowed, extra, completed, -, ha, -, -, hup⟩
    · rw [hsame] at hst
      exact (h.told key ⟨st, hst, hterm⟩).act hparty hprog hpublishes hmove heffect hgoes
    · by_cases hk : key = key'
      · subst hk
        rw [hup, Function.update_self] at hst
        obtain rfl := Option.some.inj hst
        obtain rfl : key = p.key := by
          rw [ha] at hmove
          exact hmove.request_key
        exact Told.of_request ha hterm hmove hgoes
      · rw [hup, Function.update_of_ne hk] at hst
        exact (h.told key ⟨st, hst, hterm⟩).act hparty hprog hpublishes hmove heffect hgoes
  · intro t' q hq hφ
    by_cases htt : t' = t
    · subst htt
      obtain rfl := resume_parties_self hq
      rw [Function.update_self] at hφ
      rcases hφ with rfl | rfl
      · rcases hmove.to_tellFinal with ⟨hφ, -⟩ | ⟨target, allowed, extra, -, ha⟩
        · exact (h.closing t' p hparty (.inl hφ)).act hmove heffect
        · have hall : (c.exec cfg o f.redis).2.AllDone p.key.job :=
            h.act_completed hbooks hparty ha hmove
          exact hall
      · rcases hmove.to_tellComplete with ⟨hφ, -⟩ | ⟨hφ, -⟩
        · exact (h.closing t' p hparty (.inr hφ)).act hmove heffect
        · exact (h.closing t' p hparty (.inl hφ)).act hmove heffect
    · rw [resume_parties_ne htt] at hq
      rw [Function.update_of_ne htt] at hφ
      exact (h.closing t' q hq hφ).act hmove heffect
  · exact fun job => h.act_closed hphased hrem hbooks hlast hparty hprog hmove heffect
  · intro job
    rcases heffect.log job with hsame | ⟨body, ok, e, ha, hbody, hlog⟩
    · simp only [Fleet.resume, hsame]
      exact h.last job
    · simp only [Fleet.resume, hlog, List.pairwise_append]
      refine ⟨h.last job, List.pairwise_singleton _ _, ?_⟩
      rintro a halog x hx ⟨hcomplete, hfinal⟩
      rw [List.mem_singleton.mp hx, hbody] at hfinal
      rw [ha] at hmove
      obtain ⟨howing, hjob, -⟩ := finalNotice.publishes hmove hfinal
      have hnone := (h.closed job ⟨a, halog, hcomplete⟩).2.2 t p hparty hjob.symm
      rw [hnone] at howing
      cases howing

/-- **One tick** on the way to the last event. -/
theorem Closing.tick {cfg : Settings} {f f' : Fleet} {φ φ' : ℕ → Phase} {l : Label}
    (h : Closing f φ) (hphased : Phased cfg f φ) (hrem : Remembered f φ) (hbooks : Books f)
    (hstore : storeCallsSucceed f l = true) (hpublishes : publishesSucceed f l = true)
    (hsurvive : finalsSurvive f l = true) (hlast : completesLast f l = true)
    (htick : Tick cfg f φ l f' φ') : Closing f' φ' := by
  have hpage : ∀ t p, f.parties t = some p → (f.redis.jobs p.key.job).isSome = true :=
    fun t p hp => hbooks.partyJob hp
  cases htick with
  | submit job totalPages now hnew =>
    have hstate : ∀ key : PageKey, (f.redis.jobs key.job).isSome = true →
        (initJob cfg now job totalPages f.redis).state? key = f.redis.state? key := by
      intro key hkey
      have hne : key.job ≠ job := by
        rintro rfl
        simp [hnew] at hkey
      simp [Redis.state?, initJob, hne]
    refine h.frame rfl ?_ ?_ hstate ?_ (fun t p hp _ => ⟨hp, rfl⟩) hpage
      (fun t p hp _ => ⟨hp, rfl⟩)
    · intro job' hjob'
      by_cases hj : job' = job
      · simp [initJob, hj]
      · simpa [initJob, hj] using hjob'
    · intro key hkey
      by_cases hj : key.job = job
      · refine ⟨totalPages, ?_⟩
        rw [hj]
        refine Accounted.initJob cfg now totalPages fun i => ?_
        simpa [hnew] using hbooks.pageJob ⟨job, i⟩
      · simp only [initJob, hj, false_and, if_false] at hkey
        obtain ⟨n, hn⟩ := h.accounted key hkey
        exact ⟨n, hn.congr (by simp [initJob, hj]) fun i =>
          hstate ⟨key.job, i⟩ (hbooks.pageJob key hkey)⟩
    · rintro key ⟨st, hst, hterm⟩
      simp only [Redis.state?, initJob] at hst
      split at hst
      · -- A fresh page is pending.
        obtain rfl := Option.some.inj hst
        cases hterm
      · exact ⟨st, hst, hterm⟩
  | enqueue key now traceId hnew =>
    exact h.frame rfl (fun _ h => h) (h.accounted_of_eq rfl rfl) (fun _ _ => rfl) (fun _ h => h)
      (fun t p hp _ => ⟨hp, rfl⟩) hpage (fun t p hp _ => ⟨hp, rfl⟩)
  | idle =>
    exact h.frame rfl (fun _ h => h) (h.accounted_of_eq rfl rfl) (fun _ _ => rfl) (fun _ h => h)
      (fun t p hp _ => ⟨hp, rfl⟩) hpage (fun t p hp _ => ⟨hp, rfl⟩)
  | crash c =>
    refine h.frame rfl (fun _ h => h) h.accounted (fun _ _ => rfl) (fun _ h => h)
      (fun t p hp _ => ⟨(Option.filter_eq_some_iff.mp hp).1, rfl⟩) hpage ?_
    intro t p hp howing
    refine ⟨Option.filter_eq_some_iff.mpr ⟨hp, ?_⟩, rfl⟩
    -- Who owes a final event does not crash here.
    rw [decide_eq_true_eq]
    rintro rfl
    have howes := (hrem t p hp).owesFinal_of_owing howing
    have hany : f.anyParty (fun q => decide (q.consumer = p.consumer) && q.owesFinal) = true :=
      Fleet.anyParty_eq_true.mpr ⟨t, p, (hphased t p hp).1, hp, by simp [howes]⟩
    simp [finalsSurvive, hany] at hsurvive
  | @take _ p e stream hl ht =>
    refine h.frame rfl (fun _ h => h) (h.accounted_of_eq rfl rfl) (fun _ _ => rfl)
      (fun _ h => h) ?_ hpage ?_
    · intro t q hq howing
      by_cases htn : t = f.next
      · subst htn
        rw [Function.update_self] at howing
        rcases howing with howing | howing <;> cases howing
      · exact ⟨(spawn_parties_ne htn).symm.trans hq, Function.update_of_ne htn _ _⟩
    · intro t q hq _
      have htn : t ≠ f.next := (hphased t q hq).1.ne
      exact ⟨(spawn_parties_ne htn).trans hq, Function.update_of_ne htn _ _⟩
  | act hparty hprog hmove heffect hgoes =>
    exact h.act hphased hrem hbooks hstore hpublishes hlast hparty hprog hmove heffect hgoes

/-- **The last event of a job is its last event**, and every page has been announced before
it, when whoever completes a job publishes that after all other workers have published their
final events, and nobody crashes before publishing one. -/
theorem completeLast_of_completesLast {cfg : Settings} {f : Fleet}
    (h : Reach cfg (fun f l => storeCallsSucceed f l && publishesSucceed f l &&
      finalsSurvive f l && completesLast f l) f) :
    f.CompleteLast := by
  obtain ⟨φ, -, -, -, hclosing⟩ := h.invariant (I := fun f φ => Books f ∧ Closing f φ)
    (fun f l hl => by simp only [Bool.and_eq_true] at hl; exact hl.1.1.1)
    (fun φ => ⟨Books.empty, Closing.empty φ⟩)
    (by
      intro f φ l f' φ' _ hphased hrem hI hl htick
      simp only [Bool.and_eq_true] at hl
      obtain ⟨⟨⟨hstore, hpublishes⟩, hsurvive⟩, hlast⟩ := hl
      exact ⟨htick.books hI.1,
        hI.2.tick hphased hrem hI.1 hstore hpublishes hsurvive hlast htick⟩)
  exact hclosing.completeLast

/-- Two workers on a job of two pages, with a layout model that fails: both have made their page
terminal and neither has published its final event. -/
def bothFailed : List Label :=
  [.initJob 0 2 1000, .enqueue ⟨0, 0⟩ 1000 "t", .enqueue ⟨0, 1⟩ 1000 "t", .start 1, .ready 1,
    .start 2, .ready 2, .deliver 1 .lead 1000, .deliver 2 .main 1000] ++
  runs 0 3 1000 ++ [.run 0 (.raises 1000 (.exception "RuntimeError" "layout exploded"))] ++
  runs 0 1 1000 ++
  runs 1 3 1000 ++ [.run 1 (.raises 1000 (.exception "RuntimeError" "layout exploded"))] ++
  runs 1 1 1000

/-- The first worker publishes, and then the second one, which completes the job. -/
theorem completeLast_bothFailed :
    ∃ f : Fleet, f.firstJobEvents = [.pageFinal, .pageFinal, .jobComplete] ∧ f.CompleteLast := by
  obtain ⟨f, hf, hq⟩ := Reach.exists_of_runAll {}
    (fun f l => storeCallsSucceed f l && publishesSucceed f l && finalsSurvive f l &&
      completesLast f l)
    (fun f => decide (f.firstJobEvents = [.pageFinal, .pageFinal, .jobComplete]))
    (bothFailed ++ runs 0 1 1000 ++ runs 1 2 1000) (by decide +kernel)
  exact ⟨f, of_decide_eq_true hq, completeLast_of_completesLast hf⟩

/-- The second worker completes the job and says so, then the first one publishes its final
event. -/
def overtakenFinal : List Label := bothFailed ++ runs 1 2 1000 ++ runs 0 1 1000

/-- Without the condition a final event follows `job.complete`, although nobody crashed and no
publish failed. -/
theorem unfinished_by_overtakenFinal :
    ¬∀ f, Reach {} (fun f l => storeCallsSucceed f l && publishesSucceed f l &&
      finalsSurvive f l && reapsOnlyOrphans f l) f → f.CompleteLast := by
  intro hall
  obtain ⟨f, hf, hq⟩ := Reach.exists_of_runAll {}
    (fun f l => storeCallsSucceed f l && publishesSucceed f l && finalsSurvive f l &&
      reapsOnlyOrphans f l)
    (fun f => (f.redis.results 0).log.any fun c => decide (c.body.event = .jobComplete) &&
      (f.redis.results 0).log.any fun e => decide (e.body.event = .pageFinal) &&
        decide (c.seq ≤ e.seq)) overtakenFinal (by decide +kernel)
  simp only [List.any_eq_true, Bool.and_eq_true, decide_eq_true_eq] at hq
  obtain ⟨c, hc, hcomplete, e, he, hfinal, hle⟩ := hq
  have hlt := ((hall f hf).last 0 c hc hcomplete e he hfinal).1
  omega

end OcrOrchestrator
