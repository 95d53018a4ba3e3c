import OcrOrchestrator.Worker.Ledger

/-!
# Events of a page

A commit and the event that announces it are two steps.  Each worker publishes what it
committed, once, so a page is announced twice only if it is committed twice: a final state
is not, but a layout result is, when a stale attempt commits it over the VLM claim of
somebody else.  And a worker that is slow to publish its partial event may be overtaken by
the final one.  Where neither happens, the events of a page come once each and in order.

## Main definitions

* `Redis.announced` — how often a page was announced by an event of a kind.
* `Fleet.EventDiscipline` — at most one partial and one final event for each page, in order.
* `Notice`, `OnceEach` — what makes an announcement happen at most once.
* `commitsFreshLayouts`, `finalsAfterPartials` — the condition on runs.
* `eventDiscipline_of_commitsFreshLayouts` — the result.
-/

namespace OcrOrchestrator

open Lib PageState Phase

/-- Is this an event of the given kind about the page with this index? -/
def EventBody.isFor (kind : EventKind) (index : ℤ) (b : EventBody) : Bool :=
  decide (b.event = kind) && decide (b.pageIndex = some index)

theorem EventBody.isFor_iff {kind : EventKind} {index : ℤ} {b : EventBody} :
    b.isFor kind index = true ↔ b.event = kind ∧ b.pageIndex = some index := by
  simp [EventBody.isFor]

/-- How many events of this kind were ever published about the page. -/
def Redis.announced (s : Redis) (kind : EventKind) (key : PageKey) : ℕ :=
  (s.results key.job).log.countP fun e => e.body.isFor kind key.index

/-- At most one partial and at most one final event for each page, and no partial event
after the final one. -/
structure Fleet.EventDiscipline (f : Fleet) : Prop where
  onePartial : ∀ key, f.redis.announced .pagePartial key ≤ 1
  oneFinal : ∀ key, f.redis.announced .pageFinal key ≤ 1
  ordered : ∀ key : PageKey, (f.redis.results key.job).log.Pairwise fun a b =>
    ¬(a.body.isFor .pageFinal key.index = true ∧ b.body.isFor .pagePartial key.index = true)

/-! ## The condition on runs -/

/-- A layout result is not committed to a page that is in the VLM stage. -/
def commitsFreshLayouts (f : Fleet) : Label → Bool
  | .run t _ =>
    match (f.parties t).bind Party.awaited with
    | some (.evalTransition key .layoutDone _ extra) =>
      extra.isEmpty || decide (f.redis.state? key ≠ some vlmRunning)
    | _ => true
  | _ => true

/-- A final event is not published while another live worker owes the page's partial one. -/
def finalsAfterPartials (f : Fleet) : Label → Bool
  | .run t _ =>
    match (f.parties t).bind Party.awaited with
    | some (.publish job body) =>
      decide (body.event ≠ .pageFinal) || !f.anyOther t fun q =>
        decide (q.key.job = job ∧ body.pageIndex = some q.key.index) && q.owesPartial
    | _ => true
  | _ => true

/-! ## What acts publish -/

namespace Effect
variable {s s' : Redis} {a : Act}

/-- The result streams after an act: one event was appended to one of them, or none. -/
theorem results (h : Effect s s' a) :
    s'.results = s.results ∨ ∃ job body ok maxlen now trim, a = .publish job body ok ∧
      s'.results = Function.update s.results job
        ((s.results job).publishScript maxlen now trim body).2 := by
  cases a with
  | look => exact .inl (congrArg Redis.results h.1)
  | model => exact .inl (congrArg Redis.results h)
  | request => exact .inl h.2.1
  | quiet => exact .inl h.2.1
  | publish job body ok =>
    rcases h.2.2 with ⟨maxlen, now, trim, hup⟩ | ⟨-, hsame⟩
    · exact .inr ⟨job, body, ok, maxlen, now, trim, rfl, hup⟩
    · exact .inl hsame
  | _ => exact .inl h.1

/-- The log of a job after an act. -/
theorem log (h : Effect s s' a) (job : JobId) :
    (s'.results job).log = (s.results job).log ∨
      ∃ body ok e, a = .publish job body ok ∧ e.body = body ∧
        (s'.results job).log = (s.results job).log ++ [e] := by
  rcases h.results with hsame | ⟨job', body, ok, maxlen, now, trim, ha, hup⟩
  · rw [hsame]
    exact .inl rfl
  · by_cases hj : job = job'
    · subst hj
      rw [hup, Function.update_self]
      exact .inr ⟨body, ok, _, ha, rfl, rfl⟩
    · rw [hup, Function.update_of_ne hj]
      exact .inl rfl

/-- The announcements of a page after an act. -/
theorem announced (h : Effect s s' a) (kind : EventKind) (key : PageKey) :
    s'.announced kind key = s.announced kind key ∨
      ∃ body ok, a = .publish key.job body ok ∧ body.event = kind ∧
        body.pageIndex = some key.index ∧
        s'.announced kind key = s.announced kind key + 1 := by
  rcases h.log key.job with hsame | ⟨body, ok, e, ha, hbody, hlog⟩
  · left
    rw [Redis.announced, hsame, Redis.announced]
  · simp only [Redis.announced, hlog, List.countP_append, List.countP_singleton, hbody]
    by_cases hfor : body.isFor kind key.index = true
    · obtain ⟨hkind, hindex⟩ := EventBody.isFor_iff.mp hfor
      exact .inr ⟨body, ok, ha, hkind, hindex, by simp [hfor]⟩
    · left
      simp [hfor]

end Effect

/-! ## Announcing once -/

/-- Something to be announced once for each page: the kind of its event, the phases about to
publish it, and the page states before the commit it announces. -/
structure Notice where
  kind : EventKind
  owing : Phase → Bool
  early : Option PageState → Bool
  idle : owing look = false
  early_none : early none = true
  /-- The page is never again in an early state. -/
  back : ∀ {st target : PageState}, st ∈ predecessors target → early (some target) = true →
    early (some st) = true
  /-- The event becomes due by a commit only. -/
  enters : ∀ {b : Brief} {φ φ' : Phase} {a : Act}, Move b φ a φ' → owing φ' = true →
    (owing φ = true ∧ a = .quiet) ∨
      ∃ target allowed extra completed, a = .request b.key target allowed extra true completed ∧
        early (some target) = false
  /-- The event is published only when due, for the party's own page. -/
  publishes : ∀ {b : Brief} {φ φ' : Phase} {job : JobId} {body : EventBody} {ok : Bool},
    Move b φ (.publish job body ok) φ' → body.event = kind →
      owing φ = true ∧ job = b.key.job ∧ body.pageIndex = some b.key.index

/-- The page is announced at most once: by the one party that owes the event, or before. -/
structure OnceEach (n : Notice) (f : Fleet) (φ : ℕ → Phase) : Prop where
  before : ∀ key, n.early (f.redis.state? key) = true → f.redis.announced n.kind key = 0 ∧
    ∀ t p, f.parties t = some p → p.key = key → n.owing (φ t) = false
  owed : ∀ t p, f.parties t = some p → n.owing (φ t) = true → f.redis.announced n.kind p.key = 0 ∧
    ∀ t' p', f.parties t' = some p' → p'.key = p.key → n.owing (φ t') = true → t' = t
  once : ∀ key, f.redis.announced n.kind key ≤ 1

namespace Notice
variable {n : Notice} {b : Brief} {φ φ₁ : Phase} {a : Act} {s s' : Redis}

/-- Whoever publishes owes the event, for its own page. -/
theorem owing_of_announced (hmove : Move b φ a φ₁) (heffect : Effect s s' a) {key : PageKey}
    (hne : s'.announced n.kind key ≠ s.announced n.kind key) :
    n.owing φ = true ∧ b.key = key ∧ s'.announced n.kind key = s.announced n.kind key + 1 := by
  obtain ⟨body, ok, ha, hkind, hindex, hcount⟩ := (heffect.announced n.kind key).resolve_left hne
  rw [ha] at hmove
  obtain ⟨howing, hjob, hindex'⟩ := n.publishes hmove hkind
  have hkey : b.key.index = key.index := Option.some.inj (hindex'.symm.trans hindex)
  exact ⟨howing, PageKey.ext hjob.symm hkey, hcount⟩

/-- An event that is due was due, or has become so by a commit, and is new then. -/
theorem due_of_owing (hmove : Move b φ a φ₁) (heffect : Effect s s' a)
    (hfirst : ∀ target allowed extra completed st,
      a = .request b.key target allowed extra true completed → n.owing φ₁ = true →
      st ∈ allowed → s.state? b.key = some st → n.early (some st) = true)
    (howing : n.owing φ₁ = true) :
    (n.owing φ = true ∧ a = .quiet) ∨
      (n.early (s.state? b.key) = true ∧
        (∀ key, s'.announced n.kind key = s.announced n.kind key) ∧
        n.early (s'.state? b.key) = false) := by
  rcases n.enters hmove howing with hstay | ⟨target, allowed, extra, completed, rfl, hlate⟩
  · exact .inl hstay
  · right
    obtain ⟨-, ⟨st, hst, hs⟩, hup⟩ := heffect.2.2.resolve_right (by simp)
    refine ⟨?_, ?_, ?_⟩
    · rw [hs]
      exact hfirst target allowed extra completed st rfl howing hst hs
    · intro key
      rw [Redis.announced, heffect.2.1, Redis.announced]
    · rw [hup]
      simpa using hlate

/-- A page that is early now was early before. -/
theorem early_before (hmove : Move b φ a φ₁) (heffect : Effect s s' a) {key : PageKey}
    (hearly : n.early (s'.state? key) = true) : n.early (s.state? key) = true := by
  rcases heffect.states with hsame | ⟨k, target, allowed, extra, completed, st, ha, hst, hs, hup⟩
  · rwa [hsame] at hearly
  · rw [hup] at hearly
    by_cases hk : key = k
    · subst hk
      rw [Function.update_self] at hearly
      rw [ha] at hmove
      obtain ⟨next, hreq⟩ := hmove.requests
      rw [hs]
      exact n.back (hreq.allowed_subset hst) hearly
    · rwa [Function.update_of_ne hk] at hearly

end Notice

namespace OnceEach
variable {cfg : Settings} {n : Notice} {f f' : Fleet} {φ φ' : ℕ → Phase} {l : Label}

theorem empty (φ : ℕ → Phase) : OnceEach n Fleet.empty φ := by
  constructor <;> simp [Fleet.empty, Redis.empty, Redis.announced, ResultStream.empty]

/-- Nothing was published and nothing became due. -/
theorem frame (h : OnceEach n f φ)
    (hparties : ∀ t p, f'.parties t = some p → n.owing (φ' t) = true →
      ∃ p', f.parties t = some p' ∧ p'.key = p.key ∧ n.owing (φ t) = true)
    (hresults : f'.redis.results = f.redis.results)
    (hstate : ∀ key, n.early (f'.redis.state? key) = true → n.early (f.redis.state? key) = true) :
    OnceEach n f' φ' := by
  have hannounced : ∀ key, f'.redis.announced n.kind key = f.redis.announced n.kind key := by
    intro key
    rw [Redis.announced, hresults, Redis.announced]
  constructor
  · intro key hearly
    obtain ⟨hzero, hnone⟩ := h.before key (hstate key hearly)
    refine ⟨by rw [hannounced, hzero], fun t p hp hkey => ?_⟩
    cases howing : n.owing (φ' t)
    · rfl
    · obtain ⟨p', hp', hkey', howed⟩ := hparties t p hp howing
      rw [hnone t p' hp' (hkey'.trans hkey)] at howed
      cases howed
  · intro t p hp howing
    obtain ⟨q, hq, hqkey, howed⟩ := hparties t p hp howing
    obtain ⟨hzero, hunique⟩ := h.owed t q hq howed
    refine ⟨by rw [hannounced, ← hqkey, hzero], fun t' p' hp' hkey' howing' => ?_⟩
    obtain ⟨q', hq', hqkey', howed'⟩ := hparties t' p' hp' howing'
    exact hunique t' q' hq' (by rw [hqkey', hkey', hqkey]) howed'
  · intro key
    rw [hannounced]
    exact h.once key

/-- **One act**: an event that becomes due was not before, and an event that is published is
the one that was due. -/
theorem act (h : OnceEach n f φ) {t : ℕ} {p : Party} {e : Event} {prog : Py Unit} {s' : Redis}
    {φ₁ : Phase} {a : Act} (hparty : f.parties t = some p)
    (hmove : Move (p.brief cfg) (φ t) a φ₁) (heffect : Effect f.redis s' a)
    (hfirst : ∀ target allowed extra completed st,
      a = .request p.key target allowed extra true completed → n.owing φ₁ = true →
      st ∈ allowed → f.redis.state? p.key = some st → n.early (some st) = true) :
    OnceEach n (f.resume t p e prog s') (Function.update φ t φ₁) := by
  have hpublish : ∀ key, s'.announced n.kind key ≠ f.redis.announced n.kind key →
      n.owing (φ t) = true ∧ p.key = key ∧
        s'.announced n.kind key = f.redis.announced n.kind key + 1 :=
    fun key hne => Notice.owing_of_announced hmove heffect hne
  have hdue : n.owing φ₁ = true → (n.owing (φ t) = true ∧ a = .quiet) ∨
      (n.early (f.redis.state? p.key) = true ∧
        (∀ key, s'.announced n.kind key = f.redis.announced n.kind key) ∧
        n.early (s'.state? p.key) = false) :=
    Notice.due_of_owing hmove heffect hfirst
  have hback : ∀ key, n.early (s'.state? key) = true → n.early (f.redis.state? key) = true :=
    fun key hearly => Notice.early_before hmove heffect hearly
  constructor
  · intro key hearly
    obtain ⟨hzero, hnone⟩ := h.before key (hback key hearly)
    constructor
    · by_contra hne
      obtain ⟨howing, hkey, -⟩ := hpublish key (by rw [hzero]; exact hne)
      rw [hnone t p hparty hkey] at howing
      cases howing
    · intro t' q hq hkey
      by_cases htt : t' = t
      · subst htt
        obtain rfl := resume_parties_self hq
        rw [Function.update_self]
        cases howing : n.owing φ₁
        · rfl
        · rcases hdue howing with ⟨howed, -⟩ | ⟨-, -, hlate⟩
          · rw [hnone t' p hparty hkey] at howed
            cases howed
          · have hkey : p.key = key := hkey
            have hearly : n.early (s'.state? key) = true := hearly
            rw [hkey, hearly] at hlate
            cases hlate
      · rw [resume_parties_ne htt] at hq
        rw [Function.update_of_ne htt]
        exact hnone t' q hq hkey
  · intro t₁ q₁ hq₁ howing₁
    by_cases h₁ : t₁ = t
    · subst h₁
      obtain rfl := resume_parties_self hq₁
      rw [Function.update_self] at howing₁
      -- Nobody else owes the event, before as after.
      have halone : f.redis.announced n.kind p.key = 0 ∧
          (∀ key, s'.announced n.kind key = f.redis.announced n.kind key) ∧
          ∀ t' q, f.parties t' = some q → q.key = p.key → n.owing (φ t') = true → t' = t₁ := by
        rcases hdue howing₁ with ⟨howed, rfl⟩ | ⟨hearly, hsame, -⟩
        · obtain ⟨hzero, hunique⟩ := h.owed t₁ p hparty howed
          refine ⟨hzero, fun key => ?_, hunique⟩
          rw [Redis.announced, heffect.2.1, Redis.announced]
        · obtain ⟨hzero, hnone⟩ := h.before p.key hearly
          refine ⟨hzero, hsame, fun t' q hq hkey howing => ?_⟩
          rw [hnone t' q hq hkey] at howing
          cases howing
      obtain ⟨hzero, hsame, hunique⟩ := halone
      refine ⟨(hsame p.key).trans hzero, fun t' q hq hkey howing => ?_⟩
      by_contra hne
      rw [resume_parties_ne hne] at hq
      rw [Function.update_of_ne hne] at howing
      exact hne (hunique t' q hq hkey howing)
    · rw [resume_parties_ne h₁] at hq₁
      rw [Function.update_of_ne h₁] at howing₁
      obtain ⟨hzero, hunique⟩ := h.owed t₁ q₁ hq₁ howing₁
      constructor
      · by_contra hne
        obtain ⟨howing, hkey, -⟩ := hpublish q₁.key (by rw [hzero]; exact hne)
        exact h₁ (hunique t p hparty hkey howing).symm
      · intro t' q hq hkey howing
        by_cases htt : t' = t
        · subst htt
          obtain rfl := resume_parties_self hq
          have hkey : p.key = q₁.key := hkey
          rw [Function.update_self] at howing
          rcases hdue howing with ⟨howed, -⟩ | ⟨hearly, -, -⟩
          · exact hunique t' p hparty hkey howed
          · rw [(h.before p.key hearly).2 t₁ q₁ hq₁ hkey.symm] at howing₁
            cases howing₁
        · rw [resume_parties_ne htt] at hq
          rw [Function.update_of_ne htt] at howing
          exact hunique t' q hq hkey howing
  · intro key
    by_cases hsame : s'.announced n.kind key = f.redis.announced n.kind key
    · exact hsame.trans_le (h.once key)
    · obtain ⟨howing, rfl, hcount⟩ := hpublish key hsame
      have hzero := (h.owed t p hparty howing).1
      exact (hcount.trans (by rw [hzero])).le

/-- **One tick** keeps the announcements apart. -/
theorem tick (h : OnceEach n f φ) (hbooks : Books f) (htick : Tick cfg f φ l f' φ')
    (hfirst : ∀ t o p φ₁ target allowed extra completed st, l = .run t o →
      f.parties t = some p → p.awaited = some (.evalTransition p.key target allowed extra) →
      Move (p.brief cfg) (φ t) (.request p.key target allowed extra true completed) φ₁ →
      n.owing φ₁ = true → st ∈ allowed → f.redis.state? p.key = some st →
      n.early (some st) = true) :
    OnceEach n f' φ' := by
  cases htick with
  | submit job totalPages now hnew =>
    refine h.frame (fun t p hp howing => ⟨p, hp, rfl, howing⟩) rfl fun key hearly => ?_
    by_cases hjob : key.job = job
    · have hnone : f.redis.state? key = none := by
        have hpage := hbooks.pageJob key
        rw [hjob, hnew] at hpage
        simpa [Redis.state?] using hpage
      rw [hnone]
      exact n.early_none
    · simpa [Redis.state?, initJob, hjob] using hearly
  | enqueue => exact h.frame (fun t p hp howing => ⟨p, hp, rfl, howing⟩) rfl fun _ h => h
  | idle => exact h.frame (fun t p hp howing => ⟨p, hp, rfl, howing⟩) rfl fun _ h => h
  | crash =>
    refine h.frame (fun t p hp howing => ?_) rfl fun _ h => h
    exact ⟨p, (Option.filter_eq_some_iff.mp hp).1, rfl, howing⟩
  | take hl ht =>
    refine h.frame (fun t p hp howing => ?_) rfl fun _ h => h
    by_cases htn : t = f.next
    · subst htn
      rw [Function.update_self, n.idle] at howing
      cases howing
    · rw [Function.update_of_ne htn] at howing
      exact ⟨p, (spawn_parties_ne htn).symm.trans hp, rfl, howing⟩
  | @act t o p c k φ₁ hparty hprog hmove heffect _ =>
    refine h.act hparty hmove heffect fun target allowed extra completed st ha howing hst hs => ?_
    obtain rfl := Act.of_request ha
    rw [ha] at hmove
    exact hfirst t o p φ₁ target allowed extra completed st rfl hparty
      (by simp [Party.awaited, hprog]) hmove howing hst hs

end OnceEach

/-! ## The two notices of a page -/

namespace Move
variable {b : Brief} {φ φ' : Phase} {a : Act}

/-- An event becomes due by the answer to a request, and the last event of a job by the final
event of the completing worker. -/
theorem telling (h : Move b φ a φ') (htell : φ'.telling = true) :
    (φ = φ' ∧ a = .quiet) ∨
      (∃ target allowed extra next ok completed, Requests b φ target allowed extra next ∧
        a = .request b.key target allowed extra ok completed ∧ φ' = next ok completed) ∨
      (φ = Phase.tellFinal true ∧ φ' = Phase.tellComplete ∧
        ∃ body ok, a = .publish b.key.job body ok) := by
  cases h with
  | quiet => exact .inl ⟨rfl, rfl⟩
  | request hreq ok completed =>
    exact .inr (.inl ⟨_, _, _, _, ok, completed, hreq, rfl, rfl⟩)
  | call ep answer =>
    exfalso
    revert htell
    cases ep <;> cases answer <;> simp only [answered] <;> (repeat' split) <;> simp [Phase.telling]
  | look hrole seen =>
    rw [telling_entered _ (by split <;> rfl)] at htell
    cases htell
  | relook seen =>
    rw [telling_entered _ rfl] at htell
    cases htell
  | lookOrphan hrole seen =>
    revert htell
    split <;> simp [Phase.telling]
  | releaseIdle hidle =>
    rw [telling_released] at htell
    cases htell
  | tellPartial =>
    rw [telling_afterLayout] at htell
    cases htell
  | tellFinal completed body hkind hpage ok =>
    revert htell
    split
    · rename_i hboth
      simp only [Bool.and_eq_true] at hboth
      rw [hboth.2]
      exact fun _ => .inr (.inr ⟨rfl, rfl, body, ok, rfl⟩)
    · intro htell
      cases htell
  | _ => cases htell

/-- The partial event becomes due by an applied layout commit. -/
theorem to_tellPartial (h : Move b φ a Phase.tellPartial) :
    (φ = Phase.tellPartial ∧ a = .quiet) ∨ ∃ layout completed, φ = commitLayout layout ∧
      a = .request b.key layoutDone (predecessors layoutDone) [(.layout, layout)] true completed := by
  rcases h.telling rfl with
    hstay | ⟨target, allowed, extra, next, ok, completed, hreq, rfl, hnext⟩ | ⟨-, hother, -⟩
  · exact .inl hstay
  · right
    have htell : true = (next ok completed).telling := congrArg Phase.telling hnext
    cases hreq with
    | commitLayout layout =>
      cases ok
      · simp at htell
      · exact ⟨layout, completed, rfl, rfl⟩
    | release => simp at htell
    | claim ep => cases ok <;> cases hnext
    | _ => cases ok <;> cases hnext
  · cases hother

/-- The final event becomes due by an applied terminal transition. -/
theorem to_tellFinal {completed : Bool} (h : Move b φ a (Phase.tellFinal completed)) :
    (φ = Phase.tellFinal completed ∧ a = .quiet) ∨ ∃ target allowed extra,
      target.terminal = true ∧ a = .request b.key target allowed extra true completed := by
  rcases h.telling rfl with
    hstay | ⟨target, allowed, extra, next, ok, completed', hreq, rfl, hnext⟩ | ⟨-, hother, -⟩
  · exact .inl hstay
  · right
    have htell : true = (next ok completed').telling := congrArg Phase.telling hnext
    have hterminal : ∀ target : PageState, target.terminal = true →
        Phase.tellFinal completed = afterTerminal ok completed' →
        ∃ target' allowed' extra', target'.terminal = true ∧
          Act.request b.key target allowed extra ok completed' =
            .request b.key target' allowed' extra' true completed := by
      intro target hterm hnext
      cases ok
      · cases hnext
      · cases hnext
        exact ⟨target, allowed, extra, hterm, rfl⟩
    cases hreq with
    | release => simp at htell
    | claim ep => cases ok <;> cases hnext
    | commitLayout layout =>
      cases ok
      · simp at htell
      · cases hnext
    | force seen reason hopen =>
      refine hterminal _ ?_ hnext
      unfold forceTarget
      split <;> rfl
    | _ => exact hterminal _ rfl hnext
  · cases hother

end Move

/-- The partial event announces a layout result. -/
def partialNotice : Notice where
  kind := .pagePartial
  owing φ := match φ with
    | tellPartial => true
    | _ => false
  early st := match st with
    | none => true
    | some pending => true
    | some layoutRunning => true
    | _ => false
  idle := rfl
  early_none := rfl
  back := by
    intro st target
    cases st <;> cases target <;> decide
  enters := by
    intro b φ φ' a hmove howing
    obtain rfl : φ' = tellPartial := by
      cases φ' <;> first | rfl | cases howing
    rcases hmove.to_tellPartial with ⟨rfl, rfl⟩ | ⟨layout, completed, -, rfl⟩
    · exact .inl ⟨rfl, rfl⟩
    · exact .inr ⟨_, _, _, _, rfl, rfl⟩
  publishes := by
    intro b φ φ' job body ok hmove hkind
    cases hmove with
    | tellPartial _ _ hpage => exact ⟨rfl, rfl, hpage⟩
    | tellFinal _ _ hfinal =>
      rw [hfinal] at hkind
      cases hkind
    | tellComplete _ hcomplete =>
      rw [hcomplete] at hkind
      cases hkind

/-- The final event announces a terminal state. -/
def finalNotice : Notice where
  kind := .pageFinal
  owing φ := match φ with
    | tellFinal _ => true
    | _ => false
  early st := !st.any terminal
  idle := rfl
  early_none := rfl
  back := by
    intro st target hst _
    simp [terminal_eq_false_of_mem_predecessors hst]
  enters := by
    intro b φ φ' a hmove howing
    obtain ⟨completed, rfl⟩ : ∃ completed, φ' = tellFinal completed := by
      cases φ' <;> first | exact ⟨_, rfl⟩ | cases howing
    rcases hmove.to_tellFinal with ⟨rfl, rfl⟩ | ⟨target, allowed, extra, hterm, rfl⟩
    · exact .inl ⟨rfl, rfl⟩
    · exact .inr ⟨target, allowed, extra, completed, rfl, by simp [hterm]⟩
  publishes := by
    intro b φ φ' job body ok hmove hkind
    cases hmove with
    | tellFinal _ _ _ hpage => exact ⟨rfl, rfl, hpage⟩
    | tellPartial _ hparts =>
      rw [hparts] at hkind
      cases hkind
    | tellComplete _ hcomplete =>
      rw [hcomplete] at hkind
      cases hkind

/-! ## Partial before final -/

/-- The invariant: each notice at most once, and nobody owes a partial event of a page whose
final one is out. -/
structure Disciplined (f : Fleet) (φ : ℕ → Phase) : Prop where
  partials : OnceEach partialNotice f φ
  finals : OnceEach finalNotice f φ
  overtaken : ∀ t p, f.parties t = some p → φ t = tellPartial →
    f.redis.announced .pageFinal p.key = 0
  ordered : ∀ key : PageKey, (f.redis.results key.job).log.Pairwise fun a b =>
    ¬(a.body.isFor .pageFinal key.index = true ∧ b.body.isFor .pagePartial key.index = true)

namespace Disciplined
variable {cfg : Settings} {f f' : Fleet} {φ φ' : ℕ → Phase} {l : Label}

theorem empty (φ : ℕ → Phase) : Disciplined Fleet.empty φ := by
  refine ⟨.empty φ, .empty φ, ?_, ?_⟩ <;>
    simp [Fleet.empty, Redis.empty, ResultStream.empty]

/-- Each event of the page comes once, whatever the order of the two. -/
theorem tick_once (h : Disciplined f φ) (hbooks : Books f)
    (hfresh : commitsFreshLayouts f l = true) (htick : Tick cfg f φ l f' φ') :
    OnceEach partialNotice f' φ' ∧ OnceEach finalNotice f' φ' := by
  constructor
  · refine h.partials.tick hbooks htick ?_
    rintro t o p φ₁ target allowed extra completed st rfl hparty hawaited hmove howing hst hs
    obtain rfl : φ₁ = tellPartial := by
      cases φ₁ <;> first | rfl | cases howing
    rcases hmove.to_tellPartial with ⟨-, hquiet⟩ | ⟨layout, completed', -, hcommit⟩
    · cases hquiet
    · cases hcommit
      simp only [commitsFreshLayouts, hparty, Option.bind_some, hawaited, hs] at hfresh
      cases st <;> first | rfl | (revert hst; decide) | (revert hfresh; simp)
  · refine h.finals.tick hbooks htick ?_
    intro t o p φ₁ target allowed extra completed st _ _ _ hmove _ hst _
    obtain ⟨next, hreq⟩ := hmove.requests
    have hopen := terminal_eq_false_of_mem_predecessors (hreq.allowed_subset hst)
    simp [finalNotice, hopen]

/-- The final event of a page is out only when nobody owes its partial one. -/
theorem tick_overtaken (h : Disciplined f φ) (hphased : Phased cfg f φ) (hrem : Remembered f φ)
    (hfinals : finalsAfterPartials f l = true) (htick : Tick cfg f φ l f' φ') :
    ∀ t p, f'.parties t = some p → φ' t = tellPartial →
      f'.redis.announced .pageFinal p.key = 0 := by
  cases htick with
  | submit => exact h.overtaken
  | enqueue => exact h.overtaken
  | idle => exact h.overtaken
  | crash => exact fun t p hp => h.overtaken t p (Option.filter_eq_some_iff.mp hp).1
  | take hl ht =>
    intro t q hq hφ
    by_cases htn : t = f.next
    · subst htn
      rw [Function.update_self] at hφ
      cases hφ
    · rw [Function.update_of_ne htn] at hφ
      exact h.overtaken t q ((spawn_parties_ne htn).symm.trans hq) hφ
  | @act t o p c k φ₁ hparty hprog hmove heffect _ =>
    intro t' q hq hφ
    by_cases htt : t' = t
    · subst htt
      obtain rfl := resume_parties_self hq
      rw [Function.update_self] at hφ
      subst hφ
      rcases hmove.to_tellPartial with ⟨hφ, ha⟩ | ⟨layout, completed, hφ, ha⟩ <;>
        rw [ha] at heffect
      · have hzero := h.overtaken t' p hparty hφ
        rwa [Redis.announced, ← heffect.2.1] at hzero
      · -- The commit found the page open, so its final event is not out.
        obtain ⟨-, ⟨st, hst, hs⟩, -⟩ := heffect.2.2.resolve_right (by simp)
        have hopen := terminal_eq_false_of_mem_predecessors hst
        have hzero := (h.finals.before p.key (by
          rw [show p.key = (p.brief cfg).key from rfl, hs]
          simp [finalNotice, hopen])).1
        rwa [Redis.announced, ← heffect.2.1] at hzero
    · rw [resume_parties_ne htt] at hq
      rw [Function.update_of_ne htt] at hφ
      have hzero := h.overtaken t' q hq hφ
      rcases heffect.announced .pageFinal q.key with hsame | ⟨body, ok, ha, hkind, hindex, -⟩
      · exact hsame.trans hzero
      · obtain rfl := Act.of_publish ha
        have howes := (hrem t' q hq).owesPartial hφ
        have hother : f.anyOther t (fun q' => decide (q'.key.job = q.key.job ∧
            body.pageIndex = some q'.key.index) && q'.owesPartial) = true :=
          Fleet.anyOther_eq_true.mpr ⟨t', q, (hphased t' q hq).1, htt, hq, by simp [hindex, howes]⟩
        simp only [finalsAfterPartials, hparty, Option.bind_some, Party.awaited, hprog, hkind,
          hother] at hfinals
        simp at hfinals

/-- A partial event is published only before the final one. -/
theorem tick_ordered (h : Disciplined f φ) (htick : Tick cfg f φ l f' φ') :
    ∀ key : PageKey, (f'.redis.results key.job).log.Pairwise fun a b =>
      ¬(a.body.isFor .pageFinal key.index = true ∧
        b.body.isFor .pagePartial key.index = true) := by
  cases htick with
  | @act t o p c k φ₁ hparty hprog hmove heffect _ =>
    intro key
    rcases heffect.log key.job with hsame | ⟨body, ok, e, ha, hbody, hlog⟩
    · simp only [Fleet.resume, hsame]
      exact h.ordered key
    · simp only [Fleet.resume, hlog, List.pairwise_append]
      refine ⟨h.ordered key, List.pairwise_singleton _ _, ?_⟩
      rintro a halog x hx ⟨hfinal, hparts⟩
      rw [List.mem_singleton.mp hx, hbody] at hparts
      obtain ⟨hkind, hindex⟩ := EventBody.isFor_iff.mp hparts
      rw [ha] at hmove
      obtain ⟨howing, hjob, hindex'⟩ := partialNotice.publishes hmove hkind
      have hφ : φ t = tellPartial := by
        revert howing
        cases φ t <;> simp [partialNotice]
      have hkey : p.key = key :=
        PageKey.ext hjob.symm (Option.some.inj (hindex'.symm.trans hindex))
      have hzero := h.overtaken t p hparty hφ
      rw [hkey, Redis.announced, List.countP_eq_zero] at hzero
      exact hzero a halog hfinal
  | _ => exact h.ordered

/-- **One tick** keeps the events of every page in order. -/
theorem tick (h : Disciplined f φ) (hphased : Phased cfg f φ) (hrem : Remembered f φ)
    (hbooks : Books f) (hfresh : commitsFreshLayouts f l = true)
    (hfinals : finalsAfterPartials f l = true) (htick : Tick cfg f φ l f' φ') :
    Disciplined f' φ' := by
  obtain ⟨hparts, hfinal⟩ := h.tick_once hbooks hfresh htick
  exact ⟨hparts, hfinal, h.tick_overtaken hphased hrem hfinals htick, h.tick_ordered htick⟩

end Disciplined

/-- **The events of a page come once each and in order** when no layout result is committed
over a VLM claim and no final event overtakes a partial one. -/
theorem eventDiscipline_of_commitsFreshLayouts {cfg : Settings} {f : Fleet}
    (h : Reach cfg (fun f l => storeCallsSucceed f l && commitsFreshLayouts f l &&
      finalsAfterPartials f l) f) :
    f.EventDiscipline := by
  obtain ⟨φ, -, -, -, hd⟩ := h.invariant (I := fun f φ => Books f ∧ Disciplined f φ)
    (fun f l hl => by simp only [Bool.and_eq_true] at hl; exact hl.1.1)
    (fun φ => ⟨Books.empty, Disciplined.empty φ⟩)
    (by
      intro f φ l f' φ' _ hphased hrem hI hl htick
      simp only [Bool.and_eq_true] at hl
      exact ⟨htick.books hI.1, hI.2.tick hphased hrem hI.1 hl.1.2 hl.2 htick⟩)
  exact ⟨hd.partials.once, hd.finals.once, hd.ordered⟩

/-- The kinds of the events published about the first job, in order. -/
def Fleet.firstJobEvents (f : Fleet) : List EventKind :=
  (f.redis.results 0).log.map fun e => e.body.event

/-- A refused worker requeues and crashes before it acknowledges; a second one takes the new
entry and commits the layout; a third one recovers the old entry and runs the page to its end.
Neither has published yet. -/
def recoveredBeside : List Label :=
  [.initJob 0 1 1000, .enqueue ⟨0, 0⟩ 1000 "t", .start 1, .ready 1, .deliver 1 .lead 1000] ++
  runs 0 3 1000 ++ [.run 0 (.raises 1000 (.rateLimitTimeout .layout 5 0))] ++ runs 0 4 1000 ++
  [.crash 1, .start 2, .ready 2, .deliver 2 .main 2000] ++ runs 1 5 2000 ++
  [.start 3, .ready 3, .reap 3 .lead ⟨1000, 0⟩ 40000] ++ runs 2 7 40000 ++
  [.deliver 3 .main 40000] ++ runs 3 5 40000

/-- The second worker publishes the partial event, and then the third one the final event. -/
theorem eventDiscipline_recoveredBeside :
    ∃ f : Fleet, f.firstJobEvents = [.pagePartial, .pageFinal] ∧ f.EventDiscipline := by
  obtain ⟨f, hf, hq⟩ := Reach.exists_of_runAll {}
    (fun f l => storeCallsSucceed f l && commitsFreshLayouts f l && finalsAfterPartials f l)
    (fun f => decide (f.firstJobEvents = [.pagePartial, .pageFinal]))
    (recoveredBeside ++ runs 1 1 40000 ++ runs 3 1 40000) (by decide +kernel)
  exact ⟨f, of_decide_eq_true hq, eventDiscipline_of_commitsFreshLayouts hf⟩

/-- The third worker publishes the final event; then the second one publishes the partial one. -/
def overtakenPartial : List Label := recoveredBeside ++ runs 3 1 40000 ++ runs 1 1 40000

/-- Does no partial event of the first page follow its final one? -/
def Fleet.firstPageInOrder (f : Fleet) : Bool :=
  decide ((f.redis.results 0).log.Pairwise fun a b : ResultEntry =>
    ¬(EventBody.isFor EventKind.pageFinal 0 a.body = true ∧
      EventBody.isFor EventKind.pagePartial 0 b.body = true))

/-- Without the condition a partial event follows the final one, although no live worker's
entry was reaped and no publish failed. -/
theorem disordered_by_overtakenPartial :
    ¬∀ f, Reach {} (fun f l => storeCallsSucceed f l && reapsOnlyOrphans f l &&
      publishesSucceed f l) f → f.EventDiscipline := by
  intro hall
  obtain ⟨f, hf, hq⟩ := Reach.exists_of_runAll {}
    (fun f l => storeCallsSucceed f l && reapsOnlyOrphans f l && publishesSucceed f l)
    (fun f => !f.firstPageInOrder) overtakenPartial (by decide +kernel)
  simp only [Fleet.firstPageInOrder, Bool.not_eq_true', decide_eq_false_iff_not] at hq
  exact hq ((hall f hf).ordered ⟨0, 0⟩)

end OcrOrchestrator
