import OcrOrchestrator.Worker.Fence

/-!
# No page is dropped

A page that was enqueued is terminal or still has an entry in a task stream.  The proof
gives each page a *token*: one entry that answers for it.  Whoever took that entry last
knows, from the phase it is in, which state the page is in; it either settles the page,
moves the token to a fresh entry before it deletes its own, or never deletes its own.

Two kinds of step break this, and the code takes both: a final attempt that was refused
in the layout stage rolls back another worker's VLM claim and then acknowledges its entry
although FAILED is rejected; and a worker whose entry was taken over claims the page or
deletes the entry, or gets in the way of the one who took it over.  The theorems say that
there is nothing else.

## Main definitions

* `sparesVlmClaims` — the condition on refused final attempts.
* `Phase.expects`, `Phase.finds` — the states in which a party that answers for its page may find
  it, without and with workers that have lost their entry.
* `Held` — the token invariant.
* `zeroDrop_of_fenced`, `zeroDrop_of_reapsOnlyOrphans` — every page is accounted for.
-/

namespace OcrOrchestrator

open Lib PageState Phase

/-! ## Refused final attempts -/

/-- A refused final attempt does not roll back a VLM claim: its own claim was for the layout
stage. -/
def sparesVlmClaims (f : Fleet) : Label → Bool
  | .run t _ =>
    match f.parties t with
    | some p =>
      match p.awaited with
      | some (.evalTransition key .layoutDone [.vlmRunning] _) =>
        !(p.final && Act.calledLayout p.acts && decide (f.redis.state? key = some .vlmRunning))
      | _ => true
    | none => true
  | _ => true

/-! ## What the holder of a token expects -/

/-- The state in which a claim of this stage is applied. -/
def Endpoint.readyState : Endpoint → PageState
  | .layout => pending
  | .vlm => layoutDone

/-- The party took its entry to recover the page, not for the first time. -/
def Brief.recovering (b : Brief) : Bool := decide (b.role = .reaper) || b.task.recovered

/-- The non-terminal states in which a party that answers for its page may find it. -/
def Phase.expects (b : Brief) : Phase → PageState → Prop
  | look, s => b.recovering = true ∨ s.running = false
  | relook, s => s.running = false
  | releaseRead (.refused ep), s => s = ep.runningState
  | releaseRead _, _ => True
  | releaseWrite (.refused ep) seen, s => s = seen ∧ s = ep.runningState
  | releaseWrite _ seen, s => s = seen
  | claim ep, s => s = ep.readyState
  | calling ep, s => s = ep.runningState
  | commitLayout _, s => s = layoutRunning
  | tellPartial, s => s = layoutDone
  | commitDone, s => s = vlmRunning
  | degrading, s => s = vlmRunning
  | failing (some ep), s => s = ep.runningState
  | failing none, s => s = pending
  | weighing, _ => True
  | forceRead, _ => True
  | forceWrite seen, s => s = seen
  | requeueing, s => s.running = false
  | ended, _ => True
  | _, _ => False

/-- If workers that have lost their entry may still give the page back (`lax`), it may be found
unclaimed at any time. -/
def Phase.finds (lax : Bool) (b : Brief) (φ : Phase) (s : PageState) : Prop :=
  φ.expects b s ∨ (lax = true ∧ s.running = false ∧ φ.settles = false)

section Expects
variable {b : Brief} {φ φ' : Phase} {s : PageState} {lax : Bool}

theorem expects_entered {stranger : Phase} (hs : s.terminal = false)
    (h : s.running = true → stranger.expects b s) :
    (entered (some s) stranger).expects b s := by
  cases s <;> simp_all [entered, terminal, transitions, running, expects, Endpoint.readyState]

theorem expects_released_idle {site : Site} (h : (releaseRead site).expects b s)
    (hs : s.running = false) : (released b site).expects b s := by
  cases site with
  | refused ep =>
    obtain rfl : s = ep.runningState := h
    cases ep <;> cases hs
  | _ => exact hs

/-- Looking at the page keeps the expectation. -/
theorem expects_look (hmove : Move b φ (.look b.key (some s)) φ') (hs : s.terminal = false)
    (h : φ.expects b s) : φ'.expects b s := by
  cases hmove with
  | look hrole seen =>
    refine expects_entered hs fun hrun => ?_
    rcases h with hrec | hrun'
    · have : b.task.recovered = true := by simpa [Brief.recovering, hrole] using hrec
      simp [this, expects]
    · simp [hrun] at hrun'
  | lookOrphan hrole seen => simp [hs, expects]
  | relook seen =>
    refine expects_entered hs fun hrun => ?_
    have h : s.running = false := h
    simp [hrun] at h
  | releaseIdle hidle => exact expects_released_idle h (by simpa using hidle)
  | @releaseRunning site _ hrun =>
    cases site with
    | refused ep => exact ⟨rfl, h⟩
    | _ => exact rfl
  | forceSettled hterm => simp [hs] at hterm
  | forceOpen hterm => exact rfl

/-- A request that the expected state allows is applied. -/
theorem expects_allowed {target : PageState} {allowed : List PageState}
    {extra : List (PageField × Json)} {next : Bool → Bool → Phase}
    (hreq : Requests b φ target allowed extra next) (h : φ.expects b s) : s ∈ allowed := by
  cases hreq with
  | @release site seen target ht =>
    cases site with
    | refused ep => simpa using h.1
    | _ => exact List.mem_singleton.mpr h
  | claim ep =>
    obtain rfl : s = _ := h
    cases ep <;> decide
  | commitLayout =>
    obtain rfl : s = _ := h
    decide
  | commitDone =>
    obtain rfl : s = _ := h
    decide
  | degrade =>
    obtain rfl : s = _ := h
    decide
  | fail stage =>
    cases stage with
    | none =>
      obtain rfl : s = _ := h
      decide
    | some ep =>
      obtain rfl : s = _ := h
      cases ep <;> decide
  | force seen reason ht =>
    obtain rfl : s = _ := h
    cases s <;> first | decide | cases ht

/-- An applied request leaves the page as the next phase expects it, unless a refused final
attempt has rolled back a VLM claim. -/
theorem expects_applied {target : PageState} {allowed : List PageState}
    {extra : List (PageField × Json)} {next : Bool → Bool → Phase} {completed : Bool}
    (hreq : Requests b φ target allowed extra next) (ht : target.terminal = false)
    (hspare : ∀ ep, φ = releaseWrite (.refused ep) vlmRunning → b.final = false) :
    (next true completed).expects b target := by
  cases hreq with
  | @release site seen target hseen =>
    have hrun : target.running = false := by
      cases seen <;> simp [reclaimTarget] at hseen <;> subst hseen <;> rfl
    cases site with
    | refused ep =>
      cases hf : b.final
      · simp only [released, hf, Bool.false_eq_true, if_false]
        exact hrun
      · cases seen with
        | vlmRunning => simp [hf] at hspare
        | layoutRunning => simpa [released, hf, reclaimTarget, expects] using hseen.symm
        | _ => cases hseen
    | _ => exact hrun
  | claim ep => exact rfl
  | commitLayout => exact rfl
  | commitDone => cases ht
  | degrade => cases ht
  | fail => cases ht
  | force seen =>
    exfalso
    revert ht
    unfold forceTarget
    split <;> decide

/-- Acts that touch neither the page nor the streams keep the expectation. -/
theorem expects_other {a : Act} (hmove : Move b φ a φ') (h : φ.expects b s)
    (ha : a = .quiet ∨ (∃ ep answer, a = .model ep answer) ∨ ∃ job body ok, a = .publish job body ok) :
    φ'.expects b s := by
  cases hmove with
  | quiet => exact h
  | weighForce => trivial
  | weighRelease => trivial
  | call ep answer =>
    obtain rfl : s = _ := h
    cases ep <;> cases answer <;> simp only [answered] <;> (try split) <;> (try split) <;>
      first | exact rfl | trivial
  | tellPartial =>
    obtain rfl : s = _ := h
    unfold afterLayout
    split <;> exact rfl
  | tellFinal => exact h.elim
  | tellComplete => exact h.elim
  | _ => simp at ha

/-- A party that keeps to a stage expects the page there. -/
theorem expects_keeps {a : Act} {acts : List Act} {ep : Endpoint} (hmove : Move b φ a φ')
    (h : Act.keeps b.recovering ep acts = true → φ.expects b ep.runningState)
    (hkeeps : Act.keeps b.recovering ep (a :: acts) = true) : φ'.expects b ep.runningState := by
  have hrunning : ep.runningState.running = true ∧ ep.runningState.terminal = false := by
    cases ep <;> exact ⟨rfl, rfl⟩
  cases a with
  | quiet => exact expects_other hmove (h hkeeps) (.inl rfl)
  | model ep' answer => exact expects_other hmove (h hkeeps) (.inr (.inl ⟨_, _, rfl⟩))
  | publish job body ok => exact expects_other hmove (h hkeeps) (.inr (.inr ⟨_, _, _, rfl⟩))
  | look key seen =>
    simp only [Act.keeps, Bool.and_eq_true, decide_eq_true_eq] at hkeeps
    obtain ⟨hseen, hkeeps⟩ := hkeeps
    obtain ⟨s, rfl, hs⟩ := Option.bind_eq_some_iff.mp hseen
    obtain rfl : s = ep.runningState := by
      cases s <;> cases hs <;> rfl
    obtain rfl : key = b.key := hmove.look_key
    exact expects_look hmove hrunning.2 (h hkeeps)
  | request key target allowed extra ok completed =>
    simp only [Act.keeps, Bool.and_eq_true, decide_eq_true_eq] at hkeeps
    obtain ⟨rfl, htarget⟩ := hkeeps
    cases hmove with
    | request hreq =>
      cases hreq with
      | claim ep' => cases ep <;> cases ep' <;> first | rfl | cases htarget
      | @release _ seen _ hseen =>
        cases seen <;> simp [reclaimTarget] at hseen <;> subst hseen <;> cases htarget
      | force =>
        revert htarget
        unfold forceTarget
        split <;> simp [PageState.stage?]
      | _ => cases htarget
  | add fields =>
    have hexp := h hkeeps
    rw [hmove.add_spec.1] at hexp
    exact absurd (hrunning.1.symm.trans hexp) (by simp)
  | xack entry =>
    have hexp := h hkeeps
    rw [hmove.xack_spec.1] at hexp
    exact hexp.elim
  | xdel entry =>
    have hexp := h hkeeps
    rw [hmove.xdel_spec.1] at hexp
    exact hexp.elim

theorem settles_of_finds (h : φ.finds lax b s) : φ.settles = false := by
  rcases h with h | h
  · cases φ with
    | tellFinal => exact h.elim
    | tellComplete => exact h.elim
    | settling => exact h.elim
    | deleting => exact h.elim
    | _ => rfl
  · exact h.2.2

theorem finds_look (hmove : Move b φ (.look b.key (some s)) φ') (hs : s.terminal = false)
    (h : φ.finds lax b s) : φ'.finds lax b s := by
  rcases h with h | ⟨hlax, hidle, hφ⟩
  · exact .inl (expects_look hmove hs h)
  · refine .inr ⟨hlax, hidle, ?_⟩
    cases hmove with
    | look => simp [entered, hs, hidle, settles]
    | lookOrphan => simp [hs, settles]
    | relook => simp [entered, hs, hidle, settles]
    | releaseIdle => exact settles_released _
    | releaseRunning => rfl
    | forceSettled hterm => simp [hs] at hterm
    | forceOpen => rfl

theorem finds_other {a : Act} (hmove : Move b φ a φ') (h : φ.finds lax b s)
    (ha : a = .quiet ∨ (∃ ep answer, a = .model ep answer) ∨ ∃ job body ok, a = .publish job body ok) :
    φ'.finds lax b s := by
  rcases h with h | ⟨hlax, hidle, hφ⟩
  · exact .inl (expects_other hmove h ha)
  · refine .inr ⟨hlax, hidle, ?_⟩
    cases hmove with
    | quiet => exact hφ
    | weighForce => rfl
    | weighRelease => rfl
    | call ep answer => exact settles_answered ep answer
    | tellPartial => exact settles_afterLayout
    | tellFinal => cases hφ
    | tellComplete => cases hφ
    | _ => simp at ha

/-- After an applied request the next phase finds the page as it was put. -/
theorem finds_applied {target : PageState} {allowed : List PageState}
    {extra : List (PageField × Json)} {next : Bool → Bool → Phase} {completed : Bool}
    (hreq : Requests b φ target allowed extra next) (ht : target.terminal = false)
    (hspare : lax = false → ∀ ep, φ = releaseWrite (.refused ep) vlmRunning → b.final = false) :
    (next true completed).finds lax b target := by
  cases lax
  · exact .inl (expects_applied hreq ht (hspare rfl))
  · cases hreq with
    | @release site seen target hseen =>
      have hidle : target.running = false := by
        cases seen <;> simp [reclaimTarget] at hseen <;> subst hseen <;> rfl
      exact .inr ⟨rfl, hidle, settles_released site⟩
    | claim ep => exact .inl rfl
    | commitLayout => exact .inl rfl
    | commitDone => cases ht
    | degrade => cases ht
    | fail => cases ht
    | force seen =>
      exfalso
      revert ht
      unfold forceTarget
      split <;> decide

/-- A party is only told no if somebody has given the page back, and goes on unless it had
requested a claim or a terminal state. -/
theorem finds_refused {target : PageState} {allowed : List PageState}
    {extra : List (PageField × Json)} {next : Bool → Bool → Phase}
    (hreq : Requests b φ target allowed extra next) (h : φ.finds lax b s) (hrej : s ∉ allowed)
    (completed : Bool) :
    lax = true ∧ s.running = false ∧
      (target.running = false → target.terminal = false →
        (next false completed).settles = false) := by
  rcases h with h | ⟨hlax, hidle, -⟩
  · exact absurd (expects_allowed hreq h) hrej
  · refine ⟨hlax, hidle, fun hrun hterm => ?_⟩
    cases hreq with
    | release => exact settles_released _
    | claim ep => cases ep <;> cases hrun
    | commitLayout => exact settles_afterLayout
    | commitDone => cases hterm
    | degrade => cases hterm
    | fail => cases hterm
    | force seen =>
      exfalso
      revert hterm
      unfold forceTarget
      split <;> decide

/-- A party that is through with its entry only makes quiet moves. -/
theorem Move.of_ended {a : Act} (h : Move b ended a φ') : a = .quiet ∧ φ' = ended := by
  cases h with
  | quiet => exact ⟨rfl, rfl⟩
  | request h => cases h

/-- Every live party that keeps to a stage expects its page there. -/
def Kept (cfg : Settings) (f : Fleet) (φ : ℕ → Phase) : Prop :=
  ∀ t p ep, f.parties t = some p → Act.keeps p.recovering ep p.acts = true →
    (φ t).expects (p.brief cfg) ep.runningState

theorem Tick.kept {cfg : Settings} {f f' : Fleet} {φ φ' : ℕ → Phase} {l : Label}
    (h : Tick cfg f φ l f' φ') (hkept : Kept cfg f φ) : Kept cfg f' φ' := by
  intro t q ep hq hkeeps
  rcases h.party_cases hq with ⟨hp, hφ⟩ | ⟨-, hφ, hlog⟩ | ⟨p, c, ans, hp, hmove, prog, rfl⟩
  · rw [hφ]
    exact hkept t q ep hp hkeeps
  · rw [hφ]
    rw [Party.acts, hlog] at hkeeps
    exact .inl hkeeps
  · exact expects_keeps hmove (hkept t p ep hp) hkeeps

end Expects

/-! ## The token invariant -/

/-- Each page's token is an entry that answers for it, and whoever took the token last
finds the page as its phase expects, or has been told no. -/
structure Held (cfg : Settings) (lax : Bool) (told : ℕ → Prop) (f : Fleet) (φ : ℕ → Phase)
    (token : PageKey → Lane × StreamId) : Prop where
  present : ∀ key, f.enqueued key = true → f.Terminal key ∨
    ∃ e ∈ (f.redis.streams (token key).1).entries, e.id = (token key).2 ∧ e.About key
  untaken : ∀ key s, f.enqueued key = true → f.taker (token key) = none →
    f.redis.state? key = some s → s.running = false
  holder : ∀ t p s, f.parties t = some p → f.taker p.entry = some t → token p.key = p.entry →
    f.redis.state? p.key = some s → s.terminal = false →
      (φ t).finds lax (p.brief cfg) s ∨ lax = true ∧ told t
  own : lax = false → ∀ t p, f.parties t = some p → f.taker p.entry = some t → φ t ≠ ended →
    f.Terminal p.key ∨ f.Present p.entry

namespace Held
variable {cfg : Settings} {lax : Bool} {f f' : Fleet} {φ φ' : ℕ → Phase}
  {token : PageKey → Lane × StreamId} {told : ℕ → Prop} {l : Label}

theorem zeroDrop (h : Held cfg lax told f φ token) : f.ZeroDrop := by
  intro key hkey
  rcases h.present key hkey with hterm | ⟨e, he, -, habout⟩
  · exact .inl hterm
  · exact .inr ⟨(token key).1, e, he, habout⟩

theorem empty : Held cfg lax told Fleet.empty φ token := by
  constructor <;> simp [Fleet.empty]

/-- More may have been told no. -/
theorem mono (h : Held cfg lax told f φ token) {told' : ℕ → Prop} (hsub : ∀ t, told t → told' t) :
    Held cfg lax told' f φ token where
  present := h.present
  untaken := h.untaken
  holder t p s hp ht htok hs hsterm :=
    (h.holder t p s hp ht htok hs hsterm).imp_right fun hno => ⟨hno.1, hsub t hno.2⟩
  own := h.own

/-- Nothing the invariant looks at has changed, except that parties may be gone and pages
that were never enqueued may have appeared. -/
theorem frame (h : Held cfg lax told f φ token) (hbooks : Books f)
    (hparties : ∀ t p, f'.parties t = some p → f.parties t = some p)
    (htaker : f'.taker = f.taker) (henq : f'.enqueued = f.enqueued)
    (hstate : ∀ key, f.enqueued key = true → f'.redis.state? key = f.redis.state? key)
    (hentries : ∀ lane, (f'.redis.streams lane).entries = (f.redis.streams lane).entries) :
    Held cfg lax told f' φ token := by
  have hterm : ∀ key, f.enqueued key = true → f.Terminal key → f'.Terminal key := by
    rintro key hq ⟨s, hs, ht⟩
    exact ⟨s, (hstate key hq).trans hs, ht⟩
  constructor
  · intro key hq
    rw [henq] at hq
    rw [hentries]
    exact (h.present key hq).imp_left (hterm key hq)
  · intro key s hq ht hs
    rw [henq] at hq
    rw [htaker] at ht
    rw [hstate key hq] at hs
    exact h.untaken key s hq ht hs
  · intro t p s hp ht htok hs hsterm
    have hp := hparties t p hp
    rw [htaker] at ht
    rw [hstate _ (hbooks.partyPage t p hp)] at hs
    exact h.holder t p s hp ht htok hs hsterm
  · intro hlax t p hp ht hφ
    have hp := hparties t p hp
    rw [htaker] at ht
    rw [Fleet.Present, hentries]
    exact (h.own hlax t p hp ht hφ).imp_left (hterm _ (hbooks.partyPage t p hp))

theorem submit (h : Held cfg lax told f φ token) (hbooks : Books f) {job : JobId} {totalPages now : ℕ}
    (hnew : f.redis.jobs job = none) :
    Held cfg lax told { f with redis := initJob cfg now job totalPages f.redis } φ token :=
  h.frame hbooks (fun _ _ hp => hp) rfl rfl (fun _ hq => hbooks.state?_submit hnew hq)
    (fun _ => rfl)

theorem enqueue (h : Held cfg lax told f φ token) (hbooks : Books f) {key : PageKey} {now : ℕ}
    {traceId : String} (hnew : f.enqueued key = false) :
    Held cfg lax told { f with
      redis := f.redis.setStream (enqueueLane key)
        ((f.redis.streams (enqueueLane key)).xadd now (enqueueFields key now traceId)).2
      enqueued := Function.update f.enqueued key true } φ
      (Function.update token key
        (enqueueLane key, (f.redis.streams (enqueueLane key)).lastId.next now)) := by
  set lane := enqueueLane key
  set stream := ((f.redis.streams lane).xadd now (enqueueFields key now traceId)).2 with hstream
  have hgrow : ∀ l e, e ∈ (f.redis.streams l).entries →
      e ∈ ((f.redis.setStream lane stream).streams l).entries := by
    intro l e he
    by_cases hl : l = lane
    · subst hl
      simp only [Redis.setStream, Function.update_self, hstream, TaskStream.mem_xadd_entries]
      exact .inl he
    · simpa [Redis.setStream, hl] using he
  constructor
  · intro k hq
    by_cases hk : k = key
    · subst hk
      refine .inr ⟨⟨_, enqueueFields k now traceId⟩, ?_, by rw [Function.update_self], rfl, rfl⟩
      simp only [Function.update_self, Redis.setStream, hstream, TaskStream.mem_xadd_entries]
      exact .inr trivial
    · simp only [ne_eq, hk, not_false_eq_true, Function.update_of_ne] at hq ⊢
      refine (h.present k hq).imp_right ?_
      rintro ⟨e, he, hid, habout⟩
      exact ⟨e, hgrow _ e he, hid, habout⟩
  · intro k s hq ht hs
    by_cases hk : k = key
    · subst hk
      rw [hbooks.unqueued k s hnew hs]
      rfl
    · simp only [ne_eq, hk, not_false_eq_true, Function.update_of_ne] at hq ht
      exact h.untaken k s hq ht hs
  · intro t p s hp ht htok hs hsterm
    have hk : p.key ≠ key := by
      rintro rfl
      rw [hbooks.partyPage t p hp] at hnew
      cases hnew
    rw [Function.update_of_ne hk] at htok
    exact h.holder t p s hp ht htok hs hsterm
  · intro hlax t p hp ht hφ
    refine (h.own hlax t p hp ht hφ).imp_right ?_
    rintro ⟨e, he, hid⟩
    exact ⟨e, hgrow _ e he, hid⟩

theorem take (h : Held cfg lax told f φ token) (hbooks : Books f) {p : Party} {e : Entry}
    {stream : TaskStream} (ht : Taken f p e stream) :
    Held cfg lax told ({ f with redis := f.redis.setStream p.task.stream stream }.spawn p)
      (Function.update φ f.next look) token := by
  have hpentry : p.entry = (p.task.stream, e.id) := by rw [ht.id]; rfl
  have hentries := ht.entries_setStream
  constructor
  · intro key hq
    simp only [Fleet.spawn, hentries]
    exact h.present key hq
  · intro key s hq htaker hs
    by_cases htok : token key = p.entry
    · simp [Fleet.spawn, htok] at htaker
    · simp only [Fleet.spawn, ne_eq, htok, not_false_eq_true, Function.update_of_ne] at htaker
      exact h.untaken key s hq htaker hs
  · intro t q s hq htaker htok hs hsterm
    by_cases htn : t = f.next
    · subst htn
      obtain rfl := Option.some.inj (spawn_parties_self.symm.trans hq)
      rw [Function.update_self]
      rcases ht.how with ⟨hfirst, hbefore, -, -⟩ | ⟨hrec, -⟩
      · -- First delivery: nobody had the entry, so nobody has claimed the page.
        refine .inl (.inl (.inr (h.untaken p.key s ?_ ?_ hs)))
        · obtain ⟨key, habout, hq⟩ := hbooks.entryPage _ e ht.mem
          rw [← habout.unique ⟨ht.job, ht.page⟩]
          exact hq
        · rw [htok, hpentry]
          exact hbooks.taker_first hbefore
      · exact .inl (.inl (.inl hrec))
    · have hq := (spawn_parties_ne htn).symm.trans hq
      rw [Function.update_of_ne htn]
      by_cases hentry : q.entry = p.entry
      · simp only [Fleet.spawn, hentry, Function.update_self, Option.some.injEq] at htaker
        exact absurd htaker.symm htn
      · simp only [Fleet.spawn, ne_eq, hentry, not_false_eq_true, Function.update_of_ne] at htaker
        exact h.holder t q s hq htaker htok hs hsterm
  · intro hlax t q hq htaker hφ
    by_cases htn : t = f.next
    · subst htn
      obtain rfl := Option.some.inj (spawn_parties_self.symm.trans hq)
      refine .inr ⟨e, ?_, ht.id⟩
      simp only [Fleet.spawn, hentries]
      exact ht.mem
    · have hq := (spawn_parties_ne htn).symm.trans hq
      rw [Function.update_of_ne htn] at hφ
      by_cases hentry : q.entry = p.entry
      · simp only [Fleet.spawn, hentry, Function.update_self, Option.some.injEq] at htaker
        exact absurd htaker.symm htn
      · simp only [Fleet.spawn, ne_eq, hentry, not_false_eq_true, Function.update_of_ne] at htaker
        simp only [Fleet.Present, Fleet.spawn, hentries]
        exact h.own hlax t q hq htaker hφ

/-- Another entry of the page that answers for it takes over from the token. -/
theorem retoken (h : Held cfg lax told f φ token) (hlax : lax = true) (hkept : Kept cfg f φ)
    (hgiven : GivenUp f φ) {key : PageKey} {entry : Lane × StreamId}
    (hspare : f.spare key entry = true) :
    ∃ other, other ≠ entry ∧ Held cfg lax told f φ (Function.update token key other) := by
  simp only [Fleet.spare, List.any_eq_true, Bool.and_eq_true, decide_eq_true_eq] at hspare
  obtain ⟨lane, -, x, hx, ⟨habout, hne⟩, hanswers⟩ := hspare
  refine ⟨(lane, x.id), hne, ?_, ?_, ?_, fun hstrict => by rw [hstrict] at hlax; cases hlax⟩
  · intro k hq
    by_cases hk : k = key
    · subst hk
      rw [Function.update_self]
      exact .inr ⟨x, hx, rfl, Entry.about_of_isAbout habout⟩
    · rw [Function.update_of_ne hk]
      exact h.present k hq
  · intro k s hq ht hs
    by_cases hk : k = key
    · subst hk
      rw [Function.update_self] at ht
      simp only [Fleet.answers, ht, hs, Option.bind_some, Option.isNone_iff_eq_none] at hanswers
      cases s <;> first | rfl | cases hanswers
    · rw [Function.update_of_ne hk] at ht
      exact h.untaken k s hq ht hs
  · intro t q s hq ht htok hs hsterm
    by_cases hk : q.key = key
    · subst hk
      rw [Function.update_self] at htok
      rw [← htok] at ht
      simp only [Fleet.answers, ht, hq, hs, Option.bind_some] at hanswers
      left
      cases hstage : s.stage? with
      | none =>
        have hidle : s.running = false := by
          cases s <;> first | rfl | cases hstage
        simp only [hstage, Bool.not_eq_true'] at hanswers
        refine .inr ⟨hlax, hidle, ?_⟩
        cases hsettles : (φ t).settles
        · rfl
        · rw [hgiven t q hq hsettles] at hanswers
          cases hanswers
      | some ep =>
        simp only [hstage] at hanswers
        obtain rfl : s = ep.runningState := by
          cases s <;> cases hstage <;> rfl
        exact .inl (hkept t q ep hq hanswers)
    · rw [Function.update_of_ne hk] at htok
      exact h.holder t q s hq ht htok hs hsterm

/-! ### One act -/

section Act
variable {t : ℕ} {p : Party} {e : Event} {prog : Py Unit} {s' : Redis} {φ₁ : Phase}
  {target st : PageState}

/-- What is left of a party's program does not matter: after an act it is enough to look at the
parties as they were. -/
theorem resume {φ' : ℕ → Phase} (h : Held cfg lax told { f with redis := s' } φ' token)
    (hparty : f.parties t = some p) : Held cfg lax told (f.resume t p e prog s') φ' token := by
  refine ⟨h.present, h.untaken, ?_, ?_⟩
  · intro t' q s hq ht htok hs hsterm
    obtain ⟨q', hq', hkey, hentry, -, hbrief⟩ := resume_parties_back cfg hparty hq
    rw [hentry] at ht htok
    rw [hkey] at htok hs
    rw [hbrief]
    exact h.holder t' q' s hq' ht htok hs hsterm
  · intro hlax t' q hq ht hφ
    obtain ⟨q', hq', hkey, hentry, -⟩ := resume_parties_back cfg hparty hq
    rw [hentry] at ht ⊢
    rw [hkey]
    exact h.own hlax t' q' hq' ht hφ

/-- Who is not through with its entry now was not before. -/
theorem ne_ended_of_update {t' : ℕ} (hover : φ t = ended → φ₁ = ended)
    (hφ : Function.update φ t φ₁ t' ≠ ended) : φ t' ≠ ended := by
  intro hended
  by_cases htt : t' = t
  · subst htt
    exact hφ (by rw [Function.update_self]; exact hover hended)
  · exact hφ (by rw [Function.update_of_ne htt]; exact hended)

/-- An act that leaves page states and entries alone. -/
theorem act_still (h : Held cfg lax told f φ token) (hparty : f.parties t = some p)
    (hstates : s'.state? = f.redis.state?)
    (hentries : ∀ lane, (s'.streams lane).entries = (f.redis.streams lane).entries)
    (hfinds : ∀ s, f.redis.state? p.key = some s → s.terminal = false →
      f.taker p.entry = some t → token p.key = p.entry →
      (φ t).finds lax (p.brief cfg) s → φ₁.finds lax (p.brief cfg) s ∨ lax = true ∧ told t)
    (hover : φ t = ended → φ₁ = ended) :
    Held cfg lax told (f.resume t p e prog s') (Function.update φ t φ₁) token := by
  refine resume ⟨?_, ?_, ?_, ?_⟩ hparty
  · intro key hq
    simpa only [Fleet.Terminal, hstates, hentries] using h.present key hq
  · intro key s hq ht hs
    rw [hstates] at hs
    exact h.untaken key s hq ht hs
  · intro t' q s hq ht htok hs hsterm
    rw [hstates] at hs
    have hold := h.holder t' q s hq ht htok hs hsterm
    by_cases htt : t' = t
    · subst htt
      obtain rfl := Option.some.inj (hparty.symm.trans hq)
      rw [Function.update_self]
      exact hold.elim (hfinds s hs hsterm ht htok) .inr
    · rw [Function.update_of_ne htt]
      exact hold
  · intro hlax t' q hq ht hφ
    simpa only [Fleet.Terminal, Fleet.Present, hstates, hentries] using
      h.own hlax t' q hq ht (ne_ended_of_update hover hφ)

/-- A transition to a terminal state settles the page for everybody. -/
theorem act_terminal (h : Held cfg lax told f φ token) (hparty : f.parties t = some p)
    (hstates : s'.state? = Function.update f.redis.state? p.key (some target))
    (hentries : ∀ lane, (s'.streams lane).entries = (f.redis.streams lane).entries)
    (htarget : target.terminal = true) (hφ : φ t ≠ ended) :
    Held cfg lax told (f.resume t p e prog s') (Function.update φ t φ₁) token := by
  have hother : ∀ key, key ≠ p.key → s'.state? key = f.redis.state? key := by
    intro key hk
    rw [hstates, Function.update_of_ne hk]
  have hterm : ∀ key, f.Terminal key → ({ f with redis := s' } : Fleet).Terminal key := by
    rintro key ⟨s, hs, hterm⟩
    by_cases hk : key = p.key
    · exact ⟨target, by rw [hk, hstates, Function.update_self], htarget⟩
    · exact ⟨s, by rw [← hs]; exact hother key hk, hterm⟩
  refine resume ⟨?_, ?_, ?_, ?_⟩ hparty
  · intro key hq
    simp only [hentries]
    exact (h.present key hq).imp_left (hterm key)
  · intro key s hq ht hs
    by_cases hk : key = p.key
    · rw [hk, hstates, Function.update_self, Option.some.injEq] at hs
      subst hs
      revert htarget
      cases target <;> decide
    · rw [hother key hk] at hs
      exact h.untaken key s hq ht hs
  · intro t' q s hq ht htok hs hsterm
    by_cases hk : q.key = p.key
    · rw [hk, hstates, Function.update_self, Option.some.injEq] at hs
      rw [hs, hsterm] at htarget
      cases htarget
    · rw [hother _ hk] at hs
      by_cases htt : t' = t
      · subst htt
        obtain rfl := Option.some.inj (hparty.symm.trans hq)
        exact absurd rfl hk
      · rw [Function.update_of_ne htt]
        exact h.holder t' q s hq ht htok hs hsterm
  · intro hlax t' q hq ht hφ'
    simp only [Fleet.Present, hentries]
    exact (h.own hlax t' q hq ht (ne_ended_of_update (fun hover => absurd hover hφ) hφ')).imp_left
      (hterm _)

/-- An open page stays as open, and the others as terminal, if only its state changes. -/
theorem terminal_of_open (hstates : s'.state? = Function.update f.redis.state? p.key (some target))
    (hst : f.redis.state? p.key = some st) (hstterm : st.terminal = false) (key : PageKey)
    (h : f.Terminal key) : ({ f with redis := s' } : Fleet).Terminal key := by
  obtain ⟨s, hs, hterm⟩ := h
  refine ⟨s, ?_, hterm⟩
  rw [← hs]
  refine (congrFun hstates key).trans (Function.update_of_ne ?_ _ _)
  rintro rfl
  rw [hst, Option.some.injEq] at hs
  rw [← hs, hstterm] at hterm
  cases hterm

/-- A party that has lost its entry gives the page back, which everybody can live with. -/
theorem act_returned (h : Held cfg lax told f φ token) (hlax : lax = true)
    (hparty : f.parties t = some p) (htaker : f.has t p = false)
    (hstates : s'.state? = Function.update f.redis.state? p.key (some target))
    (hentries : ∀ lane, (s'.streams lane).entries = (f.redis.streams lane).entries)
    (hst : f.redis.state? p.key = some st) (hstterm : st.terminal = false)
    (hidle : target.running = false) (hbooks : Books f) :
    Held cfg lax told (f.resume t p e prog s') (Function.update φ t φ₁) token := by
  have hother : ∀ key, key ≠ p.key → s'.state? key = f.redis.state? key := by
    intro key hk
    rw [hstates, Function.update_of_ne hk]
  refine resume ⟨?_, ?_, ?_, fun hstrict => by rw [hstrict] at hlax; cases hlax⟩ hparty
  · intro key hq
    simp only [hentries]
    exact (h.present key hq).imp_left (terminal_of_open hstates hst hstterm key)
  · intro key s hq ht hs
    by_cases hk : key = p.key
    · rw [hk, hstates, Function.update_self, Option.some.injEq] at hs
      rw [← hs]
      exact hidle
    · rw [hother key hk] at hs
      exact h.untaken key s hq ht hs
  · intro t' q s hq ht htok hs hsterm
    have htt : t' ≠ t := by
      rintro rfl
      obtain rfl := Option.some.inj (hparty.symm.trans hq)
      -- It would answer for the page with an entry that is not there.
      rcases h.present p.key (hbooks.partyPage t' p hparty) with ⟨s₀, hs₀, hterm⟩ | ⟨x, hx, hid, -⟩
      · rw [hst, Option.some.injEq] at hs₀
        rw [← hs₀, hstterm] at hterm
        cases hterm
      · rw [htok] at hx hid
        have hhas : f.has t' p = true := Fleet.has_eq_true.mpr ⟨ht, x, hx, hid⟩
        rw [hhas] at htaker
        cases htaker
    rw [Function.update_of_ne htt]
    by_cases hk : q.key = p.key
    · rw [hk, hstates, Function.update_self, Option.some.injEq] at hs
      have hold := h.holder t' q st hq ht htok (by rw [hk]; exact hst) hstterm
      exact hold.imp_left fun hfinds => .inr ⟨hlax, hs ▸ hidle, settles_of_finds hfinds⟩
    · rw [hother _ hk] at hs
      exact h.holder t' q s hq ht htok hs hsterm

/-- An applied transition by the party that has its entry moves the token there. -/
theorem act_moved (h : Held cfg lax told f φ token) (hbooks : Books f) (hparty : f.parties t = some p)
    (htaker : f.taker p.entry = some t) (hpresent : f.Present p.entry)
    (hstates : s'.state? = Function.update f.redis.state? p.key (some target))
    (hentries : ∀ lane, (s'.streams lane).entries = (f.redis.streams lane).entries)
    (hst : f.redis.state? p.key = some st) (hstterm : st.terminal = false)
    (hfinds : φ₁.finds lax (p.brief cfg) target) (hφ : φ t ≠ ended) :
    Held cfg lax told (f.resume t p e prog s') (Function.update φ t φ₁)
      (Function.update token p.key p.entry) := by
  have hother : ∀ key, key ≠ p.key → s'.state? key = f.redis.state? key := by
    intro key hk
    rw [hstates, Function.update_of_ne hk]
  have hterm := terminal_of_open hstates hst hstterm
  refine resume ⟨?_, ?_, ?_, ?_⟩ hparty
  · intro key hq
    simp only [hentries]
    by_cases hk : key = p.key
    · subst hk
      rw [Function.update_self]
      obtain ⟨x, hx, hid⟩ := hpresent
      exact .inr ⟨x, hx, hid, hbooks.partyEntry t p hparty x hx hid⟩
    · rw [Function.update_of_ne hk]
      exact (h.present key hq).imp_left (hterm key)
  · intro key s hq ht hs
    by_cases hk : key = p.key
    · subst hk
      rw [Function.update_self, htaker] at ht
      cases ht
    · rw [Function.update_of_ne hk] at ht
      rw [hother key hk] at hs
      exact h.untaken key s hq ht hs
  · intro t' q s hq ht htok hs hsterm
    by_cases htt : t' = t
    · subst htt
      obtain rfl := Option.some.inj (hparty.symm.trans hq)
      rw [Function.update_self]
      rw [hstates, Function.update_self, Option.some.injEq] at hs
      exact .inl (hs ▸ hfinds)
    · rw [Function.update_of_ne htt]
      by_cases hk : q.key = p.key
      · -- The token is now at this party's entry, which has one taker.
        rw [hk, Function.update_self] at htok
        rw [← htok, htaker] at ht
        exact absurd (Option.some.inj ht).symm htt
      · rw [Function.update_of_ne hk] at htok
        rw [hother _ hk] at hs
        exact h.holder t' q s hq ht htok hs hsterm
  · intro hlax t' q hq ht hφ'
    simp only [Fleet.Present, hentries]
    exact (h.own hlax t' q hq ht (ne_ended_of_update (fun hover => absurd hover hφ) hφ')).imp_left
      (hterm _)

/-- A requeue by the party that answers for the page hands the token to the fresh entry. -/
theorem act_add (h : Held cfg lax told f φ token) (htold : StoodDown f φ told) (hbooks : Books f)
    (hparty : f.parties t = some p) {fields : RawTask} {now : ℕ} (hstates : s'.state? = f.redis.state?)
    (hstreams : s'.streams =
      Function.update f.redis.streams .main ((f.redis.streams .main).xadd now fields).2)
    (habout : ∀ id, (⟨id, fields⟩ : Entry).About p.key) (hφ : φ t = requeueing) :
    ∃ token', Held cfg lax told (f.resume t p e prog s') (Function.update φ t settling) token' := by
  have hgrow : ∀ lane x, x ∈ (f.redis.streams lane).entries → x ∈ (s'.streams lane).entries := by
    intro lane x hx
    rw [hstreams]
    by_cases hl : lane = .main
    · subst hl
      rw [Function.update_self, TaskStream.mem_xadd_entries]
      exact .inl hx
    · rwa [Function.update_of_ne hl]
  have hterm : ∀ key, f.Terminal key → ({ f with redis := s' } : Fleet).Terminal key := by
    rintro key ⟨s, hs, hterm⟩
    exact ⟨s, by rw [← hs]; exact congrFun hstates key, hterm⟩
  have hold : ∀ key, f.enqueued key = true → ({ f with redis := s' } : Fleet).Terminal key ∨
      ∃ x ∈ (s'.streams (token key).1).entries, x.id = (token key).2 ∧ x.About key := by
    intro key hq
    refine (h.present key hq).imp (hterm key) ?_
    rintro ⟨x, hx, hid, hx'⟩
    exact ⟨x, hgrow _ x hx, hid, hx'⟩
  have hown : lax = false → ∀ t' q, f.parties t' = some q → f.taker q.entry = some t' →
      Function.update φ t settling t' ≠ ended →
      ({ f with redis := s' } : Fleet).Terminal q.key ∨
        ({ f with redis := s' } : Fleet).Present q.entry := by
    intro hlax t' q hq ht hφ'
    have hne := ne_ended_of_update (fun hover => by rw [hφ] at hover; cases hover) hφ'
    refine (h.own hlax t' q hq ht hne).imp (hterm _) ?_
    rintro ⟨x, hx, hid⟩
    exact ⟨x, hgrow _ x hx, hid⟩
  by_cases hmine : f.taker p.entry = some t ∧ token p.key = p.entry
  · refine ⟨Function.update token p.key (.main, (f.redis.streams .main).lastId.next now),
      resume ⟨?_, ?_, ?_, hown⟩ hparty⟩
    · intro key hq
      by_cases hk : key = p.key
      · subst hk
        refine .inr ⟨⟨_, fields⟩, ?_, by rw [Function.update_self], habout _⟩
        simp only [hstreams, Function.update_self, TaskStream.mem_xadd_entries]
        exact .inr trivial
      · rw [Function.update_of_ne hk]
        exact hold key hq
    · intro key s hq ht hs
      simp only [hstates] at hs ht
      by_cases hk : key = p.key
      · subst hk
        cases hterm : s.terminal
        · rcases h.holder t p s hparty hmine.1 hmine.2 hs hterm with hfinds | ⟨-, hno⟩
          · rw [hφ] at hfinds
            exact hfinds.elim id fun hlax => hlax.2.1
          · have hleaves := (htold.leaving t p hno hparty).2
            rw [hφ] at hleaves
            rcases hleaves with hleaves | hleaves <;> cases hleaves
        · revert hterm
          cases s <;> decide
      · rw [Function.update_of_ne hk] at ht
        exact h.untaken key s hq ht hs
    · intro t' q s hq ht htok hs hsterm
      simp only [hstates] at hs ht
      by_cases hk : q.key = p.key
      · -- The fresh entry is nobody's yet.
        rw [hk, Function.update_self] at htok
        have hfresh := hbooks.taken_ne_next (hbooks.partyTaken t' q hq) now
        rw [← htok] at hfresh
        exact absurd rfl hfresh
      · rw [Function.update_of_ne hk] at htok
        have htt : t' ≠ t := by
          rintro rfl
          obtain rfl := Option.some.inj (hparty.symm.trans hq)
          exact hk rfl
        rw [Function.update_of_ne htt]
        exact h.holder t' q s hq ht htok hs hsterm
  · refine ⟨token, resume ⟨hold, ?_, ?_, hown⟩ hparty⟩
    · intro key s hq ht hs
      rw [hstates] at hs
      exact h.untaken key s hq ht hs
    · intro t' q s hq ht htok hs hsterm
      rw [hstates] at hs
      have htt : t' ≠ t := by
        rintro rfl
        obtain rfl := Option.some.inj (hparty.symm.trans hq)
        exact hmine ⟨ht, htok⟩
      rw [Function.update_of_ne htt]
      exact h.holder t' q s hq ht htok hs hsterm

/-- Deleting an entry deletes no token of an open page: its holder has nothing left to
expect, and one who has lost the entry deletes it only if another one is the token. -/
theorem act_del (h : Held cfg lax told f φ token) (hbooks : Books f) (hparty : f.parties t = some p)
    (hstates : s'.state? = f.redis.state?)
    (hstreams : s'.streams = Function.update f.redis.streams p.entry.1
      ((f.redis.streams p.entry.1).xdel p.entry.2)) (hφ : φ t = deleting)
    (hfence : (f.taker p.entry = some t ∧ (lax = true → ¬told t)) ∨ f.Terminal p.key ∨
      ¬f.Present p.entry ∨ token p.key ≠ p.entry)
    (hstrict : lax = false → f.taker p.entry = some t) :
    Held cfg lax told (f.resume t p e prog s') (Function.update φ t ended) token := by
  have hkeep : ∀ lane x, x ∈ (f.redis.streams lane).entries → (lane, x.id) ≠ p.entry →
      x ∈ (s'.streams lane).entries := by
    intro lane x hx hne
    rw [hstreams]
    by_cases hl : lane = p.entry.1
    · subst hl
      rw [Function.update_self, TaskStream.mem_xdel_entries]
      refine ⟨hx, fun hid => hne ?_⟩
      rw [hid]
    · rwa [Function.update_of_ne hl]
  have hterm : ∀ key, f.Terminal key → ({ f with redis := s' } : Fleet).Terminal key := by
    rintro key ⟨s, hs, hterm⟩
    exact ⟨s, by rw [← hs]; exact congrFun hstates key, hterm⟩
  refine resume ⟨?_, ?_, ?_, ?_⟩ hparty
  · intro key hq
    rcases h.present key hq with hdone | ⟨x, hx, hid, habout⟩
    · exact .inl (hterm key hdone)
    · by_cases htok : token key = p.entry
      · -- The token is the entry being deleted: then the page is terminal.
        left
        apply hterm
        rw [htok] at hx hid
        obtain rfl := habout.unique (hbooks.partyEntry t p hparty x hx hid)
        rcases hfence with ⟨htaker, hno⟩ | hdone | hgone | hother
        · obtain ⟨s, hs⟩ := Option.isSome_iff_exists.mp (hbooks.queued _ hq)
          cases hsterm : s.terminal
          · rcases h.holder t p s hparty htaker htok hs hsterm with hfinds | ⟨hlax, htold⟩
            · have hsettles := settles_of_finds hfinds
              rw [hφ] at hsettles
              cases hsettles
            · exact absurd htold (hno hlax)
          · exact ⟨s, hs, hsterm⟩
        · exact hdone
        · exact absurd ⟨x, hx, hid⟩ hgone
        · exact absurd htok hother
      · refine .inr ⟨x, hkeep _ x hx ?_, hid, habout⟩
        rw [hid]
        exact htok
  · intro key s hq ht hs
    rw [hstates] at hs
    exact h.untaken key s hq ht hs
  · intro t' q s hq ht htok hs hsterm
    rw [hstates] at hs
    by_cases htt : t' = t
    · subst htt
      rw [Function.update_self]
      exact .inl (.inl trivial)
    · rw [Function.update_of_ne htt]
      exact h.holder t' q s hq ht htok hs hsterm
  · intro hlax t' q hq ht hφ'
    have htt : t' ≠ t := by
      rintro rfl
      exact hφ' (Function.update_self ..)
    rw [Function.update_of_ne htt] at hφ'
    have hne : q.entry ≠ p.entry := by
      intro hsame
      rw [hsame, hstrict hlax, Option.some.injEq] at ht
      exact htt ht.symm
    refine (h.own hlax t' q hq ht hφ').imp (hterm _) ?_
    rintro ⟨x, hx, hid⟩
    exact ⟨x, hkeep _ x hx (by rw [hid]; exact hne), hid⟩

/-- A request by a party that has its entry, or one that does not move the page into a stage.  Whoever
answers for an open page that nobody has claimed and stands down after a no has been told so. -/
theorem act_request (h : Held cfg lax told f φ token) (htold : StoodDown f φ told) (hbooks : Books f)
    (hparty : f.parties t = some p)
    {allowed : List PageState} {extra : List (PageField × Json)} {ok completed : Bool}
    (hmove : Move (p.brief cfg) (φ t) (.request p.key target allowed extra ok completed) φ₁)
    (heffect : Effect f.redis s' (.request p.key target allowed extra ok completed))
    (happlied : ok = true → target.terminal = false →
      f.taker p.entry = some t ∧ f.Present p.entry ∨
        lax = true ∧ f.has t p = false ∧ target.running = false)
    (hspare : ok = true → lax = false → ∀ ep, φ t = releaseWrite (.refused ep) vlmRunning →
      p.final = false) :
    (∃ token', Held cfg lax told (f.resume t p e prog s') (Function.update φ t φ₁) token') ∨
      ok = false ∧ (target.running = true ∨ target.terminal = true) ∧ φ₁.settles = true ∧
        (∃ s, f.redis.state? p.key = some s ∧ s.terminal = false ∧ s.running = false) ∧
          Held cfg lax (fun t' => told t' ∨ t' = t) (f.resume t p e prog s')
            (Function.update φ t φ₁) token := by
  obtain ⟨hstreams, -, hstate⟩ := heffect
  have hentries : ∀ lane, (s'.streams lane).entries = (f.redis.streams lane).entries := by
    intro lane
    rw [hstreams]
  have hstays : ¬(φ t).leaves := by
    obtain ⟨next, hreq⟩ := hmove.requests
    exact hreq.not_leaves
  have hnotOver : φ t ≠ ended := fun hover => hstays (.inr hover)
  generalize hφ : φ t = φ₀ at hmove hspare
  cases hmove with
  | @request _ _ _ _ next hreq ok completed =>
    rcases hstate with ⟨rfl, ⟨st, hst, hs⟩, hup⟩ | ⟨rfl, hrej, hsame⟩
    · left
      have hopen := terminal_eq_false_of_mem_predecessors (hreq.allowed_subset hst)
      cases hterm : target.terminal
      · rcases happlied rfl hterm with ⟨htaker, hpresent⟩ | ⟨hlax, hlost, hidle⟩
        · exact ⟨_, h.act_moved hbooks hparty htaker hpresent hup hentries hs hopen
            (finds_applied hreq hterm (hspare rfl)) hnotOver⟩
        · exact ⟨_, h.act_returned hlax hparty hlost hup hentries hs hopen hidle hbooks⟩
      · exact ⟨token, h.act_terminal hparty hup hentries hterm hnotOver⟩
    · by_cases hgoes : (next false completed).settles = false ∨
          ¬(f.taker p.entry = some t ∧ token p.key = p.entry ∧ ¬f.Terminal p.key)
      · refine .inl ⟨token, h.act_still hparty hsame hentries ?_ fun hover => absurd hover hnotOver⟩
        intro s hs hsterm htaker htok hfinds
        rw [hφ] at hfinds
        obtain ⟨hlax, hidle, -⟩ := finds_refused hreq hfinds (fun hin => hrej s hin hs) completed
        refine .inl (.inr ⟨hlax, hidle, hgoes.resolve_right fun hnot => hnot ⟨htaker, htok, ?_⟩⟩)
        rintro ⟨s₀, hs₀, hterm⟩
        rw [hs, Option.some.injEq] at hs₀
        rw [← hs₀, hsterm] at hterm
        cases hterm
      · -- It answers for the page, and stands down.
        simp only [not_or, not_not, Bool.not_eq_false] at hgoes
        obtain ⟨hsettles, htaker, htok, hopen⟩ := hgoes
        obtain ⟨s, hs⟩ := Option.isSome_iff_exists.mp
          (hbooks.queued _ (hbooks.partyPage t p hparty))
        have hsterm : s.terminal = false := by
          cases hterm : s.terminal
          · rfl
          · exact absurd ⟨s, hs, hterm⟩ hopen
        have hfinds := (h.holder t p s hparty htaker htok hs hsterm).resolve_right
          fun hno => hstays (htold.leaving t p hno.2 hparty).2
        rw [hφ] at hfinds
        obtain ⟨hlax, hidle, hgo⟩ := finds_refused hreq hfinds (fun hin => hrej s hin hs) completed
        have htarget : target.running = true ∨ target.terminal = true := by
          by_contra hnot
          rw [not_or, Bool.not_eq_true, Bool.not_eq_true] at hnot
          have hgo := hgo hnot.1 hnot.2
          rw [hsettles] at hgo
          cases hgo
        refine .inr ⟨rfl, htarget, hsettles, ⟨s, hs, hsterm, hidle⟩, ?_⟩
        exact (h.mono fun _ => .inl).act_still hparty hsame hentries
          (fun _ _ _ _ _ _ => .inr ⟨hlax, .inr rfl⟩) fun hover => absurd hover hnotOver

end Act

end Held

/-! ## Runs -/

section Runs
variable {cfg : Settings} {f f' : Fleet} {φ φ' : ℕ → Phase} {l : Label}
  {token : PageKey → Lane × StreamId} {told : ℕ → Prop}

/-- What a run has to meet: in a lax one, parties that have lost their entry are fenced; in a strict
one nobody loses an entry, and refused final attempts spare VLM claims. -/
structure Guarded (lax : Bool) (f : Fleet) (l : Label) : Prop where
  fenced : lax = true → fenced f l = true
  spares : lax = false → sparesVlmClaims f l = true
  undisturbed : lax = false → ∀ t p, f.parties t = some p → f.taker p.entry = some t

/-- The claim that a refused final attempt gives up is the layout claim. -/
theorem final_of_sparesVlmClaims {t : ℕ} {o : Oracle} {p : Party} {target : PageState}
    {allowed : List PageState} {extra : List (PageField × Json)} {ok completed : Bool} {ep : Endpoint}
    (hparty : f.parties t = some p)
    (hawaited : p.awaited = some (.evalTransition p.key target allowed extra))
    (hmove : Move (p.brief cfg) (releaseWrite (.refused ep) vlmRunning)
      (.request p.key target allowed extra ok completed) φ₁)
    (happlied : ∃ st ∈ allowed, f.redis.state? p.key = some st)
    (hrem : Remembers p (releaseWrite (.refused ep) vlmRunning))
    (hspares : sparesVlmClaims f (.run t o) = true) : p.final = false := by
  cases ep with
  | vlm => exact hrem.notFinal rfl
  | layout =>
    obtain ⟨st, hst, hs⟩ := happlied
    obtain ⟨htarget, rfl⟩ := hmove.releaseWrite_spec
    obtain rfl := Option.some.inj htarget
    obtain rfl := List.mem_singleton.mp hst
    simpa [sparesVlmClaims, hparty, hawaited, hs, hrem.refused rfl] using hspares

/-- A request is applied to a party that has its entry, or it moves the page into no stage. -/
theorem Guarded.applied {lax : Bool} {t : ℕ} {o : Oracle} {p : Party} {target st : PageState}
    {allowed : List PageState} {extra : List (PageField × Json)} (h : Guarded lax f (.run t o))
    (hheld : Held cfg lax told f φ token) (hparty : f.parties t = some p)
    (hawaited : p.awaited = some (.evalTransition p.key target allowed extra))
    (hst : st ∈ allowed) (hs : f.redis.state? p.key = some st) (hopen : st.terminal = false)
    (hnotOver : φ t ≠ ended) :
    f.taker p.entry = some t ∧ f.Present p.entry ∨
      lax = true ∧ f.has t p = false ∧ target.running = false := by
  cases lax with
  | false =>
    have htaker := h.undisturbed rfl t p hparty
    refine .inl ⟨htaker, (hheld.own rfl t p hparty htaker hnotOver).resolve_left ?_⟩
    rintro ⟨s, hs', hterm⟩
    rw [hs, Option.some.injEq] at hs'
    rw [← hs', hopen] at hterm
    cases hterm
  | true =>
    have hfence := h.fenced rfl
    simp only [OcrOrchestrator.fenced, hparty, hawaited, hs, Option.any_some, hst, decide_true,
      Bool.not_true, Bool.or_false, Bool.or_eq_true, Bool.not_eq_true'] at hfence
    cases hhas : f.has t p
    · rw [hhas] at hfence
      exact .inr ⟨rfl, rfl, hfence.resolve_left Bool.false_ne_true⟩
    · exact .inl (Fleet.has_eq_true.mp hhas)

/-- A deletion keeps a token: whoever has lost its entry, or has been told no, deletes one that is
gone, or whose page is terminal, or has another that answers. -/
theorem Guarded.act_del {lax : Bool} {t : ℕ} {o : Oracle} {p : Party} {e : Event}
    {prog : Py Unit} {s' : Redis} (h : Guarded lax f (.run t o)) (hheld : Held cfg lax told f φ token)
    (htold : StoodDown f φ told) (hkept : Kept cfg f φ) (hgiven : GivenUp f φ) (hbooks : Books f)
    (hparty : f.parties t = some p) (hawaited : p.awaited = some (.xdel p.entry.1 p.entry.2))
    (hstates : s'.state? = f.redis.state?)
    (hstreams : s'.streams = Function.update f.redis.streams p.entry.1
      ((f.redis.streams p.entry.1).xdel p.entry.2)) (hφ : φ t = deleting) :
    ∃ token', Held cfg lax told (f.resume t p e prog s') (Function.update φ t ended) token' := by
  cases lax with
  | false =>
    have htaker := h.undisturbed rfl t p hparty
    exact ⟨token, hheld.act_del hbooks hparty hstates hstreams hφ (.inl ⟨htaker, nofun⟩)
      fun _ => htaker⟩
  | true =>
    have hfence := h.fenced rfl
    simp only [OcrOrchestrator.fenced, hparty, hawaited, Bool.or_eq_true, Bool.and_eq_true,
      decide_eq_true_eq, Bool.not_eq_true', Option.any_eq_true, Option.isNone_iff_eq_none] at hfence
    rcases hfence with ((⟨htaker, hno⟩ | hterm) | hgone) | hspare
    · refine ⟨token, hheld.act_del hbooks hparty hstates hstreams hφ
        (.inl ⟨htaker, fun _ ht => ?_⟩) nofun⟩
      rw [(htold.leaving t p ht hparty).1] at hno
      cases hno
    · exact ⟨token, hheld.act_del hbooks hparty hstates hstreams hφ (.inr (.inl hterm)) nofun⟩
    · refine ⟨token, hheld.act_del hbooks hparty hstates hstreams hφ
        (.inr (.inr (.inl fun hpresent => ?_))) nofun⟩
      have hnone : (f.redis.streams p.entry.1).stored? p.entry.2 = none := hgone
      rw [Fleet.present_iff, hnone] at hpresent
      cases hpresent
    · -- The token passes to the other entry first.
      obtain ⟨other, hother, hmoved⟩ := hheld.retoken rfl hkept hgiven hspare
      refine ⟨_, hmoved.act_del hbooks hparty hstates hstreams hφ (.inr (.inr (.inr ?_))) nofun⟩
      rwa [Function.update_self]

/-- An acknowledgement leaves the entries as they are. -/
theorem Held.act_ack {lax : Bool} {t : ℕ} {p : Party} {e : Event} {prog : Py Unit} {s' : Redis}
    {φ₁ : Phase} {entry : Lane × StreamId} (h : Held cfg lax told f φ token)
    (hparty : f.parties t = some p) (hmove : Move (p.brief cfg) (φ t) (.xack entry) φ₁)
    (heffect : Effect f.redis s' (.xack entry)) (hover : φ t = ended → φ₁ = ended) :
    Held cfg lax told (f.resume t p e prog s') (Function.update φ t φ₁) token := by
  refine h.act_still hparty heffect.2.1 ?_ ?_ hover
  · intro lane
    rw [heffect.2.2]
    by_cases hl : lane = entry.1
    · subst hl
      rw [Function.update_self, TaskStream.xack_entries]
    · rw [Function.update_of_ne hl]
  · intro s _ _ _ _ hfinds
    have hsettles := settles_of_finds hfinds
    rw [hmove.xack_spec.1] at hsettles
    cases hsettles

/-- A party's act keeps a token, and whoever is told no remembers it. -/
theorem Guarded.act {lax : Bool} {t : ℕ} {o : Oracle} {p : Party} {c : Cmd}
    {k : Except Exn (Ret c) → Py Unit} {prog : Py Unit} {φ₁ : Phase}
    (h : Guarded lax f (.run t o)) (hheld : Held cfg lax told f φ token) (htold : StoodDown f φ told)
    (hkept : Kept cfg f φ) (hgiven : GivenUp f φ) (hbooks : Books f) (hrem : Remembered f φ)
    (hparty : f.parties t = some p) (hlt : t < f.next) (hprog : p.prog = .call c k)
    (hmove : Move (p.brief cfg) (φ t) (Act.of c (c.exec cfg o f.redis).1) φ₁)
    (heffect : Effect f.redis (c.exec cfg o f.redis).2 (Act.of c (c.exec cfg o f.redis).1))
    (htold' : StoodDown (f.resume t p ⟨c, (c.exec cfg o f.redis).1⟩ prog (c.exec cfg o f.redis).2)
      (Function.update φ t φ₁) told) :
    ∃ told' token', StoodDown (f.resume t p ⟨c, (c.exec cfg o f.redis).1⟩ prog (c.exec cfg o f.redis).2)
        (Function.update φ t φ₁) told' ∧
      Held cfg lax told'
        (f.resume t p ⟨c, (c.exec cfg o f.redis).1⟩ prog (c.exec cfg o f.redis).2)
        (Function.update φ t φ₁) token' := by
  have hawaited : p.awaited = some c := by simp [Party.awaited, hprog]
  generalize hs' : (c.exec cfg o f.redis).2 = s' at heffect htold'
  generalize ha : Act.of c (c.exec cfg o f.redis).1 = a at hmove heffect
  have hover : φ t = ended → φ₁ = ended := by
    intro hφ
    rw [hφ] at hmove
    exact hmove.of_ended.2
  cases a with
  | quiet =>
    exact ⟨told, token, htold', hheld.act_still hparty heffect.2.2 (fun lane => by rw [heffect.1])
      (fun s _ _ _ _ hfinds => .inl (finds_other hmove hfinds (.inl rfl))) hover⟩
  | model ep answer =>
    exact ⟨told, token, htold', hheld.act_still hparty (congrArg Redis.state? heffect)
      (fun lane => by rw [show s' = f.redis from heffect])
      (fun s _ _ _ _ hfinds => .inl (finds_other hmove hfinds (.inr (.inl ⟨_, _, rfl⟩)))) hover⟩
  | publish job body ok =>
    exact ⟨told, token, htold', hheld.act_still hparty heffect.2.1 (fun lane => by rw [heffect.1])
      (fun s _ _ _ _ hfinds => .inl (finds_other hmove hfinds (.inr (.inr ⟨_, _, _, rfl⟩)))) hover⟩
  | look key seen =>
    obtain ⟨rfl, rfl⟩ := heffect
    obtain rfl : key = p.key := hmove.look_key
    refine ⟨told, token, htold', hheld.act_still hparty rfl (fun _ => rfl)
      (fun s hs hsterm _ _ hfinds => ?_) hover⟩
    rw [hs] at hmove
    exact .inl (finds_look hmove hsterm hfinds)
  | xack entry => exact ⟨told, token, htold', hheld.act_ack hparty hmove heffect hover⟩
  | add fields =>
    obtain ⟨-, hstates, now, hstreams⟩ := heffect
    obtain ⟨hφ, rfl, habout⟩ := hmove.add_spec
    obtain ⟨token', hheld'⟩ := hheld.act_add htold hbooks hparty hstates hstreams habout hφ
    exact ⟨told, token', htold', hheld'⟩
  | xdel entry =>
    obtain ⟨-, hstates, hstreams⟩ := heffect
    obtain ⟨hφ, rfl, rfl⟩ := hmove.xdel_spec
    obtain rfl := Act.of_xdel ha
    obtain ⟨token', hheld'⟩ :=
      h.act_del hheld htold hkept hgiven hbooks hparty hawaited hstates hstreams hφ
    exact ⟨told, token', htold', hheld'⟩
  | request key target allowed extra ok completed =>
    obtain rfl : key = p.key := hmove.request_key
    obtain rfl := Act.of_request ha
    have hnotOver : φ t ≠ ended := by
      intro hended
      rw [hended] at hmove
      cases hmove.of_ended.1
    have happlied : ok = true → target.terminal = false →
        f.taker p.entry = some t ∧ f.Present p.entry ∨
          lax = true ∧ f.has t p = false ∧ target.running = false := by
      rintro rfl -
      obtain ⟨st, hst, hs⟩ := (heffect.2.2.resolve_right (by simp)).2.1
      obtain ⟨next, hreq⟩ := hmove.requests
      exact h.applied hheld hparty hawaited hst hs
        (terminal_eq_false_of_mem_predecessors (hreq.allowed_subset hst)) hnotOver
    have hspare : ok = true → lax = false → ∀ ep, φ t = releaseWrite (.refused ep) vlmRunning →
        p.final = false := by
      rintro rfl rfl ep hφ
      have hp := hrem t p hparty
      rw [hφ] at hmove hp
      exact final_of_sparesVlmClaims hparty hawaited hmove
        (heffect.2.2.resolve_right (by simp)).2.1 hp (h.spares rfl)
    rcases hheld.act_request htold hbooks hparty hmove heffect happlied hspare with
      ⟨token', hheld'⟩ | ⟨rfl, htarget, hsettles, ⟨s, hs, hopen, hidle⟩, hheld'⟩
    · exact ⟨told, token', htold', hheld'⟩
    · refine ⟨_, token, htold'.insert hlt fun q hq => ?_, hheld'⟩
      obtain rfl := resume_parties_self hq
      rw [Function.update_self]
      exact ⟨toldNo_of_exec ha htarget hs hopen hidle, .inl hsettles⟩

/-- **One tick** under these conditions keeps some token for every page. -/
theorem Tick.held {lax : Bool} (h : Tick cfg f φ l f' φ') (hphased : Phased cfg f φ)
    (hkept : Kept cfg f φ) (hgiven : GivenUp f φ) (hbooks : Books f) (hrem : Remembered f φ)
    (hguard : Guarded lax f l) (hheld : ∃ told token, StoodDown f φ told ∧ Held cfg lax told f φ token) :
    ∃ told token, StoodDown f' φ' told ∧ Held cfg lax told f' φ' token := by
  obtain ⟨told, token, htold, hheld⟩ := hheld
  have htold' := htold.tick h
  cases h with
  | submit _ _ _ hnew => exact ⟨told, token, htold', hheld.submit hbooks hnew⟩
  | enqueue _ _ _ _ hnew => exact ⟨told, _, htold', hheld.enqueue hbooks hnew⟩
  | idle _ _ _ hs _ =>
    exact ⟨told, token, htold', hheld.frame hbooks (fun _ _ hp => hp) rfl rfl (fun _ _ => rfl)
      fun lane => (hs lane).entries⟩
  | crash => exact ⟨told, token, htold', hheld.frame hbooks
      (fun _ _ hp => (Option.filter_eq_some_iff.mp hp).1) rfl rfl (fun _ _ => rfl) fun _ => rfl⟩
  | take _ ht => exact ⟨told, token, htold', hheld.take hbooks ht⟩
  | act hparty hprog hmove heffect _ =>
    exact hguard.act hheld htold hkept hgiven hbooks hrem hparty (hphased _ _ hparty).1 hprog
      hmove heffect htold'

/-- Every page has its token in runs that meet the conditions. -/
theorem Reach.held {lax : Bool} {allow : Fleet → Label → Bool}
    (hstore : ∀ f l, allow f l = true → storeCallsSucceed f l = true)
    (hguard : ∀ f l, Reach cfg allow f → allow f l = true → Guarded lax f l)
    (h : Reach cfg allow f) : ∃ φ told token, Held cfg lax told f φ token := by
  obtain ⟨φ, -, -, -, -, -, told, token, -, hheld⟩ := h.invariant
    (I := fun f φ => Books f ∧ GivenUp f φ ∧ Kept cfg f φ ∧
      ∃ told token, StoodDown f φ told ∧ Held cfg lax told f φ token) hstore
    (fun φ => ⟨Books.empty, (fun _ _ hp => by cases hp), (fun _ _ _ hp => by cases hp),
      fun _ => False, fun _ => (.main, ⟨0, 0⟩), ⟨nofun, nofun⟩, Held.empty⟩)
    (fun f _ l _ _ hreach hphased hrem hI hallow htick =>
      ⟨htick.books hI.1, htick.givenUp hI.2.1, htick.kept hI.2.2.1,
        htick.held hphased hI.2.2.1 hI.2.1 hI.1 hrem (hguard f l hreach hallow) hI.2.2.2⟩)
  exact ⟨φ, told, token, hheld⟩

/-- **Nothing is dropped as long as parties without their entry are fenced**: in every state
reached, every enqueued page is terminal or has an unsettled entry. -/
theorem zeroDrop_of_fenced
    (h : Reach cfg (fun f l => storeCallsSucceed f l && fenced f l) f) : f.ZeroDrop := by
  obtain ⟨φ, told, token, hheld⟩ : ∃ φ told token, Held cfg true told f φ token := h.held
    (fun f l hallow => by simp only [Bool.and_eq_true] at hallow; exact hallow.1)
    (fun f l _ hallow => by
      simp only [Bool.and_eq_true] at hallow
      exact ⟨fun _ => hallow.2, nofun, nofun⟩)
  exact hheld.zeroDrop

/-- If reapers only take entries whose holder is gone, nobody alive is ever evicted. -/
theorem Reach.undisturbed
    (h : Reach cfg (fun f l => storeCallsSucceed f l && reapsOnlyOrphans f l && sparesVlmClaims f l)
      f) : Undisturbed f := by
  obtain ⟨φ, -, -, -, hu⟩ := h.invariant (I := fun f _ => Books f ∧ Undisturbed f)
    (fun f l hallow => by simp only [Bool.and_eq_true] at hallow; exact hallow.1.1)
    (fun φ => ⟨Books.empty, Undisturbed.empty⟩)
    (fun f _ l _ _ _ hphased _ hI hallow htick => by
      simp only [Bool.and_eq_true] at hallow
      exact ⟨htick.books hI.1, htick.undisturbed hphased hI.1 hallow.1.2 hI.2⟩)
  exact hu

/-- In such a run nobody needs to be fenced. -/
theorem Reach.held_of_orphans
    (h : Reach cfg (fun f l => storeCallsSucceed f l && reapsOnlyOrphans f l && sparesVlmClaims f l)
      f) : ∃ φ told token, Held cfg false told f φ token :=
  h.held
    (fun f l hallow => by simp only [Bool.and_eq_true] at hallow; exact hallow.1.1)
    (fun f l hreach hallow => by
      simp only [Bool.and_eq_true] at hallow
      exact ⟨nofun, fun _ => hallow.2, fun _ => hreach.undisturbed.holds⟩)

/-- **Nothing is dropped under crashes** when reapers only take orphans and no refused final
attempt rolls back a VLM claim. -/
theorem zeroDrop_of_reapsOnlyOrphans
    (h : Reach cfg (fun f l => storeCallsSucceed f l && reapsOnlyOrphans f l && sparesVlmClaims f l)
      f) : f.ZeroDrop := by
  obtain ⟨φ, told, token, hheld⟩ := h.held_of_orphans
  exact hheld.zeroDrop

end Runs

/-! ## Two ways to drop a page

The runs use the default settings and a job of one page. -/

/-- Is the first page of the first job enqueued, open and without any stored? -/
def Fleet.dropsFirstPage (f : Fleet) : Bool :=
  f.enqueued ⟨0, 0⟩ && (f.redis.state? ⟨0, 0⟩).any (fun s => !s.terminal) &&
    (f.redis.streams .lead).entries.isEmpty && (f.redis.streams .main).entries.isEmpty

theorem Fleet.not_zeroDrop_of_dropsFirstPage {f : Fleet} (h : f.dropsFirstPage = true) :
    ¬f.ZeroDrop := by
  simp only [dropsFirstPage, Bool.and_eq_true, Option.any_eq_true, List.isEmpty_iff,
    Bool.not_eq_true'] at h
  obtain ⟨⟨⟨hq, s, hs, hopen⟩, hlead⟩, hmain⟩ := h
  intro hdrop
  rcases hdrop ⟨0, 0⟩ hq with ⟨s', hs', hterm⟩ | ⟨lane, e, he, -⟩
  · rw [hs, Option.some.injEq] at hs'
    rw [← hs', hopen] at hterm
    cases hterm
  · cases lane with
    | lead => simp [hlead] at he
    | main => simp [hmain] at he

/-- A worker is refused, requeues and crashes before it acknowledges, so the page has two
entries.  The second is old enough to be a final attempt, and claims the layout stage.  A
reaper rolls that back and requeues; the next worker commits the layout, hands off, and
claims the VLM stage.  Now the final attempt's layout call is refused: it rolls the VLM
claim back, FAILED is rejected, and it acknowledges; so does the other worker, whose commit
is rejected. -/
def refusedFinalAttempt : List Label :=
  [.initJob 0 1 1000, .enqueue ⟨0, 0⟩ 1000 "t", .start 1, .ready 1, .deliver 1 .lead 1000] ++
  runs 0 3 1000 ++ [.run 0 (.raises 1000 (.rateLimitTimeout .layout 5 0))] ++ runs 0 4 1000 ++
  [.crash 1, .start 2, .ready 2, .deliver 2 .main 100000] ++ runs 1 3 100000 ++
  [.start 3, .ready 3, .reap 3 .lead ⟨1000, 0⟩ 100000] ++ runs 2 8 100000 ++
  [.start 4, .ready 4, .deliver 4 .main 100000] ++ runs 3 10 100000 ++
  [.deliver 4 .main 100000] ++ runs 4 3 100000 ++
  [.run 1 (.raises 100000 (.rateLimitTimeout .layout 5 0))] ++ runs 1 5 100000 ++
  runs 4 5 100000

/-- The run up to the second delivery meets every condition. -/
theorem zeroDrop_after_duplicate :
    ∃ f, Reach {} (fun f l => storeCallsSucceed f l && reapsOnlyOrphans f l && sparesVlmClaims f l)
      f ∧ (f.enqueued ⟨0, 0⟩ && (f.parties 1).isSome) = true ∧ f.ZeroDrop := by
  obtain ⟨f, hf, hq⟩ := Reach.exists_of_runAll {}
    (fun f l => storeCallsSucceed f l && reapsOnlyOrphans f l && sparesVlmClaims f l)
    (fun f => f.enqueued ⟨0, 0⟩ && (f.parties 1).isSome) (refusedFinalAttempt.take 20)
    (by decide +kernel)
  exact ⟨f, hf, hq, zeroDrop_of_reapsOnlyOrphans hf⟩

/-- Without the condition on VLM claims a page is dropped although reapers only take
orphans. -/
theorem dropped_by_refusedFinalAttempt :
    ¬∀ f, Reach {} (fun f l => storeCallsSucceed f l && reapsOnlyOrphans f l) f → f.ZeroDrop := by
  intro hall
  obtain ⟨f, hf, hdrops⟩ := Reach.exists_of_runAll {}
    (fun f l => storeCallsSucceed f l && reapsOnlyOrphans f l) Fleet.dropsFirstPage
    refusedFinalAttempt (by decide +kernel)
  exact Fleet.not_zeroDrop_of_dropsFirstPage hdrops (hall f hf)

/-- A worker looks at the page; its lease lapses and a reaper reads the page, still pending,
in `release_claim`; the worker claims it; the reaper requeues and acknowledges; a third
worker takes the fresh entry, finds the page running and acknowledges that too. -/
def evictedClaim : List Label :=
  [.initJob 0 1 1000, .enqueue ⟨0, 0⟩ 1000 "t", .start 1, .ready 1, .deliver 1 .lead 1000] ++
  runs 0 2 1000 ++ [.start 2, .ready 2, .reap 2 .lead ⟨1000, 0⟩ 40000] ++ runs 1 3 40000 ++
  runs 0 1 40000 ++ runs 1 4 40000 ++ [.start 3, .ready 3, .deliver 3 .main 40000] ++
  runs 2 4 40000 ++ [.crash 1]

/-- A worker calls the layout model; its lease lapses and a reaper reads the page, running; the
worker commits its layout, so that the rollback is refused; it requeues the page and deletes the
entry that the reaper has, which requeues the page as well; a third worker claims the VLM stage
and crashes. -/
def evictedCommit : List Label :=
  [.initJob 0 1 1000, .enqueue ⟨0, 0⟩ 1000 "t", .start 1, .ready 1, .deliver 1 .lead 1000] ++
  runs 0 4 1000 ++ [.start 2, .ready 2, .reap 2 .lead ⟨1000, 0⟩ 40000] ++ runs 1 3 40000 ++
  runs 0 1 40000 ++ runs 1 1 40000 ++ runs 0 5 40000 ++ runs 1 4 40000 ++
  [.start 3, .ready 3, .deliver 3 .main 40000] ++ runs 2 3 40000 ++ [.crash 3]

/-- It meets the condition, and leaves the page to whoever recovers the third worker. -/
theorem zeroDrop_after_eviction :
    ∃ f, Reach {} (fun f l => storeCallsSucceed f l && fenced f l) f ∧
      (decide (f.redis.state? ⟨0, 0⟩ = some .vlmRunning) &&
        (f.redis.streams .lead).entries.isEmpty &&
        decide (f.taker (.lead, ⟨1000, 0⟩) = some 1)) = true ∧ f.ZeroDrop := by
  obtain ⟨f, hf, hq⟩ := Reach.exists_of_runAll {}
    (fun f l => storeCallsSucceed f l && fenced f l)
    (fun f => decide (f.redis.state? ⟨0, 0⟩ = some .vlmRunning) &&
        (f.redis.streams .lead).entries.isEmpty &&
        decide (f.taker (.lead, ⟨1000, 0⟩) = some 1))
    evictedCommit (by decide +kernel)
  exact ⟨f, hf, hq, zeroDrop_of_fenced hf⟩

/-- A worker calls the layout model; its lease lapses, and a reaper finds the page running and out of
time; the worker commits its layout, so that FAILED is refused and the reaper acknowledges. -/
def refusedReaper : List Label :=
  [.initJob 0 1 1000, .enqueue ⟨0, 0⟩ 1000 "t", .start 1, .ready 1, .deliver 1 .lead 1000] ++
  runs 0 4 1000 ++ [.start 2, .ready 2, .reap 2 .lead ⟨1000, 0⟩ 400000] ++ runs 1 3 400000 ++
  runs 0 1 400000 ++ runs 1 2 400000

-- The reaper may delete the entry when the worker has requeued the page, and not if it never does.
example :
    (Fleet.empty.runAll {} (fun f l => storeCallsSucceed f l && fenced f l)
      (refusedReaper ++ runs 0 3 400000 ++ runs 1 1 400000)).isSome = true ∧
    (Fleet.empty.runAll {} (fun f l => storeCallsSucceed f l && fenced f l)
      (refusedReaper ++ [.crash 1] ++ runs 1 1 400000)).isSome = false ∧
    (Fleet.empty.runAll {} storeCallsSucceed
      (refusedReaper ++ [.crash 1] ++ runs 1 1 400000)).any Fleet.dropsFirstPage = true := by
  decide +kernel

/-- With a slow owner a page is dropped as well. -/
theorem dropped_by_evictedClaim :
    ¬∀ f, Reach {} storeCallsSucceed f → f.ZeroDrop := by
  intro hall
  obtain ⟨f, hf, hdrops⟩ := Reach.exists_of_runAll {} storeCallsSucceed
    Fleet.dropsFirstPage evictedClaim (by decide +kernel)
  exact Fleet.not_zeroDrop_of_dropsFirstPage hdrops (hall f hf)

end OcrOrchestrator
