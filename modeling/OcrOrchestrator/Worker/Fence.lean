import OcrOrchestrator.Worker.Ledger

/-!
# What a worker may do without its entry

A worker whose entry has been taken over, or deleted by the one it took it over from, does not
notice: it goes on with the page.  Most of that is harmless.  It may commit what it has computed,
roll the page back, make it terminal, and requeue it: the page is then unclaimed or terminal,
which whoever has an entry of it can live with.  It may not claim the page, since nobody would
recover that claim; and when it deletes its entry it deletes that of the one who took over, so
some other entry has to answer for the page.

The one who has the entry is told no if the page has moved on meanwhile.  It then takes it that
somebody else has claimed the page, and acknowledges.  If nobody had, some other entry has to
answer for the page as well when it deletes its own.

## Main definitions

* `Act.gaveUp`, `Act.keeps` — a party that is about to acknowledge its entry, and one that keeps
  to the stage the page is in.
* `Party.toldNo` — a party that stands down for nobody.
* `Fleet.has`, `Fleet.spare` — who has its entry, and whether another one answers for the page.
* `fenced` — the condition on steps.
-/

namespace OcrOrchestrator

open Lib PageState Phase

/-! ## Giving an entry up -/

/-- The party has been told that the page is not its to run, has made it terminal, or has
requeued it. -/
def Act.gaveUp : List Act → Bool
  | quiet :: acts => gaveUp acts
  | publish _ _ _ :: acts => gaveUp acts
  | look _ seen :: _ => !seen.any fun s => !s.terminal && !s.running
  | request _ target _ _ ok _ :: _ => target.terminal || (!ok && target.running)
  | model _ _ :: _ => false
  | [] => false
  | _ => true

/-- The party has claimed the stage, or took its entry to recover the page, and has since neither
seen the page in another state nor asked for a transition. -/
def Act.keeps (recovering : Bool) (ep : Endpoint) : List Act → Bool
  | request _ target _ _ ok _ :: _ => ok && decide (target.stage? = some ep)
  | look _ seen :: acts => decide (seen.bind PageState.stage? = some ep) && keeps recovering ep acts
  | _ :: acts => keeps recovering ep acts
  | [] => recovering

/-- The latest answer to a transition request is a no to a claim or to a terminal state, on a page
that is open and that nobody has claimed. -/
def Event.toldNo : List Event → Bool
  | ⟨.evalTransition _ target _ _, .ok reply⟩ :: _ =>
    !reply.ok && (target.running || target.terminal) &&
      reply.observed.all fun s => !s.running && !s.terminal
  | _ :: log => toldNo log
  | [] => false

/-- It stands down, and nobody else has the page. -/
def Party.toldNo (p : Party) : Bool := Event.toldNo p.log

/-- Phases on the way to the acknowledgement of an entry, without another one in its place or
after it. -/
def Phase.settles : Phase → Bool
  | tellFinal _ => true
  | tellComplete => true
  | settling => true
  | deleting => true
  | _ => false

namespace Fleet

/-- The party took its entry last, and the entry is still there. -/
def has (f : Fleet) (t : ℕ) (p : Party) : Bool :=
  decide (f.taker p.entry = some t) && ((f.redis.streams p.entry.1).stored? p.entry.2).isSome

/-- The entry is still in its stream. -/
def Present (f : Fleet) (entry : Lane × StreamId) : Prop :=
  ∃ e ∈ (f.redis.streams entry.1).entries, e.id = entry.2

theorem present_iff {f : Fleet} {entry : Lane × StreamId} :
    f.Present entry ↔ ((f.redis.streams entry.1).stored? entry.2).isSome = true := by
  simp only [Present, TaskStream.stored?, List.find?_isSome, decide_eq_true_eq]

theorem has_eq_true {f : Fleet} {t : ℕ} {p : Party} :
    f.has t p = true ↔ f.taker p.entry = some t ∧ f.Present p.entry := by
  rw [has, Bool.and_eq_true, decide_eq_true_eq, present_iff]

/-- Nobody alive has this entry of the page, or one who has not given it up; and if the page is
claimed, the one to take this entry last is gone, or keeps to the stage. -/
def answers (f : Fleet) (key : PageKey) (entry : Lane × StreamId) : Bool :=
  match f.taker entry with
  | none => ((f.redis.state? key).bind PageState.stage?).isNone
  | some t =>
    match f.parties t with
    | none => true
    | some q =>
      match (f.redis.state? key).bind PageState.stage? with
      | none => !Act.gaveUp q.acts
      | some ep => Act.keeps q.recovering ep q.acts

/-- Another entry answers for the page. -/
def spare (f : Fleet) (key : PageKey) (entry : Lane × StreamId) : Bool :=
  [Lane.lead, Lane.main].any fun lane => (f.redis.streams lane).entries.any fun e =>
    e.isAbout key && decide ((lane, e.id) ≠ entry) && f.answers key (lane, e.id)

end Fleet

/-- A party that does not have its entry does not claim the page.  Such a one, or one that was told
no on a page that nobody had claimed, deletes the entry only if it is gone, the page is terminal,
or another entry answers for it. -/
def fenced (f : Fleet) : Label → Bool
  | .run t _ =>
    match f.parties t with
    | some p =>
      match p.awaited with
      | some (.evalTransition key target allowed _) =>
        f.has t p || !target.running || !(f.redis.state? key).any (· ∈ allowed)
      | some (.xdel lane id) =>
        (decide (f.taker p.entry = some t) && !p.toldNo) ||
          (f.redis.state? p.key).any PageState.terminal ||
          ((f.redis.streams lane).stored? id).isNone || f.spare p.key p.entry
      | _ => true
    | none => true
  | _ => true

theorem Entry.about_of_isAbout {e : Entry} {key : PageKey} (h : e.isAbout key = true) :
    e.About key := by
  simp only [Entry.isAbout, Bool.and_eq_true, decide_eq_true_eq] at h
  obtain ⟨hjob, hindex⟩ := h
  refine ⟨hjob, ?_⟩
  split at hindex
  next n hn => rw [hn, of_decide_eq_true hindex]
  next => cases hindex

/-! ## Phases -/

section Phases
variable {cfg : Settings} {b : Brief} {f f' : Fleet} {φ φ' : ℕ → Phase} {l : Label}

theorem settles_released (site : Site) : (released b site).settles = false := by
  cases site with
  | refused ep =>
    simp only [released]
    split <;> rfl
  | _ => rfl

theorem settles_afterLayout : (afterLayout b).settles = false := by
  unfold afterLayout
  split <;> rfl

theorem settles_answered (ep : Endpoint) (answer : Except Exn Json) :
    (answered b ep answer).settles = false := by
  cases ep <;> cases answer <;> simp only [answered] <;> (try split) <;> (try split) <;> rfl

/-- Whoever enters a phase that settles has just given its entry up, or had before. -/
theorem gaveUp_of_move {φ φ' : Phase} {a : Act} {acts : List Act} (hmove : Move b φ a φ')
    (h : φ.settles = true → Act.gaveUp acts = true) (hs : φ'.settles = true) :
    Act.gaveUp (a :: acts) = true := by
  have hentered : ∀ {seen : Option PageState} {stranger : Phase},
      (entered seen stranger).settles = true → (Act.gaveUp (.look b.key seen :: acts)) = true := by
    intro seen stranger hs
    cases seen with
    | none => rfl
    | some s =>
      simp only [Act.gaveUp, Option.any_some]
      cases ht : s.terminal
      · cases hr : s.running
        · simp [entered, ht, hr, settles] at hs
        · rfl
      · rfl
  cases hmove with
  | quiet => exact h hs
  | weighForce => cases hs
  | weighRelease => cases hs
  | look => exact hentered hs
  | lookOrphan hrole seen =>
    cases seen with
    | none => rfl
    | some s =>
      cases ht : s.terminal
      · simp [ht, settles] at hs
      · simp [Act.gaveUp, ht]
  | relook => exact hentered hs
  | releaseIdle =>
    rw [settles_released] at hs
    cases hs
  | releaseRunning => cases hs
  | @forceSettled seen hterm =>
    cases seen with
    | none => rfl
    | some s =>
      simp only [Option.any_some, Bool.not_eq_false'] at hterm
      simp [Act.gaveUp, hterm]
  | forceOpen => cases hs
  | request hreq ok completed =>
    cases hreq with
    | release =>
      rw [settles_released] at hs
      cases hs
    | claim ep =>
      cases ok
      · cases ep <;> rfl
      · cases hs
    | commitLayout =>
      cases ok
      · simp only [Bool.false_eq_true, if_false, settles_afterLayout] at hs
      · cases hs
    | force seen =>
      simp only [Act.gaveUp, forceTarget]
      split <;> rfl
    | _ => rfl
  | call ep answer =>
    rw [settles_answered] at hs
    cases hs
  | tellPartial =>
    rw [settles_afterLayout] at hs
    cases hs
  | tellFinal => exact h rfl
  | tellComplete => exact h rfl
  | requeue => rfl
  | settle => rfl
  | delete => cases hs

/-- Every live party in a phase that settles has given its entry up. -/
def GivenUp (f : Fleet) (φ : ℕ → Phase) : Prop :=
  ∀ t p, f.parties t = some p → (φ t).settles = true → Act.gaveUp p.acts = true

theorem Tick.givenUp (h : Tick cfg f φ l f' φ') (hgiven : GivenUp f φ) : GivenUp f' φ' := by
  intro t q hq hs
  rcases h.party_cases hq with ⟨hp, hφ⟩ | ⟨-, hφ, -⟩ | ⟨p, c, ans, hp, hmove, prog, rfl⟩
  · exact hgiven t q hp (hφ ▸ hs)
  · rw [hφ] at hs
    cases hs
  · exact gaveUp_of_move hmove (hgiven t p hp) hs

/-- Phases of a party that stands down, or has. -/
def Phase.leaves (φ : Phase) : Prop := φ.settles = true ∨ φ = ended

/-- Who stands down makes no request. -/
theorem Requests.not_leaves {φ : Phase} {target : PageState} {allowed : List PageState}
    {extra : List (PageField × Json)} {next : Bool → Bool → Phase}
    (h : Requests b φ target allowed extra next) : ¬φ.leaves := by
  rintro (hs | rfl)
  · cases h <;> cases hs
  · cases h

/-- It goes on standing down, and no request makes it forget why. -/
theorem leaves_of_move {φ φ' : Phase} {e : Event} (log : List Event)
    (hmove : Move b φ (Act.of e.cmd e.answer) φ') (h : φ.leaves) :
    φ'.leaves ∧ Event.toldNo (e :: log) = Event.toldNo log := by
  constructor
  · generalize Act.of e.cmd e.answer = a at hmove
    rcases h with h | rfl
    · cases hmove with
      | quiet => exact .inl h
      | request hreq => exact absurd (.inl h) hreq.not_leaves
      | tellFinal =>
        left
        split <;> rfl
      | tellComplete => exact .inl rfl
      | settle => exact .inl rfl
      | delete => exact .inr rfl
      | _ => cases h
    · cases hmove with
      | quiet => exact .inr rfl
      | request hreq => exact absurd (.inr rfl) hreq.not_leaves
  · rw [Event.toldNo]
    rintro key target allowed extra reply rfl
    cases hmove with
    | request hreq => exact hreq.not_leaves h

/-- Parties that have stood down for nobody are on their way out. -/
structure StoodDown (f : Fleet) (φ : ℕ → Phase) (told : ℕ → Prop) : Prop where
  lt_next : ∀ t, told t → t < f.next
  leaving : ∀ t p, told t → f.parties t = some p → p.toldNo = true ∧ (φ t).leaves

theorem StoodDown.tick {told : ℕ → Prop} (htold : StoodDown f φ told) (h : Tick cfg f φ l f' φ') :
    StoodDown f' φ' told := by
  constructor
  · intro t ht
    have hlt := htold.lt_next t ht
    cases h with
    | take => exact Nat.lt_succ_of_lt hlt
    | _ => exact hlt
  · intro t q ht hq
    rcases h.party_cases hq with ⟨hp, hφ⟩ | ⟨rfl, -, -⟩ | ⟨p, c, ans, hp, hmove, prog, rfl⟩
    · rw [hφ]
      exact htold.leaving t q ht hp
    · exact absurd (htold.lt_next _ ht) (lt_irrefl _)
    · obtain ⟨htoldNo, hleaves⟩ := htold.leaving t p ht hp
      obtain ⟨hleaves', hsame⟩ := leaves_of_move (e := ⟨c, ans⟩) p.log hmove hleaves
      exact ⟨hsame.trans htoldNo, hleaves'⟩

/-- A no to a claim or to a terminal state shows that the page is open and that nobody has claimed
it. -/
theorem toldNo_of_exec {cfg : Settings} {o : Oracle} {s : Redis} {key : PageKey}
    {target st : PageState} {allowed : List PageState} {extra : List (PageField × Json)}
    {completed : Bool} {log : List Event}
    (hact : Act.of (.evalTransition key target allowed extra)
      ((Cmd.evalTransition key target allowed extra).exec cfg o s).1 =
        .request key target allowed extra false completed)
    (htarget : target.running = true ∨ target.terminal = true) (hst : s.state? key = some st)
    (hopen : st.terminal = false) (hidle : st.running = false) :
    Event.toldNo (⟨.evalTransition key target allowed extra,
      ((Cmd.evalTransition key target allowed extra).exec cfg o s).1⟩ :: log) = true := by
  obtain ⟨page, hpage, rfl⟩ := Option.map_eq_some_iff.mp hst
  cases hf : o.fault with
  | some fault => simp [Cmd.exec, hf, Act.of] at hact
  | none =>
    rw [Cmd.exec_of_fault_none hf] at hact ⊢
    simp only [Act.of, Act.request.injEq, true_and] at hact
    have hrejected : page.state ∉ allowed := by
      intro hin
      simp [Cmd.apply, hpage, (transitionScript_applied hin).1] at hact
    simp [Event.toldNo, Cmd.apply, hpage, transitionScript_rejected hrejected, Reply.rejected,
      htarget, hopen, hidle]

/-- One more has been told no. -/
theorem StoodDown.insert {told : ℕ → Prop} {t : ℕ} (h : StoodDown f φ told) (hlt : t < f.next)
    (ht : ∀ p, f.parties t = some p → p.toldNo = true ∧ (φ t).leaves) :
    StoodDown f φ fun t' => told t' ∨ t' = t := by
  constructor
  · rintro t' (ht' | rfl)
    · exact h.lt_next t' ht'
    · exact hlt
  · rintro t' p (ht' | rfl) hp
    · exact h.leaving t' p ht' hp
    · exact ht p hp

end Phases

end OcrOrchestrator
