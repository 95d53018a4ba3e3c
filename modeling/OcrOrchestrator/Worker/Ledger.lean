import OcrOrchestrator.Worker.History

/-!
# Bookkeeping of a fleet

Facts about entries, ids and takers that hold whatever the workers do, and that every
argument about lost or duplicated work rests on: entry ids are fresh, an entry belongs to
one enqueued page, an undelivered entry has no taker, a page that was never enqueued is
still pending.

If in addition reapers only take entries whose holder is gone, every live party is the
last one that took its entry.

## Main definitions

* `Books` — the bookkeeping invariant, `Tick.books` — it is kept by every tick.
* `Undisturbed` — every live party still has its entry.
-/

namespace OcrOrchestrator

open Lib PageState Phase

/-- The entry is a task for this page. -/
def Entry.About (e : Entry) (key : PageKey) : Prop :=
  e.fields.jobId = some key.job ∧ e.fields.pageIndex = some (.int key.index)

theorem Entry.About.unique {e : Entry} {k k' : PageKey} (h : e.About k) (h' : e.About k') :
    k = k' := by
  obtain ⟨hj, hi⟩ := h
  obtain ⟨hj', hi'⟩ := h'
  rw [hj] at hj'
  rw [hi] at hi'
  cases k
  cases k'
  simp_all

/-- `About`, decided. -/
def Entry.isAbout (e : Entry) (key : PageKey) : Bool :=
  decide (e.fields.jobId = some key.job) &&
    match e.fields.pageIndex with
    | some (.int n) => decide (n = key.index)
    | _ => false

theorem Entry.About.isAbout {e : Entry} {key : PageKey} (h : e.About key) :
    e.isAbout key = true := by
  simp [Entry.isAbout, h.1, h.2]

/-- What the ids of one stream satisfy. -/
structure TaskStream.Sound (s : TaskStream) : Prop where
  bound : ∀ e ∈ s.entries, s.lastId.before e.id = false
  unique : ∀ e ∈ s.entries, ∀ e' ∈ s.entries, e.id = e'.id → e = e'
  delivered : s.lastId.before s.lastDelivered = false
  pending : ∀ id ∈ s.pending, s.lastDelivered.before id = false

namespace StreamId

theorem before_of_not_before {a b c : StreamId} (hab : a.before b = false)
    (hac : a.before c = true) : b.before c = true := by
  simp only [before, Bool.or_eq_true, Bool.and_eq_true, decide_eq_true_eq, Bool.or_eq_false_iff,
    Bool.and_eq_false_iff, decide_eq_false_iff_not] at *
  omega

theorem not_before_trans {a b c : StreamId} (hab : a.before b = false)
    (hbc : b.before c = false) : a.before c = false := by
  by_contra h
  rw [before_of_not_before hab (by simpa using h)] at hbc
  cases hbc

theorem not_before_of_before {a b : StreamId} (h : a.before b = true) : b.before a = false := by
  simp only [before, Bool.or_eq_true, Bool.and_eq_true, decide_eq_true_eq, Bool.or_eq_false_iff,
    Bool.and_eq_false_iff, decide_eq_false_iff_not] at *
  omega

/-- The id `XADD` assigns is none of those that were assigned before. -/
theorem next_ne {last id : StreamId} (now : ℕ) (h : last.before id = false) :
    last.next now ≠ id := by
  rintro rfl
  rw [before_next] at h
  cases h

end StreamId

namespace TaskStream.Sound
variable {s s' : TaskStream}

theorem empty : TaskStream.empty.Sound := by
  constructor <;> simp [TaskStream.empty, TaskStream.pending, StreamId.before]

theorem xadd (h : s.Sound) (now : ℕ) (fields : RawTask) : (s.xadd now fields).2.Sound where
  bound := by
    intro e he
    rcases mem_xadd_entries.mp he with he | rfl
    · exact StreamId.not_before_trans (StreamId.not_before_of_before (StreamId.before_next _ _))
        (h.bound e he)
    · exact StreamId.before_irrefl _
  unique := by
    intro e he e' he' hid
    rcases mem_xadd_entries.mp he with he | rfl <;> rcases mem_xadd_entries.mp he' with he' | rfl
    · exact h.unique e he e' he' hid
    · exact absurd hid.symm (StreamId.next_ne now (h.bound e he))
    · exact absurd hid (StreamId.next_ne now (h.bound e' he'))
    · rfl
  delivered := StreamId.not_before_trans
    (StreamId.not_before_of_before (StreamId.before_next _ _)) h.delivered
  pending := h.pending

theorem xack (h : s.Sound) (id : StreamId) : (s.xack id).Sound where
  bound := h.bound
  unique := h.unique
  delivered := h.delivered
  pending := by
    intro id' hid'
    obtain ⟨q, hq, rfl⟩ := List.mem_map.mp hid'
    exact h.pending _ (List.mem_map_of_mem (List.mem_of_mem_filter hq))

theorem xdel (h : s.Sound) (id : StreamId) : (s.xdel id).Sound where
  bound := fun e he => h.bound e (mem_xdel_entries.mp he).1
  unique := fun e he e' he' => h.unique e (mem_xdel_entries.mp he).1 e' (mem_xdel_entries.mp he').1
  delivered := h.delivered
  pending := h.pending

theorem same (h : s.Sound) (hs : s.SameEntries s') : s'.Sound where
  bound := by rw [hs.entries, hs.lastId]; exact h.bound
  unique := by rw [hs.entries]; exact h.unique
  delivered := by rw [hs.lastId, hs.lastDelivered]; exact h.delivered
  pending := by rw [hs.pending, hs.lastDelivered]; exact h.pending

end TaskStream.Sound

/-! ## What acts leave alone -/

namespace Effect
variable {s s' : Redis} {a : Act}

/-- The streams after an act: one of them has had an entry added, acknowledged or deleted,
or none has changed. -/
theorem streams (h : Effect s s' a) :
    s'.streams = s.streams ∨
      (∃ fields now, a = .add fields ∧
        s'.streams = Function.update s.streams .main ((s.streams .main).xadd now fields).2) ∨
      (∃ e, a = .xack e ∧
        s'.streams = Function.update s.streams e.1 ((s.streams e.1).xack e.2)) ∨
      ∃ e, a = .xdel e ∧
        s'.streams = Function.update s.streams e.1 ((s.streams e.1).xdel e.2) := by
  cases a with
  | look => exact .inl (congrArg Redis.streams h.1)
  | model => exact .inl (congrArg Redis.streams h)
  | add fields =>
    obtain ⟨-, -, now, h⟩ := h
    exact .inr (.inl ⟨fields, now, rfl, h⟩)
  | xack e => exact .inr (.inr (.inl ⟨e, rfl, h.2.2⟩))
  | xdel e => exact .inr (.inr (.inr ⟨e, rfl, h.2.2⟩))
  | _ => exact .inl h.1

/-- The page states after an act: those before it, but for an applied transition. -/
theorem states (h : Effect s s' a) :
    s'.state? = s.state? ∨
      ∃ key target allowed extra completed st, a = .request key target allowed extra true completed ∧
        st ∈ allowed ∧ s.state? key = some st ∧
        s'.state? = Function.update s.state? key (some target) := by
  cases a with
  | request key target allowed extra ok completed =>
    rcases h.2.2 with ⟨rfl, ⟨st, hst, hs⟩, hup⟩ | ⟨-, -, hsame⟩
    · exact .inr ⟨key, target, allowed, extra, completed, st, rfl, hst, hs, hup⟩
    · exact .inl hsame
  | look => exact .inl (congrArg Redis.state? h.1)
  | model => exact .inl (congrArg Redis.state? h)
  | quiet => exact .inl h.2.2
  | _ => exact .inl h.2.1

theorem sound (h : Effect s s' a) (hs : ∀ lane, (s.streams lane).Sound) (lane : Lane) :
    (s'.streams lane).Sound := by
  rcases h.streams with h | ⟨fields, now, -, h⟩ | ⟨e, -, h⟩ | ⟨e, -, h⟩ <;> rw [h]
  · exact hs lane
  · exact Redis.streams_setStream hs ((hs _).xadd now fields) lane
  · exact Redis.streams_setStream hs ((hs _).xack _) lane
  · exact Redis.streams_setStream hs ((hs _).xdel _) lane

theorem lastDelivered (h : Effect s s' a) (lane : Lane) :
    (s'.streams lane).lastDelivered = (s.streams lane).lastDelivered := by
  have hupdate : ∀ (l : Lane) (t : TaskStream), t.lastDelivered = (s.streams l).lastDelivered →
      (Function.update s.streams l t lane).lastDelivered = (s.streams lane).lastDelivered := by
    intro l t ht
    by_cases hl : lane = l
    · subst hl
      rwa [Function.update_self]
    · rw [Function.update_of_ne hl]
  rcases h.streams with h | ⟨fields, now, -, h⟩ | ⟨e, -, h⟩ | ⟨e, -, h⟩ <;> rw [h] <;>
    exact hupdate _ _ rfl

/-- No act puts an entry under another consumer. -/
theorem owner (h : Effect s s' a) {lane : Lane} {id : StreamId} {q : Pending}
    (hq : (s'.streams lane).owner? id = some q) : (s.streams lane).owner? id = some q := by
  have hupdate : ∀ (l : Lane) (t : TaskStream),
      (t.owner? id = some q → (s.streams l).owner? id = some q) →
      (Function.update s.streams l t lane).owner? id = some q →
      (s.streams lane).owner? id = some q := by
    intro l t ht hq
    by_cases hl : lane = l
    · subst hl
      rw [Function.update_self] at hq
      exact ht hq
    · rwa [Function.update_of_ne hl] at hq
  rcases h.streams with h | ⟨fields, now, -, h⟩ | ⟨e, -, h⟩ | ⟨e, -, h⟩ <;> rw [h] at hq
  · exact hq
  · refine hupdate _ _ (fun h => ?_) hq
    exact h
  · exact hupdate _ _ TaskStream.owner?_xack hq
  · refine hupdate _ _ (fun h => ?_) hq
    exact h

/-- An entry after an act was there before it, or has just been added under a fresh id. -/
theorem entries (h : Effect s s' a) {lane : Lane} {e : Entry}
    (he : e ∈ (s'.streams lane).entries) :
    e ∈ (s.streams lane).entries ∨
      ∃ fields now, a = .add fields ∧ lane = .main ∧
        e = ⟨(s.streams .main).lastId.next now, fields⟩ := by
  rcases h.streams with h | ⟨fields, now, ha, h⟩ | ⟨x, -, h⟩ | ⟨x, -, h⟩ <;> rw [h] at he
  · exact .inl he
  · rcases Redis.mem_entries_xadd (s := s) he with hold | ⟨hlane, hnew⟩
    · exact .inl hold
    · exact .inr ⟨fields, now, ha, hlane, hnew⟩
  · rcases Redis.mem_entries_setStream (s := s) he with hold | ⟨rfl, hmem⟩
    · exact .inl hold
    · exact .inl hmem
  · rcases Redis.mem_entries_setStream (s := s) he with hold | ⟨rfl, hmem⟩
    · exact .inl hold
    · exact .inl (TaskStream.mem_xdel_entries.mp hmem).1

end Effect

/-! ## Moves, read backwards -/

namespace Act
variable {c : Cmd} {r : Except Exn (Ret c)}

theorem of_request {key : PageKey} {target : PageState} {allowed : List PageState}
    {extra : List (PageField × Json)} {ok completed : Bool}
    (h : Act.of c r = .request key target allowed extra ok completed) :
    c = .evalTransition key target allowed extra := by
  cases c <;> cases r <;> simp [Act.of] at h
  obtain ⟨rfl, rfl, rfl, rfl, -⟩ := h
  rfl

theorem of_vlm {body : Json} (h : Act.of c r = .model .vlm (.ok body)) :
    ∃ key, c = .vlm key := by
  cases c <;> cases r <;> simp [Act.of] at h
  exact ⟨_, rfl⟩

theorem of_publish {job : JobId} {body : EventBody} {ok : Bool}
    (h : Act.of c r = .publish job body ok) : c = .publish job body := by
  cases c <;> cases r <;> simp [Act.of] at h
  all_goals
    obtain ⟨rfl, rfl, -⟩ := h
    rfl

theorem of_xdel {entry : Lane × StreamId} (h : Act.of c r = .xdel entry) :
    c = .xdel entry.1 entry.2 := by
  cases c <;> cases r <;> simp [Act.of] at h
  subst h
  rfl

end Act

namespace Move
variable {b : Brief} {φ φ' : Phase}

/-- A party looks at its own page only. -/
theorem look_key {key : PageKey} {seen : Option PageState} (h : Move b φ (.look key seen) φ') :
    key = b.key := by
  cases h <;> rfl

/-- A party requests transitions of its own page only. -/
theorem request_key {key : PageKey} {target : PageState} {allowed : List PageState}
    {extra : List (PageField × Json)} {ok completed : Bool}
    (h : Move b φ (.request key target allowed extra ok completed) φ') : key = b.key := by
  cases h
  rfl

theorem requests {key : PageKey} {target : PageState} {allowed : List PageState}
    {extra : List (PageField × Json)} {ok completed : Bool}
    (h : Move b φ (.request key target allowed extra ok completed) φ') :
    ∃ next, Requests b φ target allowed extra next := by
  cases h with
  | request hreq => exact ⟨_, hreq⟩

/-- A model is called in its stage. -/
theorem model_spec {ep : Endpoint} {answer : Except Exn Json}
    (h : Move b φ (.model ep answer) φ') : φ = calling ep := by
  cases h
  rfl

/-- What the write of a `release_claim` asks for. -/
theorem releaseWrite_spec {site : Site} {key : PageKey} {seen target : PageState}
    {allowed : List PageState} {extra : List (PageField × Json)} {ok completed : Bool}
    (h : Move b (releaseWrite site seen) (.request key target allowed extra ok completed) φ') :
    reclaimTarget seen = some target ∧ allowed = [seen] := by
  cases h with
  | request hreq =>
    cases hreq with
    | release ht => exact ⟨ht, rfl⟩

/-- A party adds entries for its own page only, when it requeues. -/
theorem add_spec {fields : RawTask} (h : Move b φ (.add fields) φ') :
    φ = requeueing ∧ φ' = settling ∧ ∀ id, (⟨id, fields⟩ : Entry).About b.key := by
  cases h
  exact ⟨rfl, rfl, fun _ => ⟨rfl, rfl⟩⟩

/-- A party acknowledges its own entry only. -/
theorem xack_spec {entry : Lane × StreamId} (h : Move b φ (.xack entry) φ') :
    φ = settling ∧ φ' = deleting ∧ entry = (b.task.stream, b.task.entryId) := by
  cases h
  exact ⟨rfl, rfl, rfl⟩

/-- A party deletes its own entry only, after acknowledging it. -/
theorem xdel_spec {entry : Lane × StreamId} (h : Move b φ (.xdel entry) φ') :
    φ = deleting ∧ φ' = ended ∧ entry = (b.task.stream, b.task.entryId) := by
  cases h
  exact ⟨rfl, rfl, rfl⟩

end Move

/-- Taking an entry keeps the ids in order. -/
theorem Taken.sound {f : Fleet} {p : Party} {e : Entry} {stream : TaskStream}
    (ht : Taken f p e stream) (h : (f.redis.streams p.task.stream).Sound) : stream.Sound where
  bound := by rw [ht.entries, ht.lastId]; exact h.bound
  unique := by rw [ht.entries]; exact h.unique
  delivered := by
    rw [ht.lastId]
    rcases ht.how with ⟨-, -, hlast, -⟩ | ⟨-, -, hlast, -⟩ <;> rw [hlast]
    · exact h.bound e ht.mem
    · exact h.delivered
  pending := by
    intro id hid
    rcases ht.how with ⟨-, hbefore, hlast, hpend⟩ | ⟨-, -, hlast, hpend⟩ <;>
      rw [hpend] at hid <;> rw [hlast]
    · rcases List.mem_append.mp hid with hid | hid
      · exact StreamId.not_before_trans (StreamId.not_before_of_before hbefore) (h.pending id hid)
      · rw [List.mem_singleton.mp hid]
        exact StreamId.before_irrefl _
    · exact h.pending id hid

/-- The bookkeeping invariant. -/
structure Books (f : Fleet) : Prop where
  sound : ∀ lane, (f.redis.streams lane).Sound
  pageJob : ∀ key, (f.redis.pages key).isSome = true → (f.redis.jobs key.job).isSome = true
  unqueued : ∀ key s, f.enqueued key = false → f.redis.state? key = some s → s = pending
  queued : ∀ key, f.enqueued key = true → (f.redis.state? key).isSome = true
  entryPage : ∀ lane, ∀ e ∈ (f.redis.streams lane).entries,
    ∃ key, e.About key ∧ f.enqueued key = true
  taken : ∀ entry t, f.taker entry = some t →
    (f.redis.streams entry.1).lastDelivered.before entry.2 = false
  partyPage : ∀ t p, f.parties t = some p → f.enqueued p.key = true
  partyTaken : ∀ t p, f.parties t = some p → (f.taker p.entry).isSome = true
  partyEntry : ∀ t p, f.parties t = some p → ∀ e ∈ (f.redis.streams p.entry.1).entries,
    e.id = p.entry.2 → e.About p.key

namespace Books
variable {cfg : Settings} {f f' : Fleet} {φ φ' : ℕ → Phase} {l : Label}

theorem empty : Books Fleet.empty := by
  constructor <;> simp [Fleet.empty, Redis.empty, Redis.state?, TaskStream.Sound.empty]
  simp [TaskStream.empty]

/-- An entry that somebody took is not the next one `XADD` assigns. -/
theorem taken_ne_next (h : Books f) {entry : Lane × StreamId} (ht : (f.taker entry).isSome = true)
    (now : ℕ) : (f.redis.streams entry.1).lastId.next now ≠ entry.2 := by
  obtain ⟨t, ht⟩ := Option.isSome_iff_exists.mp ht
  exact StreamId.next_ne now
    (StreamId.not_before_trans (h.sound entry.1).delivered (h.taken entry t ht))

/-- An entry that is about to be delivered for the first time has no taker. -/
theorem taker_first (h : Books f) {entry : Lane × StreamId}
    (hfirst : (f.redis.streams entry.1).lastDelivered.before entry.2 = true) :
    f.taker entry = none := by
  cases ht : f.taker entry with
  | none => rfl
  | some t =>
    rw [h.taken entry t ht] at hfirst
    cases hfirst

/-- Submitting a job leaves enqueued pages alone: they belong to jobs that exist. -/
theorem state?_submit (h : Books f) {job : JobId} {totalPages now : ℕ}
    (hnew : f.redis.jobs job = none) {key : PageKey} (hq : f.enqueued key = true) :
    (initJob cfg now job totalPages f.redis).state? key = f.redis.state? key := by
  have hjob : key.job ≠ job := by
    rintro rfl
    have hpage := h.queued key hq
    rw [Redis.isSome_state?] at hpage
    have hjob := h.pageJob key hpage
    simp [hnew] at hjob
  simp [Redis.state?, initJob, hjob]

theorem submit (h : Books f) {job : JobId} {totalPages now : ℕ} :
    Books { f with redis := initJob cfg now job totalPages f.redis } where
  sound := h.sound
  entryPage := h.entryPage
  taken := h.taken
  partyPage := h.partyPage
  partyTaken := h.partyTaken
  partyEntry := h.partyEntry
  pageJob := by
    intro key hkey
    by_cases hj : key.job = job
    · simp [initJob, hj]
    · simp only [initJob, hj, false_and, if_false] at hkey
      simpa [initJob, hj] using h.pageJob key hkey
  unqueued := by
    intro key s hq hs
    simp only [Redis.state?, initJob] at hs
    split at hs
    · exact (Option.some.inj hs).symm
    · exact h.unqueued key s hq hs
  queued := by
    intro key hq
    simp only [Redis.state?, initJob]
    split
    · rfl
    · exact h.queued key hq

theorem enqueue (h : Books f) {key : PageKey} {now : ℕ} {traceId : String}
    (hpage : (f.redis.pages key).isSome = true) :
    Books { f with
      redis := f.redis.setStream (enqueueLane key)
        ((f.redis.streams (enqueueLane key)).xadd now (enqueueFields key now traceId)).2
      enqueued := Function.update f.enqueued key true } where
  sound := Redis.streams_setStream h.sound ((h.sound _).xadd _ _)
  pageJob := h.pageJob
  unqueued := by
    intro k s hq hs
    by_cases hk : k = key
    · simp [hk] at hq
    · simp only [ne_eq, hk, not_false_eq_true, Function.update_of_ne] at hq
      exact h.unqueued k s hq hs
  queued := by
    intro k hq
    by_cases hk : k = key
    · subst hk
      simpa [Redis.state?] using hpage
    · simp only [ne_eq, hk, not_false_eq_true, Function.update_of_ne] at hq
      exact h.queued k hq
  entryPage := by
    intro lane e he
    have hold : e ∈ (f.redis.streams lane).entries →
        ∃ k, e.About k ∧ Function.update f.enqueued key true k = true := by
      intro he
      obtain ⟨k, hk, hq⟩ := h.entryPage lane e he
      refine ⟨k, hk, ?_⟩
      by_cases hkk : k = key
      · simp [hkk]
      · simpa [hkk] using hq
    rcases Redis.mem_entries_xadd he with he | ⟨-, rfl⟩
    · exact hold he
    · exact ⟨key, ⟨rfl, rfl⟩, by simp⟩
  taken := by
    intro entry t ht
    by_cases hl : entry.1 = enqueueLane key
    · simp only [Redis.setStream, hl, Function.update_self]
      exact hl ▸ h.taken entry t ht
    · simp only [Redis.setStream, ne_eq, hl, not_false_eq_true, Function.update_of_ne]
      exact h.taken entry t ht
  partyPage := by
    intro t p hp
    by_cases hk : p.key = key
    · simp [hk]
    · simpa [hk] using h.partyPage t p hp
  partyTaken := h.partyTaken
  partyEntry := by
    intro t p hp e he hid
    rcases Redis.mem_entries_xadd he with he | ⟨hl, rfl⟩
    · exact h.partyEntry t p hp e he hid
    · exact absurd hid (hl ▸ h.taken_ne_next (h.partyTaken t p hp) now)

theorem idle (h : Books f) {procs : Consumer → Option ProcStage} {streams : Lane → TaskStream}
    (hs : ∀ lane, (f.redis.streams lane).SameEntries (streams lane)) :
    Books { f with procs, redis := { f.redis with streams } } where
  sound := fun lane => (h.sound lane).same (hs lane)
  pageJob := h.pageJob
  unqueued := h.unqueued
  queued := h.queued
  entryPage := by
    intro lane e he
    simp only [(hs lane).entries] at he
    exact h.entryPage lane e he
  taken := by
    intro entry t ht
    simp only [(hs entry.1).lastDelivered]
    exact h.taken entry t ht
  partyPage := h.partyPage
  partyTaken := h.partyTaken
  partyEntry := by
    intro t p hp e he
    simp only [(hs p.entry.1).entries] at he
    exact h.partyEntry t p hp e he

theorem take (h : Books f) {p : Party} {e : Entry} {stream : TaskStream}
    (ht : Taken f p e stream) :
    Books ({ f with redis := f.redis.setStream p.task.stream stream }.spawn p) := by
  have habout : e.About p.key := ⟨ht.job, ht.page⟩
  have hsound := h.sound p.task.stream
  have hentries := ht.entries_setStream
  have hdelivered : ∀ lane id, (f.redis.streams lane).lastDelivered.before id = false →
      ((f.redis.setStream p.task.stream stream).streams lane).lastDelivered.before id = false := by
    intro lane id hid
    by_cases hl : lane = p.task.stream
    · subst hl
      simp only [Redis.setStream, Function.update_self]
      rcases ht.how with ⟨-, hbefore, hlast, -⟩ | ⟨-, -, hlast, -⟩ <;> rw [hlast]
      · exact StreamId.not_before_trans (StreamId.not_before_of_before hbefore) hid
      · exact hid
    · simpa [Redis.setStream, hl] using hid
  have hself : stream.lastDelivered.before e.id = false := by
    rcases ht.how with ⟨-, -, hlast, -⟩ | ⟨-, hpending, hlast, -⟩ <;> rw [hlast]
    · exact StreamId.before_irrefl _
    · exact hsound.pending _ hpending
  obtain ⟨key, hkey, hq⟩ := h.entryPage _ e ht.mem
  obtain rfl := hkey.unique habout
  constructor
  · intro lane
    exact Redis.streams_setStream h.sound (ht.sound hsound) lane
  · exact h.pageJob
  · exact h.unqueued
  · exact h.queued
  · intro lane x hx
    simp only [Fleet.spawn, hentries] at hx
    exact h.entryPage lane x hx
  · intro entry t htaker
    by_cases hentry : entry = p.entry
    · subst hentry
      simpa [Fleet.spawn, Redis.setStream, Party.entry, ← ht.id] using hself
    · simp only [Fleet.spawn, ne_eq, hentry, not_false_eq_true, Function.update_of_ne] at htaker
      exact hdelivered _ _ (h.taken entry t htaker)
  · intro t q hp
    by_cases htn : t = f.next
    · subst htn
      obtain rfl := Option.some.inj (spawn_parties_self.symm.trans hp)
      exact hq
    · exact h.partyPage t q ((spawn_parties_ne htn).symm.trans hp)
  · intro t q hp
    by_cases hentry : q.entry = p.entry
    · simp [Fleet.spawn, hentry]
    · simp only [Fleet.spawn, ne_eq, hentry, not_false_eq_true, Function.update_of_ne]
      by_cases htn : t = f.next
      · subst htn
        obtain rfl := Option.some.inj (spawn_parties_self.symm.trans hp)
        exact absurd rfl hentry
      · exact h.partyTaken t q ((spawn_parties_ne htn).symm.trans hp)
  · intro t q hp x hx hid
    simp only [Fleet.spawn, hentries] at hx
    by_cases htn : t = f.next
    · subst htn
      obtain rfl := Option.some.inj (spawn_parties_self.symm.trans hp)
      obtain rfl := hsound.unique x hx e ht.mem (hid.trans ht.id.symm)
      exact habout
    · exact h.partyEntry t q ((spawn_parties_ne htn).symm.trans hp) x hx hid

theorem crash (h : Books f) {procs : Consumer → Option ProcStage} {parties : ℕ → Option Party}
    (hp : ∀ t p, parties t = some p → f.parties t = some p) :
    Books { f with procs, parties } where
  sound := h.sound
  pageJob := h.pageJob
  unqueued := h.unqueued
  queued := h.queued
  entryPage := h.entryPage
  taken := h.taken
  partyPage := fun t p hq => h.partyPage t p (hp t p hq)
  partyTaken := fun t p hq => h.partyTaken t p (hp t p hq)
  partyEntry := fun t p hq => h.partyEntry t p (hp t p hq)

theorem act (h : Books f) {t : ℕ} {p : Party} {c : Cmd} {o : Oracle} {φ₁ φ₂ : Phase} {e : Event}
    {prog : Py Unit} (hparty : f.parties t = some p)
    (hmove : Move (p.brief cfg) φ₁ (Act.of c (c.exec cfg o f.redis).1) φ₂)
    (heffect : Effect f.redis (c.exec cfg o f.redis).2 (Act.of c (c.exec cfg o f.redis).1)) :
    Books (f.resume t p e prog (c.exec cfg o f.redis).2) := by
  have hsome : ∀ key, ((c.exec cfg o f.redis).2.state? key).isSome =
      (f.redis.state? key).isSome := by
    intro key
    rcases heffect.states with hs | ⟨k, target, allowed, extra, completed, st, -, -, hst, hs⟩ <;>
      rw [hs]
    by_cases hk : key = k
    · subst hk
      simp [hst]
    · rw [Function.update_of_ne hk]
  constructor
  · exact heffect.sound h.sound
  · intro key hkey
    have hkey' : (f.redis.pages key).isSome = true := by
      rw [← Redis.isSome_state?, ← hsome key, Redis.isSome_state?]
      exact hkey
    exact Cmd.jobs_isSome_exec (h.pageJob key hkey')
  · intro key s hq hs
    simp only [Fleet.resume] at hq hs
    rcases heffect.states with hsame | ⟨k, target, allowed, extra, completed, st, ha, -, -, hup⟩
    · rw [hsame] at hs
      exact h.unqueued key s hq hs
    · rw [hup] at hs
      by_cases hk : key = k
      · -- Only enqueued pages have parties, and a party requests its own page.
        rw [ha] at hmove
        have hpage := h.partyPage t p hparty
        rw [hk, hmove.request_key] at hq
        exact absurd hpage (by simpa [Party.brief, Brief.key, Party.key] using hq)
      · rw [Function.update_of_ne hk] at hs
        exact h.unqueued key s hq hs
  · intro key hq
    simp only [Fleet.resume] at hq ⊢
    rw [hsome]
    exact h.queued key hq
  · intro lane x hx
    simp only [Fleet.resume] at hx ⊢
    rcases heffect.entries hx with hx | ⟨fields, now, ha, -, rfl⟩
    · exact h.entryPage lane x hx
    · rw [ha] at hmove
      exact ⟨p.key, hmove.add_spec.2.2 _, h.partyPage t p hparty⟩
  · intro entry t' ht'
    simp only [Fleet.resume, heffect.lastDelivered] at ht' ⊢
    exact h.taken entry t' ht'
  · intro t' q hq
    obtain ⟨q', hq', hkey, -⟩ := resume_parties_back cfg hparty hq
    rw [hkey]
    exact h.partyPage t' q' hq'
  · intro t' q hq
    obtain ⟨q', hq', -, hentry, -⟩ := resume_parties_back cfg hparty hq
    rw [hentry]
    exact h.partyTaken t' q' hq'
  · intro t' q hq x hx hid
    obtain ⟨q', hq', hkey, hentry, -⟩ := resume_parties_back cfg hparty hq
    rw [hentry] at hx hid
    rw [hkey]
    simp only [Fleet.resume] at hx
    rcases heffect.entries hx with hx | ⟨fields, now, -, hmain, rfl⟩
    · exact h.partyEntry t' q' hq' x hx hid
    · exact absurd hid (hmain ▸ h.taken_ne_next (h.partyTaken t' q' hq') now)

end Books

/-- **The books are kept** by every tick. -/
theorem Tick.books {cfg : Settings} {f f' : Fleet} {φ φ' : ℕ → Phase} {l : Label}
    (h : Tick cfg f φ l f' φ') (hb : Books f) : Books f' := by
  cases h with
  | submit => exact hb.submit
  | enqueue _ _ _ hpage _ => exact hb.enqueue hpage
  | idle _ _ _ hs _ => exact hb.idle hs
  | take _ ht => exact hb.take ht
  | crash => exact hb.crash fun t p hp => (Option.filter_eq_some_iff.mp hp).1
  | act hparty _ hmove heffect _ => exact hb.act hparty hmove heffect

/-! ## Reaping orphans only -/

/-- Every live party is the last one that took its entry, and the entry, while pending, is
pending under its consumer. -/
structure Undisturbed (f : Fleet) : Prop where
  holds : ∀ t p, f.parties t = some p → f.taker p.entry = some t
  owner : ∀ t p q, f.parties t = some p →
    (f.redis.streams p.entry.1).owner? p.entry.2 = some q → q.consumer = p.consumer

namespace Undisturbed
variable {cfg : Settings} {f f' : Fleet} {φ φ' : ℕ → Phase} {l : Label}

theorem empty : Undisturbed Fleet.empty := by
  constructor <;> intro t p <;> simp [Fleet.empty]

/-- The holder of an entry is one party. -/
theorem unique (h : Undisturbed f) {t t' : ℕ} {p p' : Party} (hp : f.parties t = some p)
    (hp' : f.parties t' = some p') (he : p.entry = p'.entry) : t = t' ∧ p = p' := by
  have ht : t = t' := by
    have h1 := h.holds t p hp
    rw [he, h.holds t' p' hp'] at h1
    exact (Option.some.inj h1).symm
  subst ht
  exact ⟨rfl, Option.some.inj (hp.symm.trans hp')⟩

/-- Nobody alive holds an entry that is being taken. -/
theorem not_held (h : Undisturbed f) (hphased : Phased cfg f φ) (hbooks : Books f)
    (hallow : reapsOnlyOrphans f l = true) {p : Party} {e : Entry} {stream : TaskStream}
    (hl : l.Takes p) (ht : Taken f p e stream) {t : ℕ} {q : Party} (hq : f.parties t = some q) :
    q.entry ≠ p.entry := by
  intro hentry
  have hlive : ∀ {g : Party → Bool}, g q = true → f.anyParty g = true := fun hg =>
    Fleet.anyParty_eq_true.mpr ⟨t, q, (hphased t q hq).1, hq, hg⟩
  have hpentry : p.entry = (p.task.stream, e.id) := by rw [ht.id]; rfl
  cases l with
  | deliver c lane now =>
    rcases ht.how with ⟨-, hbefore, -, -⟩ | ⟨hrec, -⟩
    · have htaker := h.holds t q hq
      rw [hentry, hpentry, hbooks.taker_first hbefore] at htaker
      cases htaker
    · rw [hl.2] at hrec
      cases hrec
  | recoverOwn c lane id now =>
    obtain ⟨⟨r, hr, hcons⟩, hnone⟩ := ht.reread hl.2.2 hl.2.1
    have hsame : q.consumer = p.consumer := by
      rw [← hcons]
      refine (h.owner t q r hq ?_).symm
      rw [hentry, hpentry]
      exact hr
    rw [hlive (by simp [hsame, hentry])] at hnone
    cases hnone
  | reap c lane id now =>
    simp only [reapsOnlyOrphans, Bool.not_eq_true'] at hallow
    rw [hlive (by simp [hentry, hl.1])] at hallow
    cases hallow
  | _ => exact hl

end Undisturbed

theorem Tick.undisturbed {cfg : Settings} {f f' : Fleet} {φ φ' : ℕ → Phase} {l : Label}
    (h : Tick cfg f φ l f' φ') (hphased : Phased cfg f φ) (hbooks : Books f)
    (hallow : reapsOnlyOrphans f l = true) (hu : Undisturbed f) : Undisturbed f' := by
  cases h with
  | submit => exact ⟨hu.holds, hu.owner⟩
  | enqueue key now traceId hpage hnew =>
    refine ⟨hu.holds, fun t p q hp hq => hu.owner t p q hp ?_⟩
    by_cases hl : p.entry.1 = enqueueLane key
    · rw [hl] at hq ⊢
      simp only [Redis.setStream, Function.update_self] at hq
      exact hq
    · simpa [Redis.setStream, hl] using hq
  | idle l procs streams hs howner =>
    refine ⟨hu.holds, fun t p q hp hq => ?_⟩
    rcases howner _ _ q hq with hold | hlive
    · exact hu.owner t p q hp hold
    · obtain ⟨t', p', -, hp', hholds⟩ := Fleet.anyParty_eq_true.mp hlive
      simp only [decide_eq_true_eq] at hholds
      rw [← hholds.1, (hu.unique hp hp' hholds.2.symm).2]
  | crash c =>
    have hback : ∀ t p, (f.parties t).filter (fun p => decide (p.consumer ≠ c)) = some p →
        f.parties t = some p := fun t p hp => (Option.filter_eq_some_iff.mp hp).1
    exact ⟨fun t p hp => hu.holds t p (hback t p hp), fun t p q hp => hu.owner t p q (hback t p hp)⟩
  | @take _ p e stream hl ht =>
    have hpentry : p.entry = (p.task.stream, e.id) := by rw [ht.id]; rfl
    constructor
    · intro t q hq
      by_cases htn : t = f.next
      · subst htn
        obtain rfl := Option.some.inj (spawn_parties_self.symm.trans hq)
        simp [Fleet.spawn]
      · have hq := (spawn_parties_ne htn).symm.trans hq
        simp only [Fleet.spawn, ne_eq, hu.not_held hphased hbooks hallow hl ht hq,
          not_false_eq_true, Function.update_of_ne]
        exact hu.holds t q hq
    · intro t q r hq hr
      by_cases htn : t = f.next
      · subst htn
        obtain rfl := Option.some.inj (spawn_parties_self.symm.trans hq)
        simp only [Fleet.spawn, Redis.setStream, hpentry, Function.update_self] at hr
        rcases ht.owner _ r hr with ⟨-, hcons⟩ | ⟨hfirst, hold⟩
        · exact hcons
        · -- A first delivery finds no line for the entry in the pending list.
          rcases ht.how with ⟨-, hbefore, -, -⟩ | ⟨hrec, -⟩
          · have hp := (hbooks.sound p.task.stream).pending _
              (TaskStream.mem_pending_of_owner (by rw [hold]; rfl))
            rw [hbefore] at hp
            cases hp
          · rw [hfirst rfl] at hrec
            cases hrec
      · have hq := (spawn_parties_ne htn).symm.trans hq
        refine hu.owner t q r hq ?_
        simp only [Fleet.spawn, Redis.setStream] at hr
        by_cases hlane : q.entry.1 = p.task.stream
        · rw [hlane, Function.update_self] at hr
          rcases ht.owner _ r hr with ⟨hid, -⟩ | ⟨-, hold⟩
          · refine absurd ?_ (hu.not_held hphased hbooks hallow hl ht hq)
            rw [hpentry, ← hlane, ← hid]
          · rw [hlane]
            exact hold
        · rw [Function.update_of_ne hlane] at hr
          exact hr
  | @act t o p c k φ₁ hparty hprog hmove heffect _ =>
    constructor
    · intro t' q hq
      obtain ⟨q', hq', -, hentry, -⟩ := resume_parties_back cfg hparty hq
      rw [hentry]
      exact hu.holds t' q' hq'
    · intro t' q r hq hr
      obtain ⟨q', hq', -, hentry, hcons, -⟩ := resume_parties_back cfg hparty hq
      rw [hcons]
      refine hu.owner t' q' r hq' ?_
      rw [hentry] at hr
      exact heffect.owner hr

end OcrOrchestrator
