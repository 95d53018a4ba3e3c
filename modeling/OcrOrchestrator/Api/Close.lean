import OcrOrchestrator.Api.Stream
import OcrOrchestrator.Worker.Step

/-!
# A stream that closes as complete

A connection closes as complete for one of two reasons.  A read has returned the `job.complete`
event, and everything that came with it has been sent.  Or a tail read has come back empty and
`progress`, read after it, says that every page is terminal: the event may have been lost, and
the connection derives it.

The workers are the fleet, so commits and publishes are separate steps of theirs, and the
counts that `progress` returns are those of the job hash.  What the stream holds when the
connection reads from Redis is kept beside the state.

## Main definitions

* `Watch`, `Watch.system` — the fleet and one subscriber of a job.
* `Watch.Delivered` — a stream closed as complete has sent all that was there.
* `Watch.closesDrained` — the read that closes the stream leaves nothing unread.
-/

namespace OcrOrchestrator

open Lib

namespace Sse

/-- The fleet and a subscriber of one job; what the stream held after its cursor at the
subscriber's last read; and whether it has been closed as complete. -/
structure Watch where
  fleet : Fleet
  subscriber : Subscriber
  seen : List ResultEntry
  complete : Bool

namespace Watch

inductive Label where
  /-- A step of the workers. -/
  | worker (l : OcrOrchestrator.Label)
  | act (a : Action)

/-- `progress`, as the job hash has it. -/
def progress (f : Fleet) (job : JobId) : ℕ × ℕ :=
  (((f.redis.jobs job).bind JobHash.doneCount).getD 0,
    ((f.redis.jobs job).bind JobHash.totalPages).getD 0)

/-- Reads of the counts return those of the job hash. -/
def answered (f : Fleet) (job : JobId) : Action → Bool
  | .readProgress done total => decide (progress f job = (done, total))
  | _ => true

/-- The reads after which a connection can close. -/
def isRead : Action → Bool
  | .readHistory => true
  | .readTail => true
  | .readProgress _ _ => true
  | _ => false

/-- Does the step close the stream as complete? -/
def closes (a : Action) (u : Subscriber) : Bool :=
  match a, u.phase with
  | .send, .closed => true
  | .readProgress _ _, .closed => true
  | _, _ => false

/-- One step, `none` if the label is not enabled. -/
def step (cfg : Settings) (sse : SseSettings) (job : JobId) (cursor : Option StreamId) (s : Watch) :
    Label → Option Watch
  | .worker l => (s.fleet.step cfg l).map fun f => { s with fleet := f }
  | .act a =>
    if answered s.fleet job a then
      (s.subscriber.act sse (s.fleet.redis.results job) a).map fun u =>
        { s with
          subscriber := u
          seen := if isRead a then (s.fleet.redis.results job).entriesAfter cursor else s.seen
          complete := s.complete || closes a u }
    else none

def start (cursor : Option StreamId) : Watch := ⟨.empty, .connect cursor, [], false⟩

def system (cfg : Settings) (sse : SseSettings) (job : JobId) (cursor : Option StreamId) :
    System Watch Label :=
  ⟨start cursor, step cfg sse job cursor⟩

/-- Nothing is trimmed from a result stream, and no publish raises. -/
def publishesKeep (f : Fleet) : OcrOrchestrator.Label → Bool
  | .run t o =>
    match (f.parties t).bind Party.awaited with
    | some (.publish _ _) => decide (o.trim = 0) && o.fault.isNone
    | _ => true
  | _ => true

/-- The runs in question: no trimming, no publish failure. -/
def untrimmed (s : Watch) : Label → Bool
  | .worker l => publishesKeep s.fleet l
  | .act _ => true

/-- **A stream closed as complete has delivered everything** that it held after the cursor when
the subscriber made the read that closed it. -/
def Delivered (s : Watch) : Prop :=
  s.complete = true → ∀ e ∈ s.seen, e ∈ s.subscriber.events

/-- The entries a read returns, of those that are left. -/
def returned (sse : SseSettings) (left : List ResultEntry) : Action → List ResultEntry
  | .readHistory => left.take sse.historyLimit
  | .readTail => left.take sse.batch
  | _ => []

/-- The read that closes the stream leaves nothing unread: a read that returns `job.complete`
is not cut off, and when `progress` says that the job is done, nothing has been published since
the tail read that came back empty. -/
def closesDrained (sse : SseSettings) (job : JobId) (s : Watch) : Label → Bool
  | .worker l => publishesKeep s.fleet l
  | .act a =>
    let left := (s.fleet.redis.results job).entriesAfter s.subscriber.phase.next
    match a, s.subscriber.phase with
    | .readProgress done total, .idle _ =>
      !(decide (0 < total) && decide (total ≤ done)) || left.isEmpty
    | a, _ =>
      !(returned sse left a).any (fun e => decide (e.body.event = .jobComplete)) ||
        decide ((returned sse left a).length = left.length)

section Steps
variable {cfg : Settings} {sse : SseSettings} {job : JobId} {cursor : Option StreamId}
  {f f' : Fleet} {s s' : Watch}

/-- A step of the workers publishes at most one event, and trims nothing. -/
theorem results_of_step {l : OcrOrchestrator.Label} (hstep : Step cfg f l f')
    (hkeep : publishesKeep f l = true) (job : JobId) :
    f'.redis.results job = f.redis.results job ∨
      ∃ maxlen now body, f'.redis.results job =
        ((f.redis.results job).publishScript maxlen now 0 body).2 := by
  cases hstep with
  | submit => exact .inl rfl
  | enqueue => exact .inl rfl
  | idle => exact .inl rfl
  | take => exact .inl rfl
  | crash => exact .inl rfl
  | @run t o p c k hparty hprog =>
    have hawaited : (f.parties t).bind Party.awaited = some c := by
      rw [hparty, Option.bind_some, Party.awaited, hprog]
    simp only [publishesKeep, hawaited] at hkeep
    simp only [Fleet.resume]
    rcases Cmd.exec_state cfg o c f.redis with hsame | happly
    · rw [hsame]
      exact .inl rfl
    · rw [happly]
      cases c with
      | publish job' body =>
        simp only [Bool.and_eq_true, decide_eq_true_eq] at hkeep
        by_cases hjob : job = job'
        · subst hjob
          refine .inr ⟨cfg.resultStreamMaxlen, o.now, body, ?_⟩
          simp only [Cmd.apply, Function.update_self, hkeep.1]
        · refine .inl ?_
          simp only [Cmd.apply, Function.update_of_ne hjob]
      | _ => exact .inl rfl

/-- The invariant: the stream is whole and the connection at its frontier; a batch that closes
the stream once it is sent is all that was left, and a stream closed as complete has sent what
was there. -/
structure Draining (job : JobId) (cursor : Option StreamId) (s : Watch) : Prop where
  sound : (s.fleet.redis.results job).Sound
  whole : (s.fleet.redis.results job).trimmed = 0
  tracks : s.subscriber.Tracks (s.fleet.redis.results job) cursor
  batch : ∀ e rest complete, s.subscriber.phase = .sending e rest complete →
    (complete = true ∨ ∃ x ∈ e :: rest, x.body.event = .jobComplete) →
      ∀ x ∈ s.seen, x ∈ s.subscriber.events ++ e :: rest
  closed : s.complete = true → s.subscriber.phase = .closed ∧ ∀ x ∈ s.seen, x ∈ s.subscriber.events

theorem draining_start (job : JobId) (cursor : Option StreamId) : (start cursor).Draining job cursor where
  sound := ResultStream.sound_empty
  whole := rfl
  tracks := Subscriber.tracks_of_frontier ⟨rfl, fun _ _ => rfl⟩
  batch := by
    intro e rest complete hphase
    cases hphase
  closed := by
    intro hcomplete
    cases hcomplete

theorem Draining.worker (h : s.Draining job cursor) {l : OcrOrchestrator.Label}
    (hstep : Step cfg s.fleet l f) (hkeep : publishesKeep s.fleet l = true) :
    Draining job cursor { s with fleet := f } := by
  rcases results_of_step hstep hkeep job with hsame | ⟨maxlen, now, body, hpublish⟩
  · refine ⟨?_, ?_, ?_, h.batch, h.closed⟩ <;> simp only [hsame]
    · exact h.sound
    · exact h.whole
    · exact h.tracks
  · have hwhole : (((s.fleet.redis.results job).publishScript maxlen now 0 body).2).trimmed = 0 := by
      simp [ResultStream.publishScript, h.whole]
    refine ⟨?_, ?_, ?_, h.batch, h.closed⟩ <;> simp only [hpublish]
    · exact h.sound.publish _ _ _ _
    · exact hwhole
    · by_cases hclosed : s.subscriber.phase = .closed
      · apply Subscriber.tracks_closed hclosed
        rw [ResultStream.publishedAfter_publish]
        exact h.tracks.isPrefix.trans (List.prefix_append _ _)
      · refine Subscriber.tracks_of_frontier
          ((h.tracks.frontier hclosed).publish h.sound _ _ _ _ ?_)
        intro e he
        rw [hwhole] at he
        cases he

/-- What the stream holds has been sent or is left. -/
theorem Draining.mem_of_seen (h : s.Draining job cursor) (hopen : s.subscriber.phase ≠ .closed)
    (hpending : s.subscriber.phase.pending = []) {x : ResultEntry}
    (hx : x ∈ (s.fleet.redis.results job).entriesAfter cursor) :
    x ∈ s.subscriber.events ++
      (s.fleet.redis.results job).entriesAfter s.subscriber.phase.next := by
  have hfront := h.tracks.frontier hopen
  rw [hpending, List.append_nil] at hfront
  rw [hfront.got_append]
  obtain ⟨hcontents, hafter⟩ := List.mem_filter.mp hx
  exact List.mem_filter.mpr ⟨ResultStream.mem_log_of_mem_contents hcontents, hafter⟩

/-- A read that returns `job.complete` and is not cut off returns all that is left. -/
theorem eq_left_of_drained {left : List ResultEntry} {n : ℕ}
    (hdrained : (!(left.take n).any (fun e => decide (e.body.event = .jobComplete)) ||
      decide ((left.take n).length = left.length)) = true)
    (hcomplete : ∃ x ∈ left.take n, x.body.event = .jobComplete) : left.take n = left := by
  have hany : (left.take n).any (fun e => decide (e.body.event = .jobComplete)) = true := by
    simpa using hcomplete
  rw [hany] at hdrained
  refine (List.take_sublist n left).eq_of_length ?_
  simpa using hdrained

/-- A batch that a read returned with `job.complete` in it is, after what was sent, all that the
stream holds. -/
theorem Draining.mem_batch (h : s.Draining job cursor) {phase : Phase} {n : ℕ} {e x : ResultEntry}
    {rest : List ResultEntry} (hphase : s.subscriber.phase = phase) (hopen : phase ≠ .closed)
    (hpending : phase.pending = [])
    (hread : ((s.fleet.redis.results job).entriesAfter phase.next).take n = e :: rest)
    (hdrained : (!(((s.fleet.redis.results job).entriesAfter phase.next).take n).any
        (fun e => decide (e.body.event = .jobComplete)) ||
      decide ((((s.fleet.redis.results job).entriesAfter phase.next).take n).length =
        ((s.fleet.redis.results job).entriesAfter phase.next).length)) = true)
    (hcomplete : ∃ x ∈ e :: rest, x.body.event = .jobComplete)
    (hx : x ∈ (s.fleet.redis.results job).entriesAfter cursor) :
    x ∈ s.subscriber.events ++ e :: rest := by
  subst hphase
  rw [← hread] at hcomplete ⊢
  rw [eq_left_of_drained hdrained hcomplete]
  exact h.mem_of_seen hopen hpending hx

/-- The connection goes on without closing or sending. -/
theorem Draining.goOn (h : s.Draining job cursor) {a : Action} {u : Subscriber}
    (hopen : s.complete = false) (hact : s.subscriber.act sse (s.fleet.redis.results job) a = some u)
    (hphase : ∀ e rest complete, u.phase ≠ .sending e rest complete) (hcloses : closes a u = false)
    {seen : List ResultEntry} :
    Draining job cursor { s with subscriber := u, seen, complete := s.complete || closes a u } where
  sound := h.sound
  whole := h.whole
  tracks := h.tracks.act h.sound hact
  batch := fun e rest complete heq => absurd heq (hphase e rest complete)
  closed := by
    intro hcomplete
    simp [hopen, hcloses] at hcomplete

theorem Draining.act (h : s.Draining job cursor) {a : Action} {u : Subscriber}
    (hdrained : closesDrained sse job s (.act a) = true)
    (hact : s.subscriber.act sse (s.fleet.redis.results job) a = some u) :
    Draining job cursor { s with
      subscriber := u
      seen := if isRead a then (s.fleet.redis.results job).entriesAfter cursor else s.seen
      complete := s.complete || closes a u } := by
  have hopen : s.complete = false := by
    by_contra hcomplete
    rw [Bool.not_eq_false] at hcomplete
    have hclosed := (h.closed hcomplete).1
    have hturn := Subscriber.act_cases hact
    rw [hclosed] at hturn
    cases hturn with
    | disconnect hne => exact hne rfl
    | redisFails hne => exact hne rfl
  have htracks := h.tracks.act h.sound hact
  have hturn := Subscriber.act_cases hact
  generalize hphase : s.subscriber.phase = phase at hturn
  have hmem : ∀ x ∈ (s.fleet.redis.results job).entriesAfter cursor, phase ≠ .closed →
      phase.pending = [] → x ∈ s.subscriber.events ++
        (s.fleet.redis.results job).entriesAfter phase.next := by
    intro x hx hne hpending
    rw [← hphase] at hne hpending ⊢
    exact h.mem_of_seen hne hpending hx
  cases hturn with
  | @history cursor' =>
    simp only [closesDrained, hphase, returned, Phase.next] at hdrained
    cases hread : ((s.fleet.redis.results job).entriesAfter cursor').take sse.historyLimit with
    | nil =>
      rw [hread] at hact
      exact h.goOn hopen hact (by simp [Subscriber.deliver]) rfl
    | cons e rest =>
      rw [hread] at htracks
      refine ⟨h.sound, h.whole, htracks, ?_, ?_⟩
      · intro e' rest' complete heq hcomplete x hx
        cases heq
        exact h.mem_batch hphase (by simp) rfl hread hdrained (hcomplete.resolve_left (by simp)) hx
      · intro hcomplete
        simp [hopen, closes] at hcomplete
  | @tail lastId e rest hread =>
    simp only [closesDrained, hphase, returned, Phase.next] at hdrained
    refine ⟨h.sound, h.whole, htracks, ?_, ?_⟩
    · intro e' rest' complete heq hcomplete x hx
      cases heq
      exact h.mem_batch hphase (by simp) rfl hread hdrained (hcomplete.resolve_left (by simp)) hx
    · intro hcomplete
      simp [hopen, closes] at hcomplete
  | @send e rest complete =>
    have hbatch := h.batch e rest complete hphase
    have hevents : Subscriber.events
        ⟨Subscriber.afterSend e (complete || decide (e.body.event = .jobComplete)) rest,
          s.subscriber.frames ++ [.event e]⟩ = s.subscriber.events ++ [e] := by
      simp [Subscriber.events, Frame.entry]
    refine ⟨h.sound, h.whole, htracks, ?_, ?_⟩
    · intro e' rest' complete' heq hcomplete x hx
      rw [hevents, List.append_assoc, List.singleton_append]
      cases rest with
      | nil =>
        simp only [Subscriber.afterSend] at heq
        split at heq <;> cases heq
      | cons e'' rest'' =>
        cases heq
        refine hbatch ?_ x hx
        rcases hcomplete with hdone | ⟨y, hy, hevent⟩
        · rw [Bool.or_eq_true, decide_eq_true_eq] at hdone
          rcases hdone with hdone | hdone
          · exact .inl hdone
          · exact .inr ⟨e, List.mem_cons_self, hdone⟩
        · exact .inr ⟨y, List.mem_cons_of_mem _ hy, hevent⟩
    · intro hcomplete
      rw [hevents]
      cases rest with
      | cons e'' rest'' => simp [hopen, Subscriber.afterSend, closes] at hcomplete
      | nil =>
        by_cases hdone : (complete || decide (e.body.event = .jobComplete)) = true
        · refine ⟨if_pos hdone, hbatch ?_⟩
          rw [Bool.or_eq_true, decide_eq_true_eq] at hdone
          rcases hdone with hdone | hdone
          · exact .inl hdone
          · exact .inr ⟨e, List.mem_cons_self, hdone⟩
        · simp [hopen, Subscriber.afterSend, hdone, closes] at hcomplete
  | derive hdone =>
    refine ⟨h.sound, h.whole, htracks, ?_, ?_⟩
    · intro e' rest' complete heq
      cases heq
    · refine fun _ => ⟨rfl, fun x hx => ?_⟩
      simp only [closesDrained, hphase, Phase.next, hdone, decide_true, Bool.and_self,
        Bool.not_true, Bool.false_or, List.isEmpty_iff] at hdrained
      have hsent := hmem x hx (by simp) rfl
      simp only [Phase.next, hdrained, List.append_nil] at hsent
      simpa [Subscriber.events, Frame.entry] using hsent
  | _ => exact h.goOn hopen hact (by simp) rfl

theorem Draining.step {l : Label} (h : s.Draining job cursor)
    (hdrained : closesDrained sse job s l = true)
    (hstep : step cfg sse job cursor s l = some s') : s'.Draining job cursor := by
  cases l with
  | worker l =>
    obtain ⟨f, hf, rfl⟩ := Option.map_eq_some_iff.mp hstep
    exact h.worker (step_spec hf) hdrained
  | act a =>
    simp only [Watch.step] at hstep
    split at hstep
    next =>
      obtain ⟨u, hact, rfl⟩ := Option.map_eq_some_iff.mp hstep
      exact h.act hdrained hact
    next => cases hstep

/-- **A stream closed as complete has delivered everything**, whatever the workers do, in a run
in which the read that closes it leaves nothing unread. -/
theorem delivered_of_reach (cfg : Settings) (sse : SseSettings) (job : JobId)
    (cursor : Option StreamId) (s : Watch)
    (hs : (system cfg sse job cursor).Reach (closesDrained sse job) s) : s.Delivered := by
  have hdraining : s.Draining job cursor := by
    apply System.Reach.invariant (draining_start job cursor) _ hs
    intro s l s' h hallow hstep
    exact h.step hallow hstep
  exact fun hcomplete => (hdraining.closed hcomplete).2

/-- A job of one page is submitted, and a client opens the stream and finds nothing. -/
def opensEmpty : List Label :=
  [.worker (.initJob 0 1 1000), .worker (.enqueue ⟨0, 0⟩ 1000 "t"), .act .checkGap, .act .readLow,
    .act .readHigh, .act (.readProgress 0 1), .act .readHistory, .act .goOn]

/-- The page is run by one worker, up to its last event. -/
def pageRuns : List Label :=
  (([.start 1, .ready 1, .deliver 1 .lead 1000] ++ runs 0 10 1000 ++ [.deliver 1 .main 1000] ++
    runs 1 7 1000 : List OcrOrchestrator.Label)).map .worker

/-- The worker is done before the tail read, which returns all of its events.  Or it has yet to
publish the last one when another tail read finds nothing new and the counts say that the job is
done. -/
theorem delivered_tailed :
    (∃ s, (system {} ⟨500, 100, by decide, by decide⟩ 0 none).Reach
        (closesDrained ⟨500, 100, by decide, by decide⟩ 0) s ∧
      s.complete = true ∧ s.seen.length = 3 ∧ s.Delivered) ∧
    ∃ s, (system {} ⟨500, 100, by decide, by decide⟩ 0 none).Reach
        (closesDrained ⟨500, 100, by decide, by decide⟩ 0) s ∧
      s.complete = true ∧ s.seen.length = 2 ∧ s.Delivered := by
  constructor
  · obtain ⟨s, hs, hq⟩ := System.exists_of_runAll
      (system {} ⟨500, 100, by decide, by decide⟩ 0 none)
      (closesDrained ⟨500, 100, by decide, by decide⟩ 0)
      (fun s => s.complete && decide (s.seen.length = 3))
      (opensEmpty ++ pageRuns ++ [.act .readTail, .act .send, .act .send, .act .send])
      (by decide +kernel)
    simp only [Bool.and_eq_true, decide_eq_true_eq] at hq
    exact ⟨s, hs, hq.1, hq.2, delivered_of_reach _ _ _ _ s hs⟩
  · obtain ⟨s, hs, hq⟩ := System.exists_of_runAll
      (system {} ⟨500, 100, by decide, by decide⟩ 0 none)
      (closesDrained ⟨500, 100, by decide, by decide⟩ 0)
      (fun s => s.complete && decide (s.seen.length = 2))
      (opensEmpty ++ pageRuns.dropLast ++ [.act .readTail, .act .send, .act .send, .act .goOn,
        .act .readTail, .act (.readProgress 1 1)]) (by decide +kernel)
    simp only [Bool.and_eq_true, decide_eq_true_eq] at hq
    exact ⟨s, hs, hq.1, hq.2, delivered_of_reach _ _ _ _ s hs⟩

/-- The worker commits and publishes between the tail read that comes back empty and the read
of the counts: the stream is closed as complete without any event. -/
theorem not_delivered_derived :
    ¬ ∀ (cfg : Settings) (sse : SseSettings) (job : JobId) (cursor : Option StreamId) (s : Watch),
      (system cfg sse job cursor).Reach untrimmed s → s.Delivered := by
  intro hall
  obtain ⟨s, hs, hq⟩ := System.exists_of_runAll
    (system {} ⟨500, 100, by decide, by decide⟩ 0 none) untrimmed
    (fun s => s.complete && decide (s.seen.length = 3) && s.subscriber.events.isEmpty)
    (opensEmpty ++ [.act .readTail] ++ pageRuns ++ [.act (.readProgress 1 1)])
    (by decide +kernel)
  simp only [Bool.and_eq_true, decide_eq_true_eq, List.isEmpty_iff] at hq
  obtain ⟨⟨hcomplete, hlength⟩, hevents⟩ := hq
  obtain ⟨e, rest, hseen⟩ := List.exists_cons_of_length_eq_add_one hlength
  have hsent := hall _ _ _ _ s hs hcomplete e (by rw [hseen]; exact List.mem_cons_self)
  rw [hevents] at hsent
  cases hsent

end Steps

end Watch

end Sse
end OcrOrchestrator
