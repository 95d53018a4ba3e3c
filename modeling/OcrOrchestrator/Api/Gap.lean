import OcrOrchestrator.Api.Stream

/-!
# Trimming and the gap check

Redis may trim the oldest entries of a result stream at every publish.  A client that comes
back is told so, once: `gap_after` compares its cursor with the oldest entry that survives, at
the start of the connection.  `XREAD` says nothing about entries that are trimmed later, while
the connection still has to read them.

A client here resumes from the id of some entry of the stream, at any time, with any trimming
before and after.  The stream keeps at least one entry, since `result_stream_maxlen` is
positive.

## Main definitions

* `Resumption`, `Resumption.system` — a stream and a client that resumes.
* `Resumption.NoSilentLoss` — no event is missing without a `stream.gap` before a later one.
* `Resumption.trimsOnlyRead` — what is trimmed has been read by the connection.
-/

namespace OcrOrchestrator

open Lib

namespace Sse

/-- A result stream and a client that resumes from one of its entries. -/
structure Resumption where
  stream : ResultStream
  subscriber : Subscriber
  cursor : Option StreamId

/-- The frame tells the client that it cannot have everything. -/
def Frame.isGap : Frame → Bool
  | streamGap _ _ => true
  | _ => false

/-- The gap check has found a gap, and the client has not been told yet. -/
def Phase.resync : Phase → Bool
  | .checked _ resync | .windowLow _ resync _ | .windowed _ resync _ _ => resync
  | _ => false

namespace Resumption

inductive Label where
  | publish (maxlen now trim : ℕ) (body : EventBody)
  /-- A client comes back with the id of an entry it was sent. -/
  | resume (cursor : StreamId)
  | act (a : Action)

/-- One step, `none` if the label is not enabled. -/
def step (cfg : SseSettings) (s : Resumption) : Label → Option Resumption
  | .publish maxlen now trim body =>
    if 0 < maxlen then
      some { s with stream := (s.stream.publishScript maxlen now trim body).2 }
    else none
  | .resume cursor =>
    match s.subscriber.phase with
    | .closed =>
      if s.stream.log.any fun e => decide (e.id = cursor) then
        some { s with subscriber := .connect (some cursor), cursor := some cursor }
      else none
    | _ => none
  | .act a => (s.subscriber.act cfg s.stream a).map fun u => { s with subscriber := u }

/-- Nobody is connected yet. -/
def start : Resumption := ⟨.empty, ⟨.closed, []⟩, none⟩

def system (cfg : SseSettings) : System Resumption Label := ⟨start, step cfg⟩

/-- **No silent loss**: if an event after the cursor is never sent although a later one is, a
`stream.gap` has been sent before that later one. -/
def NoSilentLoss (s : Resumption) : Prop :=
  ∀ e ∈ s.stream.log, ResultStream.idAfter s.cursor e.id = true → .event e ∉ s.subscriber.frames →
    ∀ sent later rest, s.subscriber.frames = sent ++ .event later :: rest →
      e.id.before later.id = true → ∃ f ∈ sent, f.isGap = true

/-- Once the gap check has found no gap, a publish trims only entries which the connection has
read. -/
def trimsOnlyRead (s : Resumption) : Label → Bool
  | .publish maxlen now trim body =>
    match s.subscriber.phase with
    | .connecting _ => true
    | .closed => true
    | phase =>
      phase.resync || s.subscriber.frames.any Frame.isGap ||
        (s.stream.trimmedSince (s.stream.publishScript maxlen now trim body).2).all
          fun e => !ResultStream.idAfter phase.next e.id
  | _ => true

end Resumption

/-! ## Connections that have been warned -/

namespace Subscriber
variable {cfg : SseSettings} {s : ResultStream} {u u' : Subscriber}

/-- A connection that knows of a gap: its client has been told before the first event, or is
going to be. -/
def Warned (u : Subscriber) : Prop :=
  (u.phase.resync = true ∧ u.events = []) ∨
    ∃ before f rest, u.frames = before ++ f :: rest ∧ f.isGap = true ∧
      before.filterMap Frame.entry = []

/-- A connection only ever appends frames. -/
theorem frames_act {a : Action} (hact : u.act cfg s a = some u') : u.frames <+: u'.frames := by
  obtain ⟨phase, frames⟩ := u
  have hturn := act_cases hact
  cases hturn with
  | greet => exact List.prefix_append _ _
  | derive => exact List.prefix_append _ _
  | send => exact List.prefix_append _ _
  | durationLimit => exact List.prefix_append _ _
  | nothing => exact List.prefix_append _ _
  | redisFails => exact List.prefix_append _ _
  | _ => exact List.prefix_rfl

/-- A connection that has been warned stays so, or ends without an event. -/
theorem Warned.act (h : u.Warned) {a : Action} (hact : u.act cfg s a = some u') :
    u'.Warned ∨ (u'.phase = .closed ∧ u'.events = []) := by
  rcases h with ⟨hresync, hevents⟩ | ⟨before, f, rest, hframes, hgap, hbefore⟩
  · obtain ⟨phase, frames⟩ := u
    have hturn := act_cases hact
    cases hturn with
    | low => exact .inl (.inl ⟨hresync, hevents⟩)
    | high => exact .inl (.inl ⟨hresync, hevents⟩)
    | @greet cursor lo hi resync done total =>
      obtain rfl : resync = true := hresync
      refine .inl (.inr ⟨frames ++ [.streamOpen done cursor lo hi], .streamGap .trimmed lo, [],
        ?_, rfl, ?_⟩)
      · simp
      · change frames.filterMap Frame.entry = [] at hevents
        simp [hevents, Frame.entry]
    | disconnect => exact .inr ⟨rfl, hevents⟩
    | redisFails =>
      refine .inr ⟨rfl, ?_⟩
      change frames.filterMap Frame.entry = [] at hevents
      simp [events, hevents, Frame.entry]
    | _ => cases hresync
  · obtain ⟨fs, hfs⟩ := frames_act hact
    refine .inl (.inr ⟨before, f, rest ++ fs, ?_, hgap, hbefore⟩)
    rw [← hfs, hframes]
    simp

/-- What a warned connection sends comes after the warning. -/
theorem Warned.gap_before (h : u.Warned) {sent rest : List Frame} {later : ResultEntry}
    (hframes : u.frames = sent ++ .event later :: rest) : ∃ f ∈ sent, f.isGap = true := by
  rcases h with ⟨-, hevents⟩ | ⟨before, f, more, heq, hgap, hbefore⟩
  · have hsent : later ∈ u.events := by
      rw [events, hframes]
      simp [Frame.entry]
    rw [hevents] at hsent
    cases hsent
  · rw [hframes] at heq
    rcases List.append_eq_append_iff.mp heq with ⟨mid, hmid, hrest⟩ | ⟨mid, hmid, hrest⟩
    · -- the event would lie before the warning
      cases mid with
      | nil =>
        obtain ⟨hhead, -⟩ := List.cons.inj hrest
        rw [← hhead] at hgap
        cases hgap
      | cons x mid =>
        obtain ⟨hhead, -⟩ := List.cons.inj hrest
        rw [hmid, ← hhead] at hbefore
        simp [Frame.entry] at hbefore
    · cases mid with
      | nil =>
        obtain ⟨hhead, -⟩ := List.cons.inj hrest
        rw [hhead] at hgap
        cases hgap
      | cons x mid =>
        obtain ⟨hhead, -⟩ := List.cons.inj hrest
        refine ⟨f, ?_, hgap⟩
        rw [hmid, hhead]
        simp

/-- A connection that is past its gap check and has said nothing of a gap. -/
structure Unwarned (u : Subscriber) : Prop where
  checked : ∀ c, u.phase ≠ .connecting c
  resync : u.phase ≠ .closed → u.phase.resync = false
  frames : u.phase ≠ .closed → u.frames.any Frame.isGap = false

theorem unwarned_of_closed (hclosed : u.phase = .closed) : u.Unwarned where
  checked := by simp [hclosed]
  resync := fun hopen => absurd hclosed hopen
  frames := fun hopen => absurd hclosed hopen

theorem Unwarned.act (h : u.Unwarned) {a : Action} (hact : u.act cfg s a = some u') :
    u'.Unwarned := by
  obtain ⟨phase, frames⟩ := u
  have hturn := act_cases hact
  cases hturn with
  | noCursor => exact absurd rfl (h.checked _)
  | gap => exact absurd rfl (h.checked _)
  | noGap => exact absurd rfl (h.checked _)
  | low => exact ⟨by simp, fun _ => h.resync (by simp), fun _ => h.frames (by simp)⟩
  | high => exact ⟨by simp, fun _ => h.resync (by simp), fun _ => h.frames (by simp)⟩
  | @greet cursor lo hi resync done total =>
    obtain rfl : resync = false := h.resync (by simp)
    have hframes := h.frames (by simp)
    refine ⟨by simp, fun _ => rfl, fun _ => ?_⟩
    simpa [Frame.isGap] using hframes
  | derive => exact unwarned_of_closed rfl
  | carryOn => exact ⟨by simp, fun _ => rfl, fun _ => h.frames (by simp)⟩
  | @history cursor =>
    have hframes := h.frames (by simp)
    cases hread : (s.entriesAfter cursor).take cfg.historyLimit with
    | nil => exact ⟨by simp [deliver], fun _ => rfl, fun _ => hframes⟩
    | cons e rest => exact ⟨by simp [deliver], fun _ => rfl, fun _ => hframes⟩
  | @send e rest complete =>
    have hframes := h.frames (by simp)
    have hsent : (frames ++ [Frame.event e]).any Frame.isGap = false := by
      simpa [Frame.isGap] using hframes
    cases rest with
    | cons e' rest => exact ⟨by simp [afterSend], fun _ => rfl, fun _ => hsent⟩
    | nil =>
      by_cases hdone : (complete || decide (e.body.event = .jobComplete)) = true
      · refine unwarned_of_closed ?_
        simp only [afterSend]
        exact if_pos hdone
      · simp only [afterSend, hdone]
        exact ⟨by simp, fun _ => rfl, fun _ => hsent⟩
  | goOn => exact ⟨by simp, fun _ => rfl, fun _ => h.frames (by simp)⟩
  | durationLimit => exact unwarned_of_closed rfl
  | nothing =>
    have hframes := h.frames (by simp)
    refine ⟨by simp, fun _ => rfl, fun _ => ?_⟩
    simpa [Frame.isGap] using hframes
  | tail => exact ⟨by simp, fun _ => rfl, fun _ => h.frames (by simp)⟩
  | disconnect => exact unwarned_of_closed rfl
  | redisFails => exact unwarned_of_closed rfl

end Subscriber

/-! ## Runs -/

namespace ResultStream
variable {s : ResultStream}

/-- If the cursor is an entry of a stream that still holds something, and no gap is found,
nothing after the cursor has been trimmed. -/
theorem trimsBefore_of_no_gap (hs : s.Sound) {c : StreamId} (hkept : s.trimmed < s.log.length)
    (hgap : s.gapAfter c = false) : s.TrimsBefore (some c) := by
  intro e he
  have hne : s.contents ≠ [] := by
    rw [ResultStream.contents, Ne, List.drop_eq_nil_iff]
    omega
  obtain ⟨first, rest, hfirst⟩ := List.exists_cons_of_ne_nil hne
  have hsurvives : c.before first.id = false := by
    simpa [ResultStream.gapAfter, hfirst] using hgap
  have holder : e.id.before first.id = true := by
    have hpair := hs.ordered.pairwise_log
    rw [← List.take_append_drop s.trimmed s.log] at hpair
    refine (List.pairwise_append.mp hpair).2.2 e he first ?_
    change first ∈ s.contents
    rw [hfirst]
    exact List.mem_cons_self
  by_contra hnewer
  rw [Bool.not_eq_false] at hnewer
  have hcontra := StreamId.before_trans (show c.before e.id = true from hnewer) holder
  rw [hsurvives] at hcontra
  cases hcontra

end ResultStream

namespace Resumption
variable {cfg : SseSettings} {s s' : Resumption}

/-- The invariant: the stream holds something once it has had an entry, the cursor is one of
its entries, and the connection is about to look for a gap, knows of one, or is at the
frontier of what it has to send. -/
structure Aware (s : Resumption) : Prop where
  sound : s.stream.Sound
  kept : s.stream.log ≠ [] → s.stream.trimmed < s.stream.log.length
  cursor : ∀ c ∈ s.cursor, ∃ e ∈ s.stream.log, e.id = c
  knows : (∃ c, s.cursor = some c ∧ s.subscriber = .connect (some c)) ∨ s.subscriber.Warned ∨
    (s.subscriber.Unwarned ∧ s.subscriber.Tracks s.stream s.cursor)

theorem aware_start : start.Aware where
  sound := ResultStream.sound_empty
  kept := fun hne => absurd rfl hne
  cursor := by simp [start]
  knows := .inr (.inr ⟨Subscriber.unwarned_of_closed rfl,
    Subscriber.tracks_closed rfl List.nil_prefix⟩)

theorem Aware.publish (h : s.Aware) {maxlen now trim : ℕ} {body : EventBody} (hmaxlen : 0 < maxlen)
    (hallow : trimsOnlyRead s (.publish maxlen now trim body) = true) :
    Aware { s with stream := (s.stream.publishScript maxlen now trim body).2 } where
  sound := h.sound.publish _ _ _ _
  kept := by
    intro _
    have hle := h.sound.trimmed_le
    simp only [ResultStream.publishScript, List.length_append, List.length_singleton]
    omega
  cursor := by
    intro c hc
    obtain ⟨e, he, hid⟩ := h.cursor c hc
    exact ⟨e, List.mem_append_left _ he, hid⟩
  knows := by
    rcases h.knows with hconnecting | hwarned | ⟨hunwarned, htracks⟩
    · exact .inl hconnecting
    · exact .inr (.inl hwarned)
    · refine .inr (.inr ⟨hunwarned, ?_⟩)
      by_cases hclosed : s.subscriber.phase = .closed
      · apply Subscriber.tracks_closed hclosed
        rw [ResultStream.publishedAfter_publish]
        exact htracks.isPrefix.trans (List.prefix_append _ _)
      · apply Subscriber.tracks_of_frontier
        refine (htracks.frontier hclosed).publish_of_read h.sound _ _ _ _ fun e he => ?_
        have hread : (s.stream.trimmedSince (s.stream.publishScript maxlen now trim body).2).all
            (fun e => !ResultStream.idAfter s.subscriber.phase.next e.id) = true := by
          simp only [trimsOnlyRead] at hallow
          split at hallow
          next c hphase => exact absurd hphase (hunwarned.checked c)
          next hphase => exact absurd hphase hclosed
          next =>
            rw [hunwarned.resync hclosed, hunwarned.frames hclosed] at hallow
            exact hallow
        simpa using List.all_eq_true.mp hread e he

theorem Aware.act (h : s.Aware) {a : Action} {u : Subscriber}
    (hact : s.subscriber.act cfg s.stream a = some u) : Aware { s with subscriber := u } := by
  refine ⟨h.sound, h.kept, h.cursor, ?_⟩
  rcases h.knows with ⟨c, hcursor, hconnect⟩ | hwarned | ⟨hunwarned, htracks⟩
  · obtain ⟨e, he, hid⟩ := h.cursor c hcursor
    have hkept := h.kept (List.ne_nil_of_mem he)
    rw [hconnect] at hact
    have hturn := Subscriber.act_cases hact
    cases hturn with
    | gap => exact .inr (.inl (.inl ⟨rfl, rfl⟩))
    | noGap hgap =>
      have htrims := ResultStream.trimsBefore_of_no_gap h.sound hkept hgap
      refine .inr (.inr ⟨⟨by simp, fun _ => rfl, fun _ => rfl⟩, ?_⟩)
      rw [hcursor]
      exact Subscriber.tracks_of_frontier htrims.frontier
    | disconnect =>
      exact .inr (.inr ⟨Subscriber.unwarned_of_closed rfl,
        Subscriber.tracks_closed rfl List.nil_prefix⟩)
    | redisFails =>
      exact .inr (.inr ⟨Subscriber.unwarned_of_closed rfl,
        Subscriber.tracks_closed rfl List.nil_prefix⟩)
  · rcases hwarned.act hact with hstill | ⟨hclosed, hevents⟩
    · exact .inr (.inl hstill)
    · refine .inr (.inr ⟨Subscriber.unwarned_of_closed hclosed,
        Subscriber.tracks_closed hclosed ?_⟩)
      rw [hevents]
      exact List.nil_prefix
  · exact .inr (.inr ⟨hunwarned.act hact, htracks.act h.sound hact⟩)

theorem Aware.resume (h : s.Aware) {c : StreamId} (hentry : ∃ e ∈ s.stream.log, e.id = c) :
    Aware { s with subscriber := .connect (some c), cursor := some c } where
  sound := h.sound
  kept := h.kept
  cursor := by
    intro c' hc'
    obtain rfl := Option.some.inj hc'
    exact hentry
  knows := .inl ⟨c, rfl, rfl⟩

theorem Aware.step {l : Label} (h : s.Aware) (hallow : trimsOnlyRead s l = true)
    (hstep : step cfg s l = some s') : s'.Aware := by
  cases l with
  | publish maxlen now trim body =>
    simp only [Resumption.step] at hstep
    split at hstep
    next hmaxlen =>
      obtain rfl := Option.some.inj hstep
      exact h.publish hmaxlen hallow
    next => cases hstep
  | resume c =>
    simp only [Resumption.step] at hstep
    split at hstep
    next =>
      split at hstep
      next hentry =>
        obtain rfl := Option.some.inj hstep
        apply h.resume
        simpa using hentry
      next => cases hstep
    next => cases hstep
  | act a =>
    obtain ⟨u, hact, rfl⟩ := Option.map_eq_some_iff.mp hstep
    exact h.act hact

/-- A connection at its frontier has sent every event before one that it has sent. -/
theorem Aware.noSilentLoss (h : s.Aware) : s.NoSilentLoss := by
  intro e he hafter hunsent sent later rest hframes holder
  rcases h.knows with ⟨c, -, hconnect⟩ | hwarned | ⟨-, htracks⟩
  · rw [hconnect] at hframes
    have hlen := congrArg List.length hframes
    cases sent with
    | nil => cases (List.cons.inj hframes).1
    | cons f sent => simp [Subscriber.connect] at hlen
  · exact hwarned.gap_before hframes
  · -- the events are a beginning of what was published, and `e` comes before one of them
    exfalso
    obtain ⟨unsent, heq⟩ := htracks.isPrefix
    have hlater : later ∈ s.subscriber.events := by
      rw [Subscriber.events, hframes]
      simp [Frame.entry]
    have hmem : e ∈ s.subscriber.events ++ unsent := by
      rw [heq]
      exact List.mem_filter.mpr ⟨he, hafter⟩
    have hpair : (s.subscriber.events ++ unsent).Pairwise
        fun a b => a.id.before b.id = true := by
      rw [heq]
      exact h.sound.ordered.pairwise_log.sublist List.filter_sublist
    rcases List.mem_append.mp hmem with hsent | hmem
    · obtain ⟨f, hf, hentry⟩ := List.mem_filterMap.mp hsent
      cases f with
      | event e' =>
        obtain rfl := Option.some.inj hentry
        exact hunsent hf
      | _ => cases hentry
    · have hnewer := (List.pairwise_append.mp hpair).2.2 later hlater e hmem
      have hcycle := StreamId.before_trans holder hnewer
      rw [StreamId.before_irrefl] at hcycle
      cases hcycle

/-- **No silent loss from trimming** in a run in which, once the gap check has found no gap,
only entries are trimmed which the connection has read. -/
theorem noSilentLoss_of_reach (cfg : SseSettings) (s : Resumption)
    (hs : (system cfg).Reach trimsOnlyRead s) : s.NoSilentLoss := by
  have haware : s.Aware := by
    apply System.Reach.invariant aware_start _ hs
    intro s l s' h hallow hstep
    exact h.step hallow hstep
  exact haware.noSilentLoss

/-- Three events, of which the client has the first. -/
def threeEvents : List Label :=
  [.publish 1 1 0 ⟨.pagePartial, some 0, none, []⟩, .publish 1 2 0 ⟨.pageFinal, some 0, none, []⟩,
    .publish 1 3 0 ⟨.pagePartial, some 1, none, []⟩]

/-- The reads of a connection up to its first events. -/
def reads : List Label :=
  [.act .readLow, .act .readHigh, .act (.readProgress 0 2), .act .readHistory, .act .send]

/-- The second event is trimmed before the client comes back with the first, and the client is
told.  If the client is there before, the events it has been sent may be trimmed unnoticed. -/
theorem noSilentLoss_trimmed :
    (∃ s, (system ⟨500, 100, by decide, by decide⟩).Reach trimsOnlyRead s ∧
      s.subscriber.events.map ResultEntry.seq = [3] ∧ s.NoSilentLoss) ∧
    ∃ s, (system ⟨500, 100, by decide, by decide⟩).Reach trimsOnlyRead s ∧
      s.subscriber.events.map ResultEntry.seq = [2, 3, 4] ∧
      s.stream.contents.map ResultEntry.seq = [4] ∧ s.NoSilentLoss := by
  constructor
  · obtain ⟨s, hs, hq⟩ := System.exists_of_runAll (system ⟨500, 100, by decide, by decide⟩)
      trimsOnlyRead (fun s => s.subscriber.events.map ResultEntry.seq = [3])
      (threeEvents ++ [.publish 1 4 2 ⟨.pageFinal, some 1, none, []⟩, .resume ⟨1, 0⟩,
        .act .checkGap] ++ reads) (by decide +kernel)
    exact ⟨s, hs, of_decide_eq_true hq, noSilentLoss_of_reach _ s hs⟩
  · obtain ⟨s, hs, hq⟩ := System.exists_of_runAll (system ⟨500, 100, by decide, by decide⟩)
      trimsOnlyRead (fun s => s.subscriber.events.map ResultEntry.seq = [2, 3, 4] ∧
        s.stream.contents.map ResultEntry.seq = [4])
      (threeEvents ++ [.resume ⟨1, 0⟩, .act .checkGap] ++ reads ++
        [.act .send, .publish 1 4 3 ⟨.pageFinal, some 1, none, []⟩, .act .goOn, .act .readTail,
          .act .send]) (by decide +kernel)
    obtain ⟨hevents, hstream⟩ := of_decide_eq_true hq
    exact ⟨s, hs, hevents, hstream, noSilentLoss_of_reach _ s hs⟩

/-- An event that is lost, with a later one sent and no word of it. -/
def losesSilently (s : Resumption) : Bool :=
  !s.subscriber.frames.any Frame.isGap &&
    s.stream.log.any fun e => ResultStream.idAfter s.cursor e.id &&
      !s.subscriber.events.any (fun e' => decide (e'.id = e.id)) &&
      s.subscriber.events.any fun e' => e.id.before e'.id

theorem not_noSilentLoss_of_losesSilently (h : s.losesSilently = true) : ¬ s.NoSilentLoss := by
  simp only [losesSilently, Bool.and_eq_true, Bool.not_eq_true', List.any_eq_true] at h
  obtain ⟨hnogap, e, he, ⟨hafter, hunsent⟩, later, hlater, holder⟩ := h
  intro hall
  obtain ⟨f, hf, hentry⟩ := List.mem_filterMap.mp hlater
  cases f with
  | event e' =>
    obtain rfl := Option.some.inj hentry
    obtain ⟨sent, rest, hframes⟩ := List.append_of_mem hf
    have hnot : Frame.event e ∉ s.subscriber.frames := by
      intro hsent
      have hmem : e ∈ s.subscriber.events := List.mem_filterMap.mpr ⟨_, hsent, rfl⟩
      have hcontra := List.any_eq_false.mp hunsent e hmem
      simp at hcontra
    obtain ⟨g, hg, hgap⟩ := hall e he hafter hnot sent e' rest hframes holder
    have hcontra := List.any_eq_false.mp hnogap g (by rw [hframes]; exact List.mem_append_left _ hg)
    exact hcontra hgap
  | _ => cases hentry

/-- The second event is trimmed after the gap check and before the history is read. -/
theorem not_noSilentLoss_trimmed_later :
    ¬ ∀ (cfg : SseSettings) (s : Resumption), (system cfg).Reach System.anyStep s →
      s.NoSilentLoss := by
  intro hall
  obtain ⟨s, hs, hq⟩ := System.exists_of_runAll (system ⟨500, 100, by decide, by decide⟩)
    System.anyStep losesSilently
    (threeEvents ++ [.resume ⟨1, 0⟩, .act .checkGap,
      .publish 1 4 2 ⟨.pageFinal, some 1, none, []⟩] ++ reads) (by decide +kernel)
  exact not_noSilentLoss_of_losesSilently hq (hall _ s hs)

end Resumption

end Sse
end OcrOrchestrator
