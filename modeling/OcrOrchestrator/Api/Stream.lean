import OcrOrchestrator.Lib.Cursor
import OcrOrchestrator.Lib.System
import OcrOrchestrator.Queue.Results

/-!
# The result stream of a subscriber

`GET /jobs/{id}/stream` replays what the job's result stream holds after the client's cursor
and then tails it.  A connection is a state machine whose steps are the Redis reads of
`_frames` and the single frames it sends; publishes of the workers come between any two of
them.  The client may go away, the duration limit may be reached or Redis may fail at any
point of the loop; all of them end the connection.

Only frames of stored events carry an id.  A client that comes back does so with the id of
the last event it has received, or with the cursor it had if it has received none.  The keys
of the stream live longer than a session; their expiry is not part of the model.

## Main definitions

* `Phase`, `Subscriber.act` — one connection; `Turn`, `act_cases` — the cases of a step.
* `Session`, `Session.system` — one client, its connections one after the other, and the
  publishes in between.
* `Session.Replays` — what has been received is the beginning of what there is to receive.
-/

namespace OcrOrchestrator

open Lib

namespace ResultStream

/-- Is the id after the cursor? -/
abbrev idAfter (c : Option StreamId) (i : StreamId) : Bool := after StreamId.before c i

/-- `XRANGE` and `XREAD` after a cursor: what the stream holds, at most `count` entries. -/
def entriesAfter (s : ResultStream) (c : Option StreamId) : List ResultEntry :=
  s.contents.filter fun e => idAfter c e.id

/-- Every event ever published after a cursor. -/
def publishedAfter (s : ResultStream) (c : Option StreamId) : List ResultEntry :=
  s.log.filter fun e => idAfter c e.id

/-- `gap_after`: is the cursor older than the oldest entry that survives? -/
def gapAfter (s : ResultStream) (c : StreamId) : Bool :=
  (s.contents.head?).any fun e => c.before e.id

theorem strictKeys_before : StrictKeys StreamId.before :=
  ⟨StreamId.before_trans, StreamId.before_irrefl⟩

section
variable {s : ResultStream} {c d : Option StreamId} {e : ResultEntry}

theorem mem_log_of_mem_contents (he : e ∈ s.contents) : e ∈ s.log :=
  List.mem_of_mem_drop he

theorem Ordered.pairwise_log (h : s.Ordered) :
    s.log.Pairwise fun a b => a.id.before b.id = true :=
  h.pairwise.imp And.right

theorem Ordered.pairwise_contents (h : s.Ordered) :
    s.contents.Pairwise fun a b => a.id.before b.id = true :=
  h.pairwise_log.sublist (List.drop_sublist _ _)

/-- An id that Redis has yet to assign is after every entry. -/
theorem Ordered.before_of_lastId (h : s.Ordered) (he : e ∈ s.log) {i : StreamId}
    (hi : s.lastId.before i = true) : e.id.before i = true := by
  rcases (h.bound e he).2 with heq | hlt
  · rw [heq]
    exact hi
  · exact StreamId.before_trans hlt hi

/-- The two cursors tell the same about every id that is yet to be assigned. -/
def AgreeAhead (s : ResultStream) (c d : Option StreamId) : Prop :=
  ∀ i, s.lastId.before i = true → idAfter c i = idAfter d i

theorem AgreeAhead.publish (h : s.AgreeAhead c d) (maxlen now trim : ℕ) (body : EventBody) :
    (publishScript maxlen now trim body s).2.AgreeAhead c d := by
  intro i hi
  have hnext : s.lastId.before (s.lastId.next now) = true := StreamId.before_next _ _
  exact h i (StreamId.before_trans hnext hi)

/-- Moving the cursor to an entry after it changes nothing about the ids ahead. -/
theorem Ordered.agreeAhead_of_mem (h : s.Ordered) (he : e ∈ s.log)
    (hc : idAfter c e.id = true) : s.AgreeAhead (some e.id) c := by
  intro i hi
  have hei := h.before_of_lastId he hi
  have hci : idAfter c i = true := strictKeys_before.after_trans hc hei
  rw [hci]
  exact hei

/-- The next entry is after both cursors or after none. -/
theorem AgreeAhead.filter_next (h : s.AgreeAhead c d) (now seq : ℕ) (body : EventBody) :
    (([⟨s.lastId.next now, seq, body⟩] : List ResultEntry).filter fun e => idAfter c e.id) =
      ([⟨s.lastId.next now, seq, body⟩] : List ResultEntry).filter fun e => idAfter d e.id := by
  apply List.filter_congr
  intro e he
  obtain rfl := List.mem_singleton.mp he
  exact h _ (StreamId.before_next _ _)

theorem publishedAfter_publish (s : ResultStream) (maxlen now trim : ℕ) (body : EventBody) :
    (publishScript maxlen now trim body s).2.publishedAfter c =
      s.publishedAfter c ++ ([⟨s.lastId.next now, s.seq + 1, body⟩] : List ResultEntry).filter
        fun e => idAfter c e.id := by
  rw [publishedAfter, publishScript_log, List.filter_append]
  rfl

/-- Nothing that has been trimmed is after the cursor. -/
def TrimsBefore (s : ResultStream) (c : Option StreamId) : Prop :=
  ∀ e ∈ s.log.take s.trimmed, idAfter c e.id = false

/-- What the publish script keeps: the order, the numbering, ids that are not `0-0`, and no
more entries trimmed than there are. -/
structure Sound (s : ResultStream) : Prop where
  ordered : s.Ordered
  dense : s.Dense
  positive : ∀ e ∈ s.log, (⟨0, 0⟩ : StreamId).before e.id = true
  trimmed_le : s.trimmed ≤ s.log.length

theorem sound_empty : Sound empty :=
  ⟨ordered_empty, dense_empty, by simp [empty], le_refl _⟩

theorem Sound.publish (h : s.Sound) (maxlen now trim : ℕ) (body : EventBody) :
    (publishScript maxlen now trim body s).2.Sound := by
  refine ⟨h.ordered.publish _ _ _ _, h.dense.publish _ _ _ _, ?_, ?_⟩
  · intro e he
    rw [publishScript_log, List.mem_append, List.mem_singleton] at he
    rcases he with he | rfl
    · exact h.positive e he
    · exact StreamId.zero_before (StreamId.before_next s.lastId now)
  · have hle := h.trimmed_le
    simp only [publishScript, List.length_append, List.length_singleton]
    omega

/-- **The frontier of a reader** that started at `c`: it has got `got`, and what the stream
holds after `next` is exactly what is left for it. -/
structure Frontier (s : ResultStream) (c : Option StreamId) (got : List ResultEntry)
    (next : Option StreamId) : Prop where
  got_append : got ++ s.entriesAfter next = s.publishedAfter c
  ahead : s.AgreeAhead next c

variable {got : List ResultEntry} {next : Option StreamId}

theorem Frontier.isPrefix (h : s.Frontier c got next) : got <+: s.publishedAfter c :=
  ⟨_, h.got_append⟩

theorem Frontier.idAfter_of_mem_entriesAfter (h : s.Frontier c got next)
    (he : e ∈ s.entriesAfter next) : idAfter c e.id = true := by
  have hmem : e ∈ s.publishedAfter c := by
    rw [← h.got_append]
    exact List.mem_append_right _ he
  exact (List.mem_filter.mp hmem).2

/-- Before anything has been read. -/
theorem TrimsBefore.frontier (h : s.TrimsBefore c) : s.Frontier c [] c := by
  refine ⟨?_, fun _ _ => rfl⟩
  have hgone : (s.log.take s.trimmed).filter (fun e => idAfter c e.id) = [] := by
    rw [List.filter_eq_nil_iff]
    intro e he
    simp [h e he]
  calc [] ++ s.entriesAfter c
      = (s.log.take s.trimmed).filter (fun e => idAfter c e.id) ++ s.entriesAfter c := by
        rw [hgone]
    _ = s.publishedAfter c := by
        rw [entriesAfter, contents, ← List.filter_append, List.take_append_drop]
        rfl

/-- What has been trimmed from one state of the stream to another. -/
def trimmedSince (s s' : ResultStream) : List ResultEntry :=
  (s'.log.drop s.trimmed).take (s'.trimmed - s.trimmed)

/-- A publish leaves the reader where it is, if all that it trims has been read. -/
theorem Frontier.publish_of_read (h : s.Frontier c got next) (hs : s.Sound) (maxlen now trim : ℕ)
    (body : EventBody)
    (hread : ∀ e ∈ s.trimmedSince (publishScript maxlen now trim body s).2,
      idAfter next e.id = false) :
    (publishScript maxlen now trim body s).2.Frontier c got next := by
  refine ⟨?_, h.ahead.publish _ _ _ _⟩
  set s' := (publishScript maxlen now trim body s).2 with hs'
  set x : ResultEntry := ⟨s.lastId.next now, s.seq + 1, body⟩ with hx
  have hlog : s'.log = s.log ++ [x] := rfl
  have hmono : s.trimmed ≤ s'.trimmed := le_max_left _ _
  have hkept : s'.log.drop s.trimmed = s.contents ++ [x] := by
    rw [hlog, List.drop_append_of_le_length hs.trimmed_le]
    rfl
  have hgone : ((s'.log.drop s.trimmed).take (s'.trimmed - s.trimmed)).filter
      (fun e => idAfter next e.id) = [] := by
    rw [List.filter_eq_nil_iff]
    intro e he
    simp [hread e he]
  have hrest : s'.entriesAfter next =
      s.entriesAfter next ++ [x].filter fun e => idAfter next e.id := by
    calc s'.entriesAfter next
        = ((s'.log.drop s.trimmed).drop (s'.trimmed - s.trimmed)).filter
            (fun e => idAfter next e.id) := by
          rw [List.drop_drop, Nat.add_sub_cancel' hmono]
          rfl
      _ = (s'.log.drop s.trimmed).filter (fun e => idAfter next e.id) := by
          conv_rhs => rw [← List.take_append_drop (s'.trimmed - s.trimmed)
            (s'.log.drop s.trimmed), List.filter_append, hgone, List.nil_append]
      _ = s.entriesAfter next ++ [x].filter fun e => idAfter next e.id := by
          rw [hkept, List.filter_append]
          rfl
  rw [hrest, h.ahead.filter_next, ← List.append_assoc, h.got_append]
  exact (publishedAfter_publish s maxlen now trim body).symm

/-- A publish leaves the reader where it is, if nothing after its start is trimmed. -/
theorem Frontier.publish (h : s.Frontier c got next) (hs : s.Sound) (maxlen now trim : ℕ)
    (body : EventBody) (htrim : (publishScript maxlen now trim body s).2.TrimsBefore c) :
    (publishScript maxlen now trim body s).2.Frontier c got next := by
  refine h.publish_of_read hs maxlen now trim body fun e he => ?_
  set s' := (publishScript maxlen now trim body s).2 with hs'
  set x : ResultEntry := ⟨s.lastId.next now, s.seq + 1, body⟩ with hx
  have hold : idAfter c e.id = false := by
    apply htrim
    rw [← List.take_append_drop s.trimmed (s'.log.take s'.trimmed), List.drop_take]
    exact List.mem_append_right _ he
  have hkept : s'.log.drop s.trimmed = s.contents ++ [x] :=
    List.drop_append_of_le_length hs.trimmed_le
  have hmem : e ∈ s.contents ++ [x] := hkept ▸ List.mem_of_mem_take he
  by_contra hunread
  rw [Bool.not_eq_false] at hunread
  rcases List.mem_append.mp hmem with hmem | hmem
  · have hc := h.idAfter_of_mem_entriesAfter (List.mem_filter.mpr ⟨hmem, hunread⟩)
    rw [hold] at hc
    cases hc
  · obtain rfl := List.mem_singleton.mp hmem
    have hxid : idAfter next x.id = idAfter c x.id := h.ahead _ (StreamId.before_next _ _)
    rw [hxid, hold] at hunread
    cases hunread

/-- Reading some entries moves the frontier behind the last of them. -/
theorem Frontier.read (h : s.Frontier c got next) (hs : s.Sound) {n : ℕ}
    {e : ResultEntry} {rest : List ResultEntry}
    (hread : (s.entriesAfter next).take n = e :: rest) :
    s.Frontier c (got ++ e :: rest)
      (some ((e :: rest).getLast (List.cons_ne_nil _ _)).id) := by
  have hsplit : s.entriesAfter next = (e :: rest) ++ (s.entriesAfter next).drop n := by
    rw [← hread, List.take_append_drop]
  have hleft := filter_after_getLast strictKeys_before hs.ordered.pairwise_contents hsplit
    (List.cons_ne_nil _ _)
  have hlast : (e :: rest).getLast (List.cons_ne_nil _ _) ∈ s.entriesAfter next := by
    rw [hsplit]
    exact List.mem_append_left _ (List.getLast_mem _)
  constructor
  · rw [List.append_assoc, entriesAfter, hleft, ← hsplit, h.got_append]
  · exact hs.ordered.agreeAhead_of_mem (mem_log_of_mem_contents (List.mem_filter.mp hlast).1)
      (h.idAfter_of_mem_entriesAfter hlast)

/-- After a read that finds nothing, no cursor may be replaced by `0-0`. -/
theorem Frontier.read_nil (h : s.Frontier c got next) (hs : s.Sound) :
    s.Frontier c got (some (next.getD ⟨0, 0⟩)) := by
  cases next with
  | some i => exact h
  | none =>
    constructor
    · rw [← h.got_append]
      congr 1
      apply List.filter_congr
      intro e he
      exact hs.positive e (mem_log_of_mem_contents he)
    · intro i hi
      rw [← h.ahead i hi]
      exact StreamId.zero_before hi

/-- A cursor that is older than everything the stream holds may be dropped. -/
theorem Frontier.of_gapAfter {i : StreamId} (h : s.Frontier c got (some i)) (hs : s.Sound)
    (hgap : s.gapAfter i = true) : s.Frontier c got none := by
  obtain ⟨e, hhead, hie⟩ := (Option.any_eq_true _ _).mp hgap
  have hall : ∀ x ∈ s.contents, i.before x.id = true := by
    intro x hx
    obtain ⟨rest, hrest⟩ := List.head?_eq_some_iff.mp hhead
    have hpair := hs.ordered.pairwise_contents
    rw [hrest] at hx hpair
    rcases List.mem_cons.mp hx with rfl | hx
    · exact hie
    · exact StreamId.before_trans hie ((List.pairwise_cons.mp hpair).1 x hx)
  constructor
  · rw [← h.got_append]
    congr 1
    apply List.filter_congr
    intro x hx
    exact (hall x hx).symm
  · intro j hj
    rw [← h.ahead j hj]
    have hej := hs.ordered.before_of_lastId
      (mem_log_of_mem_contents (List.mem_of_mem_head? hhead)) hj
    exact (StreamId.before_trans hie hej).symm

end

end ResultStream

namespace Sse

/-- `sse_history_limit` and `sse_batch`. -/
structure SseSettings where
  historyLimit : ℕ
  batch : ℕ
  historyLimit_pos : 1 ≤ historyLimit
  batch_pos : 1 ≤ batch

/-- Why a connection tells its client to look elsewhere. -/
inductive GapReason where
  | trimmed
  | durationLimit
  | redisFailed
  deriving DecidableEq

/-- What is sent to the client. -/
inductive Frame where
  | retry
  | streamOpen (done : ℕ) (resumedFrom windowLo windowHi : Option StreamId)
  | streamGap (reason : GapReason) (windowLo : Option StreamId)
  | event (e : ResultEntry)
  | heartbeat
  | jobComplete (totalPages done : ℕ)

/-- The stored event of a frame, whose id the frame carries. -/
def Frame.entry : Frame → Option ResultEntry
  | event e => some e
  | _ => none

/-- Where a connection is in `_frames`. -/
inductive Phase where
  /-- `gap_after` comes next. -/
  | connecting (cursor : Option StreamId)
  /-- The two reads of `window` come next. -/
  | checked (cursor : Option StreamId) (resync : Bool)
  | windowLow (cursor : Option StreamId) (resync : Bool) (lo : Option StreamId)
  /-- `progress` comes next. -/
  | windowed (cursor : Option StreamId) (resync : Bool) (lo hi : Option StreamId)
  /-- `history` comes next. -/
  | opened (cursor : Option StreamId)
  /-- These events are to be sent, at least one. -/
  | sending (e : ResultEntry) (rest : List ResultEntry) (complete : Bool)
  /-- The head of the loop, with `last_id`. -/
  | looping (lastId : StreamId)
  /-- `tail` comes next. -/
  | tailing (lastId : StreamId)
  /-- Nothing came; `progress` comes next. -/
  | idle (lastId : StreamId)
  | closed

structure Subscriber where
  phase : Phase
  frames : List Frame

/-- A step of a connection, with what Redis and the clock decide. -/
inductive Action where
  | checkGap
  | readLow
  | readHigh
  | readProgress (done total : ℕ)
  | readHistory
  | send
  | goOn
  | durationLimit
  | readTail
  | disconnect
  | redisFails

namespace Subscriber

/-- Send one frame. -/
def emit (u : Subscriber) (fs : List Frame) (phase : Phase) : Subscriber :=
  ⟨phase, u.frames ++ fs⟩

/-- After a read: its events are sent one by one; after none of them the loop goes on. -/
def deliver (lastId : StreamId) : List ResultEntry → Phase
  | [] => .looping lastId
  | e :: rest => .sending e rest false

/-- After the event `e` has been sent: the next one, or the head of the loop. -/
def afterSend (e : ResultEntry) (complete : Bool) : List ResultEntry → Phase
  | [] => if complete then .closed else .looping e.id
  | e' :: rest => .sending e' rest complete

/-- A fresh connection. -/
def connect (cursor : Option StreamId) : Subscriber := ⟨.connecting cursor, [.retry]⟩

/-- One step of `_frames` on what the stream holds now, `none` if it is not the connection's
turn to do that. -/
def act (cfg : SseSettings) (s : ResultStream) (u : Subscriber) : Action → Option Subscriber
  | .checkGap =>
    match u.phase with
    | .connecting none => some { u with phase := .checked none false }
    | .connecting (some c) =>
      some { u with
        phase := if s.gapAfter c then .checked none true else .checked (some c) false }
    | _ => none
  | .readLow =>
    match u.phase with
    | .checked cursor resync =>
      some { u with phase := .windowLow cursor resync (s.contents.head?.map ResultEntry.id) }
    | _ => none
  | .readHigh =>
    match u.phase with
    | .windowLow cursor resync lo =>
      some { u with phase := .windowed cursor resync lo (s.contents.getLast?.map ResultEntry.id) }
    | _ => none
  | .readProgress done total =>
    match u.phase with
    | .windowed cursor resync lo hi =>
      some (u.emit ([.streamOpen done cursor lo hi] ++
        if resync then [.streamGap .trimmed lo] else []) (.opened cursor))
    | .idle lastId =>
      -- the termination backstop: committed state is the authority
      if 0 < total ∧ total ≤ done then some (u.emit [.jobComplete total done] .closed)
      else some { u with phase := .looping lastId }
    | _ => none
  | .readHistory =>
    match u.phase with
    | .opened cursor =>
      some { u with
        phase := deliver (cursor.getD ⟨0, 0⟩) ((s.entriesAfter cursor).take cfg.historyLimit) }
    | _ => none
  | .send =>
    match u.phase with
    | .sending e rest complete =>
      some (u.emit [.event e]
        (afterSend e (complete || decide (e.body.event = .jobComplete)) rest))
    | _ => none
  | .goOn =>
    match u.phase with
    | .looping lastId => some { u with phase := .tailing lastId }
    | _ => none
  | .durationLimit =>
    match u.phase with
    | .looping lastId => some (u.emit [.streamGap .durationLimit (some lastId)] .closed)
    | _ => none
  | .readTail =>
    match u.phase with
    | .tailing lastId =>
      match (s.entriesAfter (some lastId)).take cfg.batch with
      | [] => some (u.emit [.heartbeat] (.idle lastId))
      | e :: rest => some { u with phase := .sending e rest false }
    | _ => none
  | .disconnect =>
    match u.phase with
    | .closed => none
    | _ => some { u with phase := .closed }
  | .redisFails =>
    match u.phase with
    | .closed => none
    | _ => some (u.emit [.streamGap .redisFailed none] .closed)

/-- The events sent on the connection. -/
def events (u : Subscriber) : List ResultEntry := u.frames.filterMap Frame.entry

/-- What a connection in some phase, with some frames sent, can do. -/
inductive Turn (cfg : SseSettings) (s : ResultStream) (frames : List Frame) :
    Phase → Action → Subscriber → Prop where
  | noCursor : Turn cfg s frames (.connecting none) .checkGap ⟨.checked none false, frames⟩
  | gap {c : StreamId} (hgap : s.gapAfter c = true) :
      Turn cfg s frames (.connecting (some c)) .checkGap ⟨.checked none true, frames⟩
  | noGap {c : StreamId} (hgap : s.gapAfter c = false) :
      Turn cfg s frames (.connecting (some c)) .checkGap ⟨.checked (some c) false, frames⟩
  | low {cursor : Option StreamId} {resync : Bool} :
      Turn cfg s frames (.checked cursor resync) .readLow
        ⟨.windowLow cursor resync (s.contents.head?.map ResultEntry.id), frames⟩
  | high {cursor lo : Option StreamId} {resync : Bool} :
      Turn cfg s frames (.windowLow cursor resync lo) .readHigh
        ⟨.windowed cursor resync lo (s.contents.getLast?.map ResultEntry.id), frames⟩
  | greet {cursor lo hi : Option StreamId} {resync : Bool} {done total : ℕ} :
      Turn cfg s frames (.windowed cursor resync lo hi) (.readProgress done total)
        ⟨.opened cursor, frames ++ ([.streamOpen done cursor lo hi] ++
          if resync then [.streamGap .trimmed lo] else [])⟩
  | derive {lastId : StreamId} {done total : ℕ} (hdone : 0 < total ∧ total ≤ done) :
      Turn cfg s frames (.idle lastId) (.readProgress done total)
        ⟨.closed, frames ++ [.jobComplete total done]⟩
  | carryOn {lastId : StreamId} {done total : ℕ} (hdone : ¬ (0 < total ∧ total ≤ done)) :
      Turn cfg s frames (.idle lastId) (.readProgress done total) ⟨.looping lastId, frames⟩
  | history {cursor : Option StreamId} :
      Turn cfg s frames (.opened cursor) .readHistory
        ⟨deliver (cursor.getD ⟨0, 0⟩) ((s.entriesAfter cursor).take cfg.historyLimit), frames⟩
  | send {e : ResultEntry} {rest : List ResultEntry} {complete : Bool} :
      Turn cfg s frames (.sending e rest complete) .send
        ⟨afterSend e (complete || decide (e.body.event = .jobComplete)) rest, frames ++ [.event e]⟩
  | goOn {lastId : StreamId} : Turn cfg s frames (.looping lastId) .goOn ⟨.tailing lastId, frames⟩
  | durationLimit {lastId : StreamId} :
      Turn cfg s frames (.looping lastId) .durationLimit
        ⟨.closed, frames ++ [.streamGap .durationLimit (some lastId)]⟩
  | nothing {lastId : StreamId} (hread : (s.entriesAfter (some lastId)).take cfg.batch = []) :
      Turn cfg s frames (.tailing lastId) .readTail ⟨.idle lastId, frames ++ [.heartbeat]⟩
  | tail {lastId : StreamId} {e : ResultEntry} {rest : List ResultEntry}
      (hread : (s.entriesAfter (some lastId)).take cfg.batch = e :: rest) :
      Turn cfg s frames (.tailing lastId) .readTail ⟨.sending e rest false, frames⟩
  | disconnect {phase : Phase} (hopen : phase ≠ .closed) :
      Turn cfg s frames phase .disconnect ⟨.closed, frames⟩
  | redisFails {phase : Phase} (hopen : phase ≠ .closed) :
      Turn cfg s frames phase .redisFails ⟨.closed, frames ++ [.streamGap .redisFailed none]⟩

/-- **Every step of a connection** is one of the cases. -/
theorem act_cases {cfg : SseSettings} {s : ResultStream} {u u' : Subscriber} {a : Action}
    (hact : u.act cfg s a = some u') : Turn cfg s u.frames u.phase a u' := by
  obtain ⟨phase, frames⟩ := u
  cases a with
  | checkGap =>
    cases phase with
    | connecting cursor =>
      cases cursor with
      | none =>
        obtain rfl := Option.some.inj hact
        exact .noCursor
      | some c =>
        obtain rfl := Option.some.inj hact
        cases hgap : s.gapAfter c with
        | true => exact .gap hgap
        | false => exact .noGap hgap
    | _ => cases hact
  | readLow =>
    cases phase with
    | checked cursor resync =>
      obtain rfl := Option.some.inj hact
      exact .low
    | _ => cases hact
  | readHigh =>
    cases phase with
    | windowLow cursor resync lo =>
      obtain rfl := Option.some.inj hact
      exact .high
    | _ => cases hact
  | readProgress done total =>
    cases phase with
    | windowed cursor resync lo hi =>
      obtain rfl := Option.some.inj hact
      exact .greet
    | idle lastId =>
      simp only [act] at hact
      split at hact
      next hdone =>
        obtain rfl := Option.some.inj hact
        exact .derive hdone
      next hdone =>
        obtain rfl := Option.some.inj hact
        exact .carryOn hdone
    | _ => cases hact
  | readHistory =>
    cases phase with
    | opened cursor =>
      obtain rfl := Option.some.inj hact
      exact .history
    | _ => cases hact
  | send =>
    cases phase with
    | sending e rest complete =>
      obtain rfl := Option.some.inj hact
      exact .send
    | _ => cases hact
  | goOn =>
    cases phase with
    | looping lastId =>
      obtain rfl := Option.some.inj hact
      exact .goOn
    | _ => cases hact
  | durationLimit =>
    cases phase with
    | looping lastId =>
      obtain rfl := Option.some.inj hact
      exact .durationLimit
    | _ => cases hact
  | readTail =>
    cases phase with
    | tailing lastId =>
      simp only [act] at hact
      split at hact
      next hread =>
        obtain rfl := Option.some.inj hact
        exact .nothing hread
      next e rest hread =>
        obtain rfl := Option.some.inj hact
        exact .tail hread
    | _ => cases hact
  | disconnect =>
    cases phase with
    | closed => cases hact
    | _ =>
      obtain rfl := Option.some.inj hact
      exact .disconnect (by simp)
  | redisFails =>
    cases phase with
    | closed => cases hact
    | _ =>
      obtain rfl := Option.some.inj hact
      exact .redisFails (by simp)

end Subscriber

/-- What has been read and is to be sent. -/
def Phase.pending : Phase → List ResultEntry
  | .sending e rest _ => e :: rest
  | _ => []

/-- The cursor of the next read. -/
def Phase.next : Phase → Option StreamId
  | .connecting cursor | .checked cursor _ | .windowLow cursor _ _ | .windowed cursor _ _ _
  | .opened cursor => cursor
  | .sending e rest _ => some ((e :: rest).getLast (List.cons_ne_nil _ _)).id
  | .looping lastId | .tailing lastId | .idle lastId => some lastId
  | .closed => none

namespace Subscriber
variable {cfg : SseSettings} {s : ResultStream} {u u' : Subscriber} {c : Option StreamId}

@[simp] theorem events_emit (fs : List Frame) (phase : Phase) :
    (u.emit fs phase).events = u.events ++ fs.filterMap Frame.entry := by
  simp [events, emit]

/-- A connection opened with `c` is at the frontier of what it has sent and has to send; once
it is closed, it has sent a beginning. -/
def Tracks (s : ResultStream) (c : Option StreamId) (u : Subscriber) : Prop :=
  match u.phase with
  | .closed => u.events <+: s.publishedAfter c
  | phase => s.Frontier c (u.events ++ phase.pending) phase.next

theorem Tracks.frontier (h : u.Tracks s c) (hopen : u.phase ≠ .closed) :
    s.Frontier c (u.events ++ u.phase.pending) u.phase.next := by
  unfold Tracks at h
  split at h
  · exact absurd ‹_› hopen
  · exact h

theorem tracks_of_frontier (h : s.Frontier c (u.events ++ u.phase.pending) u.phase.next) :
    u.Tracks s c := by
  unfold Tracks
  split
  · exact (List.prefix_append _ _).trans h.isPrefix
  · exact h

theorem Tracks.isPrefix (h : u.Tracks s c) : u.events <+: s.publishedAfter c := by
  by_cases hclosed : u.phase = .closed
  · unfold Tracks at h
    rw [hclosed] at h
    exact h
  · exact (List.prefix_append _ _).trans (h.frontier hclosed).isPrefix

theorem tracks_closed (hphase : u.phase = .closed) (h : u.events <+: s.publishedAfter c) :
    u.Tracks s c := by
  unfold Tracks
  rw [hphase]
  exact h

/-- A step that neither reads nor sends an event. -/
theorem Tracks.stay (h : u.Tracks s c) (hopen : u.phase ≠ .closed)
    (hevents : u'.events = u.events) (hpending : u'.phase.pending = u.phase.pending)
    (hnext : u'.phase.next = u.phase.next) : u'.Tracks s c := by
  apply tracks_of_frontier
  rw [hevents, hpending, hnext]
  exact h.frontier hopen

/-- A read with nothing to send hands its events over. -/
theorem Tracks.deliver (h : u.Tracks s c) (hs : s.Sound) (hopen : u.phase ≠ .closed)
    (hpending : u.phase.pending = []) (n : ℕ) :
    Tracks s c ⟨Subscriber.deliver (u.phase.next.getD ⟨0, 0⟩)
      ((s.entriesAfter u.phase.next).take n), u.frames⟩ := by
  have hfront := h.frontier hopen
  rw [hpending, List.append_nil] at hfront
  apply tracks_of_frontier
  cases hread : (s.entriesAfter u.phase.next).take n with
  | nil =>
    simp only [Subscriber.deliver, Phase.pending, Phase.next, List.append_nil]
    exact hfront.read_nil hs
  | cons e rest => exact hfront.read hs hread

/-- Sending one event. -/
theorem Tracks.send {e : ResultEntry} {rest : List ResultEntry} {complete : Bool}
    (h : u.Tracks s c) (hphase : u.phase = .sending e rest complete) (done : Bool) :
    (u.emit [.event e] (afterSend e done rest)).Tracks s c := by
  have hfront := h.frontier (by simp [hphase])
  rw [hphase] at hfront
  cases rest with
  | cons e' rest =>
    apply tracks_of_frontier
    rw [events_emit, List.append_assoc]
    exact hfront
  | nil =>
    cases done with
    | false =>
      apply tracks_of_frontier
      rw [events_emit, List.append_assoc]
      exact hfront
    | true =>
      apply tracks_closed rfl
      rw [events_emit]
      exact hfront.isPrefix

/-- The connection ends, with or without a last frame of its own. -/
theorem Tracks.close (h : u.Tracks s c) {fs : List Frame}
    (hfs : fs.filterMap Frame.entry = []) : (u.emit fs .closed).Tracks s c := by
  apply tracks_closed rfl
  rw [events_emit, hfs, List.append_nil]
  exact h.isPrefix

/-- **One step of a connection** keeps it at its frontier. -/
theorem Tracks.act (h : u.Tracks s c) (hs : s.Sound) {a : Action}
    (hact : u.act cfg s a = some u') : u'.Tracks s c := by
  have hturn := act_cases hact
  obtain ⟨phase, frames⟩ := u
  simp only at hturn
  cases hturn with
  | noCursor => exact h.stay (by simp) rfl rfl rfl
  | gap hgap => exact tracks_of_frontier ((h.frontier (by simp)).of_gapAfter hs hgap)
  | noGap => exact h.stay (by simp) rfl rfl rfl
  | low => exact h.stay (by simp) rfl rfl rfl
  | high => exact h.stay (by simp) rfl rfl rfl
  | @greet _ _ _ resync =>
    refine h.stay (by simp) ?_ rfl rfl
    cases resync <;> simp [events, Frame.entry]
  | derive => exact h.close rfl
  | carryOn => exact h.stay (by simp) rfl rfl rfl
  | history => exact h.deliver hs (by simp) rfl cfg.historyLimit
  | send => exact h.send rfl _
  | goOn => exact h.stay (by simp) rfl rfl rfl
  | durationLimit => exact h.close rfl
  | nothing =>
    refine h.stay (by simp) ?_ rfl rfl
    simp [events, Frame.entry]
  | tail hread =>
    have hdeliver := h.deliver hs (by simp) rfl cfg.batch
    simp only [Phase.next, Option.getD_some] at hdeliver
    rw [hread] at hdeliver
    exact hdeliver
  | disconnect =>
    have hclose : (emit ⟨phase, frames⟩ [] .closed).Tracks s c := h.close rfl
    simpa [emit] using hclose
  | redisFails => exact h.close rfl

end Subscriber

/-- One client: the connection it has, the cursor it opened it with, and what it received on
the connections before. -/
structure Session where
  stream : ResultStream
  subscriber : Subscriber
  cursor : Option StreamId
  earlier : List ResultEntry

namespace Session

inductive Label where
  | publish (maxlen now trim : ℕ) (body : EventBody)
  | act (a : Action)
  | reconnect

/-- Everything the client has received. -/
def received (s : Session) : List ResultEntry := s.earlier ++ s.subscriber.events

/-- The id of the last event of the connection, or the cursor it was opened with. -/
def resumeFrom (s : Session) : Option StreamId :=
  match s.subscriber.events.getLast? with
  | some e => some e.id
  | none => s.cursor

def step (cfg : SseSettings) (s : Session) : Label → Option Session
  | .publish maxlen now trim body =>
    some { s with stream := (s.stream.publishScript maxlen now trim body).2 }
  | .act a => (s.subscriber.act cfg s.stream a).map fun u => { s with subscriber := u }
  | .reconnect =>
    match s.subscriber.phase with
    | .closed => some { s with
        subscriber := .connect s.resumeFrom
        cursor := s.resumeFrom
        earlier := s.received }
    | _ => none

def start (cursor : Option StreamId) : Session := ⟨.empty, .connect cursor, cursor, []⟩

def system (cfg : SseSettings) (cursor : Option StreamId) : System Session Label :=
  ⟨start cursor, step cfg⟩

/-- No entry newer than the cursor of the connection is trimmed. -/
def trimsOnlyOlder (s : Session) : Label → Bool
  | .publish maxlen now trim body =>
    let stream := (s.stream.publishScript maxlen now trim body).2
    (stream.log.take stream.trimmed).all fun e => !ResultStream.idAfter s.cursor e.id
  | _ => true

/-- **Replay, then tail, is exact**: what the client has received, on all its connections, is
the beginning of the events published after its first cursor, without gaps in the numbering;
and what it has received on the present connection is the beginning of those published after
the cursor it was opened with. -/
structure Replays (cursor : Option StreamId) (s : Session) : Prop where
  received_isPrefix : s.received <+: s.stream.publishedAfter cursor
  consecutive : s.received.IsChain fun a b => b.seq = a.seq + 1
  events_isPrefix : s.subscriber.events <+: s.stream.publishedAfter s.cursor

/-- The invariant of a session: the stream is sound, nothing is trimmed that the connection
has yet to see, the connection is at its frontier, and what was received before it makes up
the difference between the two cursors. -/
structure Tracks (cursor : Option StreamId) (s : Session) : Prop where
  sound : s.stream.Sound
  trims : s.stream.TrimsBefore s.cursor
  subscriber : s.subscriber.Tracks s.stream s.cursor
  earlier : s.earlier ++ s.stream.publishedAfter s.cursor = s.stream.publishedAfter cursor
  ahead : s.stream.AgreeAhead s.cursor cursor

variable {cfg : SseSettings} {cursor : Option StreamId} {s s' : Session}

theorem tracks_start (cursor : Option StreamId) : (start cursor).Tracks cursor where
  sound := ResultStream.sound_empty
  trims := by
    intro e he
    cases he
  subscriber := Subscriber.tracks_of_frontier ⟨rfl, fun _ _ => rfl⟩
  earlier := rfl
  ahead := fun _ _ => rfl

theorem Tracks.publish (h : s.Tracks cursor) (maxlen now trim : ℕ) (body : EventBody)
    (htrim : (s.stream.publishScript maxlen now trim body).2.TrimsBefore s.cursor) :
    Tracks cursor { s with stream := (s.stream.publishScript maxlen now trim body).2 } where
  sound := h.sound.publish _ _ _ _
  trims := htrim
  subscriber := by
    by_cases hclosed : s.subscriber.phase = .closed
    · apply Subscriber.tracks_closed hclosed
      rw [ResultStream.publishedAfter_publish]
      exact h.subscriber.isPrefix.trans (List.prefix_append _ _)
    · exact Subscriber.tracks_of_frontier
        ((h.subscriber.frontier hclosed).publish h.sound _ _ _ _ htrim)
  earlier := by
    rw [ResultStream.publishedAfter_publish, ResultStream.publishedAfter_publish,
      h.ahead.filter_next, ← List.append_assoc, h.earlier]
  ahead := h.ahead.publish _ _ _ _

theorem Tracks.act (h : s.Tracks cursor) {a : Action} {u : Subscriber}
    (hact : s.subscriber.act cfg s.stream a = some u) :
    Tracks cursor { s with subscriber := u } :=
  { h with subscriber := h.subscriber.act h.sound hact }

/-- The cursor the client comes back with: what it has received ends right before it. -/
theorem Tracks.resumeFrom (h : s.Tracks cursor) :
    s.subscriber.events ++ s.stream.publishedAfter s.resumeFrom =
        s.stream.publishedAfter s.cursor ∧
      s.stream.AgreeAhead s.resumeFrom s.cursor ∧ s.stream.TrimsBefore s.resumeFrom := by
  obtain ⟨rest, hrest⟩ := h.subscriber.isPrefix
  unfold Session.resumeFrom
  split
  next e hlast =>
    obtain ⟨before, hbefore⟩ := List.getLast?_eq_some_iff.mp hlast
    have hne : s.subscriber.events ≠ [] := by simp [hbefore]
    have heq : s.subscriber.events.getLast hne = e := by simp [hbefore]
    have hmem : e ∈ s.stream.publishedAfter s.cursor := by
      rw [← hrest]
      exact List.mem_append_left _ (List.mem_of_getLast? hlast)
    obtain ⟨hlog, hafter⟩ := List.mem_filter.mp hmem
    have hleft := filter_after_getLast ResultStream.strictKeys_before
      h.sound.ordered.pairwise_log hrest.symm hne
    rw [heq] at hleft
    refine ⟨?_, h.sound.ordered.agreeAhead_of_mem hlog hafter, ?_⟩
    · rw [← hrest, ResultStream.publishedAfter, hleft]
    · intro x hx
      by_contra hnew
      have hnewer : e.id.before x.id = true := by
        rw [Bool.not_eq_false] at hnew
        exact hnew
      have hold : ResultStream.idAfter s.cursor x.id = true :=
        ResultStream.strictKeys_before.after_trans hafter hnewer
      rw [h.trims x hx] at hold
      cases hold
  next hlast =>
    have hnil : s.subscriber.events = [] := List.getLast?_eq_none_iff.mp hlast
    refine ⟨?_, fun _ _ => rfl, h.trims⟩
    rw [hnil, List.nil_append]

theorem Tracks.reconnect (h : s.Tracks cursor) :
    Tracks cursor { s with
      subscriber := .connect s.resumeFrom
      cursor := s.resumeFrom
      earlier := s.received } := by
  obtain ⟨hevents, hahead, htrims⟩ := h.resumeFrom
  refine ⟨h.sound, htrims, Subscriber.tracks_of_frontier htrims.frontier, ?_, ?_⟩
  · rw [Session.received, List.append_assoc, hevents, h.earlier]
  · intro i hi
    rw [hahead i hi, h.ahead i hi]

theorem Tracks.step {l : Label} (h : s.Tracks cursor) (hallow : trimsOnlyOlder s l = true)
    (hstep : step cfg s l = some s') : s'.Tracks cursor := by
  cases l with
  | publish maxlen now trim body =>
    obtain rfl := Option.some.inj hstep
    apply h.publish
    intro e he
    simpa using List.all_eq_true.mp hallow e he
  | act a =>
    obtain ⟨u, hact, rfl⟩ := Option.map_eq_some_iff.mp hstep
    exact h.act hact
  | reconnect =>
    simp only [Session.step] at hstep
    split at hstep
    · obtain rfl := Option.some.inj hstep
      exact h.reconnect
    · cases hstep

theorem Tracks.of_reach (hs : (system cfg cursor).Reach trimsOnlyOlder s) : s.Tracks cursor := by
  apply System.Reach.invariant (tracks_start cursor) _ hs
  intro s l s' h hallow hstep
  exact h.step hallow hstep

/-- **Replay, then tail**: whatever the limits and the cursor, in every state the client has
received exactly the beginning of what was published after its cursor. -/
theorem replays_of_reach (cfg : SseSettings) (cursor : Option StreamId) (s : Session)
    (hs : (system cfg cursor).Reach trimsOnlyOlder s) : s.Replays cursor := by
  have h := Tracks.of_reach hs
  have hreceived : s.received <+: s.stream.publishedAfter cursor := by
    rw [← h.earlier]
    exact List.prefix_append_right_inj _ |>.mpr h.subscriber.isPrefix
  refine ⟨hreceived, ?_, h.subscriber.isPrefix⟩
  obtain ⟨older, holder⟩ : s.stream.publishedAfter cursor <:+ s.stream.log :=
    filter_after_isSuffix ResultStream.strictKeys_before h.sound.ordered.pairwise_log
  obtain ⟨rest, hrest⟩ := hreceived
  have hchain := h.sound.dense.isChain
  rw [← holder, ← hrest] at hchain
  exact hchain.right_of_append.left_of_append

/-- One entry at a time: two events after the cursor, the second published between the read
of the history and the tail while the entry at the cursor is trimmed, then a third one after
the client has gone and come back. -/
theorem replays_reconnected :
    ∃ s, (system ⟨1, 1, le_refl _, le_refl _⟩ (some ⟨1, 0⟩)).Reach trimsOnlyOlder s ∧
      s.received.map ResultEntry.seq = [2, 3, 4] ∧ s.Replays (some ⟨1, 0⟩) := by
  obtain ⟨s, hs, hq⟩ := System.exists_of_runAll
    (system ⟨1, 1, le_refl _, le_refl _⟩ (some ⟨1, 0⟩)) trimsOnlyOlder
    (fun s => s.received.map ResultEntry.seq = [2, 3, 4])
    [.publish 1 1 0 ⟨.pagePartial, some 0, none, []⟩,
      .publish 1 2 0 ⟨.pageFinal, some 0, none, []⟩,
      .act .checkGap, .act .readLow, .act .readHigh, .act (.readProgress 0 2), .act .readHistory,
      .publish 1 3 1 ⟨.pagePartial, some 1, none, []⟩,
      .act .send, .act .goOn, .act .readTail, .act .send, .act .disconnect, .reconnect,
      .publish 1 4 0 ⟨.pageFinal, some 1, none, []⟩,
      .act .checkGap, .act .readLow, .act .readHigh, .act (.readProgress 0 2), .act .readHistory,
      .act .send] (by decide +kernel)
  exact ⟨s, hs, by simpa using hq, replays_of_reach _ _ s hs⟩

end Session
end Sse
end OcrOrchestrator
