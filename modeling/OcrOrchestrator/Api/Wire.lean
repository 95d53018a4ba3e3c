import OcrOrchestrator.Api.Stream
import OcrOrchestrator.Lib.Dict
import OcrOrchestrator.Lib.EventStream
import OcrOrchestrator.Lib.JsonValue
import OcrOrchestrator.Queue.EntryId

/-!
# Frames as text

What a connection sends is text: every frame is written by `ResultEvent.sse`, by `_frame` or as a
line of its own.  Whether a client can make sense of it, and comes back with the right cursor,
depends on three formats at once: event streams, JSON, and stream ids.

A payload holds what a model has answered, so it is JSON of any shape, with numbers written in
any way that can be read back.  An id is written as Redis writes it; where a client has sent
another text for it, as in `resumed_from`, the text here is that of Redis, and `last_id` without a
cursor, `0`, is written `0-0`.

## Main definitions

* `Wire.frame` — the text of a frame.
* `Wire.block` — the same as a block of an event stream.
* `Wire.stored` — what a client that reads `data` only knows of a stored event.
* `Wire.interpret_sent` — what a client has, wherever its connection is cut.
-/

namespace OcrOrchestrator

open Lib JsonText EventStream

/-- What `_frames` knows beside the frames, and how it writes numbers. -/
structure Wire (N : Type) where
  num : Numerals N
  ofNat : ℕ → N
  jobId : String
  totalPages : ℕ
  retryMs : ℕ
  /-- `json.loads` of the `data` field of an entry. -/
  data : ResultEntry → Dict String (Value N)

/-- The trace of a request, and the clock. -/
structure Moment where
  traceId : String
  nowMs : ℕ

/-- The constants that name events. -/
def EventKind.text : EventKind → Text
  | .pagePartial => ['p', 'a', 'g', 'e', '.', 'p', 'a', 'r', 't', 'i', 'a', 'l']
  | .pageFinal => ['p', 'a', 'g', 'e', '.', 'f', 'i', 'n', 'a', 'l']
  | .jobComplete => ['j', 'o', 'b', '.', 'c', 'o', 'm', 'p', 'l', 'e', 't', 'e']

/-- `STREAM_OPEN`. -/
def streamOpenText : Text := ['s', 't', 'r', 'e', 'a', 'm', '.', 'o', 'p', 'e', 'n']

/-- `GAP`. -/
def streamGapText : Text := ['s', 't', 'r', 'e', 'a', 'm', '.', 'g', 'a', 'p']

/-- A stream id, as Redis writes it. -/
def idText (id : StreamId) : Text := Nat.toDigits 10 id.ms ++ '-' :: Nat.toDigits 10 id.seq

namespace Wire
variable {N : Type} (w : Wire N)

/-! ## Writing -/

/-- A stream id in a payload, or `None`. -/
def idValue (id : Option StreamId) : Value N :=
  id.elim .null fun id => .str (String.ofList (idText id))

/-- `{**self.data, "seq": self.seq, "stream_id": self.entry_id}`. -/
def payload (e : ResultEntry) : Value N :=
  .obj (((w.data e).update "seq" fun _ => .num (w.ofNat e.seq)).update "stream_id"
    fun _ => .str (String.ofList (idText e.id)))

/-- `ResultEvent.sse`. -/
def sse (e : ResultEntry) : Text :=
  ['i', 'd', ':', ' '] ++ idText e.id ++ ['\n', 'e', 'v', 'e', 'n', 't', ':', ' '] ++
    e.body.event.text ++ ['\n', 'd', 'a', 't', 'a', ':', ' '] ++ (w.payload e).dumps w.num ++
    ['\n', '\n']

/-- `_frame`. -/
def localFrame (event : Text) (payload : Value N) : Text :=
  ['e', 'v', 'e', 'n', 't', ':', ' '] ++ event ++ ['\n', 'd', 'a', 't', 'a', ':', ' '] ++
    payload.dumps w.num ++ ['\n', '\n']

/-- `_heartbeat`. -/
def heartbeat (nowMs : ℕ) : Text :=
  [':', ' ', 'h', 'e', 'a', 'r', 't', 'b', 'e', 'a', 't', ' '] ++ Nat.toDigits 10 nowMs ++
    ['\n', '\n']

/-- The first thing that is sent. -/
def retry : Text :=
  ['r', 'e', 't', 'r', 'y', ':', ' '] ++ Nat.toDigits 10 w.retryMs ++ ['\n', '\n']

/-- The messages of a gap. -/
def gapMessage : Sse.GapReason → String
  | .trimmed => "Events before window_lo were trimmed. Re-read GET /jobs/" ++ w.jobId ++
      " for authoritative page state; page state is never trimmed."
  | .durationLimit => "Stream duration limit reached; reconnect with Last-Event-ID to continue."
  | .redisFailed => "The result stream became unavailable. Re-read GET /jobs/" ++ w.jobId ++
      " for authoritative page state, then reconnect."

/-- The payload of a frame, if it has one. -/
def value (m : Moment) : Sse.Frame → Option (Value N)
  | .retry => none
  | .heartbeat => none
  | .event e => some (w.payload e)
  | .streamOpen done resumedFrom windowLo windowHi => some (.obj [
      ("job_id", .str w.jobId), ("total_pages", .num (w.ofNat w.totalPages)),
      ("done", .num (w.ofNat done)), ("resumed_from", idValue resumedFrom),
      ("window_lo", idValue windowLo), ("window_hi", idValue windowHi),
      ("trace_id", .str m.traceId)])
  | .streamGap reason windowLo => some (.obj [
      ("job_id", .str w.jobId), ("message", .str (w.gapMessage reason)),
      ("window_lo", idValue windowLo)])
  | .jobComplete totalPages done => some (.obj [
      ("job_id", .str w.jobId), ("total_pages", .num (w.ofNat totalPages)),
      ("done", .num (w.ofNat done)), ("derived", .bool true)])

/-- The event a frame is announced as. -/
def event : Sse.Frame → Text
  | .event e => e.body.event.text
  | .streamOpen _ _ _ _ => streamOpenText
  | .streamGap _ _ => streamGapText
  | .jobComplete _ _ => EventKind.jobComplete.text
  | _ => []

/-- The text of a frame. -/
def frame (m : Moment) (f : Sse.Frame) : Text :=
  match f with
  | .retry => w.retry
  | .heartbeat => heartbeat m.nowMs
  | .event e => w.sse e
  | _ => w.localFrame (event f) ((w.value m f).getD .null)

/-- What `_heartbeat` says after the colon. -/
def heartbeatText (nowMs : ℕ) : Text :=
  [' ', 'h', 'e', 'a', 'r', 't', 'b', 'e', 'a', 't', ' '] ++ Nat.toDigits 10 nowMs

/-! ## As blocks -/

/-- The id that a frame carries. -/
def frameId (f : Sse.Frame) : Option Text := f.entry.map fun e => idText e.id

/-- A frame, as a block of an event stream. -/
def block (m : Moment) (f : Sse.Frame) : Block :=
  match w.value m f with
  | some v => .message (frameId f) (event f) (v.dumps w.num)
  | none =>
    match f with
    | .retry => .retry w.retryMs
    | _ => .comment (heartbeatText m.nowMs)

variable {w} {m : Moment} {f : Sse.Frame}

theorem block_of_value {v : Value N} (hv : w.value m f = some v) :
    w.block m f = .message (frameId f) (event f) (v.dumps w.num) := by
  simp only [block, hv]

theorem text_block (w : Wire N) (m : Moment) (f : Sse.Frame) :
    (w.block m f).text = w.frame m f := by
  cases f <;> simp [block, value, frame, Block.text, Block.lines, writeLines, frameId,
    Sse.Frame.entry, retry, heartbeat, heartbeatText, sse, localFrame, event]

theorem oneLine_of_plain {t : Text} (h : ∀ c ∈ t, Plain c) : Block.OneLine t := by
  intro c hc
  by_contra hbreak
  simp only [isBreak, Bool.not_eq_false, Bool.or_eq_true, decide_eq_true_eq] at hbreak
  have hplain := h c hc
  rcases hbreak with rfl | rfl
  · exact absurd hplain (by decide)
  · exact absurd hplain (by decide)

theorem isDigit_or_hyphen_of_mem_idText {id : StreamId} {c : Char} (hc : c ∈ idText id) :
    c.isDigit = true ∨ c = '-' := by
  rcases List.mem_append.mp hc with hms | hrest
  · exact .inl (isDigit_toDigits _ c hms)
  · rcases List.mem_cons.mp hrest with rfl | hseq
    · exact .inr rfl
    · exact .inl (isDigit_toDigits _ c hseq)

theorem plain_idText (id : StreamId) : ∀ c ∈ idText id, Plain c := fun c hc =>
  plain_of_numeralChar <| by
    rcases isDigit_or_hyphen_of_mem_idText hc with hdigit | rfl
    · simp [numeralChar, hdigit]
    · decide

theorem oneLine_event (f : Sse.Frame) : Block.OneLine (event f) := by
  cases f with
  | event e =>
    rw [event]
    cases e.body.event <;>
      exact oneLine_of_plain (List.forall_iff_forall_mem.mp (by decide))
  | _ =>
    refine oneLine_of_plain ?_
    simp only [event]
    exact List.forall_iff_forall_mem.mp (by decide)

theorem event_ne_nil {v : Value N} (hv : w.value m f = some v) : event f ≠ [] := by
  cases f with
  | event e =>
    rw [event]
    cases e.body.event <;> decide
  | retry => cases hv
  | heartbeat => cases hv
  | _ => simp [event, streamOpenText, streamGapText, EventKind.text]

/-- **No frame breaks the framing**, whatever its payload is. -/
theorem clean_block (w : Wire N) (m : Moment) (f : Sse.Frame) : (w.block m f).Clean := by
  cases hv : w.value m f with
  | some v =>
    rw [block_of_value hv]
    refine ⟨fun i hi => ?_, oneLine_event f, event_ne_nil hv, oneLine_of_plain (plain_dumps w.num v)⟩
    obtain ⟨e, -, rfl⟩ := Option.map_eq_some_iff.mp hi
    refine ⟨oneLine_of_plain (plain_idText e.id), fun hnul => ?_⟩
    exact absurd (plain_idText e.id _ hnul) (by decide)
  | none =>
    simp only [block, hv]
    cases f with
    | retry => trivial
    | _ =>
      refine oneLine_of_plain (plain_append (List.forall_iff_forall_mem.mp (by decide))
        fun c hc => plain_of_numeralChar ?_)
      simp [numeralChar, isDigit_toDigits _ c hc]

/-! ## What a client has -/

/-- A member of an object. -/
def member (key : String) : Value N → Option (Value N)
  | .obj ms => Dict.get ms key
  | _ => none

/-- What a client that parses `data` only takes for a stored event: a payload that has a
`stream_id`. -/
def stored (w : Wire N) (msg : Message) : Option (Value N) :=
  (loadsJson w.num msg.data).filter fun v => (member "stream_id" v).isSome

/-- The text that has been sent. -/
def sentText (w : Wire N) (sent : List (Moment × Sse.Frame)) : Text :=
  sent.flatMap fun p => w.frame p.1 p.2

/-- The stored events of some frames. -/
def sentEvents (sent : List (Moment × Sse.Frame)) : List ResultEntry :=
  sent.filterMap fun p => p.2.entry

/-- The payload of a frame has a `stream_id` just when the frame is of a stored event. -/
theorem member_value {v : Value N} (hv : w.value m f = some v) :
    (if (member "stream_id" v).isSome then some v else none) = f.entry.map w.payload := by
  cases f with
  | retry => cases hv
  | heartbeat => cases hv
  | event e =>
    obtain rfl := Option.some.inj hv
    simp [member, payload, Dict.get_update, Sse.Frame.entry]
  | _ =>
    obtain rfl := Option.some.inj hv
    simp [member, Dict.get_cons, Sse.Frame.entry]

theorem stored_block (i : Text) :
    ((w.block m f).messages i).filterMap w.stored = (f.entry.map w.payload).toList := by
  cases hv : w.value m f with
  | some v =>
    have hstored : ∀ j, w.stored ⟨event f, v.dumps w.num, j⟩ = f.entry.map w.payload := by
      intro j
      rw [stored, loadsJson_dumps, Option.filter_some, member_value hv]
    rw [block_of_value hv, Block.messages, List.filterMap_cons, hstored]
    cases f.entry <;> rfl
  | none =>
    cases f with
    | retry => rfl
    | heartbeat => rfl
    | _ => cases hv

theorem lastId_block (i : Text) :
    (w.block m f).lastId i = (f.entry.elim i fun e => idText e.id) := by
  cases f <;> rfl

section
variable (w) (sent : List (Moment × Sse.Frame)) (i : Text)

/-- What has been sent, as blocks. -/
def blocks : List Block := sent.map fun p => w.block p.1 p.2

theorem clean_blocks : ∀ b ∈ w.blocks sent, b.Clean := by
  intro b hb
  obtain ⟨p, -, rfl⟩ := List.mem_map.mp hb
  exact clean_block w p.1 p.2

theorem sentText_eq : w.sentText sent = (w.blocks sent).flatMap Block.text := by
  rw [blocks, List.flatMap_map]
  simp only [sentText, text_block]

theorem stored_blocks :
    (messages i (w.blocks sent)).filterMap w.stored = (sentEvents sent).map w.payload := by
  induction sent generalizing i with
  | nil => rfl
  | cons p sent ih =>
    have hcons : w.blocks (p :: sent) = w.block p.1 p.2 :: w.blocks sent := rfl
    rw [hcons, messages, List.filterMap_append, stored_block, ih, sentEvents, sentEvents,
      List.filterMap_cons]
    cases p.2.entry <;> rfl

/-- The id of the last of some events, or what was there before. -/
def lastIdText (es : List ResultEntry) : Text := es.getLast?.elim i fun e => idText e.id

theorem lastId_blocks : lastId i (w.blocks sent) = lastIdText i (sentEvents sent) := by
  induction sent generalizing i with
  | nil => rfl
  | cons p sent ih =>
    have hcons : w.blocks (p :: sent) = w.block p.1 p.2 :: w.blocks sent := rfl
    have hlast : lastId i (w.blocks (p :: sent)) =
        lastId ((w.block p.1 p.2).lastId i) (w.blocks sent) := rfl
    rw [hlast, ih, lastId_block, lastIdText, lastIdText, sentEvents, sentEvents,
      List.filterMap_cons]
    cases p.2.entry with
    | none => rfl
    | some e =>
      rw [List.getLast?_cons]
      cases (sent.filterMap fun p => p.2.entry).getLast? <;> rfl

/-- **Wherever a connection is cut**, the client has got the payloads of the first so many of the
events that were sent, and has the id of the last of them. -/
theorem interpret_sent {p : Text} (hp : p <+: w.sentText sent) (k : Option ℕ) :
    ∃ n, ((interpret (.rest i k) p).2).filterMap w.stored =
        (sentEvents (sent.take n)).map w.payload ∧
      (interpret (.rest i k) p).1.lastEventId = lastIdText i (sentEvents (sent.take n)) := by
  rw [sentText_eq] at hp
  obtain ⟨n, hmessages, hid⟩ := interpret_prefix (i := i) (k := k) (w.clean_blocks sent) hp
  have htake : (w.blocks sent).take n = w.blocks (sent.take n) := (List.map_take).symm
  refine ⟨n, ?_, ?_⟩
  · rw [hmessages, htake, stored_blocks]
  · rw [hid, htake, lastId_blocks]

/-- A client that has got everything has got the payloads of all events. -/
theorem interpret_sentText (k : Option ℕ) :
    ((interpret (.rest i k) (w.sentText sent)).2).filterMap w.stored =
      (sentEvents sent).map w.payload := by
  rw [sentText_eq, (interpret_flatMap (w.clean_blocks sent)).1, stored_blocks]

end

end Wire

end OcrOrchestrator
