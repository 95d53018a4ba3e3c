import OcrOrchestrator.Api.Wire

/-!
# A client that comes back

The client of a stream is an `EventSource`: it knows the text that has arrived, which is some
beginning of what the server has sent, and sends the id of the last event it was told of as
`Last-Event-ID` when it connects again.  What the server sends after the cut is lost, also when it
counts as sent there.

The header is a text that goes through `parse_entry_id`, with the query parameter behind it, and
what comes out of that goes to Redis.  Ids are of 64 bits there; Redis assigns no others.

## Main definitions

* `Cursor.redisId` — the id that Redis reads in a text.
* `Client`, `Client.system` — the client, the connection it has, and the publishes in between.
* `Client.Exact` — what has arrived, on all its connections, is the beginning of what there was
  to receive, and all of it once the connection has caught up.
-/

namespace OcrOrchestrator

open Lib EventStream

/-- An id of 64 bits. -/
def StreamId.Fits (id : StreamId) : Prop := id.ms < 2 ^ 64 ∧ id.seq < 2 ^ 64

instance (id : StreamId) : Decidable id.Fits := inferInstanceAs (Decidable (_ ∧ _))

namespace Cursor

open Eval

theorem toNat_lt (c : Char) : c.toNat < 0x110000 := by
  rcases c.valid with hlow | ⟨-, hhigh⟩
  · exact hlow.trans (by decide)
  · exact hhigh

/-- A text that has been sent, as one that has been received. -/
def toStr (t : Text) : Str := t.map fun c => ⟨c.toNat, toNat_lt c⟩

/-- A numeral that Redis reads. -/
def redisNumeral (s : Str) : Option ℕ :=
  if s ≠ [] ∧ (s.all fun c => decide (48 ≤ c.val ∧ c.val ≤ 57)) = true ∧
      value (s.map fun c => c.val - 48) < 2 ^ 64
  then some (value (s.map fun c => c.val - 48)) else none

/-- The id that Redis reads in a cursor. -/
def redisId (s : Str) : Option StreamId :=
  (redisNumeral (s.takeWhile (· ≠ hyphen))).bind fun ms =>
    (redisNumeral (s.dropWhile (· ≠ hyphen)).tail).map fun seq => ⟨ms, seq⟩

/-! ## Ids as texts -/

theorem numeral_toDigits {n : ℕ} (hn : n < 2 ^ 64) : Numeral (toStr (Nat.toDigits 10 n)) n where
  nonempty := by simp [toStr, Nat.toDigits_ne_nil]
  ascii c hc := by
    obtain ⟨x, hx, rfl⟩ := List.mem_map.mp hc
    have hdigit := JsonText.isDigit_toDigits n x hx
    simp only [Char.isDigit, Bool.and_eq_true, decide_eq_true_eq] at hdigit
    exact hdigit
  value_eq := by
    have hread : Nat.ofDigitChars 10 (Nat.toDigits 10 n) 0 = n :=
      Nat.ofDigitChars_toDigits (by decide) (by decide)
    rw [toStr, List.map_map, value, List.foldl_map]
    exact hread
  lt := hn

/-- The id of a stored event is an id to Redis. -/
theorem entryId_idText {id : StreamId} (hid : id.Fits) : EntryId (toStr (idText id)) id :=
  ⟨_, _, by simp [toStr, idText, hyphen], numeral_toDigits hid.1, numeral_toDigits hid.2⟩

theorem redisNumeral_of_numeral {s : Str} {n : ℕ} (h : Numeral s n) : redisNumeral s = some n := by
  have hascii : (s.all fun c => decide (48 ≤ c.val ∧ c.val ≤ 57)) = true :=
    List.all_eq_true.mpr fun c hc => decide_eq_true (h.ascii c hc)
  rw [redisNumeral, if_pos ⟨h.nonempty, hascii, h.value_eq ▸ h.lt⟩, h.value_eq]

theorem redisId_of_entryId {s : Str} {id : StreamId} (h : EntryId s id) : redisId s = some id := by
  obtain ⟨ms, seq, rfl, hms, hseq⟩ := h
  have hbefore : ∀ c ∈ ms, (decide (c ≠ hyphen)) = true := by
    intro c hc
    simp only [decide_eq_true_eq]
    rintro rfl
    exact absurd (hms.ascii _ hc).1 (by decide)
  rw [redisId, List.takeWhile_append_of_pos hbefore, List.dropWhile_append_of_pos hbefore]
  simp [redisNumeral_of_numeral hms, redisNumeral_of_numeral hseq]

/-! ## The cursor of a connection -/

section
variable (u : Digits) (query : Option Str)

/-- `Last-Event-ID`, which a client without an id does not send. -/
def header (lastEventId : Text) : Option Str :=
  if lastEventId = [] then none else some (toStr lastEventId)

/-- What `stream_results` takes as the cursor. -/
def cursorText (lastEventId : Text) : Option Str :=
  (parseEntryId u (header lastEventId)).or (parseEntryId u query)

/-- And what that is to Redis. -/
def cursorOf (lastEventId : Text) : Option StreamId := (cursorText u query lastEventId).bind redisId

variable {u query}

/-- The query is not looked at once there is an id. -/
theorem cursorText_idText {id : StreamId} (hid : id.Fits) :
    cursorText u query (idText id) = some (toStr (idText id)) := by
  have hne : idText id ≠ [] := by simp [idText]
  rw [cursorText, header, if_neg hne, (entryId_idText hid).accepted]
  rfl

theorem cursorOf_idText {id : StreamId} (hid : id.Fits) :
    cursorOf u query (idText id) = some id := by
  rw [cursorOf, cursorText_idText hid]
  exact redisId_of_entryId (entryId_idText hid)

end

end Cursor

namespace Sse

namespace Session
variable {first : Option StreamId} {t : Session}

/-- The connection is cut after some frames. -/
def cut (t : Session) (n : ℕ) : Session :=
  { t with subscriber := ⟨.closed, t.subscriber.frames.take n⟩ }

theorem Tracks.cut (h : t.Tracks first) (n : ℕ) : (t.cut n).Tracks first where
  sound := h.sound
  trims := h.trims
  subscriber := by
    apply Subscriber.tracks_closed rfl
    exact ((List.take_prefix n _).filterMap _).trans h.subscriber.isPrefix
  earlier := h.earlier
  ahead := h.ahead

theorem Tracks.received_isPrefix (h : t.Tracks first) :
    t.received <+: t.stream.publishedAfter first := by
  rw [← h.earlier]
  exact (List.prefix_append_right_inj _).mpr h.subscriber.isPrefix

/-- Nothing is left to send or to read. -/
theorem Tracks.received_eq (h : t.Tracks first) (hopen : t.subscriber.phase ≠ .closed)
    (hpending : t.subscriber.phase.pending = [])
    (hread : t.stream.entriesAfter t.subscriber.phase.next = []) :
    t.received = t.stream.publishedAfter first := by
  have hfrontier := (h.subscriber.frontier hopen).got_append
  rw [hpending, hread, List.append_nil, List.append_nil] at hfrontier
  rw [← h.earlier, ← hfrontier, Session.received]

end Session

/-- A client, and its connection as the server sees it. -/
structure Client where
  stream : ResultStream
  subscriber : Subscriber
  /-- The frames of the connection, and when they were sent. -/
  sent : List (Moment × Frame)
  /-- The cursor of the connection. -/
  cursor : Option StreamId
  /-- What the client has got on the connections before. -/
  heard : List Message
  lastEventId : Text
  retryAfter : Option ℕ

namespace Client

/-- A connection of the client ends after so many characters, and it opens another. -/
inductive Label where
  | publish (maxlen now trim : ℕ) (body : EventBody)
  | act (a : Action) (m : Moment)
  | reconnect (arrived : ℕ) (m : Moment)

section
variable {N : Type} (w : Wire N) (u : Cursor.Digits) (query : Option Eval.Str) (cfg : SseSettings)

/-- What the client makes of the first so many characters. -/
def hear (s : Client) (arrived : ℕ) : EventStream.Reader × List Message :=
  interpret (.rest s.lastEventId s.retryAfter) ((w.sentText s.sent).take arrived)

/-- Everything the client has been told, if so many characters of the connection have arrived. -/
def told (s : Client) (arrived : ℕ) : List Message := s.heard ++ (s.hear w arrived).2

/-- A connection with what the client sends. -/
def connect (stream : ResultStream) (heard : List Message) (lastEventId : Text)
    (retryAfter : Option ℕ) (m : Moment) : Client where
  stream
  subscriber := .connect (Cursor.cursorOf u query lastEventId)
  sent := [(m, .retry)]
  cursor := Cursor.cursorOf u query lastEventId
  heard
  lastEventId
  retryAfter

def step (s : Client) : Label → Option Client
  | .publish maxlen now trim body =>
    some { s with stream := (s.stream.publishScript maxlen now trim body).2 }
  | .act a m => (s.subscriber.act cfg s.stream a).map fun subscriber => { s with
      subscriber
      sent := s.sent ++ (subscriber.frames.drop s.subscriber.frames.length).map fun f => (m, f) }
  | .reconnect arrived m =>
    let r := (s.hear w arrived).1
    some (connect u query s.stream (s.told w arrived) r.lastEventId r.retry m)

/-- The first connection is without an id. -/
def system (m : Moment) : System Client Label :=
  ⟨connect u query .empty [] [] none m, step w u query cfg⟩

/-- No entry newer than the cursor of the connection is trimmed, and ids do not overflow. -/
def redisKeeps (s : Client) : Label → Bool
  | .publish maxlen now trim body =>
    let stream := (s.stream.publishScript maxlen now trim body).2
    ((stream.log.take stream.trimmed).all fun e => !ResultStream.idAfter s.cursor e.id) &&
      decide (s.stream.lastId.next now).Fits
  | _ => true

/-- The connection is open, has sent what it has read, and there is nothing else to read. -/
def CaughtUp (s : Client) : Prop :=
  s.subscriber.phase ≠ .closed ∧ s.subscriber.phase.pending = [] ∧
    s.stream.entriesAfter s.subscriber.phase.next = []

/-- **What arrives is exact**, in the text: the payloads of stored events that the client has
parsed are those of the first events published after its first cursor, and of all of them once it
has caught up.  Its cursor is always an id, and Redis has the same one. -/
structure Exact (s : Client) : Prop where
  readable : ∀ t ∈ Cursor.cursorText u query s.lastEventId,
    ∃ id, Cursor.EntryId t id ∧ s.cursor = some id
  isPrefix : ∀ arrived, (s.told w arrived).filterMap w.stored <+:
    (s.stream.publishedAfter (Cursor.cursorOf u query [])).map w.payload
  whole : s.CaughtUp → (s.told w (w.sentText s.sent).length).filterMap w.stored =
    (s.stream.publishedAfter (Cursor.cursorOf u query [])).map w.payload

/-- The session of the client, if the events it has parsed before are these. -/
def session (s : Client) (earlier : List ResultEntry) : Session :=
  ⟨s.stream, s.subscriber, s.cursor, earlier⟩

/-- The invariant: what was parsed before are some events, with which the session is on its
track; the frames are those of the connection; and the cursor is what the client has asked for. -/
structure Tracks (s : Client) : Prop where
  session : ∃ earlier, (s.session earlier).Tracks (Cursor.cursorOf u query []) ∧
    s.heard.filterMap w.stored = earlier.map w.payload
  frames : s.sent.map Prod.snd = s.subscriber.frames
  cursor_eq : s.cursor = Cursor.cursorOf u query s.lastEventId
  asked : s.lastEventId = [] ∨ ∃ id : StreamId, id.Fits ∧ s.lastEventId = idText id
  fits : ∀ e ∈ s.stream.log, e.id.Fits

end

variable {N : Type} {w : Wire N} {u : Cursor.Digits} {query : Option Eval.Str} {cfg : SseSettings}
  {s s' : Client}

/-- A step of a connection only sends more frames. -/
theorem frames_isPrefix {stream : ResultStream} {v v' : Subscriber} {a : Action}
    (hact : v.act cfg stream a = some v') : v.frames <+: v'.frames := by
  have hturn := Subscriber.act_cases hact
  obtain ⟨phase, frames⟩ := v
  cases hturn <;> first | exact List.prefix_refl _ | exact List.prefix_append _ _

theorem sentEvents_eq (sent : List (Moment × Frame)) (phase : Phase) :
    Wire.sentEvents sent = (⟨phase, sent.map Prod.snd⟩ : Subscriber).events := by
  simp [Wire.sentEvents, Subscriber.events, List.filterMap_map]

/-- What has arrived is what a session that is cut there has received, and its id is that of the
cursor the session comes back with. -/
theorem Tracks.arrived (h : s.Tracks w u query) {earlier : List ResultEntry}
    (hearlier : s.heard.filterMap w.stored = earlier.map w.payload) (arrived : ℕ) :
    ∃ n, (s.told w arrived).filterMap w.stored =
        ((s.session earlier).cut n).received.map w.payload ∧
      (s.hear w arrived).1.lastEventId =
        Wire.lastIdText s.lastEventId ((s.session earlier).cut n).subscriber.events := by
  obtain ⟨n, hmessages, hid⟩ := w.interpret_sent s.sent s.lastEventId
    (List.take_prefix arrived _) s.retryAfter
  have hevents : Wire.sentEvents (s.sent.take n) =
      ((s.session earlier).cut n).subscriber.events := by
    rw [sentEvents_eq _ .closed, List.map_take, h.frames]
    rfl
  refine ⟨n, ?_, ?_⟩
  · rw [told, List.filterMap_append, hearlier, hear, hmessages, hevents]
    exact List.map_append.symm
  · rw [hear, hid, hevents]

/-- The id that the client has got is that of the cursor its session comes back with. -/
theorem Tracks.asks (h : s.Tracks w u query) {first : Option StreamId} {t : Session}
    (ht : t.Tracks first) (hstream : t.stream = s.stream) (hcursor : t.cursor = s.cursor) :
    Cursor.cursorOf u query (Wire.lastIdText s.lastEventId t.subscriber.events) = t.resumeFrom ∧
      (Wire.lastIdText s.lastEventId t.subscriber.events = [] ∨ ∃ id : StreamId, id.Fits ∧
        Wire.lastIdText s.lastEventId t.subscriber.events = idText id) := by
  rw [Wire.lastIdText, Session.resumeFrom]
  cases hlast : t.subscriber.events.getLast? with
  | none => exact ⟨by rw [hcursor, h.cursor_eq]; rfl, h.asked⟩
  | some e =>
    have hlog : e ∈ s.stream.log := by
      rw [← hstream]
      have hmem := ht.subscriber.isPrefix.subset (List.mem_of_getLast? hlast)
      exact (List.mem_filter.mp hmem).1
    exact ⟨Cursor.cursorOf_idText (h.fits e hlog), .inr ⟨e.id, h.fits e hlog, rfl⟩⟩

theorem Tracks.reconnect (h : s.Tracks w u query) (arrived : ℕ) (m : Moment) :
    (connect u query s.stream (s.told w arrived) (s.hear w arrived).1.lastEventId
      (s.hear w arrived).1.retry m).Tracks w u query := by
  obtain ⟨earlier, hsession, hearlier⟩ := h.session
  obtain ⟨n, htold, hid⟩ := h.arrived hearlier arrived
  have hcut := hsession.cut n
  obtain ⟨hcursor, hasked⟩ := h.asks hcut rfl rfl
  rw [hid]
  refine ⟨⟨_, ?_, htold⟩, rfl, rfl, hasked, h.fits⟩
  have hback := hcut.reconnect
  rw [← hcursor] at hback
  exact hback

theorem Tracks.act (h : s.Tracks w u query) {a : Action} {v : Subscriber} (m : Moment)
    (hact : s.subscriber.act cfg s.stream a = some v) :
    Tracks w u query { s with
      subscriber := v
      sent := s.sent ++ (v.frames.drop s.subscriber.frames.length).map fun f => (m, f) } := by
  obtain ⟨earlier, hsession, hearlier⟩ := h.session
  refine ⟨⟨earlier, hsession.act hact, hearlier⟩, ?_, h.cursor_eq, h.asked, h.fits⟩
  have hframes := List.prefix_iff_eq_append.mp (frames_isPrefix hact)
  rw [List.map_append, h.frames, List.map_map]
  simpa using hframes

theorem Tracks.publish (h : s.Tracks w u query) (maxlen now trim : ℕ) (body : EventBody)
    (hkeeps : redisKeeps s (.publish maxlen now trim body) = true) :
    Tracks w u query
      { s with stream := (s.stream.publishScript maxlen now trim body).2 } := by
  obtain ⟨earlier, hsession, hearlier⟩ := h.session
  simp only [redisKeeps, Bool.and_eq_true, List.all_eq_true, Bool.not_eq_true',
    decide_eq_true_eq] at hkeeps
  refine ⟨⟨earlier, hsession.publish _ _ _ _ hkeeps.1, hearlier⟩, h.frames, h.cursor_eq,
    h.asked, ?_⟩
  intro e he
  rw [ResultStream.publishScript_log, List.mem_append, List.mem_singleton] at he
  rcases he with he | rfl
  · exact h.fits e he
  · exact hkeeps.2

theorem tracks_init (m : Moment) : (system w u query cfg m).init.Tracks w u query where
  session := ⟨[], Session.tracks_start _, rfl⟩
  frames := rfl
  cursor_eq := rfl
  asked := .inl rfl
  fits := by
    intro e he
    cases he

theorem Tracks.of_reach {m : Moment} (hs : (system w u query cfg m).Reach redisKeeps s) :
    s.Tracks w u query := by
  apply System.Reach.invariant (tracks_init m) _ hs
  intro s l s' h hkeeps hstep
  cases l with
  | publish maxlen now trim body =>
    obtain rfl := Option.some.inj hstep
    exact h.publish _ _ _ _ hkeeps
  | act a m =>
    obtain ⟨v, hact, rfl⟩ := Option.map_eq_some_iff.mp hstep
    exact h.act m hact
  | reconnect arrived m =>
    obtain rfl := Option.some.inj hstep
    exact h.reconnect arrived m

/-- What the client has asked for is an id to Redis, if the query is a sound cursor. -/
theorem Tracks.readable (h : s.Tracks w u query) (hquery : ∀ t ∈ query, Cursor.Plain u t)
    {t : Eval.Str} (ht : Cursor.cursorText u query s.lastEventId = some t) :
    ∃ id, Cursor.EntryId t id ∧ s.cursor = some id := by
  have hid : ∃ id, Cursor.EntryId t id := by
    rcases h.asked with hnil | ⟨id, hfits, hid⟩
    · rw [hnil, Cursor.cursorText, Cursor.header, if_pos rfl] at ht
      cases query with
      | none => cases ht
      | some q =>
        obtain ⟨rfl, ms, seq, hshape⟩ := Cursor.parseEntryId_eq_some_iff.mp ht
        obtain ⟨id, ⟨hms, hseq⟩, -⟩ := (hquery q rfl).numerals hshape
        exact ⟨id, ms, seq, hshape.eq, hms, hseq⟩
    · rw [hid, Cursor.cursorText_idText hfits] at ht
      obtain rfl := Option.some.inj ht
      exact ⟨id, Cursor.entryId_idText hfits⟩
  obtain ⟨id, hid⟩ := hid
  refine ⟨id, hid, ?_⟩
  rw [h.cursor_eq, Cursor.cursorOf, ht]
  exact Cursor.redisId_of_entryId hid

/-- **The stream is exact in the text**: wherever the connections of a client are cut, and however
often, it is told of every event once, in the order in which they were published. -/
theorem stream_exact_of_reach (w : Wire N) (u : Cursor.Digits) (query : Option Eval.Str)
    (cfg : SseSettings) (hquery : ∀ t ∈ query, Cursor.Plain u t) (m : Moment) (s : Client)
    (hs : (system w u query cfg m).Reach redisKeeps s) : s.Exact w u query := by
  have h := Tracks.of_reach hs
  obtain ⟨earlier, hsession, hearlier⟩ := h.session
  refine ⟨fun t ht => h.readable hquery ht, fun arrived => ?_, fun ⟨hopen, hpending, hread⟩ => ?_⟩
  · obtain ⟨n, htold, -⟩ := h.arrived hearlier arrived
    rw [htold]
    exact (hsession.cut n).received_isPrefix.map _
  · have hevents : Wire.sentEvents s.sent = s.subscriber.events := by
      rw [sentEvents_eq _ s.subscriber.phase, h.frames]
    have hall : earlier ++ s.subscriber.events = s.stream.publishedAfter _ :=
      hsession.received_eq hopen hpending hread
    rw [told, List.filterMap_append, hearlier, hear, List.take_length, Wire.interpret_sentText,
      hevents, ← hall, List.map_append]

/-- The client waits for an event, and there is none. -/
def waits (s : Client) : Bool :=
  match s.subscriber.phase with
  | .looping lastId => (s.stream.entriesAfter (some lastId)).isEmpty
  | _ => false

/-- Two events after the cursor of the query.  Both are sent when the connection is cut within the
second one; the client comes back with the id of the first and is told the second, and another. -/
theorem exact_cut :
    ∃ s : Client, (system ⟨JsonText.Numerals.int, Int.ofNat, "j", 2, 2000, fun _ => []⟩
        Cursor.arabicIndic (some [49, Cursor.hyphen, 48]) ⟨1, 1, le_refl _, le_refl _⟩
        ⟨"t", 4⟩).Reach redisKeeps s ∧
      s.CaughtUp ∧ s.lastEventId = ['2', '-', '0'] ∧
      s.subscriber.events.map ResultEntry.seq = [3, 4] ∧
      s.Exact ⟨JsonText.Numerals.int, Int.ofNat, "j", 2, 2000, fun _ => []⟩ Cursor.arabicIndic
        (some [49, Cursor.hyphen, 48]) := by
  have hplain : ∀ t ∈ some [49, Cursor.hyphen, 48], Cursor.Plain Cursor.arabicIndic t := by
    rintro t ⟨⟩ ms seq heq hms hseq hdigits
    have hone : Cursor.Shape Cursor.arabicIndic [49, Cursor.hyphen, 48] [49] [48] :=
      ⟨rfl, by simp, by simp, List.all_eq_true.mp (by decide)⟩
    obtain ⟨rfl, rfl⟩ := hone.unique ⟨heq, hms, hseq, hdigits⟩
    refine ⟨?_, by decide, by decide, by decide⟩
    intro c hc
    simp only [List.cons_append, List.nil_append, List.mem_cons, List.not_mem_nil, or_false] at hc
    rcases hc with rfl | rfl <;> decide
  obtain ⟨s, hs, hq⟩ := System.exists_of_runAll
    (system ⟨JsonText.Numerals.int, Int.ofNat, "j", 2, 2000, fun _ => []⟩
      Cursor.arabicIndic (some [49, Cursor.hyphen, 48]) ⟨1, 1, le_refl _, le_refl _⟩ ⟨"t", 4⟩)
    redisKeeps
    (fun s => decide (s.lastEventId = ['2', '-', '0'] ∧
      s.subscriber.events.map ResultEntry.seq = [3, 4]) && s.waits)
    [.publish 1 1 0 ⟨.pagePartial, some 0, none, []⟩,
      .publish 1 2 0 ⟨.pageFinal, some 0, none, []⟩,
      .publish 1 3 0 ⟨.pagePartial, some 1, none, []⟩,
      .act .checkGap ⟨"t", 5⟩, .act .readLow ⟨"t", 5⟩, .act .readHigh ⟨"t", 5⟩,
      .act (.readProgress 0 2) ⟨"t", 5⟩, .act .readHistory ⟨"t", 5⟩, .act .send ⟨"t", 5⟩,
      .act .goOn ⟨"t", 5⟩, .act .readTail ⟨"t", 5⟩, .act .send ⟨"t", 5⟩,
      .reconnect 220 ⟨"t", 6⟩, .act .checkGap ⟨"t", 6⟩, .act .readLow ⟨"t", 6⟩,
      .act .readHigh ⟨"t", 6⟩, .act (.readProgress 1 2) ⟨"t", 6⟩, .act .readHistory ⟨"t", 6⟩,
      .publish 1 4 1 ⟨.pageFinal, some 1, none, []⟩, .act .send ⟨"t", 6⟩,
      .act .goOn ⟨"t", 6⟩, .act .readTail ⟨"t", 6⟩, .act .send ⟨"t", 6⟩] (by decide +kernel)
  simp only [Bool.and_eq_true, decide_eq_true_eq] at hq
  obtain ⟨⟨hid, hevents⟩, hphase⟩ := hq
  refine ⟨s, hs, ?_, hid, hevents, stream_exact_of_reach _ _ _ _ hplain _ s hs⟩
  unfold waits at hphase
  split at hphase
  next lastId hloop =>
    rw [CaughtUp, hloop]
    exact ⟨by simp, rfl, List.isEmpty_iff.mp hphase⟩
  next => cases hphase

end Client
end Sse
end OcrOrchestrator
