import OcrOrchestrator.Queue.State

/-!
# The two task streams

A page task is an entry of a Redis stream that one consumer group reads: page 0 of a
job goes to the lead lane, every other page and every requeue to the main lane.
Delivery puts an entry into the Pending Entries List under the consumer that got it;
`XACK` takes it out of that list, `XDEL` takes it out of the stream.  An entry that has
not been deleted is *unsettled*.

The commands below are the ones the worker issues, on one stream.  Entry ids are the
pairs `<ms>-<seq>` that `XADD *` assigns, so a new id is larger than every id before it
whatever the clock does.

Decimal rendering and parsing of integers are not modelled: a stored field is either
an integer or a text that is not one.
-/

namespace OcrOrchestrator

/-- Consumer names are only ever compared for equality. -/
abbrev Consumer := ℕ

/-- A stream entry id `<ms>-<seq>`. -/
structure StreamId where
  ms : ℕ
  seq : ℕ
  deriving DecidableEq

namespace StreamId

/-- Redis compares ids as number pairs. -/
def before (a b : StreamId) : Bool :=
  decide (a.ms < b.ms) || (decide (a.ms = b.ms) && decide (a.seq < b.seq))

/-- The id `XADD *` assigns after `last` at server time `now`. -/
def next (last : StreamId) (now : ℕ) : StreamId :=
  if last.ms < now then ⟨now, 0⟩ else ⟨last.ms, last.seq + 1⟩

theorem before_next (last : StreamId) (now : ℕ) : last.before (last.next now) = true := by
  unfold next before
  split <;> simp_all

theorem before_trans {a b c : StreamId} (hab : a.before b = true) (hbc : b.before c = true) :
    a.before c = true := by
  simp only [before, Bool.or_eq_true, Bool.and_eq_true, decide_eq_true_eq] at *
  omega

theorem before_irrefl (a : StreamId) : a.before a = false := by
  simp [before]

/-- What comes after any id comes after `0-0`. -/
theorem zero_before {a b : StreamId} (hab : a.before b = true) :
    (⟨0, 0⟩ : StreamId).before b = true := by
  simp only [before, Bool.or_eq_true, Bool.and_eq_true, decide_eq_true_eq] at *
  omega

end StreamId

/-- `stream:pages:lead` and `stream:pages`. -/
inductive Lane where
  | lead
  | main
  deriving DecidableEq

/-- A stored stream field that is read with `int(...)`. -/
inductive RawValue where
  | int (n : ℤ)
  | text (s : String)

/-- The fields of a task entry; any of them may be absent. -/
structure RawTask where
  jobId : Option JobId
  pageIndex : Option RawValue
  enqueuedAtMs : Option RawValue
  firstEnqueuedAtMs : Option RawValue
  traceId : Option String
  attempt : Option RawValue

/-- A parsed task. -/
structure PageTask where
  entryId : StreamId
  jobId : JobId
  pageIndex : ℤ
  enqueuedAtMs : ℤ
  traceId : String
  recovered : Bool
  stream : Lane
  attempt : ℤ
  firstEnqueuedAtMs : ℤ

namespace PageTask

/-- The page the task is about. -/
def key (task : PageTask) : PageKey := ⟨task.jobId, task.pageIndex⟩

/-- When the page first entered the system; `0` counts as unset. -/
def origin (task : PageTask) : ℤ :=
  if task.firstEnqueuedAtMs = 0 then task.enqueuedAtMs else task.firstEnqueuedAtMs

/-- Total time since the page first entered the system. -/
def ageMs (task : PageTask) (now : ℕ) : ℤ := max 0 ((now : ℤ) - task.origin)

end PageTask

/-- The entry `enqueue_pages` writes for one page. -/
def enqueueFields (key : PageKey) (nowMs : ℕ) (traceId : String) : RawTask where
  jobId := some key.job
  pageIndex := some (.int key.index)
  enqueuedAtMs := some (.int nowMs)
  firstEnqueuedAtMs := some (.int nowMs)
  traceId := some traceId
  attempt := none

/-- Page 0 goes to the priority lane. -/
def enqueueLane (key : PageKey) : Lane := if key.index = 0 then .lead else .main

/-- `int(fields[name])`: `KeyError` for a missing field, `ValueError` for one that is not a
number. -/
def readInt (name : String) : Option RawValue → Except Exn ℤ
  | none => .error (.exception "KeyError" ("'" ++ name ++ "'"))
  | some (.int n) => .ok n
  | some (.text s) =>
      .error (.exception "ValueError"
        ("invalid literal for int() with base 10: '" ++ s ++ "'"))

/-- Python truth of an optional stored field: absent and empty are false. -/
def RawValue.truthy : Option RawValue → Bool
  | none => false
  | some (.text "") => false
  | some _ => true

/-- `_parse`. -/
def parse (stream : Lane) (entryId : StreamId) (fields : RawTask) : Except Exn PageTask := do
  let jobId ← match fields.jobId with
    | some j => .ok j
    | none => .error (.exception "KeyError" "'job_id'")
  let pageIndex ← readInt "page_index" fields.pageIndex
  let enqueuedAtMs ← readInt "enqueued_at_ms" fields.enqueuedAtMs
  let attempt ← readInt "attempt" (some (fields.attempt.getD (.int 0)))
  let first ← readInt "enqueued_at_ms"
    (if RawValue.truthy fields.firstEnqueuedAtMs then fields.firstEnqueuedAtMs
      else fields.enqueuedAtMs)
  return {
    entryId, jobId, pageIndex, enqueuedAtMs, attempt, stream
    traceId := fields.traceId.getD ""
    recovered := false
    firstEnqueuedAtMs := first }

/-- What a parsed task takes from the entry it was read from. -/
theorem parse_spec {stream : Lane} {entryId : StreamId} {fields : RawTask} {task : PageTask}
    (h : parse stream entryId fields = .ok task) :
    task.stream = stream ∧ task.entryId = entryId ∧ task.recovered = false ∧
      fields.jobId = some task.jobId ∧ fields.pageIndex = some (.int task.pageIndex) := by
  rcases fields with ⟨_ | job, index, enqueued, first, trace, attempt⟩
  · cases h
  rcases index with _ | n | s
  · cases h
  · simp only [parse, readInt, bind, Except.bind, pure, Except.pure] at h
    split at h
    · cases h
    split at h
    · cases h
    split at h
    · cases h
    obtain rfl := Except.ok.inj h
    exact ⟨rfl, rfl, rfl, rfl, rfl⟩
  · cases h

/-! ## One stream and its consumer group -/

/-- A stream entry. -/
structure Entry where
  id : StreamId
  fields : RawTask

/-- A line of the Pending Entries List. -/
structure Pending where
  id : StreamId
  consumer : Consumer
  deliveredAt : ℕ

/-- A stream with its one consumer group. -/
structure TaskStream where
  entries : List Entry
  pel : List Pending
  lastId : StreamId
  lastDelivered : StreamId

namespace TaskStream

def empty : TaskStream := ⟨[], [], ⟨0, 0⟩, ⟨0, 0⟩⟩

/-- The entry with a given id, unless it has been deleted. -/
def stored? (s : TaskStream) (id : StreamId) : Option Entry := s.entries.find? (·.id = id)

/-- Who an entry is pending under. -/
def owner? (s : TaskStream) (id : StreamId) : Option Pending := s.pel.find? (·.id = id)

/-- `XADD key * ...`. -/
def xadd (s : TaskStream) (now : ℕ) (fields : RawTask) : StreamId × TaskStream :=
  let id := s.lastId.next now
  (id, { s with entries := s.entries ++ [⟨id, fields⟩], lastId := id })

/-- `XACK key group id`. -/
def xack (s : TaskStream) (id : StreamId) : TaskStream :=
  { s with pel := s.pel.filter (·.id ≠ id) }

/-- `XDEL key id`. -/
def xdel (s : TaskStream) (id : StreamId) : TaskStream :=
  { s with entries := s.entries.filter (·.id ≠ id) }

/-- `XREADGROUP ... COUNT 1 STREAMS key >`: deliver the oldest entry that the group has
not seen. -/
def deliverNext (s : TaskStream) (consumer : Consumer) (now : ℕ) : Option (Entry × TaskStream) :=
  (s.entries.find? fun e => s.lastDelivered.before e.id).map fun e =>
    (e, { s with lastDelivered := e.id, pel := s.pel ++ [⟨e.id, consumer, now⟩] })

/-- `XCLAIM key group consumer min-idle id`: take a pending entry over if it has been
idle that long; its idle clock restarts. -/
def xclaim (s : TaskStream) (consumer : Consumer) (minIdleMs now : ℕ) (id : StreamId) :
    Option (Entry × TaskStream) :=
  match s.owner? id, s.stored? id with
  | some p, some e =>
    if minIdleMs + p.deliveredAt ≤ now then
      some (e, { s with pel := s.pel.map fun q =>
        if q.id = id then ⟨id, consumer, now⟩ else q })
    else none
  | _, _ => none

/-- `XREADGROUP ... STREAMS key 0`, restricted to one entry: a consumer re-reads an entry
of its own pending list. -/
def readOwn (s : TaskStream) (consumer : Consumer) (now : ℕ) (id : StreamId) :
    Option (Entry × TaskStream) :=
  match s.owner? id with
  | some p => if p.consumer = consumer then s.xclaim consumer 0 now id else none
  | none => none

@[simp] theorem xack_entries (s : TaskStream) (id : StreamId) :
    (s.xack id).entries = s.entries := rfl
@[simp] theorem xack_lastId (s : TaskStream) (id : StreamId) :
    (s.xack id).lastId = s.lastId := rfl
@[simp] theorem xdel_lastId (s : TaskStream) (id : StreamId) :
    (s.xdel id).lastId = s.lastId := rfl
@[simp] theorem xadd_lastId (s : TaskStream) (now : ℕ) (fields : RawTask) :
    (s.xadd now fields).2.lastId = s.lastId.next now := rfl

theorem mem_xdel_entries {s : TaskStream} {id : StreamId} {e : Entry} :
    e ∈ (s.xdel id).entries ↔ e ∈ s.entries ∧ e.id ≠ id := by
  simp [xdel]

theorem mem_xadd_entries {s : TaskStream} {now : ℕ} {fields : RawTask} {e : Entry} :
    e ∈ (s.xadd now fields).2.entries ↔ e ∈ s.entries ∨ e = ⟨s.lastId.next now, fields⟩ := by
  simp [xadd]

/-- A delivery hands out an entry of the stream and leaves the entries alone. -/
theorem deliverNext_spec {s s' : TaskStream} {consumer : Consumer} {now : ℕ} {e : Entry}
    (h : s.deliverNext consumer now = some (e, s')) :
    e ∈ s.entries ∧ s.lastDelivered.before e.id = true ∧ s'.entries = s.entries ∧
      s'.lastId = s.lastId ∧ s'.lastDelivered = e.id ∧
      s'.pel = s.pel ++ [⟨e.id, consumer, now⟩] := by
  simp only [deliverNext, Option.map_eq_some_iff] at h
  obtain ⟨x, hx, hpair⟩ := h
  obtain ⟨rfl, rfl⟩ := Prod.mk.inj hpair
  exact ⟨List.mem_of_find?_eq_some hx, by simpa using List.find?_some hx, rfl, rfl, rfl, rfl⟩

/-- A claim hands out an entry that was pending and leaves the entries alone. -/
theorem xclaim_spec {s s' : TaskStream} {consumer : Consumer} {minIdleMs now : ℕ}
    {id : StreamId} {e : Entry} (h : s.xclaim consumer minIdleMs now id = some (e, s')) :
    e ∈ s.entries ∧ e.id = id ∧ (s.owner? id).isSome = true ∧ s'.entries = s.entries ∧
      s'.lastId = s.lastId ∧ s'.lastDelivered = s.lastDelivered ∧
      s'.pel = s.pel.map fun q => if q.id = id then ⟨id, consumer, now⟩ else q := by
  unfold xclaim at h
  split at h
  · rename_i p e' hp he
    split at h
    · obtain ⟨rfl, rfl⟩ := Prod.mk.inj (Option.some.inj h)
      exact ⟨List.mem_of_find?_eq_some he, by simpa using List.find?_some he, by simp [hp],
        rfl, rfl, rfl, rfl⟩
    · cases h
  · cases h

/-- Re-reading one's own entry is a claim of an entry that is already one's own. -/
theorem readOwn_spec {s s' : TaskStream} {consumer : Consumer} {now : ℕ} {id : StreamId}
    {e : Entry} (h : s.readOwn consumer now id = some (e, s')) :
    s.xclaim consumer 0 now id = some (e, s') ∧
      ∃ p, s.owner? id = some p ∧ p.consumer = consumer := by
  unfold readOwn at h
  split at h
  · rename_i p hp
    split at h
    · rename_i hc
      exact ⟨h, p, hp, hc⟩
    · cases h
  · cases h

theorem owner?_deliver {s s' : TaskStream} {consumer : Consumer} {now : ℕ} {id id' : StreamId}
    {q : Pending} (h : s'.pel = s.pel ++ [⟨id, consumer, now⟩]) (hq : s'.owner? id' = some q) :
    s.owner? id' = some q ∨ (id' = id ∧ q.consumer = consumer) := by
  rw [owner?, h, List.find?_append, Option.or_eq_some_iff] at hq
  rcases hq with hq | ⟨-, hq⟩
  · exact .inl hq
  · simp only [List.find?_singleton, decide_eq_true_eq] at hq
    split at hq
    · rename_i hid
      obtain rfl := Option.some.inj hq
      exact .inr ⟨hid.symm, rfl⟩
    · cases hq

theorem owner?_xclaim {s s' : TaskStream} {consumer : Consumer} {now : ℕ} {id id' : StreamId}
    {q : Pending}
    (h : s'.pel = s.pel.map fun q => if q.id = id then ⟨id, consumer, now⟩ else q)
    (hq : s'.owner? id' = some q) :
    (id' = id ∧ q.consumer = consumer) ∨ (id' ≠ id ∧ s.owner? id' = some q) := by
  have hmem := List.mem_of_find?_eq_some hq
  have hid : q.id = id' := by simpa using List.find?_some hq
  by_cases heq : id' = id
  · rw [h, List.mem_map] at hmem
    obtain ⟨r, -, hr⟩ := hmem
    split at hr
    · exact .inl ⟨heq, by rw [← hr]⟩
    · rename_i hne
      exact absurd (by rw [hr, hid, heq]) hne
  · refine .inr ⟨heq, ?_⟩
    rw [owner?, h, List.find?_map, Option.map_eq_some_iff] at hq
    obtain ⟨r, hr, hrq⟩ := hq
    have hr' : s.pel.find? (fun q => decide (q.id = id')) = some r := by
      rw [← hr]
      congr 1
      funext x
      simp only [Function.comp_apply]
      split
      · rename_i hx
        simp [hx]
      · rfl
    have hrid : r.id = id' := by simpa using List.find?_some hr'
    rw [if_neg (by rw [hrid]; exact heq)] at hrq
    exact hrq ▸ hr'

theorem owner?_xack {s : TaskStream} {id id' : StreamId} {q : Pending}
    (hq : (s.xack id).owner? id' = some q) : s.owner? id' = some q := by
  rw [owner?, xack, List.find?_filter] at hq
  rw [owner?, ← hq]
  have hid : id' ≠ id := by
    have := List.find?_some hq
    simp only [decide_eq_true_eq] at this
    exact this.2 ▸ this.1
  congr 1
  funext x
  by_cases hx : x.id = id'
  · simp [hx, hid]
  · simp [hx]

/-- The ids in the Pending Entries List. -/
def pending (s : TaskStream) : List StreamId := s.pel.map Pending.id

theorem mem_pending_of_owner {s : TaskStream} {id : StreamId} (h : (s.owner? id).isSome = true) :
    id ∈ s.pending := by
  obtain ⟨p, hp⟩ := Option.isSome_iff_exists.mp h
  have hid : p.id = id := by simpa using List.find?_some hp
  exact hid ▸ List.mem_map_of_mem (List.mem_of_find?_eq_some hp)

theorem pending_xclaim {s s' : TaskStream} {consumer : Consumer} {now : ℕ} {id : StreamId}
    (h : s'.pel = s.pel.map fun q => if q.id = id then ⟨id, consumer, now⟩ else q) :
    s'.pending = s.pending := by
  rw [pending, h, pending, List.map_map]
  apply List.map_congr_left
  intro q _
  simp only [Function.comp_apply]
  split
  · rename_i hq
    exact hq.symm
  · rfl

end TaskStream
end OcrOrchestrator
