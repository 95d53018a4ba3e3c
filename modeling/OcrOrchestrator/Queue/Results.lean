import Mathlib.Data.List.Chain
import OcrOrchestrator.Queue.Streams

/-!
# The result stream of a job

One stream per job carries its notifications.  The publish script numbers and appends
an event in one step, so the sequence numbers are dense and agree with the order of
the entry ids.  `MAXLEN ~` lets Redis drop a prefix of the stream whenever what remains
is at least the limit; the model keeps every event ever appended and counts the dropped
ones, so the current contents are a suffix of the history.
-/

namespace OcrOrchestrator

/-- `page.partial`, `page.final` and `job.complete`. -/
inductive EventKind where
  | pagePartial
  | pageFinal
  | jobComplete
  deriving DecidableEq

/-- The payload of a published event.  A job event names no page. -/
structure EventBody where
  event : EventKind
  pageIndex : Option ℤ
  state : Option PageState
  extra : List (String × Json)

/-- A stored event. -/
structure ResultEntry where
  id : StreamId
  seq : ℕ
  body : EventBody

/-- The history of a job's result stream and its counter. -/
structure ResultStream where
  log : List ResultEntry
  trimmed : ℕ
  seq : ℕ
  lastId : StreamId

namespace ResultStream

def empty : ResultStream := ⟨[], 0, 0, ⟨0, 0⟩⟩

/-- What the stream holds now. -/
def contents (s : ResultStream) : List ResultEntry := s.log.drop s.trimmed

/-- `_PUBLISH_LUA`.  `trim` is how many old entries Redis chooses to drop; it never goes
below `maxlen` remaining ones. -/
def publishScript (maxlen now trim : ℕ) (body : EventBody) (s : ResultStream) :
    (StreamId × ℕ) × ResultStream :=
  let seq := s.seq + 1
  let id := s.lastId.next now
  let log := s.log ++ [⟨id, seq, body⟩]
  ((id, seq), {
    log, seq, lastId := id
    trimmed := max s.trimmed (min (s.trimmed + trim) (log.length - maxlen)) })

@[simp] theorem publishScript_log (maxlen now trim : ℕ) (body : EventBody) (s : ResultStream) :
    (publishScript maxlen now trim body s).2.log =
      s.log ++ [⟨s.lastId.next now, s.seq + 1, body⟩] := rfl

/-- Sequence numbers and ids both grow along the history, and the counter and the last
id bound them. -/
structure Ordered (s : ResultStream) : Prop where
  pairwise : s.log.Pairwise fun a b => a.seq < b.seq ∧ a.id.before b.id = true
  bound : ∀ a ∈ s.log, a.seq ≤ s.seq ∧ (a.id = s.lastId ∨ a.id.before s.lastId = true)

theorem ordered_empty : Ordered empty :=
  ⟨List.Pairwise.nil, by simp [empty]⟩

/-- Publishing keeps the history ordered. -/
theorem Ordered.publish {s : ResultStream} (h : s.Ordered) (maxlen now trim : ℕ)
    (body : EventBody) : (publishScript maxlen now trim body s).2.Ordered := by
  have hid : s.lastId.before (s.lastId.next now) = true := StreamId.before_next _ _
  constructor
  · rw [publishScript_log, List.pairwise_append]
    refine ⟨h.pairwise, List.pairwise_singleton _ _, ?_⟩
    intro a ha b hb
    obtain rfl := List.mem_singleton.mp hb
    obtain ⟨hseq, hlast⟩ := h.bound a ha
    refine ⟨Nat.lt_succ_of_le hseq, ?_⟩
    rcases hlast with heq | hlt
    · rw [heq]; exact hid
    · exact StreamId.before_trans hlt hid
  · intro a ha
    rw [publishScript_log, List.mem_append, List.mem_singleton] at ha
    rcases ha with ha | rfl
    · obtain ⟨hseq, hlast⟩ := h.bound a ha
      refine ⟨Nat.le_succ_of_le hseq, Or.inr ?_⟩
      rcases hlast with heq | hlt
      · rw [heq]; exact hid
      · exact StreamId.before_trans hlt hid
    · exact ⟨le_refl _, Or.inl rfl⟩

/-- The numbering has no gaps, and the counter stands at its last number. -/
structure Dense (s : ResultStream) : Prop where
  isChain : s.log.IsChain fun a b => b.seq = a.seq + 1
  last : ∀ a ∈ s.log.getLast?, a.seq = s.seq

theorem dense_empty : Dense empty :=
  ⟨List.IsChain.nil, by simp [empty]⟩

theorem Dense.publish {s : ResultStream} (h : s.Dense) (maxlen now trim : ℕ)
    (body : EventBody) : (publishScript maxlen now trim body s).2.Dense := by
  constructor
  · rw [publishScript_log, List.isChain_append]
    refine ⟨h.isChain, List.isChain_singleton _, ?_⟩
    intro a ha b hb
    obtain rfl := Option.some.inj hb
    rw [h.last a ha]
  · intro a ha
    rw [publishScript_log, List.getLast?_append] at ha
    obtain rfl := Option.some.inj ha
    rfl

end ResultStream
end OcrOrchestrator
