import OcrOrchestrator.Lib.Lru
import Mathlib.Algebra.Order.Ring.Rat
import Mathlib.Data.List.Induction

/-!
# The idempotency store of the mock

`mock_model/idempotency.py`: cached responses, executions in flight, and the counts that are to
show a duplicate execution.  Cache and counts are bounded and keep the keys used last; the keys
that ran more than once are kept apart from the counts, without a bound.

Handles are shared between requests, so they are numbered and the store holds them all.  Bodies
and errors are parameters.

## Main definitions

* `IdempotencyStore` and its operations.
* `Retained` — no key is recorded again after its count was dropped.

## Main results

* `duplicates_complete` — the duplicates are complete just when that is so.
-/

namespace OcrOrchestrator
namespace Mock

open Lib

/-- How an execution ends without a body. -/
inductive Failure (E : Type) where
  | raised (error : E)
  | cancelled
deriving DecidableEq

/-- `_InFlight`: the event, and the outcome once it is set. -/
structure InFlight (B E : Type) where
  event : Bool
  result : Option B
  error : Option (Failure E)
  followers : ℕ
deriving DecidableEq

/-- `IdempotencyStore`.  `handles` are the objects that `inflight` refers to by number. -/
structure IdempotencyStore (B E : Type) where
  ttl : ℚ
  maxEntries : ℕ
  inflight : Dict String ℕ
  cache : Dict String (ℚ × B)
  executions : Dict String ℕ
  duplicates : Dict String ℕ
  handles : List (InFlight B E)

/-- `stats`. -/
structure StoreStats where
  cachedResponses : ℕ
  trackedKeys : ℕ
  inFlight : ℕ
  duplicateExecutions : Dict String ℕ

namespace IdempotencyStore
variable {B E : Type}

/-- `__init__`. -/
def init (ttl : ℚ) (maxEntries : ℕ) : IdempotencyStore B E := ⟨ttl, maxEntries, [], [], [], [], []⟩

/-- `get`: an expired entry is deleted, another is moved to the end. -/
def get (s : IdempotencyStore B E) (now : ℚ) (key : String) :
    Option B × IdempotencyStore B E :=
  match s.cache.get key with
  | none => (none, s)
  | some (storedAt, body) =>
    if s.ttl < now - storedAt then (none, { s with cache := s.cache.del key })
    else (some body, { s with cache := Lru.moveToEnd s.cache key })

/-- `put`. -/
def put (s : IdempotencyStore B E) (now : ℚ) (key : String) (body : B) : IdempotencyStore B E :=
  { s with cache := Lru.evict s.maxEntries (Lru.setLast s.cache key (now, body)) }

/-- `begin`: is the caller the leader, and the handle. -/
def begin (s : IdempotencyStore B E) (key : String) : (Bool × ℕ) × IdempotencyStore B E :=
  match s.inflight.get key with
  | some h => ((false, h), { s with
      handles := s.handles.modify h fun x => { x with followers := x.followers + 1 } })
  | none => ((true, s.handles.length), { s with
      inflight := s.inflight.update key fun _ => s.handles.length
      handles := s.handles ++ [⟨false, none, none, 0⟩] })

/-- `finish`. -/
def finish (s : IdempotencyStore B E) (key : String) (body : B) : IdempotencyStore B E :=
  match s.inflight.get key with
  | some h => { s with
      inflight := s.inflight.del key
      handles := s.handles.modify h fun x => { x with event := true, result := some body } }
  | none => s

/-- `abandon`. -/
def abandon (s : IdempotencyStore B E) (key : String) (error : Failure E) :
    IdempotencyStore B E :=
  match s.inflight.get key with
  | some h => { s with
      inflight := s.inflight.del key
      handles := s.handles.modify h fun x => { x with event := true, error := some error } }
  | none => s

/-- `join`, once the event is set. -/
def join (x : InFlight B E) : Except (Failure E) (Option B) :=
  match x.error with
  | some error => .error error
  | none => .ok x.result

/-- `record_execution`: the new count. -/
def recordExecution (s : IdempotencyStore B E) (key : String) : ℕ × IdempotencyStore B E :=
  let count := (s.executions.get key).getD 0 + 1
  (count, { s with
    executions := Lru.evict s.maxEntries (Lru.setLast s.executions key count)
    duplicates := if 1 < count then s.duplicates.update key fun _ => count else s.duplicates })

def stats (s : IdempotencyStore B E) : StoreStats :=
  ⟨s.cache.length, s.executions.length, s.inflight.length, s.duplicates⟩

/-- `reset`: executions in flight are left alone. -/
def reset (s : IdempotencyStore B E) : IdempotencyStore B E :=
  { s with cache := [], executions := [], duplicates := [] }

/-! ## The evidence -/

/-- `record_execution`, for one key after the other. -/
def recordAll (s : IdempotencyStore B E) (keys : List String) : IdempotencyStore B E :=
  keys.foldl (fun s key => (s.recordExecution key).2) s

/-- Between two records of a key fewer other keys than the bound are recorded. -/
def Retained (maxEntries : ℕ) (keys : List String) : Prop :=
  ∀ pre key mid post, keys = pre ++ key :: mid ++ key :: post → key ∉ mid →
    mid.dedup.length < maxEntries

variable {s : IdempotencyStore B E} {keys : List String} {key : String}

@[simp] theorem recordAll_concat (s : IdempotencyStore B E) (keys : List String) (key : String) :
    s.recordAll (keys ++ [key]) = ((s.recordAll keys).recordExecution key).2 := by
  simp [recordAll]

@[simp] theorem maxEntries_recordAll (s : IdempotencyStore B E) (keys : List String) :
    (s.recordAll keys).maxEntries = s.maxEntries := by
  induction keys using List.reverseRecOn with
  | nil => rfl
  | append_singleton keys key ih => rw [recordAll_concat, ← ih]; rfl

/-- The counts that are kept are those of the keys recorded last. -/
theorem keys_executions (s : IdempotencyStore B E) (keys : List String) :
    (s.reset.recordAll keys).executions.keys = Lru.evict s.maxEntries keys.dedup := by
  induction keys using List.reverseRecOn with
  | nil => simp [recordAll, reset, Lru.evict]
  | append_singleton keys key ih =>
    have hmax : (s.reset.recordAll keys).maxEntries = s.maxEntries :=
      maxEntries_recordAll s.reset keys
    rw [recordAll_concat, Lru.dedup_concat]
    simp only [recordExecution, hmax]
    rw [Lru.keys_evict, Lru.keys_setLast, ih, Lru.evict_touch (List.nodup_dedup _)]

theorem nodup_executions (s : IdempotencyStore B E) (keys : List String) :
    (s.reset.recordAll keys).executions.keys.Nodup := by
  rw [keys_executions]
  exact (List.nodup_dedup _).sublist (Lru.evict_sublist _ _)

/-- The count a record of a key comes to. -/
def nextCount (s : IdempotencyStore B E) (key : String) : ℕ := (s.executions.get key).getD 0 + 1

/-- A record changes the count of its key, and may drop that of another. -/
theorem executions_concat (s : IdempotencyStore B E) (keys : List String) (key : String)
    {key' : String} (h : key' ∈ (s.reset.recordAll (keys ++ [key])).executions.keys) :
    (s.reset.recordAll (keys ++ [key])).executions.get key' =
      if key = key' then some ((s.reset.recordAll keys).nextCount key)
      else (s.reset.recordAll keys).executions.get key' := by
  rw [recordAll_concat] at h ⊢
  have hnodup := Lru.nodup_setLast (nodup_executions s keys) key
    ((s.reset.recordAll keys).nextCount key)
  exact (Lru.get_evict hnodup h).trans (Lru.get_setLast _ _ _ _)

theorem duplicates_concat (s : IdempotencyStore B E) (keys : List String) (key key' : String) :
    (s.reset.recordAll (keys ++ [key])).duplicates.get key' =
      if key = key' ∧ 1 < (s.reset.recordAll keys).nextCount key then
        some ((s.reset.recordAll keys).nextCount key)
      else (s.reset.recordAll keys).duplicates.get key' := by
  rw [recordAll_concat]
  simp only [recordExecution, nextCount]
  by_cases hcount : 1 < ((s.reset.recordAll keys).executions.get key).getD 0 + 1
  · simp only [hcount, if_true, and_true, Dict.get_update]
  · simp only [hcount, if_false, and_false]

/-! ### When a count was dropped -/

/-- What is known of a key is behind the truth by `e` at least. -/
def Behind (s : IdempotencyStore B E) (e : ℕ) (keys : List String) (key : String) : Prop :=
  ((s.reset.recordAll keys).executions.get key).getD 0 + e ≤ keys.count key ∧
    ((s.reset.recordAll keys).duplicates.get key).getD 0 + e ≤ keys.count key

theorem Behind.concat {e : ℕ} (h : Behind s e keys key) (key' : String) :
    Behind s e (keys ++ [key']) key := by
  obtain ⟨hcount, hdup⟩ := h
  have hnext : key' = key →
      (s.reset.recordAll keys).nextCount key' + e ≤ (keys ++ [key']).count key := by
    rintro rfl
    simp only [nextCount, List.count_append, List.count_singleton_self]
    omega
  have hmono : keys.count key ≤ (keys ++ [key']).count key := by simp
  constructor
  · by_cases hmem : key ∈ (s.reset.recordAll (keys ++ [key'])).executions.keys
    · rw [executions_concat s keys key' hmem]
      by_cases hkey : key' = key
      · simpa [hkey] using hnext hkey
      · simp only [hkey, if_false]
        omega
    · rw [Dict.get_eq_none_iff.2 hmem, Option.getD_none]
      omega
  · rw [duplicates_concat]
    by_cases hkey : key' = key ∧ 1 < (s.reset.recordAll keys).nextCount key'
    · rw [if_pos hkey, Option.getD_some]
      exact hnext hkey.1
    · rw [if_neg hkey]
      omega

theorem behind_zero (s : IdempotencyStore B E) (keys : List String) (key : String) :
    Behind s 0 keys key := by
  induction keys using List.reverseRecOn with
  | nil => simp [Behind, recordAll, reset]
  | append_singleton keys key' ih => exact ih.concat key'

/-- A key recorded again after its count was dropped stays behind. -/
theorem behind_of_dropped (s : IdempotencyStore B E) (pre : List String) {mid : List String}
    (post : List String) (hmid : key ∉ mid) (hlong : s.maxEntries ≤ mid.dedup.length) :
    Behind s 1 (pre ++ key :: mid ++ key :: post) key := by
  have hdropped : key ∉ (s.reset.recordAll (pre ++ key :: mid)).executions.keys := by
    rw [keys_executions, Lru.mem_evict_dedup pre hmid]
    omega
  have hnext : (s.reset.recordAll (pre ++ key :: mid)).nextCount key = 1 := by
    rw [nextCount, Dict.get_eq_none_iff.2 hdropped]
    rfl
  have hagain : Behind s 1 (pre ++ key :: mid ++ [key]) key := by
    have hcount : (pre ++ key :: mid ++ [key]).count key = (pre ++ key :: mid).count key + 1 := by
      rw [List.count_append, List.count_singleton_self]
    have hpos : 0 < (pre ++ key :: mid).count key := List.count_pos_iff.2 (by simp)
    constructor
    · rw [hcount]
      by_cases hmem : key ∈ (s.reset.recordAll (pre ++ key :: mid ++ [key])).executions.keys
      · rw [executions_concat s _ key hmem, hnext]
        simp only [if_true, Option.getD_some]
        omega
      · rw [Dict.get_eq_none_iff.2 hmem, Option.getD_none]
        omega
    · have hdup := (behind_zero s (pre ++ key :: mid) key).2
      rw [hcount, duplicates_concat, hnext]
      simp only [Nat.lt_irrefl, and_false, if_false]
      omega
  induction post using List.reverseRecOn with
  | nil => exact hagain
  | append_singleton post key' ih =>
    have hsplit : pre ++ key :: mid ++ key :: (post ++ [key']) =
        pre ++ key :: mid ++ key :: post ++ [key'] := by simp
    rw [hsplit]
    exact ih.concat key'

/-! ### When no count was dropped -/

theorem Retained.of_concat {maxEntries : ℕ} (h : Retained maxEntries (keys ++ [key])) :
    Retained maxEntries keys := by
  intro pre key' mid post hkeys hmid
  exact h pre key' mid (post ++ [key]) (by simp [hkeys]) hmid

/-- The last record of a key. -/
theorem exists_last_record (h : key ∈ keys) :
    ∃ pre mid, keys = pre ++ key :: mid ∧ key ∉ mid := by
  obtain ⟨mid, pre, hrev, hmid⟩ := List.eq_append_cons_of_mem (List.mem_reverse.2 h)
  refine ⟨pre.reverse, mid.reverse, ?_, by simpa using hmid⟩
  have hkeys := congrArg List.reverse hrev
  simpa using hkeys

theorem count_concat_of_ne {key' : String} (h : key ≠ key') :
    (keys ++ [key]).count key' = keys.count key' := by
  rw [List.count_append, List.count_singleton]
  simp [h]

/-- What is known of every key is the truth. -/
structure Complete (s : IdempotencyStore B E) (keys : List String) : Prop where
  counts : ∀ key ∈ (s.reset.recordAll keys).executions.keys,
    (s.reset.recordAll keys).executions.get key = some (keys.count key)
  duplicates : ∀ key, (s.reset.recordAll keys).duplicates.get key =
    if 1 < keys.count key then some (keys.count key) else none

/-- As long as no count was dropped, a record comes to the right count. -/
theorem Complete.nextCount_eq (h : Complete s keys)
    (hretained : Retained s.maxEntries (keys ++ [key])) :
    (s.reset.recordAll keys).nextCount key = (keys ++ [key]).count key := by
  rw [List.count_append, List.count_singleton_self, nextCount]
  by_cases hmem : key ∈ keys
  · obtain ⟨pre, mid, hkeys, hmid⟩ := exists_last_record hmem
    have hshort := hretained pre key mid [] (by simp [hkeys]) hmid
    have hkept : key ∈ (s.reset.recordAll keys).executions.keys := by
      rw [keys_executions, hkeys, Lru.mem_evict_dedup pre hmid]
      exact hshort
    rw [h.counts key hkept, Option.getD_some]
  · have hnone : key ∉ (s.reset.recordAll keys).executions.keys := by
      rw [keys_executions]
      exact fun hin => hmem (List.mem_dedup.1 ((Lru.evict_sublist _ _).mem hin))
    rw [Dict.get_eq_none_iff.2 hnone, List.count_eq_zero.2 hmem]
    rfl

theorem Complete.concat (h : Complete s keys)
    (hretained : Retained s.maxEntries (keys ++ [key])) : Complete s (keys ++ [key]) := by
  have hnext := h.nextCount_eq hretained
  refine ⟨fun key' hmem => ?_, fun key' => ?_⟩
  · rw [executions_concat s keys key hmem]
    by_cases hkey : key = key'
    · subst hkey
      rw [if_pos rfl, hnext]
    · have hbefore : key' ∈ (s.reset.recordAll keys).executions.keys := by
        rw [keys_executions] at hmem ⊢
        rw [Lru.dedup_concat, ← Lru.evict_touch (List.nodup_dedup keys)] at hmem
        have hin := (Lru.evict_sublist _ _).mem hmem
        simp only [List.mem_append, List.mem_filter, List.mem_singleton] at hin
        exact (hin.resolve_right (Ne.symm hkey)).1
      rw [if_neg hkey, h.counts key' hbefore, count_concat_of_ne hkey]
  · rw [duplicates_concat, hnext]
    by_cases hkey : key = key'
    · subst hkey
      by_cases hcount : 1 < (keys ++ [key]).count key
      · simp only [hcount, and_self, if_true]
      · have hless : ¬ 1 < keys.count key := by
          rw [List.count_append] at hcount
          omega
        simp only [hcount, and_false, if_false, h.duplicates, hless]
    · simp only [hkey, false_and, if_false, h.duplicates, count_concat_of_ne hkey]

theorem complete_of_retained (h : Retained s.maxEntries keys) : Complete s keys := by
  induction keys using List.reverseRecOn with
  | nil => exact ⟨by simp [recordAll, reset], by simp [recordAll, reset]⟩
  | append_singleton keys key ih => exact (ih h.of_concat).concat h

/-- **The evidence is complete just when no key is recorded again after its count was dropped.**
After a reset and any records, the keys reported as duplicates are those recorded more than
once, with the right counts. -/
theorem duplicates_complete (s : IdempotencyStore B E) (keys : List String) :
    (∀ key, (s.reset.recordAll keys).stats.duplicateExecutions.get key =
      if 1 < keys.count key then some (keys.count key) else none) ↔
      Retained s.maxEntries keys := by
  refine ⟨fun h pre key mid post hkeys hmid => ?_, fun h => (complete_of_retained h).duplicates⟩
  by_contra hlong
  have hbehind := (behind_of_dropped s pre post hmid (by omega)).2
  have htwice : 1 < keys.count key := by
    rw [hkeys]
    simp only [List.count_append, List.count_cons_self]
    omega
  have hkey := h key
  rw [if_pos htwice] at hkey
  rw [← hkeys] at hbehind
  have hget : (s.reset.recordAll keys).duplicates.get key = some (keys.count key) := hkey
  rw [hget, Option.getD_some] at hbehind
  omega

/-- With room for one count, a key that is recorded before and after another is not reported. -/
theorem duplicate_not_reported : ¬ ∀ (s : IdempotencyStore String String) (keys : List String),
    1 ≤ s.maxEntries → ∀ key, (s.reset.recordAll keys).stats.duplicateExecutions.get key =
      if 1 < keys.count key then some (keys.count key) else none := by
  intro h
  have hreported := h (init 600 1) ["a", "b", "a"] (by decide) "a"
  revert hreported
  decide

end IdempotencyStore
end Mock
end OcrOrchestrator
