import OcrOrchestrator.Queue.Read
import Mathlib.Data.List.Nodup

/-!
# Claiming orphans

A reaper lists the pending entries that have been idle for long enough, leaves out those that
are pending under its own name, and claims the rest.  The list is cut off after `count` lines,
own lines included; a claim restarts the idle clock, so that what was claimed is no longer in
the way of the next scan.

`claimOrphans` is one such scan with nothing in between and nothing that raises.  `Reclaimed`
says that live workers can get at an entry by scanning again and again, at the same time or
later.

## Main definitions

* `TaskStream.xpendingRange`, `TaskStream.xclaimIds` — the two commands of a scan.
* `claimLane`, `claimOrphans` — a scan of one lane, and of both.
* `Reclaimed` — some scans of live workers return the entry.
* `Covered` — some live worker does not own the entry, and has it in the lines it gets to see.
* `Awaiting.reclaimed_iff` — the one is the other.
-/

namespace OcrOrchestrator

/-- The entry has not been delivered, claimed or renewed for so long. -/
def Pending.idle (minIdleMs now : ℕ) (p : Pending) : Bool := decide (minIdleMs + p.deliveredAt ≤ now)

/-- Idle, and pending under this name. -/
def Pending.ownIdle (minIdleMs now : ℕ) (consumer : Consumer) (p : Pending) : Bool :=
  p.idle minIdleMs now && decide (p.consumer = consumer)

namespace TaskStream

/-- `XPENDING key group IDLE min-idle - + count`.  The pending list is in the order of the
ids. -/
def xpendingRange (s : TaskStream) (minIdleMs now count : ℕ) : List Pending :=
  (s.pel.filter (Pending.idle minIdleMs now)).take count

/-- `XCLAIM key group consumer min-idle id ...`: of the ids given, the ones that are pending
and still idle.  If the entry itself has been deleted, its line is dropped and nothing is
returned for it. -/
def xclaimIds (s : TaskStream) (consumer : Consumer) (minIdleMs now : ℕ) (ids : List StreamId) :
    List Entry × TaskStream :=
  let claims (p : Pending) : Bool := decide (p.id ∈ ids) && p.idle minIdleMs now
  ((s.pel.filter claims).filterMap fun p => s.stored? p.id,
    { s with pel := s.pel.filterMap fun p =>
        if claims p then (s.stored? p.id).map fun _ => ⟨p.id, consumer, now⟩ else some p })

/-- The ids of a scan: idle for long enough, and not our own. -/
def orphanIds (s : TaskStream) (consumer : Consumer) (minIdleMs count now : ℕ) : List StreamId :=
  ((s.xpendingRange minIdleMs now count).filter fun p => decide (p.consumer ≠ consumer)).map
    Pending.id

/-- The lines before this id. -/
def ahead (s : TaskStream) (id : StreamId) : List Pending :=
  s.pel.takeWhile fun p => decide (p.id ≠ id)

end TaskStream

/-- The claimed entries as tasks; a malformed one is quarantined. -/
def parseClaimed (lane : Lane) : List Entry → TaskStream → List PageTask × TaskStream
  | [], s => ([], s)
  | e :: es, s =>
    match parse lane e.id e.fields with
    | .ok task => (task :: (parseClaimed lane es s).1, (parseClaimed lane es s).2)
    | .error _ => parseClaimed lane es ((s.xack e.id).xdel e.id)

/-- `claim_orphans` on one lane. -/
def claimLane (consumer : Consumer) (minIdleMs count now : ℕ) (lane : Lane) (s : TaskStream) :
    List PageTask × TaskStream :=
  let ids := s.orphanIds consumer minIdleMs count now
  if ids.isEmpty then ([], s)
  else
    let out := s.xclaimIds consumer minIdleMs now ids
    parseClaimed lane out.1 out.2

/-- `claim_orphans`: the lead lane, then the main lane. -/
def claimOrphans (consumer : Consumer) (minIdleMs count now : ℕ) (s : Lanes) :
    List PageTask × Lanes :=
  let lead := claimLane consumer minIdleMs count now .lead (s .lead)
  let main := claimLane consumer minIdleMs count now .main (s .main)
  (lead.1 ++ main.1, fun lane => match lane with | .lead => lead.2 | .main => main.2)

/-- Some scans of live workers, one after the other and from `now` on, return the entry. -/
inductive Reclaimed (minIdleMs count : ℕ) (live : Consumer → Prop) (lane : Lane) (id : StreamId) :
    ℕ → Lanes → Prop
  | returned {now now' : ℕ} {s : Lanes} {c : Consumer} {task : PageTask} (hlive : live c)
      (hle : now ≤ now') (htask : task ∈ (claimOrphans c minIdleMs count now' s).1)
      (hlane : task.stream = lane) (hid : task.entryId = id) :
      Reclaimed minIdleMs count live lane id now s
  | scan {now now' : ℕ} {s : Lanes} {c : Consumer} (hlive : live c) (hle : now ≤ now')
      (h : Reclaimed minIdleMs count live lane id now' (claimOrphans c minIdleMs count now' s).2) :
      Reclaimed minIdleMs count live lane id now s

/-- Some live worker does not own the entry, and either it is not the only one or the entries
that are stuck under its own name leave room for this one. -/
def Covered (minIdleMs count : ℕ) (live : Consumer → Prop) (now : ℕ) (s : TaskStream)
    (p : Pending) : Prop :=
  ∃ c, live c ∧ p.consumer ≠ c ∧
    ((∃ c', live c' ∧ c' ≠ c) ∨ (s.ahead p.id).countP (Pending.ownIdle minIdleMs now c) < count)

/-- Whatever its place, the fields are those of a task. -/
def RawTask.WellFormed (fields : RawTask) : Prop :=
  ∀ lane id, ∃ task, parse lane id fields = .ok task

/-! ## Counting what is left of a list -/

section Counting
variable {α : Type} {P Q : α → Bool} {g : α → Option α} {l : List α}

theorem countP_filterMap_le (h : ∀ x ∈ l, ∀ y, g x = some y → Q y = true → P x = true) :
    (l.filterMap g).countP Q ≤ l.countP P := by
  rw [List.countP_filterMap]
  refine List.countP_mono_left fun x hx hQ => ?_
  cases hg : g x with
  | none => simp [hg] at hQ
  | some y => exact h x hx y hg (by simpa [hg] using hQ)

theorem le_countP_filterMap (h : ∀ x ∈ l, P x = true → ∃ y, g x = some y ∧ Q y = true) :
    l.countP P ≤ (l.filterMap g).countP Q := by
  rw [List.countP_filterMap]
  refine List.countP_mono_left fun x hx hP => ?_
  obtain ⟨y, hg, hQ⟩ := h x hx hP
  simp [hg, hQ]

/-- One element less. -/
theorem countP_filterMap_lt (h : ∀ x ∈ l, ∀ y, g x = some y → Q y = true → P x = true) {x : α}
    (hx : x ∈ l) (hP : P x = true) (hQ : ∀ y, g x = some y → Q y = false) :
    (l.filterMap g).countP Q < l.countP P := by
  obtain ⟨a, b, rfl⟩ := List.append_of_mem hx
  have ha : (a.filterMap g).countP Q ≤ a.countP P :=
    countP_filterMap_le fun x hx => h x (List.mem_append_left _ hx)
  have hb : (b.filterMap g).countP Q ≤ b.countP P :=
    countP_filterMap_le fun x hx => h x (List.mem_append_right _ (List.mem_cons_of_mem _ hx))
  have hcons : ((x :: b).filterMap g).countP Q = (b.filterMap g).countP Q := by
    cases hg : g x with
    | none => rw [List.filterMap_cons_none hg]
    | some y => rw [List.filterMap_cons_some hg, List.countP_cons_of_neg (by simp [hQ y hg])]
  rw [List.filterMap_append, List.countP_append, List.countP_append, hcons,
    List.countP_cons_of_pos hP]
  omega

end Counting

/-! ## One scan of one lane -/

section Scan
variable {consumer : Consumer} {minIdleMs count now now' : ℕ} {lane : Lane} {s : TaskStream}
  {p t : Pending} {pre post : List Pending} {id : StreamId} {task : PageTask} {e : Entry}

theorem Pending.idle_mono (hle : now ≤ now') (h : p.idle minIdleMs now = true) :
    p.idle minIdleMs now' = true := by
  simp only [Pending.idle, decide_eq_true_eq] at h ⊢
  exact h.trans hle

namespace TaskStream

/-- What a scan makes of a line. -/
def scanLine (s : TaskStream) (consumer : Consumer) (minIdleMs count now : ℕ)
    (p : Pending) : Option Pending :=
  if decide (p.id ∈ s.orphanIds consumer minIdleMs count now) && p.idle minIdleMs now then
    (s.stored? p.id).map fun _ => ⟨p.id, consumer, now⟩
  else some p

theorem eq_of_mem_pel (hnodup : s.pending.Nodup) (hp : p ∈ s.pel) (ht : t ∈ s.pel)
    (hid : p.id = t.id) : p = t :=
  List.inj_on_of_nodup_map hnodup hp ht hid

theorem owner?_of_mem (hnodup : s.pending.Nodup) (hp : p ∈ s.pel) :
    s.owner? p.id = some p := by
  have hfound : (s.owner? p.id).isSome = true := by
    rw [TaskStream.owner?, List.find?_isSome]
    exact ⟨p, hp, decide_eq_true rfl⟩
  obtain ⟨q, hq⟩ := Option.isSome_iff_exists.mp hfound
  have hid : q.id = p.id := by simpa using List.find?_some hq
  rw [hq, eq_of_mem_pel hnodup (List.mem_of_find?_eq_some hq) hp hid]

theorem mem_pel_of_mem_xpendingRange (h : p ∈ s.xpendingRange minIdleMs now count) :
    p ∈ s.pel ∧ p.idle minIdleMs now = true :=
  List.mem_filter.mp (List.mem_of_mem_take h)

/-- The lines that a scan asks for are lines that it has seen, and not its own. -/
theorem mem_orphanIds (hnodup : s.pending.Nodup) (hp : p ∈ s.pel) :
    p.id ∈ s.orphanIds consumer minIdleMs count now ↔
      p ∈ s.xpendingRange minIdleMs now count ∧ p.consumer ≠ consumer := by
  simp only [orphanIds, List.mem_map, List.mem_filter, decide_eq_true_eq]
  constructor
  · rintro ⟨q, ⟨hq, hc⟩, hid⟩
    have hqpel := (mem_pel_of_mem_xpendingRange hq).1
    obtain rfl := eq_of_mem_pel hnodup hqpel hp hid
    exact ⟨hq, hc⟩
  · rintro ⟨hwindow, hc⟩
    exact ⟨p, ⟨hwindow, hc⟩, rfl⟩

/-- A line and those before it have different ids. -/
theorem ne_of_mem_ahead (hpel : s.pel = pre ++ t :: post) (hnodup : s.pending.Nodup)
    (hp : p ∈ pre) : p.id ≠ t.id := by
  rw [pending, hpel, List.map_append, List.map_cons] at hnodup
  exact (List.nodup_append.mp hnodup).2.2 p.id (List.mem_map_of_mem hp) t.id List.mem_cons_self

theorem ahead_eq (hpel : s.pel = pre ++ t :: post) (hnodup : s.pending.Nodup) :
    s.ahead t.id = pre := by
  rw [ahead, hpel, List.takeWhile_append_of_pos, List.takeWhile_cons_of_neg,
    List.append_nil]
  · simp
  · exact fun p hp => decide_eq_true (ne_of_mem_ahead hpel hnodup hp)

/-- A line is among the first `count` idle ones if it is idle itself and fewer idle ones are
before it. -/
theorem mem_xpendingRange (hpel : s.pel = pre ++ t :: post) (hnodup : s.pending.Nodup) :
    t ∈ s.xpendingRange minIdleMs now count ↔
      t.idle minIdleMs now = true ∧ pre.countP (Pending.idle minIdleMs now) < count := by
  have hout : t ∉ (pre.filter (Pending.idle minIdleMs now)).take count := fun hmem =>
    ne_of_mem_ahead hpel hnodup (List.mem_filter.mp (List.mem_of_mem_take hmem)).1 rfl
  by_cases hidle : t.idle minIdleMs now = true
  · rw [xpendingRange, hpel, List.filter_append, List.filter_cons_of_pos hidle,
      List.take_append, List.mem_append, List.countP_eq_length_filter]
    constructor
    · rintro (hmem | hmem)
      · exact absurd hmem hout
      · have := List.length_pos_of_mem hmem
        rw [List.length_take] at this
        exact ⟨hidle, by omega⟩
    · rintro ⟨-, hlt⟩
      right
      obtain ⟨n, hn⟩ : ∃ n, count - (pre.filter (Pending.idle minIdleMs now)).length = n + 1 :=
        ⟨_, (Nat.succ_pred_eq_of_pos (Nat.sub_pos_of_lt hlt)).symm⟩
      rw [hn, List.take_succ_cons]
      exact List.mem_cons_self
  · constructor
    · exact fun h => absurd (mem_pel_of_mem_xpendingRange h).2 hidle
    · exact fun h => absurd h.1 hidle

/-- If enough idle lines are before it, they are all that a scan sees. -/
theorem xpendingRange_of_le (hpel : s.pel = pre ++ post)
    (hfull : count ≤ pre.countP (Pending.idle minIdleMs now)) :
    s.xpendingRange minIdleMs now count = (pre.filter (Pending.idle minIdleMs now)).take count := by
  rw [xpendingRange, hpel, List.filter_append]
  rw [List.countP_eq_length_filter] at hfull
  exact List.take_append_of_le_length hfull

end TaskStream

/-! ## What it returns -/

/-- Well-formed entries are all returned, and nothing is quarantined. -/
theorem parseClaimed_spec (lane : Lane) (s : TaskStream) {es : List Entry}
    (hwf : ∀ e ∈ es, e.fields.WellFormed) :
    (parseClaimed lane es s).2 = s ∧
      ∀ id, (∃ task ∈ (parseClaimed lane es s).1, task.stream = lane ∧ task.entryId = id) ↔
        ∃ e ∈ es, e.id = id := by
  induction es with
  | nil => simp [parseClaimed]
  | cons e es ih =>
    obtain ⟨task, htask⟩ := hwf e List.mem_cons_self lane e.id
    obtain ⟨hlane, hid, -⟩ := parse_spec htask
    obtain ⟨hs, hmem⟩ := ih fun e' he' => hwf e' (List.mem_cons_of_mem e he')
    simp only [parseClaimed, htask]
    refine ⟨hs, fun id => ?_⟩
    simp only [List.mem_cons, exists_eq_or_imp, hmem id, hlane, hid, true_and]

theorem parseClaimed_stream {es : List Entry} (h : task ∈ (parseClaimed lane es s).1) :
    task.stream = lane := by
  induction es generalizing s with
  | nil => exact absurd h List.not_mem_nil
  | cons e es ih =>
    simp only [parseClaimed] at h
    split at h
    · rename_i task' hparse
      rcases List.mem_cons.mp h with rfl | h
      · exact (parse_spec hparse).1
      · exact ih h
    · exact ih h

theorem claimLane_stream (h : task ∈ (claimLane consumer minIdleMs count now lane s).1) :
    task.stream = lane := by
  simp only [claimLane] at h
  split at h
  · exact absurd h List.not_mem_nil
  · exact parseClaimed_stream h

/-- **A scan of one lane**: it rewrites the pending list line by line, and returns the lines
that it sees, does not own and finds stored. -/
theorem claimLane_spec (hwf : ∀ e ∈ s.entries, e.fields.WellFormed) (hnodup : s.pending.Nodup) :
    (claimLane consumer minIdleMs count now lane s).2 =
        { s with pel := s.pel.filterMap (s.scanLine consumer minIdleMs count now) } ∧
      ∀ id, (∃ task ∈ (claimLane consumer minIdleMs count now lane s).1,
          task.stream = lane ∧ task.entryId = id) ↔
        ∃ p ∈ s.pel, p.id = id ∧ (s.stored? id).isSome = true ∧
          p ∈ s.xpendingRange minIdleMs now count ∧ p.consumer ≠ consumer := by
  simp only [claimLane]
  split
  · rename_i hempty
    have hnone : ∀ q, q ∉ s.orphanIds consumer minIdleMs count now := by
      simp [List.isEmpty_iff.mp hempty]
    refine ⟨?_, fun id => ?_⟩
    · have hsame : s.scanLine consumer minIdleMs count now = some := by
        funext q
        simp [TaskStream.scanLine, hnone]
      rw [hsame, List.filterMap_some]
    · refine ⟨fun ⟨task, htask, _⟩ => absurd htask List.not_mem_nil, ?_⟩
      rintro ⟨p, hp, -, -, hclaim⟩
      exact absurd ((TaskStream.mem_orphanIds hnodup hp).mpr hclaim) (hnone p.id)
  · have hclaimed : ∀ e ∈ (s.xclaimIds consumer minIdleMs now
        (s.orphanIds consumer minIdleMs count now)).1, e.fields.WellFormed := by
      intro e he
      obtain ⟨q, -, hq⟩ := List.mem_filterMap.mp he
      exact hwf e (List.mem_of_find?_eq_some hq)
    obtain ⟨hstream, hmem⟩ := parseClaimed_spec lane (s.xclaimIds consumer minIdleMs now
      (s.orphanIds consumer minIdleMs count now)).2 hclaimed
    refine ⟨hstream, fun id => ?_⟩
    rw [hmem id]
    simp only [TaskStream.xclaimIds, List.mem_filterMap, List.mem_filter, Bool.and_eq_true,
      decide_eq_true_eq]
    constructor
    · rintro ⟨e, ⟨p, ⟨hp, hids, -⟩, hfound⟩, rfl⟩
      have hid : e.id = p.id := by simpa using List.find?_some hfound
      rw [hid]
      exact ⟨p, hp, rfl, by rw [hfound]; rfl, (TaskStream.mem_orphanIds hnodup hp).mp hids⟩
    · rintro ⟨p, hp, rfl, hstored, hclaim⟩
      obtain ⟨e, he⟩ := Option.isSome_iff_exists.mp hstored
      exact ⟨e, ⟨p, ⟨hp, (TaskStream.mem_orphanIds hnodup hp).mpr hclaim,
        (TaskStream.mem_pel_of_mem_xpendingRange hclaim.1).2⟩, he⟩,
        by simpa using List.find?_some he⟩

/-! ## What it leaves -/

namespace TaskStream

/-- A line that the scan does not see, or owns, stays. -/
theorem scanLine_keep (hnodup : s.pending.Nodup) (hp : p ∈ s.pel)
    (h : ¬ (p ∈ s.xpendingRange minIdleMs now count ∧ p.consumer ≠ consumer)) :
    s.scanLine consumer minIdleMs count now p = some p := by
  rw [← mem_orphanIds hnodup hp] at h
  simp [scanLine, h]

/-- A line that the scan sees and does not own is fresh afterwards, or gone. -/
theorem scanLine_claim (hnodup : s.pending.Nodup) (hp : p ∈ s.pel)
    (hwindow : p ∈ s.xpendingRange minIdleMs now count) (hc : p.consumer ≠ consumer) :
    s.scanLine consumer minIdleMs count now p =
      (s.stored? p.id).map fun _ => ⟨p.id, consumer, now⟩ := by
  have hids := (mem_orphanIds hnodup hp).mpr ⟨hwindow, hc⟩
  have hidle := (mem_pel_of_mem_xpendingRange hwindow).2
  simp [scanLine, hids, hidle]

theorem scanLine_id {q : Pending}
    (h : s.scanLine consumer minIdleMs count now p = some q) : q.id = p.id := by
  simp only [scanLine] at h
  split at h
  · obtain ⟨e, -, rfl⟩ := Option.map_eq_some_iff.mp h
    rfl
  · rw [Option.some.inj h]

theorem sublist_scan (l : List Pending) :
    ((l.filterMap (s.scanLine consumer minIdleMs count now)).map Pending.id).Sublist
      (l.map Pending.id) := by
  induction l with
  | nil => exact .slnil
  | cons p l ih =>
    cases hp : s.scanLine consumer minIdleMs count now p with
    | none =>
      rw [List.filterMap_cons_none hp]
      exact ih.cons _
    | some q =>
      rw [List.filterMap_cons_some hp, List.map_cons, List.map_cons, TaskStream.scanLine_id hp]
      exact ih.cons_cons _

/-- A line that is idle after the scan was not claimed by it. -/
theorem scanLine_idle {q : Pending} (hpos : 0 < minIdleMs)
    (h : s.scanLine consumer minIdleMs count now p = some q) (hidle : q.idle minIdleMs now = true) :
    q = p := by
  simp only [scanLine] at h
  split at h
  · obtain ⟨e, -, rfl⟩ := Option.map_eq_some_iff.mp h
    simp only [Pending.idle, decide_eq_true_eq] at hidle
    omega
  · exact (Option.some.inj h).symm

end TaskStream

/-- The lane as a scan of it finds it: an entry that is waiting to be claimed, the lines
before it and the lines after it. -/
structure Awaiting (minIdleMs now : ℕ) (s : TaskStream) (pre : List Pending) (t : Pending)
    (post : List Pending) : Prop where
  pel : s.pel = pre ++ t :: post
  nodup : s.pending.Nodup
  wellFormed : ∀ e ∈ s.entries, e.fields.WellFormed
  stored : (s.stored? t.id).isSome = true
  idle : t.idle minIdleMs now = true

namespace Awaiting

theorem mem (h : Awaiting minIdleMs now s pre t post) : t ∈ s.pel := by
  rw [h.pel]
  exact List.mem_append_right _ List.mem_cons_self

/-- Who scans, and sees and does not own the entry, returns it. -/
theorem returned_iff (h : Awaiting minIdleMs now s pre t post) :
    (∃ task ∈ (claimLane consumer minIdleMs count now lane s).1,
        task.stream = lane ∧ task.entryId = t.id) ↔
      pre.countP (Pending.idle minIdleMs now) < count ∧ t.consumer ≠ consumer := by
  rw [(claimLane_spec h.wellFormed h.nodup).2 t.id]
  constructor
  · rintro ⟨p, hp, hid, -, hwindow, hc⟩
    obtain rfl := TaskStream.eq_of_mem_pel h.nodup hp h.mem hid
    exact ⟨((TaskStream.mem_xpendingRange h.pel h.nodup).mp hwindow).2, hc⟩
  · rintro ⟨hlt, hc⟩
    have hwindow := (TaskStream.mem_xpendingRange h.pel h.nodup).mpr ⟨h.idle, hlt⟩
    exact ⟨t, h.mem, rfl, h.stored, hwindow, hc⟩

/-- An entry that a scan does not return is still waiting after it. -/
theorem scan (h : Awaiting minIdleMs now s pre t post)
    (hmiss : count ≤ pre.countP (Pending.idle minIdleMs now) ∨ t.consumer = consumer) :
    Awaiting minIdleMs now (claimLane consumer minIdleMs count now lane s).2
      (pre.filterMap (s.scanLine consumer minIdleMs count now)) t
      (post.filterMap (s.scanLine consumer minIdleMs count now)) := by
  have hkeep : s.scanLine consumer minIdleMs count now t = some t := by
    refine TaskStream.scanLine_keep h.nodup h.mem ?_
    rw [TaskStream.mem_xpendingRange h.pel h.nodup]
    rintro ⟨⟨-, hlt⟩, hc⟩
    rcases hmiss with hfull | hown
    · omega
    · exact hc hown
  rw [(claimLane_spec h.wellFormed h.nodup).1]
  refine ⟨?_, ?_, h.wellFormed, h.stored, h.idle⟩
  · rw [h.pel, List.filterMap_append, List.filterMap_cons_some hkeep]
  · exact h.nodup.sublist (TaskStream.sublist_scan s.pel)

/-- If the entry is out of sight, a line that somebody else owns is no longer in its way after
the scan. -/
theorem fewer (h : Awaiting minIdleMs now s pre t post) (hpos : 0 < minIdleMs)
    (hfull : count ≤ pre.countP (Pending.idle minIdleMs now))
    (hp : p ∈ s.xpendingRange minIdleMs now count) (hc : p.consumer ≠ consumer) :
    (pre.filterMap (s.scanLine consumer minIdleMs count now)).countP (Pending.idle minIdleMs now) <
      pre.countP (Pending.idle minIdleMs now) := by
  have hpre : p ∈ pre ∧ p.idle minIdleMs now = true := by
    rw [TaskStream.xpendingRange_of_le h.pel hfull] at hp
    exact List.mem_filter.mp (List.mem_of_mem_take hp)
  refine countP_filterMap_lt (fun q _ r hr hidle => ?_) hpre.1 hpre.2 fun q hq => ?_
  · rwa [TaskStream.scanLine_idle hpos hr hidle] at hidle
  · have hpel := (TaskStream.mem_pel_of_mem_xpendingRange hp).1
    rw [TaskStream.scanLine_claim h.nodup hpel hp hc] at hq
    obtain ⟨e, -, rfl⟩ := Option.map_eq_some_iff.mp hq
    simp only [Pending.idle, decide_eq_false_iff_not]
    omega

theorem length_window (h : Awaiting minIdleMs now s pre t post)
    (hfull : count ≤ pre.countP (Pending.idle minIdleMs now)) :
    (s.xpendingRange minIdleMs now count).length = count := by
  rw [TaskStream.xpendingRange_of_le h.pel hfull, List.length_take,
    ← List.countP_eq_length_filter, Nat.min_eq_left hfull]

theorem window_nonempty (h : Awaiting minIdleMs now s pre t post) (hcount : 0 < count)
    (hfull : count ≤ pre.countP (Pending.idle minIdleMs now)) :
    ∃ p, p ∈ s.xpendingRange minIdleMs now count :=
  List.exists_mem_of_length_pos ((h.length_window hfull).symm ▸ hcount)

/-- A worker that sees only lines of its own has as many as fit. -/
theorem own_ge (h : Awaiting minIdleMs now s pre t post)
    (hfull : count ≤ pre.countP (Pending.idle minIdleMs now))
    (hown : ∀ p ∈ s.xpendingRange minIdleMs now count, p.consumer = consumer) :
    count ≤ pre.countP (Pending.ownIdle minIdleMs now consumer) := by
  have hsub : (s.xpendingRange minIdleMs now count).Sublist pre := by
    rw [TaskStream.xpendingRange_of_le h.pel hfull]
    exact (List.take_sublist _ _).trans List.filter_sublist
  have hall : (s.xpendingRange minIdleMs now count).countP
      (Pending.ownIdle minIdleMs now consumer) = (s.xpendingRange minIdleMs now count).length := by
    rw [List.countP_eq_length]
    intro p hp
    simp [Pending.ownIdle, hown p hp, (TaskStream.mem_pel_of_mem_xpendingRange hp).2]
  calc count = (s.xpendingRange minIdleMs now count).countP
        (Pending.ownIdle minIdleMs now consumer) := by rw [hall, h.length_window hfull]
    _ ≤ pre.countP (Pending.ownIdle minIdleMs now consumer) := hsub.countP_le

/-- A scan puts nothing in the way. -/
theorem own_le (hpos : 0 < minIdleMs) (c : Consumer) :
    (pre.filterMap (s.scanLine consumer minIdleMs count now)).countP
        (Pending.ownIdle minIdleMs now c) ≤
      pre.countP (Pending.ownIdle minIdleMs now c) := by
  refine countP_filterMap_le fun p _ q hq hown => ?_
  have hidle : q.idle minIdleMs now = true := (Bool.and_eq_true_iff.mp hown).1
  rwa [TaskStream.scanLine_idle hpos hq hidle] at hown

/-- What is stuck under a worker's own name stays there, whenever that worker scans. -/
theorem le_own (h : Awaiting minIdleMs now' s pre t post) (hle : now ≤ now') :
    pre.countP (Pending.ownIdle minIdleMs now consumer) ≤
      (pre.filterMap (s.scanLine consumer minIdleMs count now')).countP
        (Pending.ownIdle minIdleMs now' consumer) := by
  refine le_countP_filterMap fun p hp hown => ⟨p, ?_, ?_⟩
  · have hpel : p ∈ s.pel := by
      rw [h.pel]
      exact List.mem_append_left _ hp
    exact TaskStream.scanLine_keep h.nodup hpel fun hwindow =>
      hwindow.2 (of_decide_eq_true (Bool.and_eq_true_iff.mp hown).2)
  · simp only [Pending.ownIdle, Bool.and_eq_true] at hown ⊢
    exact ⟨Pending.idle_mono hle hown.1, hown.2⟩

/-- What hides an entry from a worker hides it later too. -/
theorem hidden_of_own (hle : now ≤ now')
    (hmiss : t.consumer = consumer ∨ count ≤ pre.countP (Pending.ownIdle minIdleMs now consumer)) :
    count ≤ pre.countP (Pending.idle minIdleMs now') ∨ t.consumer = consumer := by
  rcases hmiss with hown | hfull
  · exact .inr hown
  · refine .inl (hfull.trans (List.countP_mono_left fun p _ hp => ?_))
    exact Pending.idle_mono hle (Bool.and_eq_true_iff.mp hp).1

theorem mono (h : Awaiting minIdleMs now s pre t post) (hle : now ≤ now') :
    Awaiting minIdleMs now' s pre t post :=
  { h with idle := Pending.idle_mono hle h.idle }

end Awaiting

end Scan

/-! ## Scans of both lanes -/

section Scans
variable {minIdleMs count now : ℕ} {live : Consumer → Prop} {lane : Lane} {s : Lanes}
  {t : Pending} {pre post : List Pending} {c : Consumer}

theorem claimOrphans_lane (c : Consumer) (minIdleMs count now : ℕ) (s : Lanes) (lane : Lane) :
    (claimOrphans c minIdleMs count now s).2 lane =
      (claimLane c minIdleMs count now lane (s lane)).2 := by
  cases lane <;> rfl

/-- The tasks of one lane come from the scan of that lane. -/
theorem mem_claimOrphans {task : PageTask} (hlane : task.stream = lane) :
    task ∈ (claimOrphans c minIdleMs count now s).1 ↔
      task ∈ (claimLane c minIdleMs count now lane (s lane)).1 := by
  simp only [claimOrphans, List.mem_append]
  cases lane with
  | lead =>
    refine ⟨fun h => h.resolve_right fun hmain => ?_, .inl⟩
    cases hlane.symm.trans (claimLane_stream hmain)
  | main =>
    refine ⟨fun h => h.resolve_left fun hlead => ?_, .inr⟩
    cases hlane.symm.trans (claimLane_stream hlead)

/-- An entry that a scan of both lanes does not return is still waiting after it. -/
theorem Awaiting.claimOrphans (h : Awaiting minIdleMs now (s lane) pre t post)
    (hmiss : count ≤ pre.countP (Pending.idle minIdleMs now) ∨ t.consumer = c) :
    Awaiting minIdleMs now ((claimOrphans c minIdleMs count now s).2 lane)
      (pre.filterMap ((s lane).scanLine c minIdleMs count now)) t
      (post.filterMap ((s lane).scanLine c minIdleMs count now)) := by
  rw [claimOrphans_lane]
  exact h.scan hmiss

/-- **Live workers get at a covered entry**, by induction on the number of idle lines before
it: who can see it claims it, and otherwise somebody claims a line that is in its way. -/
theorem Awaiting.reclaimed (h : Awaiting minIdleMs now (s lane) pre t post) (hpos : 0 < minIdleMs)
    (hcount : 0 < count) (hlive : live c) (howner : t.consumer ≠ c)
    (hroom : (∃ c', live c' ∧ c' ≠ c) ∨
      pre.countP (Pending.ownIdle minIdleMs now c) < count) :
    Reclaimed minIdleMs count live lane t.id now s := by
  induction hn : pre.countP (Pending.idle minIdleMs now) using Nat.strong_induction_on
    generalizing s pre post with
  | _ n ih =>
    subst hn
    by_cases hseen : pre.countP (Pending.idle minIdleMs now) < count
    · obtain ⟨task, htask, hlane, hid⟩ := h.returned_iff.mpr ⟨hseen, howner⟩
      exact .returned hlive le_rfl ((mem_claimOrphans hlane).mpr htask) hlane hid
    · have hfull := Nat.le_of_not_lt hseen
      -- whoever claims a line of the window makes progress
      have hscan : ∀ c', live c' →
          (∃ p ∈ (s lane).xpendingRange minIdleMs now count, p.consumer ≠ c') →
          Reclaimed minIdleMs count live lane t.id now s := by
        rintro c' hlive' ⟨p, hp, hpc⟩
        exact .scan hlive' le_rfl (ih _ (h.fewer hpos hfull hp hpc) (h.claimOrphans (.inl hfull))
          (hroom.imp_right (lt_of_le_of_lt (Awaiting.own_le hpos c))) rfl)
      by_cases hother : ∃ p ∈ (s lane).xpendingRange minIdleMs now count, p.consumer ≠ c
      · exact hscan c hlive hother
      · -- the worker sees nothing but lines of its own, so another one has to help
        simp only [not_exists, not_and, not_not] at hother
        rcases hroom with ⟨c', hlive', hne⟩ | hlt
        · obtain ⟨p, hp⟩ := h.window_nonempty hcount hfull
          exact hscan c' hlive' ⟨p, hp, by rw [hother p hp]; exact hne.symm⟩
        · exact absurd hlt (Nat.not_lt_of_le (h.own_ge hfull hother))

/-- **An entry that is not covered is out of reach**: every live worker is the same one, which
either owns the entry or sees only entries that are stuck under its own name. -/
theorem Awaiting.not_reclaimed (h : Awaiting minIdleMs now (s lane) pre t post)
    (hone : ∀ c', live c' → c' = c)
    (hmiss : t.consumer = c ∨ count ≤ pre.countP (Pending.ownIdle minIdleMs now c)) :
    ¬ Reclaimed minIdleMs count live lane t.id now s := by
  intro hreclaimed
  induction hreclaimed generalizing pre post with
  | @returned now now' s c' task hlive hle htask hlane hid =>
    obtain rfl := hone c' hlive
    have hseen := (h.mono hle).returned_iff.mp
      ⟨task, (mem_claimOrphans hlane).mp htask, hlane, hid⟩
    rcases Awaiting.hidden_of_own hle hmiss with hfull | hown
    · omega
    · exact hseen.2 hown
  | @scan now now' s c' hlive hle _ ih =>
    obtain rfl := hone c' hlive
    have hnext := (h.mono hle).claimOrphans (Awaiting.hidden_of_own hle hmiss)
    exact ih hnext (hmiss.imp_right fun hfull => hfull.trans ((h.mono hle).le_own hle))

/-- **Reachable means covered**: scans of live workers return an idle entry if and only if some
live worker does not own it and is not the only one, or has room for it. -/
theorem Awaiting.reclaimed_iff (h : Awaiting minIdleMs now (s lane) pre t post)
    (hpos : 0 < minIdleMs) (hcount : 0 < count) :
    Reclaimed minIdleMs count live lane t.id now s ↔
      Covered minIdleMs count live now (s lane) t := by
  have hpre := TaskStream.ahead_eq h.pel h.nodup
  constructor
  · intro hreclaimed
    by_contra hcovered
    simp only [Covered, hpre, not_exists, not_and, not_or] at hcovered
    by_cases hother : ∃ c, live c ∧ t.consumer ≠ c
    · obtain ⟨c, hlive, hne⟩ := hother
      obtain ⟨hone, hfull⟩ := hcovered c hlive hne
      exact h.not_reclaimed (fun c' hlive' => not_not.mp (hone c' hlive'))
        (.inr (Nat.le_of_not_lt hfull)) hreclaimed
    · simp only [not_exists, not_and, not_not] at hother
      exact h.not_reclaimed (fun c' hlive' => (hother c' hlive').symm) (.inl rfl) hreclaimed
  · rintro ⟨c, hlive, hne, hroom⟩
    rw [hpre] at hroom
    exact h.reclaimed hpos hcount hlive hne hroom

end Scans

end OcrOrchestrator
