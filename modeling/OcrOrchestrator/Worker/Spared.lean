import OcrOrchestrator.Queue.Claim
import OcrOrchestrator.Worker.Ledger

/-!
# What leaves an entry alone

One entry of a task stream, in all it is made of: its lines in the Pending Entries List, its
fields, and the ids that tell whether the stream has assigned its own and the group has delivered
it.  `Spares` says that nothing of this has changed, for every operation of a stream and every
command; what is left are the commands that settle the entry.

## Main definitions

* `TaskStream.lines` — the lines of an entry.
* `TaskStream.Spares`, `Redis.Spares` — nothing has happened to an entry.
* `Redis.Gone`, `Redis.Seen` — an entry that is settled, and one that was delivered.
-/

namespace OcrOrchestrator

open Lib

namespace TaskStream

/-- The lines of an entry in the Pending Entries List. -/
def lines (s : TaskStream) (id : StreamId) : List Pending := s.pel.filter fun p => decide (p.id = id)

variable {s s' : TaskStream} {id id' : StreamId}

theorem mem_lines {p : Pending} : p ∈ s.lines id ↔ p ∈ s.pel ∧ p.id = id := by
  simp [lines]

theorem owner?_eq_head? : s.owner? id = (s.lines id).head? := by
  rw [lines, List.head?_filter, owner?]

theorem isNone_owner? : (s.owner? id).isNone = true ↔ s.lines id = [] := by
  rw [owner?_eq_head?, Option.isNone_iff_eq_none, List.head?_eq_none_iff]

/-- Nothing has happened to an entry. -/
structure Spares (id : StreamId) (s s' : TaskStream) : Prop where
  lines : s'.lines id = s.lines id
  stored : s'.stored? id = s.stored? id
  delivered : s.lastDelivered.before id = false → s'.lastDelivered.before id = false
  known : s.lastId.before id = false → s'.lastId.before id = false

theorem Spares.refl (id : StreamId) (s : TaskStream) : s.Spares id s :=
  ⟨rfl, rfl, fun h => h, fun h => h⟩

/-- A new entry has a new id. -/
theorem spares_xadd (hknown : s.lastId.before id = false) (now : ℕ) (fields : RawTask) :
    s.Spares id (s.xadd now fields).2 where
  lines := rfl
  stored := by
    have hnew : (s.lastId.next now = id) = False := eq_false (StreamId.next_ne now hknown)
    simp [stored?, xadd, List.find?_append, hnew]
  delivered := fun h => h
  known := StreamId.not_before_trans (StreamId.not_before_of_before (StreamId.before_next _ _))

theorem lines_xack_self : (s.xack id).lines id = [] := by
  simp [lines, xack]

theorem stored?_xdel_self : (s.xdel id).stored? id = none := by
  simp [stored?, xdel, List.find?_eq_none]

theorem spares_xack (hne : id' ≠ id) : s.Spares id (s.xack id') where
  lines := by
    simp only [lines, xack, List.filter_filter]
    refine List.filter_congr fun p _ => ?_
    by_cases hp : p.id = id
    · simp [hp, hne.symm]
    · simp [hp]
  stored := rfl
  delivered := fun h => h
  known := fun h => h

theorem spares_xdel (hne : id' ≠ id) : s.Spares id (s.xdel id') where
  lines := rfl
  stored := by
    simp only [stored?, xdel, List.find?_filter]
    congr 1
    funext e
    by_cases he : e.id = id
    · simp [he, hne.symm]
    · simp [he]
  delivered := fun h => h
  known := fun h => h

/-- A delivery hands out an entry that the group had not seen. -/
theorem spares_deliver {c : Consumer} {now : ℕ} {e : Entry}
    (hdelivered : s.lastDelivered.before id = false)
    (h : s.deliverNext c now = some (e, s')) : s.Spares id s' := by
  obtain ⟨-, hbefore, hentries, hlast, hdeliv, hpel⟩ := deliverNext_spec h
  have hne : e.id ≠ id := by
    rintro rfl
    rw [hdelivered] at hbefore
    cases hbefore
  constructor
  · simp [lines, hpel, hne]
  · simp [stored?, hentries]
  · intro _
    rw [hdeliv]
    exact StreamId.not_before_of_before (StreamId.before_of_not_before hdelivered hbefore)
  · rw [hlast]
    exact fun h => h

theorem spares_xclaim {c : Consumer} {minIdleMs now : ℕ} {e : Entry} (hne : id' ≠ id)
    (h : s.xclaim c minIdleMs now id' = some (e, s')) : s.Spares id s' := by
  obtain ⟨-, -, -, hentries, hlast, hdeliv, hpel⟩ := xclaim_spec h
  constructor
  · rw [lines, hpel, List.filter_map]
    have hother : ∀ q : Pending, q ∈ s.pel.filter (fun p => decide (p.id = id)) →
        (if q.id = id' then (⟨id', c, now⟩ : Pending) else q) = q := by
      intro q hq
      rw [if_neg]
      simp only [List.mem_filter, decide_eq_true_eq] at hq
      rw [hq.2]
      exact hne.symm
    have hsame : ((fun p : Pending => decide (p.id = id)) ∘
        fun q => if q.id = id' then (⟨id', c, now⟩ : Pending) else q) =
        fun p => decide (p.id = id) := by
      funext q
      simp only [Function.comp_apply]
      split
      · rename_i hq
        rw [hq]
      · rfl
    rw [hsame]
    exact (List.map_congr_left hother).trans (List.map_id _)
  · simp [stored?, hentries]
  · rw [hdeliv]
    exact fun h => h
  · rw [hlast]
    exact fun h => h

section ClaimIds
variable {c : Consumer} {minIdleMs now : ℕ} {ids : List StreamId}

/-- What `XCLAIM` makes of the lines of one entry. -/
theorem lines_xclaimIds :
    (s.xclaimIds c minIdleMs now ids).2.lines id = (s.lines id).filterMap fun p =>
      if decide (id ∈ ids) && p.idle minIdleMs now then
        (s.stored? id).map fun _ => ⟨id, c, now⟩
      else some p := by
  simp only [lines, xclaimIds, List.filter_filterMap, List.filterMap_filter]
  refine List.filterMap_congr fun p _ => ?_
  by_cases hp : p.id = id
  · simp only [hp, decide_true, if_true]
    split
    · cases s.stored? id <;> simp
    · simp [hp]
  · simp only [hp, decide_false, Bool.false_eq_true, if_false]
    split
    · cases s.stored? p.id <;> simp [hp]
    · simp [hp]

/-- What `XCLAIM` returns for one entry. -/
theorem returned_xclaimIds :
    ((s.xclaimIds c minIdleMs now ids).1.filter fun e => decide (e.id = id)) =
      ((s.lines id).filter fun p => decide (id ∈ ids) && p.idle minIdleMs now).filterMap
        fun _ => s.stored? id := by
  simp only [lines, xclaimIds, List.filter_filterMap, List.filterMap_filter]
  refine List.filterMap_congr fun p _ => ?_
  by_cases hp : p.id = id
  · simp only [hp, decide_true, if_true]
    split
    · cases hstored : s.stored? id with
      | none => rfl
      | some e => simpa using List.find?_some hstored
    · rfl
  · simp only [hp, decide_false, Bool.false_eq_true, if_false]
    split
    · cases hstored : s.stored? p.id with
      | none => rfl
      | some e =>
        have hid : e.id = p.id := by simpa using List.find?_some hstored
        simp [hid, hp]
    · rfl

/-- An entry that is not idle, or not asked for, is left alone. -/
theorem spares_xclaimIds
    (h : ∀ p ∈ s.lines id, (decide (id ∈ ids) && p.idle minIdleMs now) = false) :
    s.Spares id (s.xclaimIds c minIdleMs now ids).2 ∧
      (s.xclaimIds c minIdleMs now ids).1.filter (fun e => decide (e.id = id)) = [] := by
  constructor
  · constructor
    · rw [lines_xclaimIds]
      have hkeep : ∀ p ∈ s.lines id, (if decide (id ∈ ids) && p.idle minIdleMs now then
          (s.stored? id).map fun _ => (⟨id, c, now⟩ : Pending) else some p) = some p := by
        intro p hp
        rw [h p hp, if_neg (by simp)]
      rw [List.filterMap_congr hkeep, List.filterMap_some]
    · rfl
    · exact fun h => h
    · exact fun h => h
  · rw [returned_xclaimIds, List.filter_eq_nil_iff.mpr (by simpa using h), List.filterMap_nil]

end ClaimIds

end TaskStream

/-- The entry that a command settles. -/
def Cmd.settled? : Cmd → Option (Lane × StreamId)
  | .xack lane id => some (lane, id)
  | .xdel lane id => some (lane, id)
  | _ => none

namespace Redis

/-- Nothing has happened to an entry. -/
def Spares (entry : Lane × StreamId) (r r' : Redis) : Prop :=
  (r.streams entry.1).Spares entry.2 (r'.streams entry.1)

variable {r : Redis} {entry : Lane × StreamId}

theorem spares_setStream {lane : Lane} {t : TaskStream}
    (h : lane = entry.1 → (r.streams lane).Spares entry.2 t) : r.Spares entry (r.setStream lane t) := by
  unfold Spares setStream
  by_cases hlane : lane = entry.1
  · subst hlane
    simpa using h rfl
  · simp only [ne_eq, Ne.symm hlane, not_false_eq_true, Function.update_of_ne]
    exact .refl _ _

/-- A command that does not settle the entry leaves it alone. -/
theorem spares_exec (cfg : Settings) (o : Oracle) {c : Cmd}
    (hknown : (r.streams entry.1).lastId.before entry.2 = false) (hc : c.settled? ≠ some entry) :
    r.Spares entry (c.exec cfg o r).2 := by
  rcases Cmd.exec_state cfg o c r with hs | hs <;> rw [hs]
  · exact .refl _ _
  · cases c with
    | xaddMain fields =>
      refine spares_setStream fun hlane => ?_
      rw [hlane]
      exact TaskStream.spares_xadd hknown _ _
    | xack lane id =>
      refine spares_setStream fun hlane => TaskStream.spares_xack ?_
      rintro rfl
      exact hc (by rw [Cmd.settled?, hlane])
    | xdel lane id =>
      refine spares_setStream fun hlane => TaskStream.spares_xdel ?_
      rintro rfl
      exact hc (by rw [Cmd.settled?, hlane])
    | _ => exact .refl _ _

/-- The entry is neither pending nor stored. -/
structure Gone (r : Redis) (entry : Lane × StreamId) : Prop where
  lines : (r.streams entry.1).lines entry.2 = []
  stored : (r.streams entry.1).stored? entry.2 = none

theorem Spares.gone {r' : Redis} (h : r.Spares entry r') (hgone : r.Gone entry) : r'.Gone entry :=
  ⟨h.lines.trans hgone.lines, h.stored.trans hgone.stored⟩

/-- The id of the entry has been assigned, and the entry has been delivered. -/
structure Seen (r : Redis) (entry : Lane × StreamId) : Prop where
  delivered : (r.streams entry.1).lastDelivered.before entry.2 = false
  known : (r.streams entry.1).lastId.before entry.2 = false

theorem Spares.seen {r' : Redis} (h : r.Spares entry r') (hseen : r.Seen entry) : r'.Seen entry :=
  ⟨h.delivered hseen.delivered, h.known hseen.known⟩

/-- No command unassigns an id. -/
theorem Seen.exec (h : r.Seen entry) (cfg : Settings) (o : Oracle) (c : Cmd) :
    (c.exec cfg o r).2.Seen entry := by
  by_cases hc : c.settled? = some entry
  · rcases Cmd.exec_state cfg o c r with hs | hs <;> rw [hs]
    · exact h
    · cases c with
      | xack lane id =>
        obtain rfl := Option.some.inj hc
        constructor <;> simp [Cmd.apply, setStream, TaskStream.xack, h.delivered, h.known]
      | xdel lane id =>
        obtain rfl := Option.some.inj hc
        constructor <;> simp [Cmd.apply, setStream, TaskStream.xdel, h.delivered, h.known]
      | _ => cases hc
  · exact (spares_exec cfg o h.known hc).seen h

/-- An acknowledgement takes the entry off the list, unless it raises. -/
theorem lines_xack_exec (cfg : Settings) (o : Oracle) (r : Redis) (entry : Lane × StreamId) :
    (((Cmd.xack entry.1 entry.2).exec cfg o r).2.streams entry.1).stored? entry.2 =
        (r.streams entry.1).stored? entry.2 ∧
      ((((Cmd.xack entry.1 entry.2).exec cfg o r).2.streams entry.1).lines entry.2 = [] ∨
        ((((Cmd.xack entry.1 entry.2).exec cfg o r).2.streams entry.1).lines entry.2 =
            (r.streams entry.1).lines entry.2 ∧
          ((Cmd.xack entry.1 entry.2).exec cfg o r).1.toBool = false)) := by
  have hstored : ((r.setStream entry.1 ((r.streams entry.1).xack entry.2)).streams entry.1).stored?
      entry.2 = (r.streams entry.1).stored? entry.2 := by
    simp [setStream, TaskStream.stored?]
  have hself : ((r.setStream entry.1 ((r.streams entry.1).xack entry.2)).streams entry.1).lines
      entry.2 = [] := by
    simp [setStream, TaskStream.lines_xack_self]
  unfold Cmd.exec
  split
  · exact ⟨hstored, .inl hself⟩
  · split
    · exact ⟨hstored, .inl hself⟩
    · exact ⟨rfl, .inr ⟨rfl, rfl⟩⟩

/-- A deletion takes the entry out of the stream, unless it raises. -/
theorem stored?_xdel_exec (cfg : Settings) (o : Oracle) (r : Redis) (entry : Lane × StreamId) :
    (((Cmd.xdel entry.1 entry.2).exec cfg o r).2.streams entry.1).lines entry.2 =
        (r.streams entry.1).lines entry.2 ∧
      ((((Cmd.xdel entry.1 entry.2).exec cfg o r).2.streams entry.1).stored? entry.2 = none ∨
        ((((Cmd.xdel entry.1 entry.2).exec cfg o r).2.streams entry.1).stored? entry.2 =
            (r.streams entry.1).stored? entry.2 ∧
          ((Cmd.xdel entry.1 entry.2).exec cfg o r).1.toBool = false)) := by
  have hlines : ((r.setStream entry.1 ((r.streams entry.1).xdel entry.2)).streams entry.1).lines
      entry.2 = (r.streams entry.1).lines entry.2 := by
    simp [setStream, TaskStream.lines, TaskStream.xdel]
  have hself : ((r.setStream entry.1 ((r.streams entry.1).xdel entry.2)).streams entry.1).stored?
      entry.2 = none := by
    simp [setStream, TaskStream.stored?_xdel_self]
  unfold Cmd.exec
  split
  · exact ⟨hlines, .inl hself⟩
  · split
    · exact ⟨hlines, .inl hself⟩
    · exact ⟨rfl, .inr ⟨rfl, rfl⟩⟩

end Redis

end OcrOrchestrator
