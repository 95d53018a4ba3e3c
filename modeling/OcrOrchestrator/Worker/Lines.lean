import OcrOrchestrator.Worker.ZeroDrop

/-!
# How old a line is

A line of the Pending Entries List says when its entry was last delivered or claimed.  That is
the clock that `XCLAIM` compares with its minimal idle time, so what a reaper can take depends on
which steps write a line: a delivery and a claim put the time on it, and nothing else does.

An acknowledged entry has no line, and the line of a deleted entry cannot be claimed.

## Main definitions

* `TaskStream.Line`, `Fleet.Line` — the line of an entry that can be claimed.
* `Fleet.Alive` — how a party comes to be alive after a step.
* `Fleet.renewAll`, `Fleet.line_renewAll` — one claim with several ids, and what it does.
-/

namespace OcrOrchestrator

open Lib

/-- `XCLAIM` with several ids and no idle time, by the worker that holds them. -/
def Fleet.renewAll (cfg : Settings) (f : Fleet) (c : Consumer) (lane : Lane) (now : ℕ)
    (ids : List StreamId) : Fleet :=
  ids.foldl (fun f id => (f.step cfg (.renew c lane id now)).getD f) f

/-- The label carries the time `now`, if it carries one. -/
def Label.isAt (now : ℕ) : Label → Bool
  | .initJob _ _ t => t = now
  | .enqueue _ t _ => t = now
  | .recoverOwn _ _ _ t => t = now
  | .deliver _ _ t => t = now
  | .reap _ _ _ t => t = now
  | .renew _ _ _ t => t = now
  | .run _ o => o.now = now
  | _ => true

namespace TaskStream
variable {s s' : TaskStream}

/-- The entry can be claimed, and `q` is its line in the Pending Entries List. -/
def Line (s : TaskStream) (id : StreamId) (q : Pending) : Prop :=
  s.owner? id = some q ∧ (s.stored? id).isSome = true

theorem stored?_congr (h : s'.entries = s.entries) (id : StreamId) : s'.stored? id = s.stored? id := by
  rw [stored?, h, stored?]

/-- The line of an entry that has just been added is no line. -/
theorem line_xadd (hs : s.Sound) {now : ℕ} {fields : RawTask} {id : StreamId} {q : Pending}
    (h : (s.xadd now fields).2.Line id q) : s.Line id q := by
  refine ⟨h.1, ?_⟩
  have hold : id ≠ s.lastId.next now := by
    rintro rfl
    have howner : s.owner? (s.lastId.next now) = some q := h.1
    have hpending := hs.pending _ (mem_pending_of_owner (by rw [howner]; rfl))
    have hlast := StreamId.not_before_trans hs.delivered hpending
    rw [StreamId.before_next] at hlast
    cases hlast
  have hstored := h.2
  rw [stored?, xadd, List.find?_append, Option.isSome_or] at hstored
  simpa [stored?, hold.symm] using hstored

theorem line_xack {id id' : StreamId} {q : Pending} (h : (s.xack id).Line id' q) : s.Line id' q :=
  ⟨owner?_xack h.1, h.2⟩

theorem line_xdel {id id' : StreamId} {q : Pending} (h : (s.xdel id).Line id' q) : s.Line id' q := by
  refine ⟨h.1, ?_⟩
  obtain ⟨e, he⟩ := Option.isSome_iff_exists.mp h.2
  have hmem := (mem_xdel_entries.mp (List.mem_of_find?_eq_some he)).1
  have hid := List.find?_some he
  exact List.find?_isSome.mpr ⟨e, hmem, hid⟩

/-- A delivery writes a line with the time on it. -/
theorem line_deliver {c : Consumer} {now : ℕ} {e : Entry} {id : StreamId} {q : Pending}
    (hread : s.deliverNext c now = some (e, s')) (h : s'.Line id q) :
    s.Line id q ∨ (id = e.id ∧ q.deliveredAt = now) := by
  obtain ⟨-, -, hentries, -, -, hpel⟩ := deliverNext_spec hread
  have howner := h.1
  rw [owner?, hpel, List.find?_append, Option.or_eq_some_iff] at howner
  rcases howner with hold | ⟨-, hnew⟩
  · exact .inl ⟨hold, by rw [← stored?_congr hentries]; exact h.2⟩
  · simp only [List.find?_singleton, decide_eq_true_eq] at hnew
    split at hnew
    · rename_i hid
      obtain rfl := Option.some.inj hnew
      exact .inr ⟨hid.symm, rfl⟩
    · cases hnew

/-- The line that a delivery writes is the only one of its entry. -/
theorem line_delivered (hs : s.Sound) {c : Consumer} {now : ℕ} {e : Entry} {q : Pending}
    (hread : s.deliverNext c now = some (e, s')) (h : s'.Line e.id q) : q.deliveredAt = now := by
  rcases line_deliver hread h with hold | ⟨-, hnow⟩
  · have hpending := hs.pending _ (mem_pending_of_owner (by rw [hold.1]; rfl))
    rw [(deliverNext_spec hread).2.1] at hpending
    cases hpending
  · exact hnow

/-- A claim resets the clock of the entry it takes. -/
theorem line_xclaim {c : Consumer} {minIdle now : ℕ} {e : Entry} {id id' : StreamId} {q : Pending}
    (hclaim : s.xclaim c minIdle now id = some (e, s')) (h : s'.Line id' q) :
    (id' ≠ id ∧ s.Line id' q) ∨ (id' = id ∧ q.deliveredAt = now) := by
  obtain ⟨-, -, -, hentries, -, -, hpel⟩ := xclaim_spec hclaim
  rcases owner?_xclaim hpel h.1 with ⟨hid, -⟩ | ⟨hne, hold⟩
  · refine .inr ⟨hid, ?_⟩
    have hmem := List.mem_of_find?_eq_some h.1
    have hqid : q.id = id' := by simpa using List.find?_some h.1
    rw [hpel, List.mem_map] at hmem
    obtain ⟨r, -, hr⟩ := hmem
    split at hr
    · rw [← hr]
    · rename_i hne
      exact absurd (by rw [hr, hqid, hid]) hne
  · exact .inl ⟨hne, hold, by rw [← stored?_congr hentries]; exact h.2⟩

/-- An entry that is claimed has been idle for as long as the claim asks. -/
theorem idle_of_xclaim {c : Consumer} {minIdle now : ℕ} {e : Entry} {id : StreamId}
    (hclaim : s.xclaim c minIdle now id = some (e, s')) :
    ∃ q, s.Line id q ∧ minIdle + q.deliveredAt ≤ now := by
  unfold xclaim at hclaim
  split at hclaim
  · rename_i p e' hp he
    split at hclaim
    · rename_i hidle
      exact ⟨p, ⟨hp, by rw [he]; rfl⟩, hidle⟩
    · cases hclaim
  · cases hclaim

/-- A line can be claimed with no idle time. -/
theorem Line.xclaim_isSome {c : Consumer} {now : ℕ} {id : StreamId} {q : Pending}
    (h : s.Line id q) (hpast : q.deliveredAt ≤ now) : (s.xclaim c 0 now id).isSome = true := by
  obtain ⟨e, he⟩ := Option.isSome_iff_exists.mp h.2
  simp [xclaim, h.1, he, hpast]

end TaskStream

namespace Fleet
variable {cfg : Settings} {f f' : Fleet} {l : Label} {now : ℕ}

/-- The line of a claimable entry of either lane. -/
def Line (f : Fleet) (entry : Lane × StreamId) (q : Pending) : Prop :=
  (f.redis.streams entry.1).Line entry.2 q

theorem line_setStream {lane : Lane} {stream : TaskStream} {entry : Lane × StreamId} {q : Pending}
    (h : { f with redis := f.redis.setStream lane stream }.Line entry q) :
    (entry.1 = lane ∧ stream.Line entry.2 q) ∨ (entry.1 ≠ lane ∧ f.Line entry q) := by
  by_cases hlane : entry.1 = lane
  · refine .inl ⟨hlane, ?_⟩
    simpa [Line, Redis.setStream, hlane] using h
  · refine .inr ⟨hlane, ?_⟩
    simpa [Line, Redis.setStream, hlane] using h

theorem line_exec (hsound : ∀ lane, (f.redis.streams lane).Sound) {c : Cmd} {o : Oracle}
    {entry : Lane × StreamId} {q : Pending}
    (h : { f with redis := (c.exec cfg o f.redis).2 }.Line entry q) : f.Line entry q := by
  have happly : { f with redis := (c.apply cfg o f.redis).2 }.Line entry q → f.Line entry q := by
    intro h
    cases c with
    | xaddMain fields =>
      rcases line_setStream h with ⟨hlane, hline⟩ | ⟨-, hold⟩
      · rw [Line, hlane]
        exact TaskStream.line_xadd (hsound _) hline
      · exact hold
    | xack lane id =>
      rcases line_setStream h with ⟨hlane, hline⟩ | ⟨-, hold⟩
      · rw [Line, hlane]
        exact TaskStream.line_xack hline
      · exact hold
    | xdel lane id =>
      rcases line_setStream h with ⟨hlane, hline⟩ | ⟨-, hold⟩
      · rw [Line, hlane]
        exact TaskStream.line_xdel hline
      · exact hold
    | _ => exact h
  rcases Cmd.exec_state cfg o c f.redis with hs | hs <;> rw [hs] at h
  · exact h
  · exact happly h

/-- A line after a step that happens now is an old one or has the time on it. -/
theorem line_fires (hfires : Fires cfg f l f') (hsound : ∀ lane, (f.redis.streams lane).Sound)
    (hat : l.isAt now = true) {entry : Lane × StreamId} {q : Pending} (h : f'.Line entry q) :
    f.Line entry q ∨ q.deliveredAt = now := by
  have hclaim : ∀ {lane c minIdle id e stream}, (f.redis.streams lane).xclaim c minIdle now id =
      some (e, stream) → { f with redis := f.redis.setStream lane stream }.Line entry q →
      f.Line entry q ∨ q.deliveredAt = now := by
    intro lane c minIdle id e stream hread h
    rcases line_setStream h with ⟨hlane, hline⟩ | ⟨-, hold⟩
    · rcases TaskStream.line_xclaim hread hline with ⟨-, hold⟩ | ⟨-, hnow⟩
      · exact .inl (by rw [Line, hlane]; exact hold)
      · exact .inr hnow
    · exact .inl hold
  cases hfires with
  | enqueue key t traceId =>
    rcases line_setStream (f := f) h with ⟨hlane, hline⟩ | ⟨-, hold⟩
    · exact .inl (by rw [Line, hlane]; exact TaskStream.line_xadd (hsound _) hline)
    · exact .inl hold
  | recoverOwn hproc hfree hread htask =>
    obtain rfl : _ = now := by simpa [Label.isAt] using hat
    exact hclaim (TaskStream.readOwn_spec hread).1 h
  | @deliver c lane t e stream task hproc hread htask =>
    obtain rfl : t = now := by simpa [Label.isAt] using hat
    rcases line_setStream (f := f) h with ⟨hlane, hline⟩ | ⟨-, hold⟩
    · rcases TaskStream.line_deliver hread hline with hold | ⟨-, hnow⟩
      · exact .inl (by rw [Line, hlane]; exact hold)
      · exact .inr hnow
    · exact .inl hold
  | reap hproc hother hread htask =>
    obtain rfl : _ = now := by simpa [Label.isAt] using hat
    exact hclaim hread h
  | renew hheld hread =>
    obtain rfl : _ = now := by simpa [Label.isAt] using hat
    exact hclaim hread h
  | run hparty hprog => exact .inl (line_exec hsound h)
  | _ => exact .inl h

/-- How a party comes to be alive after a step that happens now: it was alive before, on the
same entry, or it has just taken its entry. -/
inductive Alive (f : Fleet) (l : Label) (f' : Fleet) (now t : ℕ) (p : Party) : Prop
  | stayed {q : Party} (hq : f.parties t = some q) (hcons : p.consumer = q.consumer)
      (hrole : p.role = q.role) (hentry : p.entry = q.entry) (hlive : l ≠ .crash p.consumer)
  | took (ht : t = f.next) (hlive : l ≠ .crash p.consumer)
      (hline : ∀ q, f'.Line p.entry q → q.deliveredAt = now)
      (hread : p.role = .handler → f.procs p.consumer = some .starting ∨
        ∃ lane, l = .deliver p.consumer lane now)
      (hreap : p.role = .reaper → ∃ lane id, l = .reap p.consumer lane id now)

theorem alive_fires (hfires : Fires cfg f l f') (hsound : ∀ lane, (f.redis.streams lane).Sound)
    (hat : l.isAt now = true) {t : ℕ} {p : Party} (hp : f'.parties t = some p) :
    Alive f l f' now t p := by
  have hspawn : ∀ {lane : Lane} {stream : TaskStream} {party : Party},
      f' = { f with redis := f.redis.setStream lane stream }.spawn party → (∀ c, l ≠ .crash c) →
      party.entry.1 = lane → (∀ q, stream.Line party.entry.2 q → q.deliveredAt = now) →
      (party.role = .handler → f.procs party.consumer = some .starting ∨
        ∃ lane, l = .deliver party.consumer lane now) →
      (party.role = .reaper → ∃ lane id, l = .reap party.consumer lane id now) →
      Alive f l f' now t p := by
    rintro lane stream party rfl hcrash hlane hline hread hreap
    by_cases ht : t = f.next
    · subst ht
      obtain rfl := Option.some.inj (spawn_parties_self.symm.trans hp)
      refine .took rfl (hcrash _) (fun q hq => hline q ?_) hread hreap
      rcases line_setStream (f := f) hq with ⟨-, h⟩ | ⟨hne, -⟩
      · exact h
      · exact absurd hlane hne
    · exact .stayed ((spawn_parties_ne ht).symm.trans hp) rfl rfl rfl (hcrash _)
  cases hfires with
  | @recoverOwn c lane id t e stream task hproc hfree hread htask =>
    obtain rfl : t = now := by simpa [Label.isAt] using hat
    obtain ⟨hclaim, -⟩ := TaskStream.readOwn_spec hread
    obtain ⟨hlane, hid, -⟩ := parse_spec htask
    obtain ⟨-, heid, -⟩ := TaskStream.xclaim_spec hclaim
    refine hspawn rfl (by simp) hlane (fun q hq => ?_) (fun _ => .inl hproc) (fun h => by cases h)
    rcases TaskStream.line_xclaim hclaim hq with ⟨hne, -⟩ | ⟨-, hnow⟩
    · exact absurd (hid.trans heid) hne
    · exact hnow
  | @deliver c lane t e stream task hproc hread htask =>
    obtain rfl : t = now := by simpa [Label.isAt] using hat
    obtain ⟨hlane, hid, -⟩ := parse_spec htask
    refine hspawn rfl (by simp) hlane (fun q hq => ?_) (fun _ => .inr ⟨lane, rfl⟩)
      (fun h => by cases h)
    exact TaskStream.line_delivered (hsound lane) hread
      ((show (Fleet.handler cfg c task t).entry.2 = e.id from hid) ▸ hq)
  | @reap c lane id t e stream task hproc hother hread htask =>
    obtain rfl : t = now := by simpa [Label.isAt] using hat
    obtain ⟨hlane, hid, -⟩ := parse_spec htask
    obtain ⟨-, heid, -⟩ := TaskStream.xclaim_spec hread
    refine hspawn rfl (by simp) hlane (fun q hq => ?_) (fun h => by cases h)
      (fun _ => ⟨lane, id, rfl⟩)
    rcases TaskStream.line_xclaim hread hq with ⟨hne, -⟩ | ⟨-, hnow⟩
    · exact absurd (hid.trans heid) hne
    · exact hnow
  | crash c hproc =>
    obtain ⟨hq, hne⟩ := Option.filter_eq_some_iff.mp hp
    simp only [decide_eq_true_eq] at hne
    exact .stayed hq rfl rfl rfl fun h => hne (by cases h; rfl)
  | run hparty hprog =>
    obtain ⟨q, hq, -, hentry, hcons, hbrief⟩ := resume_parties_back cfg hparty hp
    exact .stayed hq hcons (congrArg Brief.role hbrief) hentry (by simp)
  | _ => exact .stayed hp rfl rfl rfl (by simp)

/-- A claim with no idle time by somebody who works on the entry resets its clock. -/
theorem line_renew {c : Consumer} {lane : Lane} {id : StreamId} {q : Pending}
    (hheld : f.anyParty (fun p =>
      decide (p.consumer = c ∧ p.role = .handler ∧ p.entry = (lane, id))) = true)
    (hpast : ∀ entry q, f.Line entry q → q.deliveredAt ≤ now)
    (h : ((f.step cfg (.renew c lane id now)).getD f).Line (lane, id) q) : q.deliveredAt = now := by
  simp only [step, hheld, if_true] at h
  cases hclaim : (f.redis.streams lane).xclaim c 0 now id with
  | none =>
    rw [hclaim] at h
    have hold : f.Line (lane, id) q := h
    have hsome := TaskStream.Line.xclaim_isSome (c := c) hold (hpast _ _ hold)
    rw [hclaim] at hsome
    cases hsome
  | some claimed =>
    rw [hclaim] at h
    rcases line_setStream (f := f) h with ⟨-, hline⟩ | ⟨hne, -⟩
    · rcases TaskStream.line_xclaim hclaim hline with ⟨hne, -⟩ | ⟨-, hnow⟩
      · exact absurd rfl hne
      · exact hnow
    · exact absurd rfl hne

/-- What a renewal leaves alone, and what it does to the lines. -/
structure Renewal (f f' : Fleet) (now : ℕ) : Prop where
  parties : f'.parties = f.parties
  procs : f'.procs = f.procs
  next : f'.next = f.next
  line : ∀ entry q, f'.Line entry q → f.Line entry q ∨ q.deliveredAt = now

theorem renewal_step (c : Consumer) (lane : Lane) (now : ℕ) (id : StreamId) :
    Renewal f ((f.step cfg (.renew c lane id now)).getD f) now := by
  cases hstep : f.step cfg (.renew c lane id now) with
  | none => exact ⟨rfl, rfl, rfl, fun _ _ h => .inl h⟩
  | some f' =>
    cases fires_of_step hstep with
    | renew hheld hclaim =>
      refine ⟨rfl, rfl, rfl, fun entry q h => ?_⟩
      rcases line_setStream (f := f) h with ⟨hlane, hline⟩ | ⟨-, hold⟩
      · rcases TaskStream.line_xclaim hclaim hline with ⟨-, hold⟩ | ⟨-, hnow⟩
        · exact .inl (by rw [Line, hlane]; exact hold)
        · exact .inr hnow
      · exact .inl hold

theorem Renewal.trans {g : Fleet} (h : Renewal f f' now) (h' : Renewal f' g now) :
    Renewal f g now where
  parties := h'.parties.trans h.parties
  procs := h'.procs.trans h.procs
  next := h'.next.trans h.next
  line entry q hq := by
    rcases h'.line entry q hq with hold | hnow
    · exact h.line entry q hold
    · exact .inr hnow

theorem renewal_renewAll (c : Consumer) (lane : Lane) (now : ℕ) (ids : List StreamId) :
    Renewal f (f.renewAll cfg c lane now ids) now := by
  induction ids generalizing f with
  | nil => exact ⟨rfl, rfl, rfl, fun _ _ h => .inl h⟩
  | cons id ids ih => exact (renewal_step c lane now id).trans ih

/-- Every entry that the claim names and that is still worked on gets the time on its line. -/
theorem line_renewAll {c : Consumer} {lane : Lane} {ids : List StreamId} {id : StreamId}
    {q : Pending} (hid : id ∈ ids)
    (hheld : f.anyParty (fun p =>
      decide (p.consumer = c ∧ p.role = .handler ∧ p.entry = (lane, id))) = true)
    (hpast : ∀ entry q, f.Line entry q → q.deliveredAt ≤ now)
    (h : (f.renewAll cfg c lane now ids).Line (lane, id) q) : q.deliveredAt = now := by
  induction ids generalizing f with
  | nil => cases hid
  | cons id' ids ih =>
    have hfirst : Renewal f ((f.step cfg (.renew c lane id' now)).getD f) now :=
      renewal_step c lane now id'
    rcases List.mem_cons.mp hid with rfl | htail
    · rcases (renewal_renewAll c lane now ids).line _ _ h with hold | hnow
      · exact line_renew hheld hpast hold
      · exact hnow
    · refine ih htail ?_ ?_ h
      · simpa only [anyParty, hfirst.parties, hfirst.next] using hheld
      · intro entry q hq
        rcases hfirst.line entry q hq with hold | hnow
        · exact hpast entry q hold
        · exact hnow.le

end Fleet

end OcrOrchestrator
