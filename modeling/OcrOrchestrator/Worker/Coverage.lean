import OcrOrchestrator.Queue.Claim
import OcrOrchestrator.Worker.Checkpoint
import OcrOrchestrator.Worker.Ledger
import OcrOrchestrator.Lib.System

/-!
# Who can get at a pending entry

An entry whose handler is gone is still pending under the name of the worker that had it.  If
that worker restarts, it finds the entry in its own pending list; if not, the reaper of some
worker claims it once it has been idle for long enough.  A reaper never claims what is pending
under its own name, and a worker reads its own pending list only once, when it starts, and
only as far as its concurrency goes.

So an entry that a live worker has let go of, because the handler raised, because a scan
raised after the claim, or because it was not read at the start, needs another live worker.
This module says for every state that a fleet reaches which entries are within reach.

## Main definitions

* `Fleet.Unattended` — an idle entry that no handler holds.
* `Patrol` — a fleet, and what `read_own_pending` has returned.
* `TaskStream.Listed` — the pending list is in the order of the ids, and every entry is a task.
-/

namespace OcrOrchestrator

open Lib

namespace Fleet

/-- A worker that runs its reaper. -/
def Live (f : Fleet) (c : Consumer) : Prop := f.procs c = some .running

/-- Some worker has the entry in `_held`. -/
def held (f : Fleet) (lane : Lane) (id : StreamId) : Bool :=
  f.anyParty fun p => decide (p.role = .handler ∧ p.entry = (lane, id))

/-- A pending entry that nobody handles, and that has been idle for long enough. -/
structure Unattended (cfg : Settings) (f : Fleet) (lane : Lane) (p : Pending) (now : ℕ) :
    Prop where
  pending : p ∈ (f.redis.streams lane).pel
  stored : ((f.redis.streams lane).stored? p.id).isSome = true
  unheld : f.held lane p.id = false
  idle : p.idle cfg.reaperMinIdleMs now = true

end Fleet

/-- A fleet with the entries that `read_own_pending` has returned so far. -/
structure Patrol where
  fleet : Fleet
  reread : Lane × StreamId → Bool

namespace Patrol

def step (cfg : Settings) (s : Patrol) (l : Label) : Option Patrol :=
  (s.fleet.step cfg l).map fun f =>
    ⟨f, match l with
      | .recoverOwn _ lane id _ => Function.update s.reread (lane, id) true
      | _ => s.reread⟩

def system (cfg : Settings) : System Patrol Label := ⟨⟨Fleet.empty, fun _ => false⟩, step cfg⟩

/-- **The entry is within reach**: it was returned by `read_own_pending`, or the scans of live
workers return it. -/
def WithinReach (cfg : Settings) (batch : ℕ) (s : Patrol) (lane : Lane) (p : Pending) (now : ℕ) :
    Prop :=
  s.reread (lane, p.id) = true ∨
    Reclaimed cfg.reaperMinIdleMs batch s.fleet.Live lane p.id now s.fleet.redis.streams

end Patrol

/-! ## Pending lists in order -/

/-- The pending list is in the order of the ids, and every entry is a task. -/
structure TaskStream.Listed (s : TaskStream) : Prop where
  sorted : s.pending.Pairwise fun a b => a.before b = true
  delivered : ∀ id ∈ s.pending, s.lastDelivered.before id = false
  wellFormed : ∀ e ∈ s.entries, e.fields.WellFormed

theorem wellFormed_enqueueFields (key : PageKey) (now : ℕ) (traceId : String) :
    (enqueueFields key now traceId).WellFormed := fun _ _ => ⟨_, rfl⟩

theorem wellFormed_requeueFields (task : PageTask) (countAttempt : Bool) (now : ℕ) :
    (requeueFields task countAttempt now).WellFormed := fun _ _ => ⟨_, rfl⟩

namespace TaskStream.Listed
variable {s s' : TaskStream}

theorem empty : TaskStream.empty.Listed := by
  constructor <;> simp [TaskStream.empty, TaskStream.pending]

theorem nodup (h : s.Listed) : s.pending.Nodup := by
  refine h.sorted.imp fun {a b} hbefore heq => ?_
  rw [heq, StreamId.before_irrefl] at hbefore
  cases hbefore

theorem xadd (h : s.Listed) (now : ℕ) {fields : RawTask} (hwf : fields.WellFormed) :
    (s.xadd now fields).2.Listed where
  sorted := h.sorted
  delivered := h.delivered
  wellFormed := by
    intro e he
    rcases mem_xadd_entries.mp he with he | rfl
    · exact h.wellFormed e he
    · exact hwf

theorem xack (h : s.Listed) (id : StreamId) : (s.xack id).Listed where
  sorted := h.sorted.sublist (List.filter_sublist.map Pending.id)
  delivered id' hid' := h.delivered id' ((List.filter_sublist.map Pending.id).subset hid')
  wellFormed := h.wellFormed

theorem xdel (h : s.Listed) (id : StreamId) : (s.xdel id).Listed where
  sorted := h.sorted
  delivered := h.delivered
  wellFormed := fun e he => h.wellFormed e (mem_xdel_entries.mp he).1

theorem same (h : s.Listed) (hentries : s'.entries = s.entries)
    (hlast : s'.lastDelivered = s.lastDelivered) (hpending : s'.pending = s.pending) :
    s'.Listed where
  sorted := hpending ▸ h.sorted
  delivered := by
    rw [hpending, hlast]
    exact h.delivered
  wellFormed := hentries ▸ h.wellFormed

/-- A delivery appends an id that is larger than all before. -/
theorem deliver (h : s.Listed) {id : StreamId} (hentries : s'.entries = s.entries)
    (hbefore : s.lastDelivered.before id = true) (hlast : s'.lastDelivered = id)
    (hpending : s'.pending = s.pending ++ [id]) : s'.Listed where
  sorted := by
    rw [hpending, List.pairwise_append]
    refine ⟨h.sorted, List.pairwise_singleton _ _, ?_⟩
    intro a ha b hb
    rw [List.mem_singleton.mp hb]
    exact StreamId.before_of_not_before (h.delivered a ha) hbefore
  delivered := by
    rw [hpending, hlast]
    intro a ha
    rcases List.mem_append.mp ha with ha | ha
    · exact StreamId.not_before_of_before
        (StreamId.before_of_not_before (h.delivered a ha) hbefore)
    · rw [List.mem_singleton.mp ha]
      exact StreamId.before_irrefl id
  wellFormed := hentries ▸ h.wellFormed

end TaskStream.Listed

section Listing
variable {cfg : Settings} {f f' : Fleet} {r : Redis}

/-- A command of a coroutine keeps the lists in order. -/
theorem Cmd.Issued.listed {task : PageTask} {c : Cmd} (hc : c.Issued task) (o : Oracle)
    (h : ∀ lane, (r.streams lane).Listed) (lane : Lane) :
    ((c.exec cfg o r).2.streams lane).Listed := by
  rcases Cmd.exec_state cfg o c r with hs | hs <;> rw [hs]
  · exact h lane
  · cases hc with
    | xaddMain countAttempt now =>
      exact Redis.streams_setStream h ((h .main).xadd _ (wellFormed_requeueFields _ _ _)) lane
    | xack => exact Redis.streams_setStream h ((h _).xack _) lane
    | xdel => exact Redis.streams_setStream h ((h _).xdel _) lane
    | _ => exact h lane

/-- **One step** keeps the lists in order, whatever raises. -/
theorem Step.listed {l : Label} (hstep : Step cfg f l f') (hissues : f.Issues)
    (h : ∀ lane, (f.redis.streams lane).Listed) (lane : Lane) :
    (f'.redis.streams lane).Listed := by
  cases hstep with
  | submit => exact h lane
  | enqueue key now traceId =>
    exact Redis.streams_setStream h ((h _).xadd now (wellFormed_enqueueFields _ _ _)) lane
  | idle l procs streams hsame =>
    exact (h lane).same (hsame lane).entries (hsame lane).lastDelivered (hsame lane).pending
  | take hl htaken hstarts =>
    refine Redis.streams_setStream h ?_ lane
    rcases htaken.how with ⟨-, hbefore, hlast, hpending⟩ | ⟨-, -, hlast, hpending⟩
    · exact (h _).deliver htaken.entries hbefore hlast hpending
    · exact (h _).same htaken.entries hlast hpending
  | crash => exact h lane
  | @run t o p c k hparty hprog =>
    have hissued := hissues t p hparty
    rw [hprog] at hissued
    exact hissued.1.listed o h lane

end Listing

namespace Patrol
variable {cfg : Settings} {s : Patrol} {lane : Lane} {p : Pending} {now batch : ℕ}

/-- Both lists are in order, and everybody alive keeps them so. -/
structure InOrder (s : Patrol) : Prop where
  issues : s.fleet.Issues
  listed : ∀ lane, (s.fleet.redis.streams lane).Listed

theorem inOrder_of_reach (hreach : (system cfg).Reach System.anyStep s) : InOrder s := by
  refine hreach.invariant ⟨fun t p hp => (nomatch hp), fun _ => .empty⟩ ?_
  intro s l s' h _ hstep
  obtain ⟨f, hf, rfl⟩ := Option.map_eq_some_iff.mp hstep
  exact ⟨h.issues.step (step_spec hf), (step_spec hf).listed h.issues h.listed⟩

/-- An unattended entry waits for a scan. -/
theorem awaiting_of_unattended (hreach : (system cfg).Reach System.anyStep s)
    (h : s.fleet.Unattended cfg lane p now) :
    ∃ pre post, Awaiting cfg.reaperMinIdleMs now (s.fleet.redis.streams lane) pre p post := by
  obtain ⟨pre, post, hpel⟩ := List.append_of_mem h.pending
  have hlisted := (inOrder_of_reach hreach).listed lane
  exact ⟨pre, post, hpel, hlisted.nodup, hlisted.wellFormed, h.stored, h.idle⟩

/-- What a scan returns, the fleet can reap: the label claims the same entry. -/
theorem step_reap_of_claimed (hreach : (system cfg).Reach System.anyStep s) {c : Consumer}
    (hlive : s.fleet.Live c) {task : PageTask}
    (htask : task ∈ (claimOrphans c cfg.reaperMinIdleMs batch now s.fleet.redis.streams).1) :
    (s.fleet.step cfg (.reap c task.stream task.entryId now)).isSome = true := by
  have hlisted := (inOrder_of_reach hreach).listed task.stream
  obtain ⟨p, hp, hid, hstored, hwindow, hc⟩ :=
    ((claimLane_spec hlisted.wellFormed hlisted.nodup).2 task.entryId).mp
      ⟨task, (mem_claimOrphans rfl).mp htask, rfl, rfl⟩
  have hidle := (TaskStream.mem_pel_of_mem_xpendingRange hwindow).2
  have howner := TaskStream.owner?_of_mem hlisted.nodup hp
  obtain ⟨e, he⟩ := Option.isSome_iff_exists.mp hstored
  rw [hid] at howner
  have hclaim : ∃ stream, (s.fleet.redis.streams task.stream).xclaim c cfg.reaperMinIdleMs now
      task.entryId = some (e, stream) := by
    simp only [TaskStream.xclaim, howner, he]
    rw [if_pos (of_decide_eq_true hidle)]
    exact ⟨_, rfl⟩
  obtain ⟨stream, hclaim⟩ := hclaim
  obtain ⟨parsed, hparsed⟩ :=
    hlisted.wellFormed e (List.mem_of_find?_eq_some he) task.stream e.id
  have hrunning : s.fleet.procs c = some .running := hlive
  simp [Fleet.step, hrunning, howner, hc, hclaim, hparsed, Except.toOption]

/-- **When a pending entry is within reach**: in every state that a fleet reaches, whatever
handlers, scans and restarts do, an unattended entry that `read_own_pending` has not returned
is returned by the scans of live workers if and only if one of them does not own it, and
either is not the only live worker or has fewer than a batch of its own idle entries before
it. -/
theorem withinReach_iff (cfg : Settings) (hidle : 0 < cfg.reaperMinIdleMs) (batch : ℕ)
    (hbatch : 0 < batch) (s : Patrol) (hreach : (system cfg).Reach System.anyStep s) (lane : Lane)
    (p : Pending) (now : ℕ) (h : s.fleet.Unattended cfg lane p now) :
    s.WithinReach cfg batch lane p now ↔
      s.reread (lane, p.id) = true ∨
        Covered cfg.reaperMinIdleMs batch s.fleet.Live now (s.fleet.redis.streams lane) p := by
  obtain ⟨pre, post, hawaiting⟩ := awaiting_of_unattended hreach h
  exact or_congr_right (hawaiting.reclaimed_iff hidle hbatch)

/-! ## Runs with one worker and with two -/

/-- Nobody but the worker `c` is ever started. -/
def onlyStarts (c : Consumer) (_ : Patrol) : Label → Bool
  | .start c' => decide (c' = c)
  | _ => true

/-- A worker that is there was there before, or has just been started. -/
theorem procs_step {f f' : Fleet} {l : Label} {c : Consumer} (hstep : f.step cfg l = some f')
    (h : (f'.procs c).isSome = true) : (f.procs c).isSome = true ∨ l = .start c := by
  cases fires_of_step hstep with
  | start c' =>
    by_cases hc : c = c'
    · exact .inr (by rw [hc])
    · exact .inl (by simpa [Function.update_of_ne hc] using h)
  | ready c' hproc =>
    by_cases hc : c = c'
    · exact .inl (by rw [hc, hproc]; rfl)
    · exact .inl (by simpa [Function.update_of_ne hc] using h)
  | crash c' =>
    by_cases hc : c = c'
    · simp [hc] at h
    · exact .inl (by simpa [Function.update_of_ne hc] using h)
  | _ => exact .inl h

/-- If only `c` is ever started, nobody else is live. -/
theorem live_of_onlyStarts {c c' : Consumer} (hreach : (system cfg).Reach (onlyStarts c) s)
    (hlive : s.fleet.Live c') : c' = c := by
  have hprocs : (s.fleet.procs c').isSome = true := by
    rw [hlive]
    rfl
  clear hlive
  induction hreach with
  | init => cases hprocs
  | step _ hallow hstep ih =>
    obtain ⟨f, hf, rfl⟩ := Option.map_eq_some_iff.mp hstep
    rcases procs_step hf hprocs with hold | rfl
    · exact ih hold
    · exact of_decide_eq_true hallow

/-- The store is down while the page is worked on, and still down when the handler gives the
page back: the handler raises, and its entry stays pending. -/
def handlerRaises : List Label :=
  [.initJob 0 1 1000, .enqueue ⟨0, 0⟩ 1000 "t", .start 1, .ready 1, .deliver 1 .lead 1000,
    .run 0 (.answer 1000), .run 0 (.raises 1000 (.exception "ConnectionError" "")),
    .run 0 (.raises 1000 (.exception "ConnectionError" ""))]

/-- The worker is live, and an entry that nobody holds is pending under its name since
`1000`. -/
def leftBehind (s : Patrol) : Bool :=
  decide (s.fleet.procs 1 = some .running) && (s.fleet.redis.streams .lead).pel.any fun p =>
    decide (p.consumer = 1) && decide (p.deliveredAt = 1000) &&
      ((s.fleet.redis.streams .lead).stored? p.id).isSome && !s.fleet.held .lead p.id &&
      !s.reread (.lead, p.id)

theorem unattended_of_leftBehind (h : leftBehind s = true) :
    s.fleet.Live 1 ∧ ∃ p, s.fleet.Unattended {} .lead p 31000 ∧ p.consumer = 1 ∧
      s.reread (.lead, p.id) = false := by
  simp only [leftBehind, Bool.and_eq_true, decide_eq_true_eq, List.any_eq_true,
    Bool.not_eq_true'] at h
  obtain ⟨hlive, p, hp, ⟨⟨⟨howner, hsince⟩, hstored⟩, hunheld⟩, hreread⟩ := h
  have hmin : ({} : Settings).reaperMinIdleMs = 30000 := by decide +kernel
  have hidle : p.idle ({} : Settings).reaperMinIdleMs 31000 = true := by
    rw [hmin, Pending.idle, hsince]
    rfl
  exact ⟨hlive, p, ⟨hp, hstored, hunheld, hidle⟩, howner, hreread⟩

/-- A second worker gets at what the first one has let go of. -/
theorem withinReach_second_worker : ∃ (s : Patrol) (p : Pending),
    (system {}).Reach System.anyStep s ∧ s.fleet.Unattended {} .lead p 31000 ∧
      p.consumer = 1 ∧ s.fleet.Live 1 ∧ s.WithinReach {} 64 .lead p 31000 := by
  obtain ⟨s, hreach, hq⟩ := System.exists_of_runAll (system {}) System.anyStep
    (fun s => leftBehind s && decide (s.fleet.procs 2 = some .running))
    (handlerRaises ++ [.start 2, .ready 2]) (by decide +kernel)
  rw [Bool.and_eq_true, decide_eq_true_eq] at hq
  obtain ⟨hlive, p, hunattended, howner, -⟩ := unattended_of_leftBehind hq.1
  refine ⟨s, p, hreach, hunattended, howner, hlive, ?_⟩
  refine (withinReach_iff {} (by decide +kernel) 64 (by decide) s hreach .lead p 31000
    hunattended).mpr (.inr ⟨2, hq.2, ?_, .inl ⟨1, hlive, by decide⟩⟩)
  rw [howner]
  decide

/-- **A lone worker never gets back what it has let go of**: the handler raised, the entry is
pending under the worker's own name, and its reaper leaves such entries alone. -/
theorem not_withinReach_lone_worker : ¬ ∀ (cfg : Settings) (batch : ℕ) (s : Patrol) (lane : Lane)
    (p : Pending) (now : ℕ), 0 < cfg.reaperMinIdleMs → 0 < batch →
    (system cfg).Reach System.anyStep s → (∃ c, s.fleet.Live c) →
    s.fleet.Unattended cfg lane p now → s.WithinReach cfg batch lane p now := by
  intro hall
  obtain ⟨s, hreach, hleft⟩ := System.exists_of_runAll (system {}) (onlyStarts 1) leftBehind
    handlerRaises (by decide +kernel)
  obtain ⟨hlive, p, hunattended, howner, hreread⟩ := unattended_of_leftBehind hleft
  have hany : (system {}).Reach System.anyStep s := hreach.mono fun _ _ _ => rfl
  rcases hall {} 64 s .lead p 31000 (by decide +kernel) (by decide) hany ⟨1, hlive⟩ hunattended with
    hread | hreclaimed
  · rw [hreread] at hread
    cases hread
  · obtain ⟨pre, post, hawaiting⟩ := awaiting_of_unattended hany hunattended
    exact hawaiting.not_reclaimed (fun c' hlive' => live_of_onlyStarts hreach hlive')
      (.inl howner) hreclaimed

end Patrol
end OcrOrchestrator
