import OcrOrchestrator.Lib.Protocol
import OcrOrchestrator.Lib.System
import OcrOrchestrator.Worker.Checkpoint
import OcrOrchestrator.Worker.Spared

/-!
# Reapers on every replica

Every replica runs a reaper, and nothing coordinates them: there is no leader and no lock.  A
scan lists the idle entries of a lane (`XPENDING`), claims those of other consumers (`XCLAIM`)
and, when it has been through both lanes, recovers what it claimed one entry after the other.
Each Redis command is a step of its own here, so by the time of a claim the list may be stale,
and by the time an entry is recovered its claim may be old.

What keeps two reapers apart is the idle clock: a claim only takes an entry that has been idle
for `reaper_min_idle_s`, and restarts its clock.  So it is as good as a lock for that long, and
a reaper that settles its entries in that time is never interfered with.

Beside the reapers, anybody may issue any command, take new entries, renew leases and let pages
expire, only nobody else touches the orphaned entries: that is what makes them orphans.  Any
command of a scan may raise, before or after it took effect; what the scan still holds is then
dropped, as it is when the process is stopped.

The state keeps a record of the claims, of the orphans that were asked for and replaced, and of
what was dropped.

## Main definitions

* `Agenda`, `Scan`, `Replicas`, `Replicas.step` — the reapers and their surroundings.
* `Replicas.punctual` — every reaper settles each entry before it has been idle for too long.
* `Replicas.RecoveredOnce` — what becomes of an orphan.
* `entryProtocol` — what a reaper does about one entry.
* `Replicas.Reaps` — what the next step of a reaper can be.
-/

namespace OcrOrchestrator

open Lib

/-- Where the task was read. -/
def PageTask.entry (task : PageTask) : Lane × StreamId := (task.stream, task.entryId)

/-- What is left of a scan after the entry it is busy with: lanes to list, ids to claim, claimed
entries to parse, tasks to recover. -/
inductive Agenda where
  | idle
  | listing (todo : List Lane) (claimed : List PageTask)
  | claiming (lane : Lane) (ids : List StreamId) (todo : List Lane) (claimed : List PageTask)
  | sorting (lane : Lane) (entries : List Entry) (todo : List Lane) (claimed : List PageTask)
  | recovering (tasks : List PageTask)

/-- The entries that were claimed and not yet begun with. -/
def Agenda.held : Agenda → List (Lane × StreamId)
  | .idle => []
  | .listing _ claimed => claimed.map PageTask.entry
  | .claiming _ _ _ claimed => claimed.map PageTask.entry
  | .sorting lane entries _ claimed =>
      entries.map (fun e => (lane, e.id)) ++ claimed.map PageTask.entry
  | .recovering tasks => tasks.map PageTask.entry

/-- The reaper of one replica: the entry it is busy with, if any, with what it still has to do
about it, and the rest of its scan. -/
structure Scan where
  current : Option ((Lane × StreamId) × Py Unit)
  agenda : Agenda

namespace Scan

/-- The entry the reaper is busy with. -/
def busyWith (scan : Scan) : Option (Lane × StreamId) := scan.current.map Prod.fst

/-- All entries that the scan has claimed and not finished with. -/
def held (scan : Scan) : List (Lane × StreamId) := scan.busyWith.toList ++ scan.agenda.held

end Scan

/-- An entry that a reaper has taken over. -/
structure Claim where
  entry : Lane × StreamId
  consumer : Consumer
  since : ℕ

/-- The settling pipeline, for an entry that is not a task. -/
def settle (entry : Lane × StreamId) : Py Unit := do
  await (.xack entry.1 entry.2)
  await (.xdel entry.1 entry.2)

/-- Whether the command adds an entry. -/
def Cmd.adds : Cmd → Bool
  | .xaddMain _ => true
  | _ => false

/-- The call raises and has had no effect. -/
def Oracle.noEffect (o : Oracle) : Bool := o.fault.any fun fault => !fault.tookEffect

/-- The reapers of all replicas over one Redis, and the clock in milliseconds. -/
structure Replicas where
  redis : Redis
  now : ℕ
  scans : Consumer → Scan
  /-- Every entry that `XCLAIM` has handed to a reaper. -/
  claims : List Claim
  /-- Every entry that a reaper has asked `XCLAIM` for. -/
  asked : List (Lane × StreamId)
  /-- The entry a reaper was busy with, for every entry that it has added. -/
  fresh : List (Lane × StreamId)
  /-- What a scan held when it was cut short. -/
  dropped : List (Lane × StreamId)

namespace Replicas

/-- What can happen next. -/
inductive Label where
  | tick (ms : ℕ)
  | command (c : Cmd) (o : Oracle)
  | enqueue (lane : Lane) (fields : RawTask)
  | deliver (c : Consumer) (lane : Lane)
  | renew (c : Consumer) (lane : Lane) (id : StreamId)
  | expire (key : PageKey)
  | reap (c : Consumer) (o : Oracle)
  | stop (c : Consumer)

/-- No reaper has started. -/
def start (redis : Redis) (now : ℕ) : Replicas :=
  ⟨redis, now, fun _ => ⟨none, .idle⟩, [], [], [], []⟩

/-- The reaper of a replica goes on with this. -/
def goOn (s : Replicas) (c : Consumer) (scan : Scan) : Replicas :=
  { s with scans := Function.update s.scans c scan }

/-- The scan of a replica is cut short. -/
def abort (s : Replicas) (c : Consumer) : Replicas :=
  { s.goOn c ⟨none, .idle⟩ with dropped := s.dropped ++ (s.scans c).held }

/-- `XCLAIM` with the ids of a scan. -/
def claim (cfg : Settings) (s : Replicas) (c : Consumer) (lane : Lane) (ids : List StreamId)
    (todo : List Lane) (claimed : List PageTask) : Replicas :=
  let out := (s.redis.streams lane).xclaimIds c cfg.reaperMinIdleMs s.now ids
  { s with
    redis := s.redis.setStream lane out.2
    claims := s.claims ++ out.1.map fun e : Entry => (⟨(lane, e.id), c, s.now⟩ : Claim)
    asked := s.asked ++ ids.map fun id => (lane, id) }.goOn c
      ⟨none, .sorting lane out.1 todo claimed⟩

/-- One command about the entry that the reaper is busy with. -/
def work (cfg : Settings) (s : Replicas) (c : Consumer) (o : Oracle) (entry : Lane × StreamId)
    (cmd : Cmd) (k : Except Exn (Ret cmd) → Py Unit) (agenda : Agenda) : Replicas :=
  let out := cmd.exec cfg { o with now := s.now } s.redis
  { s with
    redis := out.2
    fresh := if cmd.adds && !o.noEffect then s.fresh ++ [entry] else s.fresh }.goOn c
      ⟨some (entry, k out.1), agenda⟩

/-- The reaper of a replica goes on: `Reaper.scan`, one command at a time. -/
def reap (cfg : Settings) (batch : ℕ) (s : Replicas) (c : Consumer) (o : Oracle) : Replicas :=
  match s.scans c with
  | ⟨some (entry, .call cmd k), agenda⟩ => s.work cfg c o entry cmd k agenda
  | ⟨some (_, .ret _), agenda⟩ => s.goOn c ⟨none, agenda⟩
  | ⟨some (_, .raise _), _⟩ => s.abort c
  | ⟨none, .idle⟩ => s.goOn c ⟨none, .listing [.lead, .main] []⟩
  | ⟨none, .listing [] claimed⟩ => s.goOn c ⟨none, .recovering claimed⟩
  | ⟨none, .listing (lane :: todo) claimed⟩ =>
      if o.fault.isSome then s.abort c
      else
        let ids := (s.redis.streams lane).orphanIds c cfg.reaperMinIdleMs batch s.now
        if ids.isEmpty then s.goOn c ⟨none, .listing todo claimed⟩
        else s.goOn c ⟨none, .claiming lane ids todo claimed⟩
  | ⟨none, .claiming lane ids todo claimed⟩ =>
      if o.noEffect then s.abort c
      else
        let s' := s.claim cfg c lane ids todo claimed
        if o.fault.isSome then s'.abort c else s'
  | ⟨none, .sorting _ [] todo claimed⟩ => s.goOn c ⟨none, .listing todo claimed⟩
  | ⟨none, .sorting lane (e :: es) todo claimed⟩ =>
      match parse lane e.id e.fields with
      | .ok task => s.goOn c ⟨none, .sorting lane es todo (claimed ++ [task])⟩
      | .error _ =>
        -- quarantined: a failed copy to the quarantine stream is ignored, then it is settled
        s.goOn c ⟨some ((lane, e.id), settle (lane, e.id)), .sorting lane es todo claimed⟩
  | ⟨none, .recovering []⟩ => s.goOn c ⟨none, .idle⟩
  | ⟨none, .recovering (task :: tasks)⟩ =>
      s.goOn c ⟨some (task.entry, recover cfg task), .recovering tasks⟩

/-- One step, `none` if the label is not enabled.  Nobody but a reaper touches an orphan. -/
def step (cfg : Settings) (batch : ℕ) (orphans : Lane × StreamId → Bool) (s : Replicas) :
    Label → Option Replicas
  | .tick ms => some { s with now := s.now + ms }
  | .command c o =>
      if c.settled?.any orphans then none
      else some { s with redis := (c.exec cfg { o with now := s.now } s.redis).2 }
  | .enqueue lane fields =>
      some { s with
        redis := s.redis.setStream lane ((s.redis.streams lane).xadd s.now fields).2 }
  | .deliver c lane => do
      let (_, stream) ← (s.redis.streams lane).deliverNext c s.now
      some { s with redis := s.redis.setStream lane stream }
  | .renew c lane id =>
      if orphans (lane, id) then none
      else do
        let (_, stream) ← (s.redis.streams lane).xclaim c 0 s.now id
        some { s with redis := s.redis.setStream lane stream }
  | .expire key =>
      some { s with redis := { s.redis with pages := Function.update s.redis.pages key none } }
  | .reap c o => some (s.reap cfg batch c o)
  | .stop c => some (s.abort c)

def system (cfg : Settings) (batch : ℕ) (orphans : Lane × StreamId → Bool) (redis : Redis)
    (now : ℕ) : System Replicas Label :=
  ⟨start redis now, step cfg batch orphans⟩

/-- The entry is neither pending nor stored any more. -/
def settled (s : Replicas) (entry : Lane × StreamId) : Bool :=
  ((s.redis.streams entry.1).owner? entry.2).isNone &&
    ((s.redis.streams entry.1).stored? entry.2).isNone

/-- Every claimed entry is settled, or was claimed less than `min_idle_ms` ago. -/
def inTime (cfg : Settings) (s : Replicas) : Bool :=
  s.claims.all fun cl => s.settled cl.entry || decide (s.now < cl.since + cfg.reaperMinIdleMs)

/-- **Every reaper settles each entry within `min_idle_ms` of claiming it**: no step leads to a
state in which one has not. -/
def punctual (cfg : Settings) (batch : ℕ) (orphans : Lane × StreamId → Bool) (s : Replicas)
    (l : Label) : Bool :=
  (s.step cfg batch orphans l).all (inTime cfg)

/-- The claims of an entry. -/
def claimsOf (s : Replicas) (entry : Lane × StreamId) : List Claim :=
  s.claims.filter fun cl => decide (cl.entry = entry)

/-- **What becomes of an orphan** that was in the store `redis` at the start: at most one reaper
claims it, and at most one entry is added for it; until then it is pending and stored as it was
left, unless only its line was left and has been swept away; a reaper that asks for it gets it,
or somebody has got it before; and when a reaper comes to the end with it, or after `min_idle_ms`
at the latest, it is settled. -/
structure RecoveredOnce (cfg : Settings) (redis : Redis) (s : Replicas)
    (entry : Lane × StreamId) : Prop where
  claimed : (s.claimsOf entry).length ≤ 1
  replaced : s.fresh.count entry ≤ 1
  kept : s.claimsOf entry = [] → entry ∉ s.fresh ∧
    ((s.redis.streams entry.1).owner? entry.2 = (redis.streams entry.1).owner? entry.2 ∧
        (s.redis.streams entry.1).stored? entry.2 = (redis.streams entry.1).stored? entry.2 ∨
      (redis.streams entry.1).stored? entry.2 = none ∧ s.settled entry = true)
  answered : entry ∈ s.asked → s.claimsOf entry ≠ [] ∨ s.settled entry = true
  ends : ∀ cl ∈ s.claimsOf entry, entry ∉ (s.scans cl.consumer).held → entry ∉ s.dropped →
    s.settled entry = true
  endsInTime : ∀ cl ∈ s.claimsOf entry, cl.since + cfg.reaperMinIdleMs ≤ s.now →
    s.settled entry = true

end Replicas

/-! ## What a reaper does about one entry -/

/-- How far a reaper has got with an entry. -/
structure Progress where
  added : Bool
  acked : Bool
  deleted : Bool

/-- A reaper adds at most one entry, and settles only the entry it is busy with. -/
def entryProtocol (entry : Lane × StreamId) : Protocol Cmd Ret Exn Progress where
  may _ _ := True
  move φ c r φ' :=
    match c with
    | .xaddMain _ => φ.added = false ∧ φ' = { φ with added := true }
    | .xack lane id => (lane, id) = entry ∧ φ' = { φ with acked := φ.acked || r.toBool }
    | .xdel lane id => (lane, id) = entry ∧ φ' = { φ with deleted := φ.deleted || r.toBool }
    | _ => φ' = φ

/-- A reaper that comes to the end with an entry has settled it. -/
def Cleared : Except Exn Unit → Progress → Prop
  | .ok _, φ => φ.acked = true ∧ φ.deleted = true
  | .error _, _ => True

section Entries
variable {task : PageTask} {entry : Lane × StreamId} {φ : Progress}

/-- A program that leaves the task streams alone. -/
abbrev SparesQueue {α : Type} (p : Py α) : Prop :=
  p.All fun c => c.adds = false ∧ c.settled? = none

/-- A program that is about the page or the job of a task, whatever its entry and its attempt,
leaves the task streams alone. -/
theorem sparesQueue_of_issued {α : Type} {p : Py α}
    (h : ∀ n id, IssuedProg { task with attempt := n, entryId := id } p) : SparesQueue p := by
  refine ((h 0 ⟨0, 0⟩).and (h 2 ⟨1, 0⟩)).mono ?_
  rintro c ⟨h0, h2⟩
  have hadd := h0.ne_xaddMain h2 (by simp)
  cases h0 with
  | xaddMain counted t => exact absurd rfl (hadd _)
  | xack => cases h2
  | xdel => cases h2
  | _ => exact ⟨rfl, rfl⟩

theorem move_of_spares {c : Cmd} (h : c.adds = false ∧ c.settled? = none)
    (r : Except Exn (Ret c)) : (entryProtocol entry).move φ c r φ := by
  cases c with
  | xaddMain counted => cases h.1
  | xack lane id => cases h.2
  | xdel lane id => cases h.2
  | _ => rfl

/-- Such a program makes no progress with an entry. -/
theorem follows_sparesQueue {α : Type} {p : Py α} (h : SparesQueue p) :
    p.Follows (entryProtocol entry) (fun _ φ' => φ' = φ) φ := by
  induction p with
  | ret a => rfl
  | raise e => rfl
  | call c k ih =>
    intro r _
    exact ⟨φ, move_of_spares h.1 r, ih r (h.2 r)⟩

theorem follows_settle (entry : Lane × StreamId) (φ : Progress) :
    (settle entry).Follows (entryProtocol entry) Cleared φ := by
  refine Prog.Follows.bind (m := fun r φ' => r.toBool = true → φ'.acked = true) ?_ ?_
    (fun _ _ _ => trivial)
  · refine Prog.Follows.perform fun r _ => ⟨_, ⟨rfl, rfl⟩, ?_⟩
    intro hr
    simp [hr]
  · intro _ φ' hacked
    refine Prog.Follows.perform fun r _ => ⟨_, ⟨rfl, rfl⟩, ?_⟩
    cases r with
    | error e => trivial
    | ok a => exact ⟨hacked rfl, by simp [Except.toBool]⟩

/-- **A reaper's recovery** adds at most one entry and ends with its own settled. -/
theorem follows_recover_entry (cfg : Settings) (task : PageTask) :
    (recover cfg task).Follows (entryProtocol task.entry) Cleared ⟨false, false, false⟩ := by
  have hpart : ∀ {α : Type} {p : Py α} {f : α → Py Unit} {φ : Progress},
      SparesQueue p → (∀ a, (f a).Follows (entryProtocol task.entry) Cleared φ) →
      (p >>= f).Follows (entryProtocol task.entry) Cleared φ := by
    intro α p f φ hp hf
    refine Prog.Follows.bind (follows_sparesQueue hp) ?_ (fun _ _ _ => trivial)
    rintro a _ rfl
    exact hf a
  have hack : ∀ φ, (ack task).Follows (entryProtocol task.entry) Cleared φ :=
    follows_settle task.entry
  refine hpart (sparesQueue_of_issued fun n id =>
    issued_getPage { task with attempt := n, entryId := id }) ?_
  rintro (_ | page)
  · exact hack _
  · simp only
    split
    · exact hack _
    · refine hpart (Prog.all_perform ⟨rfl, rfl⟩) fun now => ?_
      split
      · exact hpart (sparesQueue_of_issued fun n id =>
          @issued_forceTerminal { task with attempt := n, entryId := id } _) fun _ => hack _
      · refine hpart (sparesQueue_of_issued fun n id =>
          @issued_releaseClaim { task with attempt := n, entryId := id }) fun _ => ?_
        refine hpart (Prog.all_perform ⟨rfl, rfl⟩) fun t => ?_
        refine Prog.Follows.bind (m := fun _ _ => True) ?_ (fun _ φ' _ => hack φ')
          (fun _ _ _ => trivial)
        exact Prog.Follows.perform fun r _ => ⟨_, ⟨rfl, rfl⟩, trivial⟩

/-! What one command of a reaper does to the entry it is busy with. -/

section Moves
variable {cfg : Settings} {o : Oracle} {cmd : Cmd} {redis : Redis} {φ' : Progress}
  (hknown : (redis.streams entry.1).lastId.before entry.2 = false)
  (hmove : (entryProtocol entry).move φ cmd (cmd.exec cfg o redis).1 φ')
include hknown hmove

/-- It leaves no line if the entry is acknowledged, and adds none otherwise. -/
theorem lines_exec (hacked : φ.acked = true → (redis.streams entry.1).lines entry.2 = []) :
    (∀ p ∈ ((cmd.exec cfg o redis).2.streams entry.1).lines entry.2,
        p ∈ (redis.streams entry.1).lines entry.2) ∧
      (φ'.acked = true → ((cmd.exec cfg o redis).2.streams entry.1).lines entry.2 = []) := by
  have hkept : ((cmd.exec cfg o redis).2.streams entry.1).lines entry.2 =
      (redis.streams entry.1).lines entry.2 → φ'.acked = φ.acked →
      (∀ p ∈ ((cmd.exec cfg o redis).2.streams entry.1).lines entry.2,
          p ∈ (redis.streams entry.1).lines entry.2) ∧
        (φ'.acked = true → ((cmd.exec cfg o redis).2.streams entry.1).lines entry.2 = []) := by
    intro hsame hφ
    rw [hsame, hφ]
    exact ⟨fun p hp => hp, hacked⟩
  have hspared : cmd.settled? ≠ some entry →
      ((cmd.exec cfg o redis).2.streams entry.1).lines entry.2 =
        (redis.streams entry.1).lines entry.2 :=
    fun hother => (Redis.spares_exec cfg o hknown hother).lines
  cases cmd with
  | xack lane id =>
    obtain ⟨rfl, rfl⟩ := hmove
    rcases (Redis.lines_xack_exec cfg o redis (lane, id)).2 with hnil | ⟨hsame, hraised⟩
    · rw [hnil]
      exact ⟨fun p hp => (nomatch hp), fun _ => rfl⟩
    · exact hkept hsame (by simp [hraised])
  | xdel lane id =>
    obtain ⟨rfl, rfl⟩ := hmove
    exact hkept (Redis.stored?_xdel_exec cfg o redis (lane, id)).1 rfl
  | xaddMain fields =>
    obtain ⟨-, rfl⟩ := hmove
    exact hkept (hspared (by simp [Cmd.settled?])) rfl
  | _ =>
    obtain rfl := hmove
    exact hkept (hspared (by simp [Cmd.settled?])) rfl

/-- It leaves nothing stored if the entry is deleted. -/
theorem stored?_exec (hdeleted : φ.deleted = true → (redis.streams entry.1).stored? entry.2 = none)
    (hdone : φ'.deleted = true) :
    ((cmd.exec cfg o redis).2.streams entry.1).stored? entry.2 = none := by
  have hspared : cmd.settled? ≠ some entry → φ'.deleted = φ.deleted →
      ((cmd.exec cfg o redis).2.streams entry.1).stored? entry.2 = none := by
    intro hother hφ
    exact (Redis.spares_exec cfg o hknown hother).stored.trans (hdeleted (hφ ▸ hdone))
  cases cmd with
  | xack lane id =>
    obtain ⟨rfl, rfl⟩ := hmove
    exact (Redis.lines_xack_exec cfg o redis (lane, id)).1.trans (hdeleted hdone)
  | xdel lane id =>
    obtain ⟨rfl, rfl⟩ := hmove
    rcases (Redis.stored?_xdel_exec cfg o redis (lane, id)).2 with hnone | ⟨hsame, hraised⟩
    · exact hnone
    · rw [hraised, Bool.or_false] at hdone
      exact hsame.trans (hdeleted hdone)
  | xaddMain fields =>
    obtain ⟨-, rfl⟩ := hmove
    exact hspared (by simp [Cmd.settled?]) rfl
  | _ =>
    obtain rfl := hmove
    exact hspared (by simp [Cmd.settled?]) rfl

omit hknown in
/-- It adds a fresh entry only if none was added before. -/
theorem count_fresh_exec {fresh : List (Lane × StreamId)}
    (hfresh : fresh.count entry ≤ φ.added.toNat) :
    (if cmd.adds && !o.noEffect then fresh ++ [entry] else fresh).count entry ≤
      φ'.added.toNat := by
  cases cmd with
  | xaddMain fields =>
    obtain ⟨hnew, rfl⟩ := hmove
    simp only [hnew, Bool.toNat_false, Nat.le_zero] at hfresh
    split
    · simp [List.count_append, hfresh]
    · simp [hfresh]
  | xack lane id =>
    obtain ⟨-, rfl⟩ := hmove
    simpa [Cmd.adds] using hfresh
  | xdel lane id =>
    obtain ⟨-, rfl⟩ := hmove
    simpa [Cmd.adds] using hfresh
  | _ =>
    obtain rfl := hmove
    simpa [Cmd.adds] using hfresh

end Moves

end Entries

/-! ## One step of a reaper -/

namespace Replicas

/-- What the next step of a reaper can be: a command about the entry it is busy with; the end with
that entry; the end of its scan; a turn in its scan; the beginning with an entry; a claim, which
may be lost on it. -/
inductive Reaps (cfg : Settings) (batch : ℕ) (s : Replicas) (c : Consumer) (o : Oracle) :
    Replicas → Prop
  | work {e : Lane × StreamId} {cmd : Cmd} {k : Except Exn (Ret cmd) → Py Unit} {agenda : Agenda}
      (hscan : s.scans c = ⟨some (e, .call cmd k), agenda⟩) :
      Reaps cfg batch s c o (s.work cfg c o e cmd k agenda)
  | finish {e : Lane × StreamId} {agenda : Agenda}
      (hscan : s.scans c = ⟨some (e, .ret ()), agenda⟩) :
      Reaps cfg batch s c o (s.goOn c ⟨none, agenda⟩)
  | cut : Reaps cfg batch s c o (s.abort c)
  | turn {agenda agenda' : Agenda} (hscan : s.scans c = ⟨none, agenda⟩)
      (hperm : agenda'.held.Perm agenda.held)
      (hlisted : ∀ lane ids todo claimed, agenda' = .claiming lane ids todo claimed →
        ids = (s.redis.streams lane).orphanIds c cfg.reaperMinIdleMs batch s.now) :
      Reaps cfg batch s c o (s.goOn c ⟨none, agenda'⟩)
  | begin {agenda agenda' : Agenda} {e : Lane × StreamId} {prog : Py Unit}
      (hscan : s.scans c = ⟨none, agenda⟩) (hperm : (e :: agenda'.held).Perm agenda.held)
      (hprog : prog.Follows (entryProtocol e) Cleared ⟨false, false, false⟩)
      (hagenda : ∀ lane ids todo claimed, agenda' ≠ .claiming lane ids todo claimed) :
      Reaps cfg batch s c o (s.goOn c ⟨some (e, prog), agenda'⟩)
  | claim {lane : Lane} {ids : List StreamId} {todo : List Lane} {claimed : List PageTask}
      (hscan : s.scans c = ⟨none, .claiming lane ids todo claimed⟩) :
      Reaps cfg batch s c o (s.claim cfg c lane ids todo claimed)
  | claimLost {lane : Lane} {ids : List StreamId} {todo : List Lane} {claimed : List PageTask}
      (hscan : s.scans c = ⟨none, .claiming lane ids todo claimed⟩) :
      Reaps cfg batch s c o ((s.claim cfg c lane ids todo claimed).abort c)

theorem reaps_reap (cfg : Settings) (batch : ℕ) (s : Replicas) (c : Consumer) (o : Oracle) :
    Reaps cfg batch s c o (s.reap cfg batch c o) := by
  unfold Replicas.reap
  split
  case h_1 e cmd k agenda hscan => exact .work hscan
  case h_2 e a agenda hscan => exact .finish hscan
  case h_3 => exact .cut
  case h_4 hscan => exact .turn hscan (.refl _) (fun _ _ _ _ hagenda => nomatch hagenda)
  case h_5 claimed hscan => exact .turn hscan (.refl _) (fun _ _ _ _ hagenda => nomatch hagenda)
  case h_6 lane todo claimed hscan =>
    split
    · exact .cut
    · dsimp only
      split
      · exact .turn hscan (.refl _) (fun _ _ _ _ hagenda => nomatch hagenda)
      · refine .turn hscan (.refl _) ?_
        intro lane' ids' todo' claimed' hagenda
        obtain ⟨rfl, rfl, -, -⟩ := Agenda.claiming.inj hagenda
        rfl
  case h_7 lane ids todo claimed hscan =>
    split
    · exact .cut
    · dsimp only
      split
      · exact .claimLost hscan
      · exact .claim hscan
  case h_8 hscan => exact .turn hscan (.refl _) (fun _ _ _ _ hagenda => nomatch hagenda)
  case h_9 lane e es todo claimed hscan =>
    split
    · rename_i task htask
      obtain ⟨hlane, hid, -⟩ := parse_spec htask
      refine .turn hscan ?_ (fun _ _ _ _ hagenda => nomatch hagenda)
      have hentry : task.entry = (lane, e.id) := by rw [PageTask.entry, hlane, hid]
      simp only [Agenda.held, List.map_append, List.map_cons, List.map_nil, hentry,
        List.cons_append, ← List.append_assoc]
      exact List.perm_append_singleton _ _
    · exact .begin hscan (.refl _) (follows_settle _ _) (fun _ _ _ _ hagenda => nomatch hagenda)
  case h_10 hscan => exact .turn hscan (.refl _) (fun _ _ _ _ hagenda => nomatch hagenda)
  case h_11 task tasks hscan =>
    exact .begin hscan (.refl _) (follows_recover_entry cfg task)
      (fun _ _ _ _ hagenda => nomatch hagenda)

end Replicas

end OcrOrchestrator
