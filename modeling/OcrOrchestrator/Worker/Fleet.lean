import OcrOrchestrator.Worker.Handler

/-!
# A fleet of workers over one Redis

Any number of worker processes, each under a consumer name, run handlers and reaper
recoveries over the shared store.  A *party* is one such coroutine: it has taken a queue
entry and runs `handlePage` or `recover` on it.  One step of the fleet is one step of
somebody: a job is submitted, a worker starts, takes an entry, renews a lease or
crashes, or a party has one command answered.  Parties interleave at every command.

A batch read is modelled as its single deliveries, and every orphan a reaper claims gets
a party of its own; both only allow more interleavings than the code has.  Start-up
recovery (`read_own_pending`) happens in the `starting` stage of a process, before it
reads new entries or reaps.

Keys never expire in this fleet, so what is proved of its runs is proved of jobs whose hashes
Redis keeps; when it keeps them is the subject of `Queue.Expiry`.

Two pieces of history are kept beside the state: the commands each party has had
answered, and which party took each entry last.

## Main definitions

* `Party`, `Fleet`, `Label`, `Fleet.step` — the transition system.
* `Reach` — the states reached by steps that satisfy a condition.
* `Fleet.ZeroDrop` — every enqueued page is terminal or has an unsettled entry, while no key
  expires.
-/

namespace OcrOrchestrator

open Lib

/-- A command that was answered. -/
structure Event where
  cmd : Cmd
  answer : Except Exn (Ret cmd)

/-- Why a coroutine has the entry. -/
inductive Role where
  | handler
  | reaper
  deriving DecidableEq

/-- A live coroutine with the entry it took. -/
structure Party where
  consumer : Consumer
  task : PageTask
  role : Role
  final : Bool
  log : List Event
  prog : Py Unit

/-- Start-up recovery, then the dispatch loop. -/
inductive ProcStage where
  | starting
  | running
  deriving DecidableEq

structure Fleet where
  redis : Redis
  procs : Consumer → Option ProcStage
  parties : ℕ → Option Party
  /-- Parties are numbered in the order they start. -/
  next : ℕ
  /-- The last party that took an entry, by delivery, re-reading or `XCLAIM`. -/
  taker : Lane × StreamId → Option ℕ
  enqueued : PageKey → Bool

/-- What can happen next. -/
inductive Label where
  | initJob (job : JobId) (totalPages now : ℕ)
  | enqueue (key : PageKey) (now : ℕ) (traceId : String)
  | start (c : Consumer)
  | recoverOwn (c : Consumer) (lane : Lane) (id : StreamId) (now : ℕ)
  | ready (c : Consumer)
  | deliver (c : Consumer) (lane : Lane) (now : ℕ)
  | reap (c : Consumer) (lane : Lane) (id : StreamId) (now : ℕ)
  | renew (c : Consumer) (lane : Lane) (id : StreamId) (now : ℕ)
  | crash (c : Consumer)
  | run (t : ℕ) (o : Oracle)

namespace Party

/-- The entry the party took. -/
def entry (p : Party) : Lane × StreamId := (p.task.stream, p.task.entryId)

/-- The page the party works on. -/
def key (p : Party) : PageKey := p.task.key

/-- Is the party recovering an entry of somebody else, or of its predecessor? -/
def recovering (p : Party) : Bool := decide (p.role = .reaper) || p.task.recovered

/-- The command the party awaits. -/
def awaited (p : Party) : Option Cmd :=
  match p.prog with
  | .call c _ => some c
  | _ => none

end Party

namespace Fleet

def empty : Fleet where
  redis := Redis.empty
  procs := fun _ => none
  parties := fun _ => none
  next := 0
  taker := fun _ => none
  enqueued := fun _ => false

/-- Does some live party satisfy `q`? -/
def anyParty (f : Fleet) (q : Party → Bool) : Bool :=
  (List.range f.next).any fun t => (f.parties t).any q

theorem anyParty_eq_true {f : Fleet} {q : Party → Bool} :
    f.anyParty q = true ↔ ∃ t p, t < f.next ∧ f.parties t = some p ∧ q p = true := by
  simp only [anyParty, List.any_eq_true, List.mem_range, Option.any_eq_true]
  exact ⟨fun ⟨t, ht, p, hp, hq⟩ => ⟨t, p, ht, hp, hq⟩, fun ⟨t, p, ht, hp, hq⟩ => ⟨t, ht, p, hp, hq⟩⟩

/-- Does some live party other than `t` satisfy `q`? -/
def anyOther (f : Fleet) (t : ℕ) (q : Party → Bool) : Bool :=
  (List.range f.next).any fun t' => decide (t' ≠ t) && (f.parties t').any q

theorem anyOther_eq_true {f : Fleet} {t : ℕ} {q : Party → Bool} :
    f.anyOther t q = true ↔ ∃ t' p, t' < f.next ∧ t' ≠ t ∧ f.parties t' = some p ∧ q p = true := by
  simp only [anyOther, List.any_eq_true, List.mem_range, Bool.and_eq_true, decide_eq_true_eq,
    Option.any_eq_true]
  constructor
  · rintro ⟨t', hlt, hne, p, hp, hq⟩
    exact ⟨t', p, hlt, hne, hp, hq⟩
  · rintro ⟨t', p, hlt, hne, hp, hq⟩
    exact ⟨t', hlt, hne, p, hp, hq⟩

/-- Start a coroutine on an entry that was just taken. -/
def spawn (f : Fleet) (p : Party) : Fleet :=
  { f with
    parties := Function.update f.parties f.next (some p)
    next := f.next + 1
    taker := Function.update f.taker p.entry (some f.next) }

/-- A handler for an entry, with the final-attempt decision made at this clock reading. -/
def handler (cfg : Settings) (c : Consumer) (task : PageTask) (now : ℕ) : Party where
  consumer := c
  task
  role := .handler
  final := finalAttempt cfg task now
  log := []
  prog := handlePage cfg task (finalAttempt cfg task now)

/-- A reaper's recovery of a claimed orphan. -/
def recovery (cfg : Settings) (c : Consumer) (task : PageTask) : Party where
  consumer := c
  task
  role := .reaper
  final := false
  log := []
  prog := recover cfg task

/-- Record the answer of a command; a coroutine that returns or raises is gone. -/
def resume (f : Fleet) (t : ℕ) (p : Party) (e : Event) (prog : Py Unit) (redis : Redis) :
    Fleet :=
  { f with
    redis
    parties := Function.update f.parties t
      (match prog with
      | .call _ _ => some { p with log := e :: p.log, prog }
      | _ => none) }

/-- One step, `none` if the label is not enabled. -/
def step (cfg : Settings) (f : Fleet) : Label → Option Fleet
  | .initJob job totalPages now =>
      if (f.redis.jobs job).isSome then none
      else some { f with redis := initJob cfg now job totalPages f.redis }
  | .enqueue key now traceId =>
      if (f.redis.pages key).isNone || f.enqueued key then none
      else
        let lane := enqueueLane key
        let stream := ((f.redis.streams lane).xadd now (enqueueFields key now traceId)).2
        some { f with
          redis := f.redis.setStream lane stream
          enqueued := Function.update f.enqueued key true }
  | .start c =>
      if (f.procs c).isSome then none
      else some { f with procs := Function.update f.procs c (some .starting) }
  | .recoverOwn c lane id now =>
      if f.procs c ≠ some .starting ∨
          f.anyParty (fun p => decide (p.consumer = c ∧ p.entry = (lane, id))) then none
      else do
        let (e, stream) ← (f.redis.streams lane).readOwn c now id
        let task ← (parse lane e.id e.fields).toOption
        let task := { task with recovered := true }
        some ({ f with redis := f.redis.setStream lane stream }.spawn (handler cfg c task now))
  | .ready c =>
      if f.procs c = some .starting then
        some { f with procs := Function.update f.procs c (some .running) }
      else none
  | .deliver c lane now =>
      if f.procs c ≠ some .running then none
      else do
        let (e, stream) ← (f.redis.streams lane).deliverNext c now
        let task ← (parse lane e.id e.fields).toOption
        some ({ f with redis := f.redis.setStream lane stream }.spawn (handler cfg c task now))
  | .reap c lane id now =>
      if f.procs c ≠ some .running ∨
          ((f.redis.streams lane).owner? id).any (fun p => decide (p.consumer = c)) then none
      else do
        let (e, stream) ← (f.redis.streams lane).xclaim c cfg.reaperMinIdleMs now id
        let task ← (parse lane e.id e.fields).toOption
        some ({ f with redis := f.redis.setStream lane stream }.spawn (recovery cfg c task))
  | .renew c lane id now =>
      if f.anyParty (fun p =>
          decide (p.consumer = c ∧ p.role = .handler ∧ p.entry = (lane, id))) then do
        let (_, stream) ← (f.redis.streams lane).xclaim c 0 now id
        some { f with redis := f.redis.setStream lane stream }
      else none
  | .crash c =>
      if (f.procs c).isNone then none
      else some { f with
        procs := Function.update f.procs c none
        parties := fun t => (f.parties t).filter fun p => decide (p.consumer ≠ c) }
  | .run t o =>
      match f.parties t with
      | none => none
      | some p =>
        match p.prog with
        | .call c k =>
          let out := c.exec cfg o f.redis
          some (f.resume t p ⟨c, out.1⟩ (k out.1) out.2)
        | _ => none

/-- An entry of this page has not been deleted from its stream. -/
def Unsettled (f : Fleet) (key : PageKey) : Prop :=
  ∃ lane, ∃ e ∈ (f.redis.streams lane).entries,
    e.fields.jobId = some key.job ∧ e.fields.pageIndex = some (.int key.index)

/-- The page is in a terminal state. -/
def Terminal (f : Fleet) (key : PageKey) : Prop :=
  ∃ s, f.redis.state? key = some s ∧ s.terminal = true

/-- **No page is dropped**: every enqueued page is terminal or has an unsettled entry. -/
def ZeroDrop (f : Fleet) : Prop :=
  ∀ key, f.enqueued key = true → f.Terminal key ∨ f.Unsettled key

end Fleet

/-- The states a fleet reaches by steps that satisfy `allow`. -/
inductive Reach (cfg : Settings) (allow : Fleet → Label → Bool) : Fleet → Prop where
  | init : Reach cfg allow Fleet.empty
  | step {f f' : Fleet} {l : Label} (hf : Reach cfg allow f) (hallow : allow f l = true)
      (hstep : f.step cfg l = some f') : Reach cfg allow f'

/-- Take the steps of a list one after the other, checking each. -/
def Fleet.runAll (cfg : Settings) (allow : Fleet → Label → Bool) (f : Fleet) :
    List Label → Option Fleet
  | [] => some f
  | l :: ls =>
    if allow f l then (f.step cfg l).bind fun f' => f'.runAll cfg allow ls else none

theorem Reach.runAll {cfg : Settings} {allow : Fleet → Label → Bool} {f f' : Fleet}
    {ls : List Label} (hf : Reach cfg allow f) (h : f.runAll cfg allow ls = some f') :
    Reach cfg allow f' := by
  induction ls generalizing f with
  | nil =>
    obtain rfl := Option.some.inj h
    exact hf
  | cons l ls ih =>
    simp only [Fleet.runAll] at h
    split at h
    · rename_i hallow
      obtain ⟨g, hstep, hrun⟩ := Option.bind_eq_some_iff.mp h
      exact ih (hf.step hallow hstep) hrun
    · cases h

/-- A state with a property is reached if evaluating a list of steps leads to one. -/
theorem Reach.exists_of_runAll (cfg : Settings) (allow : Fleet → Label → Bool)
    (q : Fleet → Bool) (ls : List Label)
    (h : (Fleet.empty.runAll cfg allow ls).any q = true) :
    ∃ f, Reach cfg allow f ∧ q f = true := by
  obtain ⟨f, hf, hq⟩ := (Option.any_eq_true _ _).mp h
  exact ⟨f, Reach.init.runAll hf, hq⟩

/-! ## Concrete runs -/

/-- A command is answered at this time; a model answers with an empty object. -/
def Oracle.answer (now : ℕ) : Oracle := ⟨now, .obj [], 0, none⟩

/-- A command raises before it takes effect. -/
def Oracle.raises (now : ℕ) (exc : Exn) : Oracle := ⟨now, .null, 0, some ⟨false, exc⟩⟩

/-- The next `n` commands of the party `t` are answered. -/
def runs (t n now : ℕ) : List Label := List.replicate n (.run t (.answer now))

/-- A job of one page, run to the end by one worker. -/
def onePageJob : List Label :=
  [.initJob 0 1 1000, .enqueue ⟨0, 0⟩ 1000 "t", .start 1, .ready 1, .deliver 1 .lead 1000] ++
  runs 0 10 1000 ++ [.deliver 1 .main 1000] ++ runs 1 6 1000

/-! ## Conditions on steps -/

/-- Store and queue calls do not raise; model calls, publishing and the file system may. -/
def storeCallsSucceed (f : Fleet) : Label → Bool
  | .run t o =>
    match (f.parties t).bind Party.awaited with
    | some c => !c.isStoreOrQueue || o.fault.isNone
    | none => true
  | _ => true

/-- Publishing does not raise. -/
def publishesSucceed (f : Fleet) : Label → Bool
  | .run t o =>
    match (f.parties t).bind Party.awaited with
    | some (.publish _ _) => o.fault.isNone
    | _ => true
  | _ => true

/-- A reaper only takes entries whose holder is gone. -/
def reapsOnlyOrphans (f : Fleet) : Label → Bool
  | .reap _ lane id _ => !f.anyParty fun p => decide (p.entry = (lane, id))
  | _ => true

end OcrOrchestrator
