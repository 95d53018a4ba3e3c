import OcrOrchestrator.Worker.Fleet

/-!
# What one step of a fleet can do

`Step` says, case by case, everything that a step can do: who is alive afterwards, which
entry was taken by whom, what changed in the store.  The step function is taken apart here
and nowhere else; `Fires` keeps the labels apart for what depends on them.

## Main definitions

* `Fires`, `fires_of_step` — the labels, with their guards.
* `Taken` — an entry has been handed to a new party.
* `Step`, `step_spec` — the cases of a step.
-/

namespace OcrOrchestrator

open Lib

/-- Same entries, same ids; only the consumers in the pending list may differ. -/
structure TaskStream.SameEntries (s s' : TaskStream) : Prop where
  entries : s'.entries = s.entries
  lastId : s'.lastId = s.lastId
  lastDelivered : s'.lastDelivered = s.lastDelivered
  pending : s'.pending = s.pending

theorem TaskStream.SameEntries.refl (s : TaskStream) : s.SameEntries s := ⟨rfl, rfl, rfl, rfl⟩

/-- The label hands an entry to the party `p`, for recovery or for the first time. -/
def Label.Takes (p : Party) : Label → Prop
  | .deliver _ lane _ => p.task.stream = lane ∧ p.recovering = false
  | .recoverOwn _ lane id _ => p.entry = (lane, id) ∧ p.recovering = true ∧ p.role = .handler
  | .reap _ lane id _ => p.entry = (lane, id) ∧ p.recovering = true ∧ p.role = .reaper
  | _ => False

/-- A party that has just taken the entry `e`, and what its stream looks like now. -/
structure Taken (f : Fleet) (p : Party) (e : Entry) (stream : TaskStream) : Prop where
  log : p.log = []
  mem : e ∈ (f.redis.streams p.task.stream).entries
  id : e.id = p.task.entryId
  job : e.fields.jobId = some p.key.job
  page : e.fields.pageIndex = some (.int p.key.index)
  entries : stream.entries = (f.redis.streams p.task.stream).entries
  lastId : stream.lastId = (f.redis.streams p.task.stream).lastId
  /-- The entry is now pending under the party's consumer; other lines are as before. -/
  owner : ∀ id q, stream.owner? id = some q →
    (id = e.id ∧ q.consumer = p.consumer) ∨
      ((id = e.id → p.recovering = false) ∧
        (f.redis.streams p.task.stream).owner? id = some q)
  /-- A consumer re-reads only its own entries, and not those it is working on. -/
  reread : p.role = .handler → p.recovering = true →
    (∃ q, (f.redis.streams p.task.stream).owner? e.id = some q ∧ q.consumer = p.consumer) ∧
      f.anyParty (fun q => decide (q.consumer = p.consumer ∧ q.entry = p.entry)) = false
  how : (p.recovering = false ∧
      (f.redis.streams p.task.stream).lastDelivered.before e.id = true ∧
      stream.lastDelivered = e.id ∧
      stream.pending = (f.redis.streams p.task.stream).pending ++ [e.id]) ∨
    (p.recovering = true ∧ e.id ∈ (f.redis.streams p.task.stream).pending ∧
      stream.lastDelivered = (f.redis.streams p.task.stream).lastDelivered ∧
      stream.pending = (f.redis.streams p.task.stream).pending)

/-- Taking an entry leaves the entries of both lanes alone. -/
theorem Taken.entries_setStream {f : Fleet} {p : Party} {e : Entry} {stream : TaskStream}
    (h : Taken f p e stream) (lane : Lane) :
    ((f.redis.setStream p.task.stream stream).streams lane).entries =
      (f.redis.streams lane).entries := by
  by_cases hl : lane = p.task.stream
  · subst hl
    simp [Redis.setStream, h.entries]
  · simp [Redis.setStream, hl]

/-- The party has not run yet. -/
def Party.Starts (cfg : Settings) (p : Party) : Prop :=
  (p.role = .handler ∧ p.prog = handlePage cfg p.task p.final) ∨
    (p.role = .reaper ∧ p.prog = recover cfg p.task)

/-- What one step can do. -/
inductive Step (cfg : Settings) (f : Fleet) : Label → Fleet → Prop
  | submit (job : JobId) (totalPages now : ℕ) (hnew : f.redis.jobs job = none) :
      Step cfg f (.initJob job totalPages now)
        { f with redis := initJob cfg now job totalPages f.redis }
  | enqueue (key : PageKey) (now : ℕ) (traceId : String)
      (hpage : (f.redis.pages key).isSome = true) (hnew : f.enqueued key = false) :
      Step cfg f (.enqueue key now traceId)
        { f with
          redis := f.redis.setStream (enqueueLane key)
            ((f.redis.streams (enqueueLane key)).xadd now (enqueueFields key now traceId)).2
          enqueued := Function.update f.enqueued key true }
  | idle (l : Label) (procs : Consumer → Option ProcStage) (streams : Lane → TaskStream)
      (h : ∀ lane, (f.redis.streams lane).SameEntries (streams lane))
      (howner : ∀ lane id q, (streams lane).owner? id = some q →
        (f.redis.streams lane).owner? id = some q ∨
          f.anyParty (fun p => decide (p.consumer = q.consumer ∧ p.entry = (lane, id))) = true) :
      Step cfg f l { f with procs, redis := { f.redis with streams } }
  | take {l : Label} {p : Party} {e : Entry} {stream : TaskStream} (hl : l.Takes p)
      (h : Taken f p e stream) (hstarts : p.Starts cfg) :
      Step cfg f l ({ f with redis := f.redis.setStream p.task.stream stream }.spawn p)
  | crash (c : Consumer) :
      Step cfg f (.crash c)
        { f with
          procs := Function.update f.procs c none
          parties := fun t => (f.parties t).filter fun p => decide (p.consumer ≠ c) }
  | run {t : ℕ} {o : Oracle} {p : Party} {c : Cmd} {k : Except Exn (Ret c) → Py Unit}
      (hparty : f.parties t = some p) (hprog : p.prog = .call c k) :
      Step cfg f (.run t o)
        (f.resume t p ⟨c, (c.exec cfg o f.redis).1⟩ (k (c.exec cfg o f.redis).1)
          (c.exec cfg o f.redis).2)

section Step
variable {cfg : Settings} {f f' : Fleet}

/-! ## Who is alive afterwards -/

theorem resume_parties_self {t : ℕ} {p q : Party} {e : Event} {prog : Py Unit} {s : Redis}
    (h : (f.resume t p e prog s).parties t = some q) :
    q = { p with log := e :: p.log, prog } := by
  simp only [Fleet.resume, Function.update_self] at h
  split at h
  · exact (Option.some.inj h).symm
  · cases h

theorem resume_parties_call {t : ℕ} {p : Party} {e : Event} {prog : Py Unit} {s : Redis} {c : Cmd}
    {k : Except Exn (Ret c) → Py Unit} (h : prog = .call c k) :
    (f.resume t p e prog s).parties t = some { p with log := e :: p.log, prog } := by
  subst h
  simp [Fleet.resume]

theorem resume_parties_ne {t t' : ℕ} {p : Party} {e : Event} {prog : Py Unit} {s : Redis}
    (h : t' ≠ t) : (f.resume t p e prog s).parties t' = f.parties t' := by
  simp [Fleet.resume, h]

theorem spawn_parties_self {p : Party} : (f.spawn p).parties f.next = some p := by
  simp [Fleet.spawn]

theorem spawn_parties_ne {p : Party} {t : ℕ} (h : t ≠ f.next) :
    (f.spawn p).parties t = f.parties t := by
  simp [Fleet.spawn, h]

/-! ## Taking the step function apart -/

theorem ok_of_toOption {α : Type} {x : Except Exn α} {a : α} (h : x.toOption = some a) :
    x = .ok a := by
  cases x with
  | error e => cases h
  | ok b => exact congrArg _ (Option.some.inj h)

/-- A delivery is the first time an entry is taken. -/
theorem taken_deliver {e : Entry} {stream : TaskStream} {lane : Lane} {c : Consumer} {now : ℕ}
    {task : PageTask} (h : (f.redis.streams lane).deliverNext c now = some (e, stream))
    (htask : parse lane e.id e.fields = .ok task) :
    Taken f (Fleet.handler cfg c task now) e stream := by
  obtain ⟨hlane, hid, hrec, hjob, hpage⟩ := parse_spec htask
  obtain ⟨hmem, hbefore, hentries, hlast, hdeliv, hpel⟩ := TaskStream.deliverNext_spec h
  subst hlane
  have hfirst : (Fleet.handler cfg c task now).recovering = false := by
    simp [Party.recovering, Fleet.handler, hrec]
  refine ⟨rfl, hmem, hid.symm, hjob, hpage, hentries, hlast, ?_, ?_,
    .inl ⟨hfirst, hbefore, hdeliv, ?_⟩⟩
  · intro id q hq
    rcases TaskStream.owner?_deliver hpel hq with hold | hnew
    · exact .inr ⟨fun _ => hfirst, hold⟩
    · exact .inl hnew
  · intro _ h
    rw [hfirst] at h
    cases h
  · simp [TaskStream.pending, hpel, Fleet.handler]

/-- A claim, one's own or another's, takes an entry again. -/
theorem taken_xclaim {e : Entry} {stream : TaskStream} {lane : Lane} {c : Consumer}
    {minIdle now : ℕ} {id : StreamId} {task : PageTask} {p : Party}
    (h : (f.redis.streams lane).xclaim c minIdle now id = some (e, stream))
    (htask : parse lane e.id e.fields = .ok task) (hkey : p.key = task.key)
    (hstream : p.task.stream = task.stream) (hentry : p.task.entryId = task.entryId)
    (hlog : p.log = []) (hrec : p.recovering = true) (hc : p.consumer = c)
    (hreread : p.role = .handler →
      (∃ q, (f.redis.streams lane).owner? id = some q ∧ q.consumer = c) ∧
        f.anyParty (fun q => decide (q.consumer = c ∧ q.entry = (lane, id))) = false) :
    Taken f p e stream ∧ p.entry = (lane, id) := by
  obtain ⟨hlane, hid, -, hjob, hpage⟩ := parse_spec htask
  obtain ⟨hmem, heid, howner, hentries, hlast, hdeliv, hpel⟩ := TaskStream.xclaim_spec h
  subst hlane hc
  have hpentry : p.entry = (task.stream, id) := by
    simp only [Party.entry, hstream, hentry, hid, heid]
  refine ⟨⟨hlog, hstream ▸ hmem, by rw [hentry, hid], by rw [hkey]; exact hjob,
    by rw [hkey]; exact hpage, hstream ▸ hentries, hstream ▸ hlast, ?_, ?_,
    .inr ⟨hrec, ?_, ?_, ?_⟩⟩, hpentry⟩
  · intro id' q hq
    rcases TaskStream.owner?_xclaim hpel hq with hnew | ⟨hne, hold⟩
    · exact .inl ⟨hnew.1.trans heid.symm, hnew.2⟩
    · exact .inr ⟨fun h => absurd (h.trans heid) hne, hstream ▸ hold⟩
  · intro hrole _
    rw [hstream, heid, hpentry]
    exact hreread hrole
  · rw [hstream, heid]
    exact TaskStream.mem_pending_of_owner howner
  · rw [hstream]
    exact hdeliv
  · rw [hstream]
    exact TaskStream.pending_xclaim hpel

/-- The label is enabled, and this is what it does. -/
inductive Fires (cfg : Settings) (f : Fleet) : Label → Fleet → Prop
  | initJob (job : JobId) (totalPages now : ℕ) (hnew : f.redis.jobs job = none) :
      Fires cfg f (.initJob job totalPages now)
        { f with redis := initJob cfg now job totalPages f.redis }
  | enqueue (key : PageKey) (now : ℕ) (traceId : String)
      (hpage : (f.redis.pages key).isSome = true) (hnew : f.enqueued key = false) :
      Fires cfg f (.enqueue key now traceId)
        { f with
          redis := f.redis.setStream (enqueueLane key)
            ((f.redis.streams (enqueueLane key)).xadd now (enqueueFields key now traceId)).2
          enqueued := Function.update f.enqueued key true }
  | start (c : Consumer) (hnew : f.procs c = none) :
      Fires cfg f (.start c) { f with procs := Function.update f.procs c (some .starting) }
  | ready (c : Consumer) (hproc : f.procs c = some .starting) :
      Fires cfg f (.ready c) { f with procs := Function.update f.procs c (some .running) }
  | recoverOwn {c : Consumer} {lane : Lane} {id : StreamId} {now : ℕ} {e : Entry}
      {stream : TaskStream} {task : PageTask} (hproc : f.procs c = some .starting)
      (hfree : f.anyParty (fun p => decide (p.consumer = c ∧ p.entry = (lane, id))) = false)
      (hread : (f.redis.streams lane).readOwn c now id = some (e, stream))
      (htask : parse lane e.id e.fields = .ok task) :
      Fires cfg f (.recoverOwn c lane id now)
        ({ f with redis := f.redis.setStream lane stream }.spawn
          (Fleet.handler cfg c { task with recovered := true } now))
  | deliver {c : Consumer} {lane : Lane} {now : ℕ} {e : Entry} {stream : TaskStream}
      {task : PageTask} (hproc : f.procs c = some .running)
      (hread : (f.redis.streams lane).deliverNext c now = some (e, stream))
      (htask : parse lane e.id e.fields = .ok task) :
      Fires cfg f (.deliver c lane now)
        ({ f with redis := f.redis.setStream lane stream }.spawn (Fleet.handler cfg c task now))
  | reap {c : Consumer} {lane : Lane} {id : StreamId} {now : ℕ} {e : Entry} {stream : TaskStream}
      {task : PageTask} (hproc : f.procs c = some .running)
      (hother : ((f.redis.streams lane).owner? id).any (fun p => decide (p.consumer = c)) = false)
      (hread : (f.redis.streams lane).xclaim c cfg.reaperMinIdleMs now id = some (e, stream))
      (htask : parse lane e.id e.fields = .ok task) :
      Fires cfg f (.reap c lane id now)
        ({ f with redis := f.redis.setStream lane stream }.spawn (Fleet.recovery cfg c task))
  | renew {c : Consumer} {lane : Lane} {id : StreamId} {now : ℕ} {e : Entry} {stream : TaskStream}
      (hheld : f.anyParty (fun p =>
        decide (p.consumer = c ∧ p.role = .handler ∧ p.entry = (lane, id))) = true)
      (hclaim : (f.redis.streams lane).xclaim c 0 now id = some (e, stream)) :
      Fires cfg f (.renew c lane id now) { f with redis := f.redis.setStream lane stream }
  | crash (c : Consumer) (hproc : (f.procs c).isSome = true) :
      Fires cfg f (.crash c)
        { f with
          procs := Function.update f.procs c none
          parties := fun t => (f.parties t).filter fun p => decide (p.consumer ≠ c) }
  | run {t : ℕ} {o : Oracle} {p : Party} {c : Cmd} {k : Except Exn (Ret c) → Py Unit}
      (hparty : f.parties t = some p) (hprog : p.prog = .call c k) :
      Fires cfg f (.run t o)
        (f.resume t p ⟨c, (c.exec cfg o f.redis).1⟩ (k (c.exec cfg o f.redis).1)
          (c.exec cfg o f.redis).2)

/-- The three labels that hand out an entry read it, parse it and spawn a party. -/
theorem spawn_of_step {read : Option (Entry × TaskStream)} {lane : Lane}
    {party : PageTask → Party}
    (h : (do
      let (e, stream) ← read
      let task ← (parse lane e.id e.fields).toOption
      some ({ f with redis := f.redis.setStream lane stream }.spawn (party task))) = some f') :
    ∃ e stream task, read = some (e, stream) ∧ parse lane e.id e.fields = .ok task ∧
      f' = { f with redis := f.redis.setStream lane stream }.spawn (party task) := by
  obtain ⟨⟨e, stream⟩, hread, hrest⟩ := Option.bind_eq_some_iff.mp h
  obtain ⟨task, htask, hsome⟩ := Option.bind_eq_some_iff.mp hrest
  exact ⟨e, stream, task, hread, ok_of_toOption htask, (Option.some.inj hsome).symm⟩

theorem fires_of_step {l : Label} (hstep : f.step cfg l = some f') : Fires cfg f l f' := by
  cases l with
  | initJob job totalPages now =>
    simp only [Fleet.step] at hstep
    split at hstep
    next => cases hstep
    next hjob =>
      obtain rfl := Option.some.inj hstep
      exact .initJob job totalPages now (by simpa using hjob)
  | enqueue key now traceId =>
    simp only [Fleet.step] at hstep
    split at hstep
    next => cases hstep
    next hcond =>
      obtain rfl := Option.some.inj hstep
      simp only [Bool.or_eq_true, not_or, Bool.not_eq_true, Option.isNone_eq_false_iff] at hcond
      exact .enqueue key now traceId hcond.1 hcond.2
  | start c =>
    simp only [Fleet.step] at hstep
    split at hstep
    next => cases hstep
    next hnew =>
      obtain rfl := Option.some.inj hstep
      exact .start c (by simpa using hnew)
  | ready c =>
    simp only [Fleet.step] at hstep
    split at hstep
    next hproc =>
      obtain rfl := Option.some.inj hstep
      exact .ready c hproc
    next => cases hstep
  | recoverOwn c lane id now =>
    simp only [Fleet.step] at hstep
    split at hstep
    next => cases hstep
    next hcond =>
      simp only [not_or, Bool.not_eq_true, ne_eq, not_not] at hcond
      obtain ⟨e, stream, task, hread, htask, rfl⟩ := spawn_of_step hstep
      exact .recoverOwn hcond.1 hcond.2 hread htask
  | deliver c lane now =>
    simp only [Fleet.step] at hstep
    split at hstep
    next => cases hstep
    next hcond =>
      obtain ⟨e, stream, task, hread, htask, rfl⟩ := spawn_of_step hstep
      exact .deliver (not_not.mp hcond) hread htask
  | reap c lane id now =>
    simp only [Fleet.step] at hstep
    split at hstep
    next => cases hstep
    next hcond =>
      simp only [not_or, Bool.not_eq_true, ne_eq, not_not] at hcond
      obtain ⟨e, stream, task, hread, htask, rfl⟩ := spawn_of_step hstep
      exact .reap hcond.1 hcond.2 hread htask
  | renew c lane id now =>
    simp only [Fleet.step] at hstep
    split at hstep
    next hheld =>
      obtain ⟨⟨e, stream⟩, hclaim, hsome⟩ := Option.bind_eq_some_iff.mp hstep
      obtain rfl := Option.some.inj hsome
      exact .renew hheld hclaim
    next => cases hstep
  | crash c =>
    simp only [Fleet.step] at hstep
    split at hstep
    next => cases hstep
    next hproc =>
      obtain rfl := Option.some.inj hstep
      exact .crash c (by simpa [Option.isSome_iff_ne_none] using hproc)
  | run t o =>
    simp only [Fleet.step] at hstep
    cases hparty : f.parties t with
    | none => simp [hparty] at hstep
    | some p =>
      cases hprog : p.prog with
      | ret a => simp [hparty, hprog] at hstep
      | raise e => simp [hparty, hprog] at hstep
      | call c k =>
        simp only [hparty, hprog, Option.some.injEq] at hstep
        subst hstep
        exact .run hparty hprog

/-- A renewal changes who holds the entry, to somebody who works on it. -/
theorem step_renew {c : Consumer} {lane : Lane} {id : StreamId} {now : ℕ} {e : Entry}
    {stream : TaskStream} (hheld : f.anyParty (fun p =>
      decide (p.consumer = c ∧ p.role = .handler ∧ p.entry = (lane, id))) = true)
    (hclaim : (f.redis.streams lane).xclaim c 0 now id = some (e, stream)) :
    Step cfg f (.renew c lane id now) { f with redis := f.redis.setStream lane stream } := by
  obtain ⟨-, -, -, hentries, hlast, hdeliv, hpel⟩ := TaskStream.xclaim_spec hclaim
  refine .idle _ f.procs _ ?_ ?_
  · intro lane'
    by_cases hl : lane' = lane
    · subst hl
      simp only [Function.update_self]
      exact ⟨hentries, hlast, hdeliv, TaskStream.pending_xclaim hpel⟩
    · simp only [ne_eq, hl, not_false_eq_true, Function.update_of_ne]
      exact .refl _
  · intro lane' id' q hq
    by_cases hl : lane' = lane
    · subst hl
      simp only [Function.update_self] at hq
      rcases TaskStream.owner?_xclaim hpel hq with ⟨rfl, rfl⟩ | ⟨-, hold⟩
      · refine .inr ?_
        obtain ⟨t, p, ht, hp, hholds⟩ := Fleet.anyParty_eq_true.mp hheld
        refine Fleet.anyParty_eq_true.mpr ⟨t, p, ht, hp, ?_⟩
        simp only [decide_eq_true_eq] at hholds ⊢
        exact ⟨hholds.1, hholds.2.2⟩
      · exact .inl hold
    · simp only [ne_eq, hl, not_false_eq_true, Function.update_of_ne] at hq
      exact .inl hq

/-- **Every step** is one of the cases. -/
theorem step_spec {l : Label} (hstep : f.step cfg l = some f') : Step cfg f l f' := by
  cases fires_of_step hstep with
  | initJob job totalPages now hnew => exact .submit job totalPages now hnew
  | enqueue key now traceId hpage hnew => exact .enqueue key now traceId hpage hnew
  | start c => exact .idle _ _ f.redis.streams (fun _ => .refl _) (fun _ _ _ => .inl)
  | ready c => exact .idle _ _ f.redis.streams (fun _ => .refl _) (fun _ _ _ => .inl)
  | renew hheld hclaim => exact step_renew hheld hclaim
  | @recoverOwn c lane id now e stream task _ hfree hread htask =>
    obtain ⟨hclaim, hown⟩ := TaskStream.readOwn_spec hread
    obtain ⟨htaken, hentry⟩ := taken_xclaim
      (p := Fleet.handler cfg c { task with recovered := true } now)
      hclaim htask rfl rfl rfl rfl (by simp [Party.recovering, Fleet.handler]) rfl
      (fun _ => ⟨hown, hfree⟩)
    obtain rfl : task.stream = lane := (parse_spec htask).1
    have htakes : Label.Takes (Fleet.handler cfg c { task with recovered := true } now)
        (.recoverOwn c task.stream id now) :=
      ⟨hentry, by simp [Party.recovering, Fleet.handler], rfl⟩
    exact .take htakes htaken (.inl ⟨rfl, rfl⟩)
  | @deliver c lane now e stream task _ hread htask =>
    obtain ⟨rfl, -, hrec, -, -⟩ := parse_spec htask
    have htakes : Label.Takes (Fleet.handler cfg c task now) (.deliver c task.stream now) :=
      ⟨rfl, by simp [Party.recovering, Fleet.handler, hrec]⟩
    exact .take htakes (taken_deliver hread htask) (.inl ⟨rfl, rfl⟩)
  | @reap c lane id now e stream task _ _ hread htask =>
    obtain ⟨htaken, hentry⟩ := taken_xclaim (p := Fleet.recovery cfg c task) hread htask
      rfl rfl rfl rfl (by simp [Party.recovering, Fleet.recovery]) rfl
      (fun h => by cases h)
    obtain rfl : task.stream = lane := (parse_spec htask).1
    have htakes : Label.Takes (Fleet.recovery cfg c task) (.reap c task.stream id now) :=
      ⟨hentry, by simp [Party.recovering, Fleet.recovery], rfl⟩
    exact .take htakes htaken (.inr ⟨rfl, rfl⟩)
  | crash c => exact .crash c
  | run hparty hprog => exact .run hparty hprog

end Step

end OcrOrchestrator
