import OcrOrchestrator.Lib.Protocol
import OcrOrchestrator.Worker.Checkpoint

/-!
# Chains of requeues

A page that is put back gets a fresh entry, and the fresh entry may be put back again: by a
worker after a saturation, a crash or a stage handoff, or by a reaper.  The entries of one
page so form a chain.  Whoever puts an entry back has parsed it first, so what a chain keeps
of its first entry went through the encoding and its fallbacks once for every link.

A link is not read off the branches of the programs.  It says that the party's program, given
some answers, got to the `XADD` of `requeue`; the answers are arbitrary, so whatever other
parties do meanwhile and whatever raises is included.

The worker and the reaper test the budget of a page each on their own.  The worker looks at
both age thresholds and at the count, the reaper at the deadline and at the count.

## Main definitions

* `Requeue`, `Requeue.Performed` — one link, and when a party performs it.
* `Chain` — a first entry and the requeues after it.
* `Chain.Lawful` — identity and age are kept, the attempts count the requeues and stay under
  the ceiling, and no final attempt is put back.
* `Requeue.Timely` — the links that do what they should.
-/

namespace OcrOrchestrator

open Lib

/-! ## One requeue -/

/-- The clock reading that came first among some answers, which are listed newest first. -/
def firstReading : List ((c : Cmd) × Except Exn (Ret c)) → Option ℕ
  | [] => none
  | ⟨.time, .ok now⟩ :: log => some ((firstReading log).getD now)
  | _ :: log => firstReading log

/-- A requeue: the delivery that was put back, who put it back, the time at which its age was
judged, whether it was charged to the attempts, and the time stamp of the new entry. -/
structure Requeue where
  task : PageTask
  role : Role
  decidedAt : ℕ
  counted : Bool
  writtenAt : ℕ

namespace Requeue

/-- The entry that is added. -/
def fields (r : Requeue) : RawTask := requeueFields r.task r.counted r.writtenAt

/-- What the party runs. -/
def program (cfg : Settings) (r : Requeue) : Py Unit :=
  match r.role with
  | .handler => handlePage cfg r.task (finalAttempt cfg r.task r.decidedAt)
  | .reaper => recover cfg r.task

/-- With some answers, the party's program adds the entry.  A worker judges the age before
its program starts, a reaper by the first time it reads the clock. -/
def Performed (cfg : Settings) (r : Requeue) : Prop :=
  ∃ log answer rest, (r.program cfg).After (⟨.xaddMain r.fields, answer⟩ :: log) rest ∧
    (r.role = .reaper → firstReading log = some r.decidedAt)

/-- Nothing that counts as unset is passed on as the page's age, and a reaper does not put a
page back that a worker would no longer hold out for. -/
structure Timely (cfg : Settings) (r : Requeue) : Prop where
  stamped : r.task.firstEnqueuedAtMs = 0 → r.task.enqueuedAtMs = 0
  young : r.role = .reaper → (r.task.ageMs r.decidedAt / 1000 : ℚ) < cfg.degradeAfterS

end Requeue

/-! ## Chains -/

/-- The newest entry after some requeues, which are listed newest first. -/
def newestEntry (first : RawTask) : List Requeue → RawTask
  | [] => first
  | r :: _ => r.fields

/-- Each requeue puts back the entry before it. -/
inductive Chain (cfg : Settings) (first : RawTask) : List Requeue → Prop
  | first : Chain cfg first []
  | requeue {rs : List Requeue} {r : Requeue} (h : Chain cfg first rs)
      (hread : parse r.task.stream r.task.entryId (newestEntry first rs) =
        .ok { r.task with recovered := false })
      (hdone : r.Performed cfg) : Chain cfg first (r :: rs)

/-- The same page, trace and age. -/
structure PageTask.SameOrigin (task₀ task : PageTask) : Prop where
  jobId : task.jobId = task₀.jobId
  pageIndex : task.pageIndex = task₀.pageIndex
  traceId : task.traceId = task₀.traceId
  firstEnqueuedAtMs : task.firstEnqueuedAtMs = task₀.firstEnqueuedAtMs

/-- **What the requeues of a page should do**: every entry on the chain parses to the page,
trace and age of the first, its attempt is the number of requeues that were charged and stays
under the ceiling, and no delivery that is the worker's final attempt is put back at the
expense of an attempt. -/
structure Chain.Lawful (cfg : Settings) (first : RawTask) (rs : List Requeue) : Prop where
  kept : ∀ rs', rs' <:+ rs → ∀ lane id, ∃ task₀ task,
    parse lane id first = .ok task₀ ∧ parse lane id (newestEntry first rs') = .ok task ∧
      task₀.SameOrigin task ∧ task.attempt = rs'.countP (·.counted) ∧
      task.attempt ≤ cfg.effectiveMaxRequeues - 1
  inBudget : ∀ r ∈ rs, r.counted = true → finalAttempt cfg r.task r.decidedAt = false

/-! ## What the programs add -/

section Programs
variable {cfg : Settings} {task : PageTask} {final : Bool}

/-- The entry that a requeue adds tells whether the requeue is charged. -/
theorem requeueFields_counted {counted counted' : Bool} {t t' : ℕ}
    (h : requeueFields task counted t = requeueFields task counted' t') : counted = counted' := by
  have hattempt := congrArg RawTask.attempt h
  simp only [requeueFields, Option.some.injEq, RawValue.int.injEq] at hattempt
  cases counted <;> cases counted' <;> simp at hattempt ⊢

/-- A program that adds no entry. -/
abbrev AddsNothing {α : Type} (p : Py α) : Prop := p.All fun c => ∀ fields, c ≠ .xaddMain fields

/-- A program that is about the page, the job or the entry of a task, whatever its attempt, adds
nothing. -/
theorem addsNothing_of_issued {α : Type} {p : Py α}
    (h : ∀ n, IssuedProg { task with attempt := n } p) : AddsNothing p := by
  refine ((h 0).and (h 2)).mono ?_
  rintro c ⟨h0, h2⟩
  exact h0.ne_xaddMain h2 (by simp)

theorem addsNothing_ack (task : PageTask) : AddsNothing (ack task) :=
  addsNothing_of_issued fun n => issued_ack { task with attempt := n }

theorem addsNothing_releaseClaim (task : PageTask) : AddsNothing (releaseClaim task.key) :=
  addsNothing_of_issued fun n => @issued_releaseClaim { task with attempt := n }

theorem addsNothing_forceTerminal (task : PageTask) (reason : String) :
    AddsNothing (forceTerminal true task.key reason) :=
  addsNothing_of_issued fun n => @issued_forceTerminal { task with attempt := n } reason

/-- Settling an entry for good, with the clean-up after it. -/
theorem addsNothing_settle (task : PageTask) :
    AddsNothing (do ack task; maybeDeleteDocument task.jobId : Py Unit) :=
  addsNothing_of_issued fun n => Prog.all_bind (issued_ack { task with attempt := n }) fun _ =>
    issued_maybeDeleteDocument { task with attempt := n }

/-- What a worker may add: the replacement of its entry, charged only if this is not the final
attempt. -/
def WorkerAdds (task : PageTask) (final : Bool) (c : Cmd) : Prop :=
  ∀ fields, c = .xaddMain fields →
    ∃ counted t, fields = requeueFields task counted t ∧ (counted = true → final = false)

theorem workerAdds_of_addsNothing {α : Type} {p : Py α} (h : AddsNothing p) :
    p.All (WorkerAdds task final) :=
  h.mono fun _ hc fields hadd => absurd hadd (hc fields)

theorem workerAdds_requeue {counted : Bool} (h : counted = true → final = false) :
    (requeue task counted).All (WorkerAdds task final) := by
  refine Prog.all_bind (Prog.all_perform fun _ hadd => nomatch hadd) fun t => ?_
  refine Prog.all_bind (Prog.all_perform ?_) fun _ =>
    workerAdds_of_addsNothing (addsNothing_ack task)
  intro fields hadd
  exact ⟨counted, t, (Cmd.xaddMain.inj hadd).symm, h⟩

/-- **The worker** charges a requeue only if it is not on the final attempt. -/
theorem workerAdds_handlePage : (handlePage cfg task final).All (WorkerAdds task final) := by
  refine Prog.all_bind (Prog.all_perform fun _ hadd => nomatch hadd) fun _ => Prog.all_bind ?_ ?_
  · refine Prog.all_tryCatch (Prog.all_bind ?_ fun _ => trivial) fun exc => ?_
    · exact workerAdds_of_addsNothing (addsNothing_of_issued fun n =>
        @issued_processPage { task with attempt := n } _ _ _)
    · split
      · refine Prog.all_bind ?_ fun _ => trivial
        unfold onPageCrash
        split
        · exact Prog.all_bind (workerAdds_of_addsNothing (addsNothing_forceTerminal task _))
            fun _ => workerAdds_of_addsNothing (addsNothing_settle task)
        · rename_i hfinal
          exact Prog.all_bind (workerAdds_of_addsNothing (addsNothing_releaseClaim task))
            fun _ => workerAdds_requeue fun _ => by simpa using hfinal
      · trivial
  · rintro (_ | result)
    · trivial
    · simp only
      split
      · exact workerAdds_requeue (by simp)
      · split
        · rename_i hsaturated
          exact workerAdds_requeue fun _ => by simpa using hsaturated.2
        · exact workerAdds_of_addsNothing (addsNothing_settle task)

/-- What a reaper may add: the replacement of its entry, charged, if the first clock reading has
found budget left. -/
def ReaperAdds (cfg : Settings) (task : PageTask)
    (log : List ((c : Cmd) × Except Exn (Ret c))) (c : Cmd) : Prop :=
  ∀ fields, c = .xaddMain fields → ∃ now, firstReading log = some now ∧
    exhausted cfg task now = false ∧ ∃ t, fields = requeueFields task true t

/-- Later answers do not change which reading came first. -/
theorem firstReading_suffix {log log' : List ((c : Cmd) × Except Exn (Ret c))} {now : ℕ}
    (h : firstReading log = some now) (hlog : log <:+ log') : firstReading log' = some now := by
  obtain ⟨newer, rfl⟩ := hlog
  induction newer with
  | nil => exact h
  | cons e newer ih =>
    rw [List.cons_append]
    unfold firstReading
    split
    · rename_i heq
      cases heq
    · rename_i heq
      obtain ⟨-, rfl⟩ := List.cons.inj heq
      rw [ih]
      rfl
    · rename_i heq
      obtain ⟨-, rfl⟩ := List.cons.inj heq
      exact ih

/-- A part that adds nothing leaves the first reading as it was. -/
theorem follows_addsNothing {α : Type} {p : Py α} {log : List ((c : Cmd) × Except Exn (Ret c))}
    (h : AddsNothing p) :
    p.Follows (Protocol.logged (ReaperAdds cfg task)) (fun _ log' => log <:+ log') log :=
  h.follows fun _ _ hc fields hadd => absurd hadd (hc fields)

/-- **The reaper** puts a page back only if its first clock reading has found budget left. -/
theorem reaperAdds_recover :
    (recover cfg task).Follows (Protocol.logged (ReaperAdds cfg task)) (fun _ _ => True) [] := by
  have hack : ∀ log, (ack task).Follows (Protocol.logged (ReaperAdds cfg task))
      (fun _ _ => True) log :=
    fun log => (follows_addsNothing (addsNothing_ack task)).mono fun _ _ _ => trivial
  refine Prog.Follows.bind (m := fun _ log => ∃ r, log = [⟨.hgetallPage task.key, r⟩]) ?_ ?_ ?_
  · exact Prog.Follows.perform fun r _ => ⟨_, ⟨fun _ h => (nomatch h), rfl⟩, r, rfl⟩
  · rintro (_ | page) log ⟨r, rfl⟩
    · exact hack _
    · simp only
      split
      · exact hack _
      -- the clock is read for the first time here
      refine Prog.Follows.bind (m := fun answer log => ∀ now, answer = .ok now →
        firstReading log = some now) ?_ ?_ (fun _ _ _ => trivial)
      · refine Prog.Follows.perform fun answer _ => ⟨_, ⟨fun _ h => (nomatch h), rfl⟩, ?_⟩
        rintro now rfl
        rfl
      · intro now log hnow
        have hfirst := hnow now rfl
        split
        · exact Prog.Follows.bind (follows_addsNothing (addsNothing_forceTerminal task _))
            (fun _ _ _ => hack _) (fun _ _ _ => trivial)
        · rename_i hbudget
          refine Prog.Follows.bind (follows_addsNothing (addsNothing_releaseClaim task)) ?_
            (fun _ _ _ => trivial)
          intro _ log' hlog'
          refine Prog.Follows.bind (m := fun _ log'' => firstReading log'' = some now) ?_ ?_
            (fun _ _ _ => trivial)
          · exact Prog.Follows.perform fun answer _ => ⟨_, ⟨fun _ h => (nomatch h), rfl⟩,
              firstReading_suffix (firstReading_suffix hfirst hlog') (List.suffix_cons _ _)⟩
          · intro t log'' hlog''
            refine Prog.Follows.bind (m := fun _ _ => True) ?_ (fun _ _ _ => hack _)
              (fun _ _ _ => trivial)
            refine Prog.Follows.perform fun answer _ => ⟨_, ⟨?_, rfl⟩, trivial⟩
            intro fields hadd
            exact ⟨now, hlog'', by simpa using hbudget, t, (Cmd.xaddMain.inj hadd).symm⟩
  · exact fun _ _ _ => trivial

end Programs

namespace Requeue
variable {cfg : Settings} {r : Requeue}

/-- A worker's charged requeue is not of a final attempt. -/
theorem Performed.of_handler (h : r.Performed cfg) (hrole : r.role = .handler)
    (hcounted : r.counted = true) : finalAttempt cfg r.task r.decidedAt = false := by
  obtain ⟨log, answer, rest, hafter, -⟩ := h
  simp only [program, hrole] at hafter
  obtain ⟨counted, t, hfields, hfinal⟩ :=
    (hafter.all workerAdds_handlePage).2 _ List.mem_cons_self _ rfl
  exact hfinal (requeueFields_counted hfields ▸ hcounted)

/-- A reaper's requeue is charged, and of a page with budget left. -/
theorem Performed.of_reaper (h : r.Performed cfg) (hrole : r.role = .reaper) :
    r.counted = true ∧ exhausted cfg r.task r.decidedAt = false := by
  obtain ⟨log, answer, rest, hafter, hdecided⟩ := h
  simp only [program, hrole] at hafter
  obtain ⟨now, hnow, hbudget, t, hfields⟩ := hafter.allowed reaperAdds_recover _ rfl
  obtain rfl : now = r.decidedAt := Option.some.inj (hnow.symm.trans (hdecided hrole))
  exact ⟨requeueFields_counted hfields, hbudget⟩

/-- Whoever charges a requeue has found the count under the ceiling. -/
theorem Performed.attempt_lt (h : r.Performed cfg) (hcounted : r.counted = true) :
    r.task.attempt + 1 < cfg.effectiveMaxRequeues := by
  cases hrole : r.role with
  | handler =>
    have hfinal := h.of_handler hrole hcounted
    simp only [finalAttempt, Bool.or_eq_false_iff, decide_eq_false_iff_not, not_le] at hfinal
    exact hfinal.2
  | reaper =>
    have hbudget := (h.of_reaper hrole).2
    simp only [exhausted, Bool.or_eq_false_iff, decide_eq_false_iff_not, not_le] at hbudget
    exact hbudget.2

/-- Where the worker sees a final attempt and the reaper budget left, the page is past the age
at which it stops holding out for full fidelity. -/
theorem finalAttempt_of_not_exhausted {task : PageTask} {now : ℕ}
    (h : exhausted cfg task now = false) :
    finalAttempt cfg task now = decide (cfg.degradeAfterS ≤ (task.ageMs now / 1000 : ℚ)) := by
  simp only [exhausted, Bool.or_eq_false_iff] at h
  simp only [finalAttempt, h.1, h.2, Bool.or_false]

/-- **A requeue charges no final attempt** exactly if it is not a reaper's requeue of a page
past that age. -/
theorem Performed.inBudget_iff (h : r.Performed cfg) :
    (r.counted = true → finalAttempt cfg r.task r.decidedAt = false) ↔
      (r.role = .reaper → (r.task.ageMs r.decidedAt / 1000 : ℚ) < cfg.degradeAfterS) := by
  cases hrole : r.role with
  | handler => simpa using h.of_handler hrole
  | reaper =>
    obtain ⟨hcounted, hbudget⟩ := h.of_reaper hrole
    simp [hcounted, finalAttempt_of_not_exhausted hbudget]

end Requeue

/-! ## Along a chain -/

/-- What an entry parses to depends on its place only in the place. -/
theorem parse_elsewhere {lane : Lane} {id : StreamId} {fields : RawTask} {task : PageTask}
    (h : parse lane id fields = .ok task) (lane' : Lane) (id' : StreamId) :
    parse lane' id' fields = .ok { task with stream := lane', entryId := id' } := by
  simp only [parse, bind, Except.bind, pure, Except.pure] at h ⊢
  repeat' split at h
  all_goals cases h
  simp_all

/-- A requeued entry parses, with the page's age in the place of the fallback. -/
theorem parse_requeueFields (lane : Lane) (id : StreamId) (task : PageTask) (counted : Bool)
    (t : ℕ) :
    parse lane id (requeueFields task counted t) = .ok {
      entryId := id, jobId := task.jobId, pageIndex := task.pageIndex, enqueuedAtMs := t
      traceId := task.traceId, recovered := false, stream := lane
      attempt := if counted then task.attempt + 1 else task.attempt
      firstEnqueuedAtMs := task.origin } := rfl

namespace Chain
variable {cfg : Settings} {first : RawTask} {rs rs' : List Requeue} {r : Requeue}
  {lane : Lane} {id : StreamId} {task₀ : PageTask}

/-- The older part of a chain is a chain. -/
theorem suffix (h : Chain cfg first rs) (hsuffix : rs' <:+ rs) : Chain cfg first rs' := by
  induction h with
  | first =>
    obtain rfl := List.suffix_nil.mp hsuffix
    exact .first
  | requeue h hread hdone ih =>
    rcases List.suffix_cons_iff.mp hsuffix with rfl | hold
    · exact .requeue h hread hdone
    · exact ih hold

/-- Each requeue on a chain was performed, and read the entry before it. -/
theorem link (h : Chain cfg first rs) (hr : r ∈ rs) :
    ∃ older, (r :: older) <:+ rs ∧ r.Performed cfg ∧
      parse r.task.stream r.task.entryId (newestEntry first older) =
        .ok { r.task with recovered := false } := by
  obtain ⟨newer, older, rfl⟩ := List.append_of_mem hr
  have hsuffix : (r :: older) <:+ newer ++ r :: older := List.suffix_append _ _
  cases h.suffix hsuffix with
  | requeue _ hread hdone => exact ⟨older, hsuffix, hdone, hread⟩

/-- What every entry of a chain has, whoever put it there. -/
structure Carries (cfg : Settings) (task₀ : PageTask) (rs : List Requeue) (task : PageTask) :
    Prop where
  jobId : task.jobId = task₀.jobId
  pageIndex : task.pageIndex = task₀.pageIndex
  traceId : task.traceId = task₀.traceId
  attempt : task.attempt = rs.countP (·.counted)
  ceiling : task.attempt ≤ cfg.effectiveMaxRequeues - 1

/-- **Every entry** of a chain parses, to the page and the trace of the first entry and with the
charged requeues as its attempt. -/
theorem carries (h : Chain cfg first rs) (hceil : 1 ≤ cfg.effectiveMaxRequeues)
    (hfirst : parse lane id first = .ok task₀) (hfresh : task₀.attempt = 0) :
    ∃ task, parse lane id (newestEntry first rs) = .ok task ∧ Carries cfg task₀ rs task := by
  induction h with
  | first => exact ⟨task₀, hfirst, rfl, rfl, rfl, by simp [hfresh], by omega⟩
  | @requeue rs r h hread hdone ih =>
    obtain ⟨task, htask, hold⟩ := ih
    have hsame := (parse_elsewhere hread lane id).symm.trans htask
    obtain rfl := Except.ok.inj hsame
    obtain ⟨hjob, hpage, htrace, hattempt, hle⟩ := hold
    simp only at hattempt hle
    refine ⟨_, parse_requeueFields lane id r.task r.counted r.writtenAt, hjob, hpage, htrace, ?_, ?_⟩
    · cases hcounted : r.counted <;> simp [hcounted, hattempt]
    · cases hcounted : r.counted
      · simpa using hle
      · have hlt := hdone.attempt_lt hcounted
        simp only [if_true]
        omega

/-- The age of the page survives a chain that never passes on what counts as unset. -/
theorem firstEnqueuedAtMs_eq (h : Chain cfg first rs) (hstamped : ∀ r ∈ rs,
      r.task.firstEnqueuedAtMs = 0 → r.task.enqueuedAtMs = 0)
    (hfirst : parse lane id first = .ok task₀) {task : PageTask}
    (htask : parse lane id (newestEntry first rs) = .ok task) :
    task.firstEnqueuedAtMs = task₀.firstEnqueuedAtMs := by
  induction h generalizing task with
  | first => exact congrArg _ (Except.ok.inj (htask.symm.trans hfirst))
  | @requeue rs r h hread hdone ih =>
    obtain ⟨hr, hrs⟩ := List.forall_mem_cons.mp hstamped
    have hbefore := ih hrs (parse_elsewhere hread lane id)
    obtain rfl := Except.ok.inj
      ((parse_requeueFields lane id r.task r.counted r.writtenAt).symm.trans htask)
    rw [← hbefore]
    simp only [PageTask.origin]
    split
    · rename_i hzero
      rw [hzero, hr hzero]
    · rfl

end Chain

theorem Settings.one_le_effectiveMaxRequeues {cfg : Settings} (h : 1 ≤ cfg.maxRequeues) :
    1 ≤ cfg.effectiveMaxRequeues := by
  unfold effectiveMaxRequeues
  split
  · exact h
  · exact h.trans (le_max_left _ _)

/-! ## The entries of a fleet -/

/-- The entries that are written at all: the first entry of a page, and what follows it on a
chain. -/
def Stems (cfg : Settings) (fields : RawTask) : Prop :=
  ∃ key now traceId rs, Chain cfg (enqueueFields key now traceId) rs ∧
    newestEntry (enqueueFields key now traceId) rs = fields

/-- The answers a party has had. -/
def Party.answers (p : Party) : List ((c : Cmd) × Except Exn (Ret c)) :=
  p.log.map fun e => ⟨e.cmd, e.answer⟩

/-- A party took its task from an entry on a chain, and is where its answers have led it. -/
structure Party.Linked (cfg : Settings) (p : Party) (fields : RawTask) (decidedAt : ℕ) : Prop where
  stems : Stems cfg fields
  read : parse p.task.stream p.task.entryId fields = .ok { p.task with recovered := false }
  run : (Requeue.program cfg ⟨p.task, p.role, decidedAt, false, 0⟩).After p.answers p.prog

namespace Party.Linked
variable {cfg : Settings} {p : Party} {fields : RawTask} {decidedAt : ℕ}

/-- A party that is answered stays linked. -/
theorem answer (h : p.Linked cfg fields decidedAt) {c : Cmd} {k : Except Exn (Ret c) → Py Unit}
    (hprog : p.prog = .call c k) (r : Except Exn (Ret c)) :
    Party.Linked cfg { p with log := ⟨c, r⟩ :: p.log, prog := k r } fields decidedAt :=
  ⟨h.stems, h.read, (hprog ▸ h.run).answer r⟩

/-- What a party adds is on the chain of what it took. -/
theorem stems_add (h : p.Linked cfg fields decidedAt) {added : RawTask}
    {k : Except Exn (Ret (.xaddMain added)) → Py Unit} (hprog : p.prog = .call (.xaddMain added) k) :
    Stems cfg added := by
  obtain ⟨key, now, traceId, rs, hchain, rfl⟩ := h.stems
  have hafter := (hprog ▸ h.run).answer (.ok ⟨0, 0⟩)
  suffices hr : ∃ r : Requeue, r.task = p.task ∧ r.fields = added ∧ r.Performed cfg by
    obtain ⟨r, htask, rfl, hdone⟩ := hr
    exact ⟨key, now, traceId, r :: rs, .requeue hchain (htask ▸ h.read) hdone, rfl⟩
  cases hrole : p.role with
  | handler =>
    simp only [Requeue.program, hrole] at hafter
    obtain ⟨counted, t, rfl, -⟩ :=
      (hafter.all workerAdds_handlePage).2 _ List.mem_cons_self _ rfl
    exact ⟨⟨p.task, .handler, decidedAt, counted, t⟩, rfl, rfl, _, _, _, hafter,
      fun h => nomatch h⟩
  | reaper =>
    simp only [Requeue.program, hrole] at hafter
    obtain ⟨now, hnow, -, t, rfl⟩ := hafter.allowed reaperAdds_recover _ rfl
    exact ⟨⟨p.task, .reaper, now, true, t⟩, rfl, rfl, _, _, _, hafter, fun _ => hnow⟩

end Party.Linked

/-- Every entry is on a chain, and every party took its task from one. -/
structure Fleet.Linked (cfg : Settings) (f : Fleet) : Prop where
  entries : ∀ lane, ∀ e ∈ (f.redis.streams lane).entries, Stems cfg e.fields
  parties : ∀ t p, f.parties t = some p → ∃ fields decidedAt, p.Linked cfg fields decidedAt

namespace Fleet.Linked
variable {cfg : Settings} {f f' : Fleet}

/-- Nothing is added and nobody starts. -/
theorem of_subset (h : f.Linked cfg)
    (hentries : ∀ lane, ∀ e ∈ (f'.redis.streams lane).entries, e ∈ (f.redis.streams lane).entries)
    (hparties : ∀ t p, f'.parties t = some p → f.parties t = some p) : f'.Linked cfg :=
  ⟨fun lane e he => h.entries lane e (hentries lane e he),
    fun t p hp => h.parties t p (hparties t p hp)⟩

/-- Somebody takes an entry and starts. -/
theorem spawn (h : f.Linked cfg) {p : Party} {e : Entry} {lane : Lane} {stream : TaskStream}
    (hentries : stream.entries = (f.redis.streams lane).entries)
    (hmem : e ∈ (f.redis.streams lane).entries) {task : PageTask}
    (htask : parse lane e.id e.fields = .ok task) {recovered : Bool}
    (hp : p.task = { task with recovered }) (hlog : p.log = []) (decidedAt : ℕ)
    (hprog : p.prog = Requeue.program cfg ⟨p.task, p.role, decidedAt, false, 0⟩) :
    Fleet.Linked cfg ({ f with redis := f.redis.setStream lane stream }.spawn p) := by
  constructor
  · intro lane' e' he'
    rcases Redis.mem_entries_setStream he' with hold | ⟨rfl, hnew⟩
    · exact h.entries lane' e' hold
    · exact h.entries lane' e' (hentries ▸ hnew)
  · intro t q hq
    by_cases ht : t = f.next
    · subst ht
      obtain rfl := Option.some.inj (spawn_parties_self.symm.trans hq)
      obtain ⟨hlane, hid, hrecovered, -⟩ := parse_spec htask
      have hstream : p.task.stream = lane := by rw [hp, ← hlane]
      have hentry : p.task.entryId = e.id := by rw [hp, ← hid]
      have hsame : { p.task with recovered := false } = task := by rw [hp, ← hrecovered]
      refine ⟨e.fields, decidedAt, h.entries lane e hmem, ?_, ?_⟩
      · rw [hstream, hentry, htask, hsame]
      · rw [Party.answers, hlog, hprog]
        exact .start
    · exact h.parties t q ((spawn_parties_ne ht).symm.trans hq)

/-- Somebody has a command answered. -/
theorem resume (h : f.Linked cfg) {t : ℕ} {p : Party} (hp : f.parties t = some p) {c : Cmd}
    {k : Except Exn (Ret c) → Py Unit} (hprog : p.prog = .call c k) (o : Oracle) :
    (f.resume t p ⟨c, (c.exec cfg o f.redis).1⟩ (k (c.exec cfg o f.redis).1)
      (c.exec cfg o f.redis).2).Linked cfg := by
  obtain ⟨fields, decidedAt, hlinked⟩ := h.parties t p hp
  constructor
  · intro lane e he
    rcases Cmd.mem_entries_exec he with hold | ⟨rfl, -⟩
    · exact h.entries lane e hold
    · exact hlinked.stems_add hprog
  · intro t' q hq
    by_cases ht : t' = t
    · subst ht
      obtain rfl := resume_parties_self hq
      exact ⟨fields, decidedAt, hlinked.answer hprog _⟩
    · exact h.parties t' q ((resume_parties_ne ht).symm.trans hq)

/-- **Every step** keeps every entry on a chain. -/
theorem step (h : f.Linked cfg) {l : Label} (hstep : f.step cfg l = some f') : f'.Linked cfg := by
  cases fires_of_step hstep with
  | enqueue key now traceId =>
    refine ⟨fun lane e he => ?_, h.parties⟩
    rcases Redis.mem_entries_xadd he with hold | ⟨-, rfl⟩
    · exact h.entries lane e hold
    · exact ⟨key, now, traceId, [], .first, rfl⟩
  | renew _ hclaim =>
    obtain ⟨-, -, -, hentries, -⟩ := TaskStream.xclaim_spec hclaim
    refine h.of_subset (fun lane' e' he' => ?_) (fun _ _ hp => hp)
    rcases Redis.mem_entries_setStream he' with hold | ⟨rfl, hnew⟩
    · exact hold
    · exact hentries ▸ hnew
  | @recoverOwn c lane id now e stream task _ _ hread htask =>
    obtain ⟨hmem, -, -, hentries, -⟩ := TaskStream.xclaim_spec (TaskStream.readOwn_spec hread).1
    exact h.spawn hentries hmem htask rfl rfl now rfl
  | @deliver c lane now e stream task _ hread htask =>
    obtain ⟨hmem, -, hentries, -⟩ := TaskStream.deliverNext_spec hread
    exact h.spawn hentries hmem htask rfl rfl now rfl
  | @reap c lane id now e stream task _ _ hread htask =>
    obtain ⟨hmem, -, -, hentries, -⟩ := TaskStream.xclaim_spec hread
    exact h.spawn hentries hmem htask rfl rfl now rfl
  | crash c =>
    exact h.of_subset (fun _ _ he => he) fun _ _ hp => (Option.filter_eq_some_iff.mp hp).1
  | run hparty hprog => exact h.resume hparty hprog _
  | _ => exact h.of_subset (fun _ _ he => he) (fun _ _ hp => hp)

end Fleet.Linked

/-- **Every entry of a fleet is on a chain**, in every state reached and whatever raises. -/
theorem Reach.linked {cfg : Settings} {allow : Fleet → Label → Bool} {f : Fleet}
    (hf : Reach cfg allow f) : f.Linked cfg := by
  induction hf with
  | init => exact ⟨fun _ _ he => (nomatch he), fun _ _ hp => (nomatch hp)⟩
  | step _ _ hstep ih => exact ih.step hstep

/-- So every entry that a fleet ever stores parses, with an attempt under the ceiling. -/
theorem Reach.attempt_le {cfg : Settings} {allow : Fleet → Label → Bool} {f : Fleet}
    (hcfg : 1 ≤ cfg.maxRequeues) (hf : Reach cfg allow f) {lane : Lane} {e : Entry}
    (he : e ∈ (f.redis.streams lane).entries) :
    ∃ task, parse lane e.id e.fields = .ok task ∧ 0 ≤ task.attempt ∧
      task.attempt ≤ cfg.effectiveMaxRequeues - 1 := by
  obtain ⟨key, now, traceId, rs, hchain, hfields⟩ := hf.linked.entries lane e he
  obtain ⟨task, htask, hcarries⟩ := hchain.carries (Settings.one_le_effectiveMaxRequeues hcfg)
    (show parse lane e.id _ = .ok _ from rfl) rfl
  refine ⟨task, hfields ▸ htask, ?_, hcarries.ceiling⟩
  rw [hcarries.attempt]
  omega

/-! ## Both kinds of link occur -/

/-- A page between its two stages. -/
def PageHash.betweenStages : PageHash := ⟨0, .layoutDone, 0, 0, fun _ => none, none⟩

namespace Requeue
variable {cfg : Settings} {r : Requeue}

/-- A reaper that finds the page at a checkpoint and budget left puts it back. -/
theorem performed_of_reaper (hrole : r.role = .reaper) (hcounted : r.counted = true)
    (hbudget : exhausted cfg r.task r.decidedAt = false) : r.Performed cfg := by
  have hprogram : r.program cfg = recover cfg r.task := by simp only [program, hrole]
  have hlook := (Prog.After.start (p := recover cfg r.task)).answer
    (c := Cmd.hgetallPage r.task.key) (.ok (some .betweenStages))
  have hclock := hlook.answer (c := Cmd.time) (.ok r.decidedAt)
  change Prog.After _ _ (if exhausted cfg r.task r.decidedAt then _ else
    (do releaseClaim r.task.key; requeue r.task : Py Unit)) at hclock
  rw [if_neg (by simp [hbudget])] at hclock
  have hrelease := hclock.answer (c := Cmd.hgetallPage r.task.key) (.ok (some .betweenStages))
  have hstamp := hrelease.answer (c := Cmd.time) (.ok r.writtenAt)
  have hadd := hstamp.answer (c := Cmd.xaddMain (requeueFields r.task true r.writtenAt))
    (.ok ⟨0, 0⟩)
  unfold Performed fields
  rw [hprogram, hcounted]
  exact ⟨_, _, _, hadd, fun _ => rfl⟩

/-- A worker whose look at the page raises puts it back unless the attempt is final. -/
theorem performed_of_crash (hrole : r.role = .handler) (hcounted : r.counted = true)
    (hfinal : finalAttempt cfg r.task r.decidedAt = false) : r.Performed cfg := by
  have hprogram : r.program cfg = handlePage cfg r.task false := by
    simp only [program, hrole, hfinal]
  have hresolve := (Prog.After.start (p := handlePage cfg r.task false)).answer
    (c := Cmd.resolvePage r.task.key) (.ok ())
  have hraise := hresolve.answer (c := Cmd.hgetallPage r.task.key)
    (.error (.exception "ConnectionError" ""))
  have hrelease := hraise.answer (c := Cmd.hgetallPage r.task.key) (.ok none)
  have hstamp := hrelease.answer (c := Cmd.time) (.ok r.writtenAt)
  have hadd := hstamp.answer (c := Cmd.xaddMain (requeueFields r.task true r.writtenAt))
    (.ok ⟨0, 0⟩)
  unfold Performed fields
  rw [hprogram, hcounted]
  exact ⟨_, _, _, hadd, fun h => nomatch hrole.symm.trans h⟩

end Requeue

/-- A worker crashes on a page one second after its job was submitted. -/
def crashedPage : Requeue where
  task := ⟨⟨1000, 0⟩, 0, 1, 1000, "t", false, .main, 0, 1000⟩
  role := .handler
  decidedAt := 2000
  counted := true
  writtenAt := 2500

/-- A reaper finds, at the given time, the page that was put back. -/
def reapedPage (now : ℕ) : Requeue where
  task := ⟨⟨2500, 0⟩, 0, 1, 2500, "t", false, .main, 1, 1000⟩
  role := .reaper
  decidedAt := now
  counted := true
  writtenAt := now

theorem chain_reapedPage {now : ℕ} (h : exhausted {} (reapedPage now).task now = false) :
    Chain {} (enqueueFields ⟨0, 1⟩ 1000 "t") [reapedPage now, crashedPage] :=
  (Chain.first.requeue rfl (Requeue.performed_of_crash rfl rfl (by decide +kernel))).requeue rfl
    (Requeue.performed_of_reaper rfl rfl h)

/-! ## The law of requeues -/

/-- **Requeues of a page** do what they should exactly if no reaper on the chain puts a page back
that is past the age at which a worker stops holding out for full fidelity (and no entry is put
back that says `0`, which counts as unset, where the page's age should be). -/
theorem Chain.lawful_iff {cfg : Settings} {first : RawTask} {rs : List Requeue} {lane : Lane}
    {id : StreamId} {task₀ : PageTask} (hcfg : 1 ≤ cfg.maxRequeues)
    (hfirst : parse lane id first = .ok task₀) (hfresh : task₀.attempt = 0)
    (h : Chain cfg first rs) :
    Chain.Lawful cfg first rs ↔ ∀ r ∈ rs, r.Timely cfg := by
  constructor
  · intro hlawful r hr
    obtain ⟨older, hsuffix, hdone, hread⟩ := h.link hr
    refine ⟨fun hzero => ?_, hdone.inBudget_iff.mp (hlawful.inBudget r hr)⟩
    -- the entry that was put back and the new one have the same age
    obtain ⟨before, _, hbefore, hparse, hsame, -⟩ :=
      hlawful.kept older ((List.suffix_cons r older).trans hsuffix) r.task.stream r.task.entryId
    obtain rfl := Except.ok.inj (hread.symm.trans hparse)
    obtain ⟨before', _, hbefore', hparse', hsame', -⟩ :=
      hlawful.kept (r :: older) hsuffix r.task.stream r.task.entryId
    obtain rfl := Except.ok.inj (hbefore.symm.trans hbefore')
    obtain rfl := Except.ok.inj ((parse_requeueFields r.task.stream r.task.entryId r.task
      r.counted r.writtenAt).symm.trans hparse')
    have hage := hsame'.firstEnqueuedAtMs.trans hsame.firstEnqueuedAtMs.symm
    simpa [PageTask.origin, hzero] using hage
  · intro htimely
    refine ⟨fun rs' hsuffix lane' id' => ?_, fun r hr => ?_⟩
    · have hfirst' := parse_elsewhere hfirst lane' id'
      obtain ⟨task, htask, hcarries⟩ := (h.suffix hsuffix).carries
        (Settings.one_le_effectiveMaxRequeues hcfg) hfirst' hfresh
      have hage := (h.suffix hsuffix).firstEnqueuedAtMs_eq
        (fun r hr => (htimely r (hsuffix.subset hr)).stamped) hfirst' htask
      exact ⟨_, task, hfirst', htask,
        ⟨hcarries.jobId, hcarries.pageIndex, hcarries.traceId, hage⟩,
        hcarries.attempt, hcarries.ceiling⟩
    · obtain ⟨older, -, hdone, -⟩ := h.link hr
      exact hdone.inBudget_iff.mpr (htimely r hr).young

/-- A page that crashed once and was recovered by a reaper in its first minute. -/
theorem Chain.lawful_iff_in_time :
    Chain.Lawful {} (enqueueFields ⟨0, 1⟩ 1000 "t") [reapedPage 50000, crashedPage] := by
  refine (Chain.lawful_iff (by decide) (show parse .main ⟨1000, 0⟩ _ = .ok _ from rfl) rfl
    (chain_reapedPage (by decide +kernel))).mpr ?_
  intro r hr
  rcases List.mem_pair.mp hr with rfl | rfl
  · exact ⟨by decide, fun _ => by decide +kernel⟩
  · exact ⟨by decide, fun h => nomatch h⟩

/-- A reaper puts back a page that is 100 seconds old, at the expense of an attempt, where every
worker would make the attempt its last. -/
theorem Chain.not_lawful_late : ¬ ∀ (cfg : Settings) (first : RawTask) (rs : List Requeue)
    (lane : Lane) (id : StreamId) (task₀ : PageTask), 1 ≤ cfg.maxRequeues →
      parse lane id first = .ok task₀ → task₀.attempt = 0 → Chain cfg first rs →
      Chain.Lawful cfg first rs := by
  intro h
  have hlawful := h {} _ [reapedPage 101000, crashedPage] .main ⟨1000, 0⟩ _ (by decide) rfl rfl
    (chain_reapedPage (by decide +kernel))
  have hfinal := hlawful.inBudget (reapedPage 101000) List.mem_cons_self rfl
  revert hfinal
  decide +kernel

end OcrOrchestrator
