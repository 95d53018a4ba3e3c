import OcrOrchestrator.Common.Tracing
import OcrOrchestrator.Lib.System
import OcrOrchestrator.Worker.Checkpoint

/-!
# One trace from the client to the models

A context does not cross a process boundary by itself.  From the client to the API and from a
worker to the models it crosses in a header, from the API to the workers in the entries of the
queue, which a handler or a reaper copies when it requeues a page.

The fleet runs as before; beside it are the requests that have created the jobs, and what the
mock's middleware has bound for every call of a model.  A handler draws its ids anew for each
call here, while the code does it once.

## Main definitions

* `workerContext` — the context of a handler.
* `Traced`, `Traced.system` — the fleet, the requests and the calls.
* `Traced.trace_of_reach` — every call of a model is in the trace of the request.
-/

namespace OcrOrchestrator

open Lib Tracing

/-- `set_trace_context` at the head of `_handle_page`. -/
def workerContext (task : PageTask) (fresh : Fresh) : Context :=
  setTraceContext (orElse task.traceId.toList fresh.traceId) fresh.spanId fresh

/-- The headers of a call, but for the key. -/
def callHeaders (ctx : Context) (fresh : Fresh) : Headers :=
  [("traceparent", encodeHeader (formatTraceparent ctx fresh))]

structure Traced where
  fleet : Fleet
  /-- The headers of the request that created the job, and the trace id in its answer. -/
  requests : JobId → Option (Headers × List Char)
  /-- The calls of models, by job, with the trace id that the mock has bound. -/
  calls : List (JobId × List Char)

namespace Traced

inductive Label where
  /-- A request creates a job: `init_job`. -/
  | submit (job : JobId) (totalPages now : ℕ) (headers : Headers) (fresh : Fresh)
  /-- The same request goes on: `enqueue_pages`. -/
  | enqueue (key : PageKey) (now : ℕ)
  /-- A step of the workers, and what is drawn in it at either end of a call. -/
  | worker (l : OcrOrchestrator.Label) (fresh fresh' : Fresh)

/-- What the mock binds in a step of the workers. -/
def heard (f : Fleet) (l : OcrOrchestrator.Label) (fresh fresh' : Fresh) :
    List (JobId × List Char) :=
  match l with
  | .run t _ =>
    match f.parties t with
    | none => []
    | some p =>
      match p.awaited with
      | some (.layout _) | some (.vlm _) =>
        [(p.task.jobId,
          (bindRequest (callHeaders (workerContext p.task fresh) fresh) fresh').traceId)]
      | _ => []
  | _ => []

def step (cfg : Settings) (s : Traced) : Label → Option Traced
  | .submit job totalPages now headers fresh =>
    if (s.requests job).isSome then none
    else (s.fleet.step cfg (.initJob job totalPages now)).map fun fleet => { s with
      fleet
      requests := Function.update s.requests job
        (some (headers, (bindRequest headers fresh).traceId)) }
  | .enqueue key now =>
    match s.requests key.job with
    | none => none
    | some (_, traceId) =>
      (s.fleet.step cfg (.enqueue key now (String.ofList traceId))).map fun fleet =>
        { s with fleet }
  | .worker l fresh fresh' =>
    match l with
    | .initJob .. | .enqueue .. => none
    | l => (s.fleet.step cfg l).map fun fleet =>
        { s with fleet, calls := s.calls ++ heard s.fleet l fresh fresh' }

def system (cfg : Settings) : System Traced Label := ⟨⟨.empty, fun _ => none, []⟩, step cfg⟩

end Traced

/-! ## What the queue carries -/

/-- Entries and parties have the trace of their job. -/
structure Fleet.InTrace (trace : JobId → Option (List Char)) (f : Fleet) : Prop where
  entries : ∀ lane, ∀ e ∈ (f.redis.streams lane).entries, ∃ job id,
    e.fields.jobId = some job ∧ trace job = some id ∧ e.fields.traceId = some (String.ofList id)
  parties : ∀ t p, f.parties t = some p → ∃ id,
    trace p.task.jobId = some id ∧ p.task.traceId = String.ofList id
  issues : f.Issues

theorem traceId_of_parse {lane : Lane} {id : StreamId} {fields : RawTask} {task : PageTask}
    (h : parse lane id fields = .ok task) : task.traceId = fields.traceId.getD "" := by
  rcases fields with ⟨_ | job, index, enqueued, first, trace, attempt⟩
  · cases h
  simp only [parse, bind, Except.bind, pure, Except.pure] at h
  split at h
  · cases h
  split at h
  · cases h
  split at h
  · cases h
  split at h
  · cases h
  obtain rfl := Except.ok.inj h
  rfl

namespace Fleet.InTrace
variable {cfg : Settings} {f f' : Fleet} {trace trace' : JobId → Option (List Char)}

/-- More jobs. -/
theorem mono (h : f.InTrace trace) (htrace : ∀ job id, trace job = some id → trace' job = some id) :
    f.InTrace trace' where
  entries := by
    intro lane e he
    obtain ⟨job, id, hjob, hid, htext⟩ := h.entries lane e he
    exact ⟨job, id, hjob, htrace job id hid, htext⟩
  parties := by
    intro t p hp
    obtain ⟨id, hid, htext⟩ := h.parties t p hp
    exact ⟨id, htrace _ id hid, htext⟩
  issues := h.issues

/-- Somebody takes an entry and starts. -/
theorem spawn (h : f.InTrace trace) {p : Party} {e : Entry} {lane : Lane} {stream : TaskStream}
    (hentries : stream.entries = (f.redis.streams lane).entries)
    (hmem : e ∈ (f.redis.streams lane).entries) {task : PageTask}
    (htask : parse lane e.id e.fields = .ok task) {recovered : Bool}
    (hp : p.task = { task with recovered })
    (hissues : Fleet.Issues ({ f with redis := f.redis.setStream lane stream }.spawn p)) :
    Fleet.InTrace trace ({ f with redis := f.redis.setStream lane stream }.spawn p) where
  entries := by
    intro lane' e' he'
    rcases Redis.mem_entries_setStream he' with hold | ⟨rfl, hnew⟩
    · exact h.entries lane' e' hold
    · exact h.entries lane' e' (hentries ▸ hnew)
  parties := by
    intro t q hq
    by_cases ht : t = f.next
    · subst ht
      obtain rfl := Option.some.inj (spawn_parties_self.symm.trans hq)
      obtain ⟨job, id, hjob, hid, htext⟩ := h.entries lane e hmem
      obtain ⟨-, -, -, hjob', -⟩ := parse_spec htask
      obtain rfl := Option.some.inj (hjob.symm.trans hjob')
      refine ⟨id, by rw [hp]; exact hid, ?_⟩
      rw [hp, traceId_of_parse htask, htext]
      rfl
    · exact h.parties t q ((spawn_parties_ne ht).symm.trans hq)
  issues := hissues

/-- Somebody has a command answered: what it adds is about its own task. -/
theorem resume (h : f.InTrace trace) {t : ℕ} {p : Party} (hp : f.parties t = some p) {c : Cmd}
    {k : Except Exn (Ret c) → Py Unit} (hprog : p.prog = .call c k) (o : Oracle)
    (hissues : Fleet.Issues (f.resume t p ⟨c, (c.exec cfg o f.redis).1⟩
      (k (c.exec cfg o f.redis).1) (c.exec cfg o f.redis).2)) :
    Fleet.InTrace trace (f.resume t p ⟨c, (c.exec cfg o f.redis).1⟩ (k (c.exec cfg o f.redis).1)
      (c.exec cfg o f.redis).2) where
  entries := by
    intro lane e he
    rcases Cmd.mem_entries_exec he with hold | ⟨rfl, -⟩
    · exact h.entries lane e hold
    · have hown := h.issues t p hp
      rw [hprog] at hown
      obtain ⟨id, hid, htext⟩ := h.parties t p hp
      generalize hfields : e.fields = fields at *
      cases hown.1 with
      | xaddMain counted now => exact ⟨p.task.jobId, id, rfl, hid, congrArg some htext⟩
  parties := by
    intro t' q hq
    by_cases ht : t' = t
    · subst ht
      have htask : q.task = p.task := by
        obtain rfl := resume_parties_self hq
        rfl
      rw [htask]
      exact h.parties t' p hp
    · exact h.parties t' q ((resume_parties_ne ht).symm.trans hq)
  issues := hissues

/-- **Every step** keeps entries and parties in the traces of their jobs. -/
theorem step (h : f.InTrace trace) {l : Label} (hstep : f.step cfg l = some f')
    (henqueue : ∀ key now traceId, l = .enqueue key now traceId →
      ∃ id, trace key.job = some id ∧ traceId = String.ofList id) : f'.InTrace trace := by
  have hissues := h.issues.step (step_spec hstep)
  cases fires_of_step hstep with
  | enqueue key now traceId =>
    obtain ⟨id, hid, rfl⟩ := henqueue key now traceId rfl
    refine ⟨fun lane e he => ?_, h.parties, hissues⟩
    rcases Redis.mem_entries_xadd he with hold | ⟨-, rfl⟩
    · exact h.entries lane e hold
    · exact ⟨key.job, id, rfl, hid, rfl⟩
  | renew _ hclaim =>
    obtain ⟨-, -, -, hentries, -⟩ := TaskStream.xclaim_spec hclaim
    refine ⟨fun lane' e' he' => ?_, h.parties, hissues⟩
    rcases Redis.mem_entries_setStream he' with hold | ⟨rfl, hnew⟩
    · exact h.entries _ e' hold
    · exact h.entries _ e' (hentries ▸ hnew)
  | @recoverOwn c lane id now e stream task _ _ hread htask =>
    obtain ⟨hmem, -, -, hentries, -⟩ := TaskStream.xclaim_spec (TaskStream.readOwn_spec hread).1
    exact h.spawn hentries hmem htask rfl hissues
  | @deliver c lane now e stream task _ hread htask =>
    obtain ⟨hmem, -, hentries, -⟩ := TaskStream.deliverNext_spec hread
    exact h.spawn hentries hmem htask rfl hissues
  | @reap c lane id now e stream task _ _ hread htask =>
    obtain ⟨hmem, -, -, hentries, -⟩ := TaskStream.xclaim_spec hread
    exact h.spawn hentries hmem htask rfl hissues
  | crash c =>
    exact ⟨h.entries, fun t p hp => h.parties t p (Option.filter_eq_some_iff.mp hp).1, hissues⟩
  | run hparty hprog => exact h.resume hparty hprog _ hissues
  | _ => exact ⟨h.entries, h.parties, hissues⟩

end Fleet.InTrace

/-! ## What the models are called in -/

namespace Traced
variable {cfg : Settings} {s s' : Traced}

/-- The trace of a job. -/
def trace (s : Traced) (job : JobId) : Option (List Char) := (s.requests job).map Prod.snd

/-- The invariant. -/
structure Sound (s : Traced) : Prop where
  fleet : s.fleet.InTrace s.trace
  bound : ∀ job headers id, s.requests job = some (headers, id) →
    ∃ fresh, id = (bindRequest headers fresh).traceId
  calls : ∀ c ∈ s.calls, s.trace c.1 = some c.2

theorem sound_start : Sound (system cfg).init where
  fleet := ⟨fun _ _ he => (nomatch he), fun _ _ hp => (nomatch hp), fun _ _ hp => (nomatch hp)⟩
  bound := nofun
  calls := nofun

/-- The trace of a job is an id. -/
theorem Sound.isId (h : s.Sound) {job : JobId} {id : List Char} (hid : s.trace job = some id) :
    IsId 32 id := by
  obtain ⟨⟨headers, _⟩, hrequest, rfl⟩ := Option.map_eq_some_iff.mp hid
  obtain ⟨fresh, rfl⟩ := h.bound job headers _ hrequest
  exact (isId_bindRequest headers fresh).1

/-- **A call** is made in the trace of its job. -/
theorem Sound.heard (h : s.Sound) (l : OcrOrchestrator.Label) (fresh fresh' : Fresh) :
    ∀ c ∈ heard s.fleet l fresh fresh', s.trace c.1 = some c.2 := by
  intro c hc
  unfold Traced.heard at hc
  split at hc
  · split at hc
    · cases hc
    · next t o p hp =>
      obtain ⟨id, hid, htext⟩ := h.fleet.parties _ p hp
      have hisId := h.isId hid
      have hne : id ≠ [] := by
        rintro rfl
        cases hisId.1
      have hcontext : orElse (workerContext p.task fresh).traceId fresh.traceId = id := by
        simp [workerContext, setTraceContext, htext, orElse, hne]
      have hspan : IsId 16 (orElse (workerContext p.task fresh).spanId fresh.spanId) := by
        simp only [workerContext, setTraceContext, orElse, ite_self]
        exact fresh.spanId_isId
      have hbound : (bindRequest (callHeaders (workerContext p.task fresh) fresh) fresh').traceId =
          id := by
        rw [callHeaders, bindRequest_format (by rwa [hcontext]) hspan, hcontext]
      split at hc
      · obtain rfl := List.mem_singleton.mp hc
        rw [hbound]
        exact hid
      · obtain rfl := List.mem_singleton.mp hc
        rw [hbound]
        exact hid
      · cases hc
  · cases hc

/-- **One step** keeps everything in its trace. -/
theorem Sound.step (h : s.Sound) {l : Label} (hstep : s.step cfg l = some s') : s'.Sound := by
  cases l with
  | submit job totalPages now headers fresh =>
    simp only [Traced.step] at hstep
    split at hstep
    · cases hstep
    next hnew =>
      obtain ⟨fleet, hfleet, rfl⟩ := Option.map_eq_some_iff.mp hstep
      have hkept : ∀ j id, s.trace j = some id → trace { s with
          fleet
          requests := Function.update s.requests job
            (some (headers, (bindRequest headers fresh).traceId)) } j = some id := by
        intro j id hid
        have hj : j ≠ job := by
          rintro rfl
          obtain ⟨request, hrequest, -⟩ := Option.map_eq_some_iff.mp hid
          simp [hrequest] at hnew
        simpa [trace, hj] using hid
      refine ⟨(h.fleet.step hfleet (by simp)).mono hkept, ?_, fun c hc => hkept _ _ (h.calls c hc)⟩
      intro j headers' id hrequest
      by_cases hj : j = job
      · subst hj
        simp only [Function.update_self, Option.some.injEq, Prod.mk.injEq] at hrequest
        obtain ⟨rfl, rfl⟩ := hrequest
        exact ⟨fresh, rfl⟩
      · exact h.bound j headers' id (by simpa [hj] using hrequest)
  | enqueue key now =>
    simp only [Traced.step] at hstep
    split at hstep
    · cases hstep
    next headers traceId hrequest =>
      obtain ⟨fleet, hfleet, rfl⟩ := Option.map_eq_some_iff.mp hstep
      refine ⟨h.fleet.step hfleet ?_, h.bound, h.calls⟩
      rintro _ _ _ ⟨⟩
      exact ⟨traceId, by simp [trace, hrequest], rfl⟩
  | worker l fresh fresh' =>
    have hcases : (∀ key now traceId, l ≠ .enqueue key now traceId) ∧
        ∃ fleet, s.fleet.step cfg l = some fleet ∧
          s' = { s with fleet, calls := s.calls ++ Traced.heard s.fleet l fresh fresh' } := by
      cases l with
      | initJob => cases hstep
      | enqueue => cases hstep
      | _ =>
        obtain ⟨fleet, hfleet, rfl⟩ := Option.map_eq_some_iff.mp hstep
        exact ⟨nofun, fleet, hfleet, rfl⟩
    obtain ⟨hother, fleet, hfleet, rfl⟩ := hcases
    refine ⟨h.fleet.step hfleet fun key now traceId hl => absurd hl (hother _ _ _), h.bound, ?_⟩
    intro c hc
    rcases List.mem_append.mp hc with hc | hc
    · exact h.calls c hc
    · exact h.heard l fresh fresh' c hc

/-- **One trace from end to end**, over any requeues and recoveries, crashes and failures: the mock
binds for every call of a model the id that the client got for the request that created the job,
which is the client's own if it sent one. -/
theorem trace_of_reach (hs : (system cfg).Reach System.anyStep s) {job : JobId} {id : List Char}
    (hcall : (job, id) ∈ s.calls) : ∃ headers, s.requests job = some (headers, id) ∧ IsId 32 id ∧
      ∀ traceId spanId, incoming headers = some (traceId, spanId) → id = traceId := by
  have hsound : s.Sound := hs.invariant sound_start fun _ _ _ h _ hstep => h.step hstep
  have hid := hsound.calls _ hcall
  obtain ⟨⟨headers, _⟩, hrequest, rfl⟩ := Option.map_eq_some_iff.mp hid
  refine ⟨headers, hrequest, hsound.isId hid, fun traceId spanId hincoming => ?_⟩
  obtain ⟨fresh, hbound⟩ := hsound.bound job headers _ hrequest
  rw [hbound, bindRequest, hincoming]
  rfl

/-- Ids of zeros and of ones. -/
def zeros : Fresh := ⟨List.replicate 32 '0', List.replicate 16 '0', by decide, by decide⟩
def ones : Fresh := ⟨List.replicate 32 '1', List.replicate 16 '1', by decide, by decide⟩

/-- A request with a header in capitals and blanks around it, and the first call for its page. -/
def capitals : List Label :=
  [.submit 0 1 1000 [("traceparent", encodeHeader (" 00-".toList ++ List.replicate 32 'A' ++
      "-".toList ++ List.replicate 16 'B' ++ "-00\t".toList))] zeros, .enqueue ⟨0, 0⟩ 1000,
    .worker (.start 1) ones ones, .worker (.ready 1) ones ones,
    .worker (.deliver 1 .lead 1000) ones ones] ++
  (runs 0 4 1000).map fun l => .worker l ones ones

theorem trace_capitals : ∃ s : Traced, (0, List.replicate 32 'a') ∈ s.calls ∧
    ∃ headers, s.requests 0 = some (headers, List.replicate 32 'a') := by
  obtain ⟨s, hs, hq⟩ := System.exists_of_runAll (system {}) System.anyStep
    (fun s => decide ((0, List.replicate 32 'a') ∈ s.calls)) capitals (by decide +kernel)
  have hcall := of_decide_eq_true hq
  obtain ⟨headers, hrequest, -⟩ := trace_of_reach hs hcall
  exact ⟨s, hcall, headers, hrequest⟩

end Traced

end OcrOrchestrator
