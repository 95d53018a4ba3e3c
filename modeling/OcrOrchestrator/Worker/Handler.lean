import OcrOrchestrator.Worker.Pipeline

/-!
# One queue entry: the worker's handler and the reaper's recovery

`handlePage` is what a worker runs for an entry it was delivered: process the page, then
acknowledge the entry, requeue it, or, if `process_page` itself crashed, give the page
back or force it to a terminal state.  `recover` is what a reaper runs for an entry it
claimed from a consumer that stopped renewing its leases.

A requeue publishes the replacement first and settles the original second; settling is
`XACK` and then `XDEL`.
-/

namespace OcrOrchestrator

open Lib

/-- `PageQueue.ack`. -/
def ack (task : PageTask) : Py Unit := do
  await (.xack task.stream task.entryId)
  await (.xdel task.stream task.entryId)

/-- The entry a requeue publishes: age and trace are kept, the attempt counter grows
unless the requeue is a stage handoff. -/
def requeueFields (task : PageTask) (countAttempt : Bool) (nowMs : ℕ) : RawTask where
  jobId := some task.jobId
  pageIndex := some (.int task.pageIndex)
  enqueuedAtMs := some (.int nowMs)
  firstEnqueuedAtMs := some (.int task.origin)
  traceId := some task.traceId
  attempt := some (.int (if countAttempt then task.attempt + 1 else task.attempt))

/-- `PageQueue.requeue`: always to the main lane, replacement first. -/
def requeue (task : PageTask) (countAttempt : Bool := true) : Py Unit := do
  let nowMs ← await .time
  let _ ← await (.xaddMain (requeueFields task countAttempt nowMs))
  ack task

/-- `_maybe_delete_document`: remove the upload once every page is terminal. -/
def maybeDeleteDocument (job : JobId) : Py Unit := do
  let (done, total) ← progress job
  if 0 < total ∧ total ≤ done then
    await (.deleteDocument job)

/-- Has the page run out of budget to keep holding out for full fidelity? -/
def finalAttempt (cfg : Settings) (task : PageTask) (now : ℕ) : Bool :=
  let ageS : ℚ := task.ageMs now / 1000
  decide (cfg.degradeAfterS ≤ ageS) || decide (cfg.pageDeadlineS ≤ ageS) ||
    decide ((cfg.effectiveMaxRequeues : ℤ) ≤ task.attempt + 1)

/-- `_handle_page`'s isolation boundary: what happens to the entry when `process_page`
raises. -/
def onPageCrash (task : PageTask) (final : Bool) (exc : Exn) : Py Unit :=
  if final then do
    let _ ← forceTerminal true task.key (exc.typeName ++ ": " ++ clip 120 exc.text)
    ack task
    maybeDeleteDocument task.jobId
  else do
    releaseClaim task.key
    requeue task

/-- `_handle_page`, with the final-attempt decision it makes first. -/
def handlePage (cfg : Settings) (task : PageTask) (final : Bool) : Py Unit := do
  await (.resolvePage task.key)
  let result ← Prog.tryCatch
    (do
      let result ← processPage true task.key final cfg.stageHandoff task.recovered
      return some result)
    fun exc =>
      if exc.isException then do
        onPageCrash task final exc
        return none
      else .raise exc
  match result with
  | none => return ()
  | some result =>
    if result.outcome = .handoff then
      requeue task false
    else if result.outcome = .saturated ∧ !final then
      requeue task
    else
      ack task
      maybeDeleteDocument task.jobId

/-- `Reaper._recover`'s budget test: the page deadline or the requeue ceiling. -/
def exhausted (cfg : Settings) (task : PageTask) (now : ℕ) : Bool :=
  let ageS : ℚ := task.ageMs now / 1000
  decide (cfg.pageDeadlineS ≤ ageS) ||
    decide ((cfg.effectiveMaxRequeues : ℤ) ≤ task.attempt + 1)

/-- `Reaper._recover`. -/
def recover (cfg : Settings) (task : PageTask) : Py Unit := do
  match ← getPage task.key with
  | none => ack task
  | some page =>
    if page.state.terminal then ack task
    else
      let now ← await .time
      if exhausted cfg task now then
        let _ ← forceTerminal true task.key
          ("reclaimed after " ++ toString (task.ageMs now / 1000) ++ "s, attempt " ++
            toString (task.attempt + 1))
        ack task
      else
        releaseClaim task.key
        requeue task

end OcrOrchestrator
