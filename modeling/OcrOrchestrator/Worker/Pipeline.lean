import OcrOrchestrator.Queue.Store

/-!
# Processing one page

`processPage` runs a page through the layout stage and then the VLM stage, committing
each stage separately.  The program text follows the Python, await by await: what it
reads, which transition it requests from which states with which fields, and which
exception handler catches what.

The page reference and the page descriptor only travel to the model endpoints, so they
are left out; logging is left out.

## Main definitions

* `emit` — publish an event, only for a transition that this caller made.
* `degrade`, `releaseClaim`, `forceTerminal` — the three ways out of a stage.
* `processPage` — entry check, the two stages, and the two outer exception handlers.
-/

namespace OcrOrchestrator

open Lib PageState

/-- What became of one attempt at a page. -/
inductive Outcome where
  | completed
  | resumed
  | alreadyTerminal
  | ownedByOther
  | degraded
  | handoff
  | saturated
  | failed
  deriving DecidableEq

structure PageResult where
  outcome : Outcome
  detail : String := ""
  retryAfterS : ℚ := 0

/-- The observed state as `TransitionResult.observed` renders it. -/
def observedText : Option PageState → String
  | some s => s.value
  | none => "MISSING"

/-- `s[:n]`. -/
def clip (n : ℕ) (s : String) : String := String.ofList (s.toList.take n)

def fallbackConfidence : Json := .num (2 / 5)

/-- `_emit`: publish, but only if this caller made the transition; the completing
transition publishes `job.complete` as well.  An ordinary exception is swallowed. -/
def emit (results : Bool) (event : EventKind) (transition : TransitionResult) (key : PageKey)
    (payload : List (String × Json)) : Py Unit :=
  if !results || !transition.ok then pure ()
  else
    Prog.tryCatch
      (do
        let _ ← await (.publish key.job
          ⟨event, some key.index, some transition.requested, payload⟩)
        if transition.completedJob then
          let _ ← await (.publish key.job
            ⟨.jobComplete, none, none, [("total_pages", .num transition.totalPages),
              ("done", .num transition.doneCount)]⟩))
      fun exc => if exc.isException then pure () else .raise exc

/-- The reason `_degrade` records: the exception's type, or the HTTP status. -/
def degradeReason : Exn → String
  | .httpStatusError status _ => "HTTP " ++ toString status
  | exc => exc.typeName

/-- The fields of a layout-only result. -/
def fallbackFields (reason : String) : List (PageField × Json) :=
  [(.degraded, .num 1), (.confidence, fallbackConfidence), (.fallbackReason, .str reason)]

/-- `_degrade`: complete a page with layout-only output and a low confidence flag. -/
def degrade (results : Bool) (key : PageKey) (cause : Exn) : Py PageResult := do
  let reason := degradeReason cause
  let result ← transition key fallbackDone none (fallbackFields reason)
  emit results .pageFinal result key
    [("complete", .bool true), ("degraded", .bool true), ("confidence", fallbackConfidence),
      ("fallback_reason", .str reason)]
  return { outcome := .degraded, detail := reason }

/-- `release_claim`: move a running page back to its last checkpoint, narrowed to the
state observed.  `reclaimTarget` is defined exactly on the running states, so its lookup
is also the guard. -/
def releaseClaim (key : PageKey) : Py Unit := do
  match ← getPage key with
  | none => return ()
  | some page =>
    match reclaimTarget page.state with
    | none => return ()
    | some target =>
      let _ ← transition key target (some [page.state])
      return ()

/-- Is a layout-only result legal from here?  The table decides. -/
def degradable (s : PageState) : Bool := fallbackDone ∈ transitions s

/-- `force_terminal`: drive a page to the terminal state its progress permits. -/
def forceTerminal (results : Bool) (key : PageKey) (reason : String) : Py String := do
  match ← getPage key with
  | none => return "MISSING"
  | some page =>
    if page.state.terminal then return page.state.value
    let target := if degradable page.state then fallbackDone else failed
    let fields := if degradable page.state then fallbackFields reason
      else [(PageField.error, Json.str reason)]
    let applied ← transition key target none fields
    if !applied.ok then return observedText applied.observed
    emit results .pageFinal applied key
      ([("complete", .bool true), ("degraded", .bool (degradable page.state))] ++
        if degradable page.state then [("confidence", fallbackConfidence)]
        else [("error", .str reason)])
    return target.value

/-- The part of `process_page` before the stages: a result if the page is not ours to
run, otherwise the state to start from. -/
def enterPage (key : PageKey) (reclaim : Bool) : Py (PageResult ⊕ PageState) := do
  match ← getPage key with
  | none => return .inl { outcome := .failed, detail := "page state missing" }
  | some page =>
    if page.state.terminal then
      return .inl { outcome := .alreadyTerminal, detail := page.state.value }
    if page.state.running then
      if !reclaim then
        return .inl { outcome := .ownedByOther, detail := page.state.value }
      releaseClaim key
      match ← getPage key with
      | none => return .inl { outcome := .failed, detail := "page state missing" }
      | some page =>
        if page.state.terminal then
          return .inl { outcome := .alreadyTerminal, detail := page.state.value }
        if page.state.running then
          return .inl { outcome := .ownedByOther, detail := page.state.value }
        return .inr page.state
    else return .inr page.state

/-- Stage 1.  `none` means: carry on with the VLM stage. -/
def layoutStage (results : Bool) (key : PageKey) (handoff : Bool) : Py (Option PageResult) := do
  let claim ← transition key layoutRunning
  if !claim.ok then
    return some { outcome := .ownedByOther, detail := observedText claim.observed }
  let layout ← await (.layout key)
  let committed ← transition key layoutDone none [(.layout, layout)]
  emit results .pagePartial committed key [("complete", .bool false), ("layout", layout)]
  if handoff then
    return some { outcome := .handoff, detail := "layout" }
  return none

/-- `vlm.get("confidence", 1.0)`: a decoded body that is not a mapping has no `get`. -/
def getConfidence : Json → Py Json
  | .obj members => pure (((members.find? (·.1 = "confidence")).map (·.2)).getD (.num 1))
  | body => .raise (.exception "AttributeError"
      ("'" ++ body.pyType ++ "' object has no attribute 'get'"))

/-- The guarded VLM call: a refusal propagates while budget remains, every other
exception, whatever its type, degrades the page. -/
def callVlm (results : Bool) (key : PageKey) (finalAttempt : Bool) : Py (PageResult ⊕ Json) :=
  Prog.tryCatch
    (do
      let vlm ← await (.vlm key)
      return .inr vlm)
    fun exc =>
      if exc.refusal.isSome && !finalAttempt then .raise exc
      else do
        let result ← degrade results key exc
        return .inl result

/-- Stage 2. -/
def vlmStage (results : Bool) (key : PageKey) (finalAttempt resumed : Bool) :
    Py PageResult := do
  let claim ← transition key vlmRunning
  if !claim.ok then
    return { outcome := .ownedByOther, detail := observedText claim.observed }
  match ← callVlm results key finalAttempt with
  | .inl result => return result
  | .inr vlm =>
    let confidence ← getConfidence vlm
    let committed ← transition key done none
      [(.vlm, vlm), (.confidence, confidence), (.degraded, .num 0)]
    emit results .pageFinal committed key
      [("complete", .bool true), ("degraded", .bool false), ("confidence", confidence),
        ("vlm", vlm)]
    return { outcome := if resumed then .resumed else .completed }

/-- Request FAILED and announce it. -/
def failPage (results : Bool) (key : PageKey) (error : String) : Py Unit := do
  let failed ← transition key failed none [(.error, .str error)]
  emit results .pageFinal failed key
    [("complete", .bool true), ("degraded", .bool false), ("error", .str error)]

/-- The two outer exception handlers of `process_page`. -/
def onStageError (results : Bool) (key : PageKey) (finalAttempt : Bool) (exc : Exn) :
    Py PageResult :=
  match exc.refusal with
  | some (endpoint, retryAfterS) => do
    releaseClaim key
    if finalAttempt then
      failPage results key (exc.typeName ++ ": " ++ endpoint.name ++ " unavailable")
      return { outcome := .failed, detail := endpoint.name }
    return { outcome := .saturated, detail := endpoint.name, retryAfterS }
  | none =>
    if exc.isException then do
      failPage results key (exc.typeName ++ ": " ++ clip 200 exc.text)
      return { outcome := .failed, detail := exc.typeName }
    else .raise exc

/-- The two stages, from the state the page was found in. -/
def runStages (results : Bool) (key : PageKey) (finalAttempt handoff : Bool)
    (state : PageState) : Py PageResult := do
  let early ← if state = pending then layoutStage results key handoff else pure none
  match early with
  | some result => return result
  | none => vlmStage results key finalAttempt (state = layoutDone)

/-- `process_page`. -/
def processPage (results : Bool) (key : PageKey) (finalAttempt handoff reclaim : Bool) :
    Py PageResult := do
  match ← enterPage key reclaim with
  | .inl result => return result
  | .inr state =>
    Prog.tryCatch (runStages results key finalAttempt handoff state)
      (onStageError results key finalAttempt)

end OcrOrchestrator
