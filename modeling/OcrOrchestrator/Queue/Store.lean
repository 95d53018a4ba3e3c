import OcrOrchestrator.Command

/-!
# `PageStateStore`

The store's methods as programs over the commands.  `transition` is the script call
followed, when the script asks for it, by the expiry sweep, whose failure is swallowed.
-/

namespace OcrOrchestrator

open Lib

/-- `get_page`. -/
def getPage (key : PageKey) : Py (Option PageHash) := await (.hgetallPage key)

/-- `_renew_job_pages`: best effort, an ordinary exception is logged and dropped. -/
def renewJobPages (job : JobId) (totalPages : ℕ) : Py Unit :=
  Prog.tryCatch (await (.pexpirePages job totalPages)) fun exc =>
    if exc.isException then pure () else .raise exc

/-- `transition`.  `allowedFrom` defaults to the derived predecessor set. -/
def transition (key : PageKey) (target : PageState) (allowedFrom : Option (List PageState) := none)
    (fields : List (PageField × Json) := []) : Py TransitionResult := do
  let sources := allowedFrom.getD (predecessors target)
  if sources.isEmpty then
    .raise (.exception "ValueError" (target.value ++ " is unreachable: no legal predecessor"))
  else
    let reply : Reply ← await (.evalTransition key target sources fields)
    if 0 < reply.sweepPages then
      renewJobPages key.job reply.sweepPages
    return ⟨reply.ok, reply.observed, reply.doneCount, reply.totalPages, target⟩

/-- `progress`. -/
def progress (job : JobId) : Py (ℕ × ℕ) := await (.hmgetProgress job)

/-- The hash `init_job` writes for the page `index`. -/
def PageHash.initial (index : ℤ) (nowMs ttlMs : ℕ) : PageHash where
  pageIndex := index
  state := .pending
  attempts := 0
  updatedAt := nowMs
  fields := fun _ => none
  expiresAt := some (nowMs + ttlMs)

/-- `init_job`: the job hash and every page hash, in one transaction. -/
def initJob (cfg : Settings) (nowMs : ℕ) (job : JobId) (totalPages : ℕ) (s : Redis) : Redis :=
  let ttlMs := cfg.resultTtlS * 1000
  { s with
    jobs := Function.update s.jobs job
      (some ⟨some totalPages, some 0, some nowMs, some (nowMs + ttlMs)⟩)
    pages := fun key =>
      if key.job = job ∧ 0 ≤ key.index ∧ key.index < totalPages then
        some (PageHash.initial key.index nowMs ttlMs)
      else s.pages key }

end OcrOrchestrator
