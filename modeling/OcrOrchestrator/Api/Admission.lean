import Mathlib.Algebra.BigOperators.Fin
import Mathlib.Algebra.Order.BigOperators.Group.Finset
import Mathlib.Data.Finset.Card
import OcrOrchestrator.Lib.System
import OcrOrchestrator.Worker.Step

/-!
# Admission

A job is admitted if the queue, with the job's own pages, stays within the high watermark.
The queue length is read when the job is admitted, but its pages are appended later, one
`XADD` at a time; each API replica holds a lock from the check to the last `XADD`.

The replicas run beside the fleet of workers.  A replica is in at most one critical section;
a request that waits for the lock has done nothing yet and is not modelled.

## Main definitions

* `admissionScript` — the decision and its accounting.
* `Deployment`, `Deployment.system` — any number of replicas and the fleet.
* `Turn`, `Step`, `step_cases` — the cases of a step.
* `Fleet.queuedPages` — the pages that have an unsettled entry.
* `requeuesQueued` — a worker only requeues a page that is still queued.
-/

namespace OcrOrchestrator

open Lib

/-! ## The decision -/

/-- The admission hash; an absent key reads as this default. -/
structure AdmissionHash where
  shedding : Bool := false
  trips : ℕ := 0
  recoveries : ℕ := 0
  admittedJobs : ℕ := 0
  admittedPages : ℕ := 0
  shedJobs : ℕ := 0
  shedPages : ℕ := 0

/-- What the script returns. -/
structure AdmissionReply where
  admitted : Bool
  depth : ℕ
  shedding : Bool
  shedJobs : ℕ
  shedPages : ℕ
  admittedJobs : ℕ

/-- `shedding` falls back to false once the queue has drained to the low watermark. -/
def AdmissionHash.recover (low depth : ℕ) (h : AdmissionHash) : AdmissionHash :=
  if h.shedding && decide (depth ≤ low) then
    { h with shedding := false, recoveries := h.recoveries + 1 }
  else h

/-- The tallies of a decision, and a trip if an open gate refuses. -/
def AdmissionHash.decide (high depth pages : ℕ) (h : AdmissionHash) : Bool × AdmissionHash :=
  if h.shedding then
    (false, { h with shedJobs := h.shedJobs + 1, shedPages := h.shedPages + pages })
  else if depth + pages ≤ high then
    (true, { h with
      admittedJobs := h.admittedJobs + 1, admittedPages := h.admittedPages + pages })
  else
    (false, { h with
      shedding := true, trips := h.trips + 1
      shedJobs := h.shedJobs + 1, shedPages := h.shedPages + pages })

/-- `_ADMISSION_LUA`, with the queue length it reads. -/
def admissionScript (pages high low depth : ℕ) (h : AdmissionHash) :
    AdmissionReply × AdmissionHash :=
  let out := (h.recover low depth).decide high depth pages
  (⟨out.1, depth, out.2.shedding, out.2.shedJobs, out.2.shedPages, out.2.admittedJobs⟩, out.2)

/-- A job that is admitted fits. -/
theorem le_of_admitted {pages high low depth : ℕ} {h : AdmissionHash}
    (hadmitted : (admissionScript pages high low depth h).1.admitted = true) :
    depth + pages ≤ high := by
  simp only [admissionScript, AdmissionHash.decide] at hadmitted
  split at hadmitted
  · cases hadmitted
  · split at hadmitted
    · assumption
    · cases hadmitted

/-! ## The replicas -/

/-- `queue_high_watermark`, the low one derived from it, and `max_pages`. -/
structure AdmissionSettings where
  highWatermark : ℕ
  lowWatermark : ℕ
  maxPages : ℕ

/-- Where a replica is in `_admit_and_enqueue`; it holds its lock unless it is idle. -/
inductive Replica where
  | idle
  | evaluating (job : JobId) (pages : ℕ)
  | initialising (job : JobId) (pages : ℕ)
  /-- The pages below `next` have been appended. -/
  | enqueuing (job : JobId) (pages next : ℕ)
  deriving DecidableEq

/-- The pages the replica has been admitted for and has not appended yet. -/
def Replica.owed : Replica → ℕ
  | initialising _ pages => pages
  | enqueuing _ pages next => pages - next
  | _ => 0

/-- The fleet, the admission hash and `n` replicas of the API. -/
structure Deployment (n : ℕ) where
  fleet : Fleet
  admission : AdmissionHash
  replicas : Fin n → Replica

/-- The page an entry names. -/
def RawTask.page? (fields : RawTask) : Option PageKey :=
  match fields.jobId, fields.pageIndex with
  | some job, some (.int index) => some ⟨job, index⟩
  | _, _ => none

theorem RawTask.page?_eq_some {fields : RawTask} {key : PageKey} :
    fields.page? = some key ↔
      fields.jobId = some key.job ∧ fields.pageIndex = some (.int key.index) := by
  unfold RawTask.page?
  split
  next job index hjob hindex => simp [hjob, hindex, PageKey.ext_iff]
  next hnone =>
    constructor
    · intro h
      cases h
    · rintro ⟨hjob, hindex⟩
      exact absurd hindex (hnone _ _ hjob)

namespace Fleet

/-- Every entry that has not been deleted. -/
def queued (f : Fleet) : List Entry :=
  (f.redis.streams .lead).entries ++ (f.redis.streams .main).entries

/-- `XLEN`, summed over the lanes. -/
def depth (f : Fleet) : ℕ :=
  (f.redis.streams .lead).entries.length + (f.redis.streams .main).entries.length

/-- The pages that have an unsettled entry. -/
def queuedPages (f : Fleet) : Finset PageKey :=
  (f.queued.filterMap fun e => e.fields.page?).toFinset

variable {f f' : Fleet} {key : PageKey}

theorem mem_queued {e : Entry} : e ∈ f.queued ↔ ∃ lane, e ∈ (f.redis.streams lane).entries := by
  rw [queued, List.mem_append]
  constructor
  · rintro (h | h)
    · exact ⟨.lead, h⟩
    · exact ⟨.main, h⟩
  · rintro ⟨lane, h⟩
    cases lane with
    | lead => exact .inl h
    | main => exact .inr h

theorem mem_queuedPages : key ∈ f.queuedPages ↔ f.Unsettled key := by
  simp only [queuedPages, List.mem_toFinset, List.mem_filterMap, mem_queued,
    RawTask.page?_eq_some, Unsettled]
  constructor
  · rintro ⟨e, ⟨lane, he⟩, hkey⟩
    exact ⟨lane, e, he, hkey⟩
  · rintro ⟨lane, e, he, hkey⟩
    exact ⟨e, ⟨lane, he⟩, hkey⟩

/-- The queue length counts every queued page at least once. -/
theorem card_queuedPages_le_depth (f : Fleet) : f.queuedPages.card ≤ f.depth := by
  calc f.queuedPages.card
      ≤ (f.queued.filterMap fun e => e.fields.page?).length := List.toFinset_card_le _
    _ ≤ f.queued.length := List.length_filterMap_le _ _
    _ = f.depth := List.length_append

end Fleet

/-- A worker appends a page only while the page still has an unsettled entry. -/
def requeuesQueued (f : Fleet) : Label → Bool
  | .run t o =>
    match (f.parties t).bind Party.awaited with
    | some (.xaddMain fields) =>
      (o.fault.any fun fault => !fault.tookEffect) ||
        fields.page?.all fun key => decide (key ∈ f.queuedPages)
    | _ => true
  | _ => true

namespace Fleet
variable {cfg : Settings} {f f' : Fleet} {key : PageKey} {l : Label}

/-- A step whose entries are all old adds no page to the queue. -/
theorem unsettled_of_entries (h : ∀ lane, ∀ e ∈ (f'.redis.streams lane).entries,
    e ∈ (f.redis.streams lane).entries) (hkey : f'.Unsettled key) : f.Unsettled key := by
  obtain ⟨lane, e, he, hpage⟩ := hkey
  exact ⟨lane, e, h lane e he, hpage⟩

/-- What a step can add to the queue. -/
theorem unsettled_of_step (h : Step cfg f l f') (hkey : f'.Unsettled key) :
    f.Unsettled key ∨ (∃ now traceId, l = .enqueue key now traceId) ∨
      ∃ t o p fields, l = .run t o ∧ f.parties t = some p ∧
        p.awaited = some (.xaddMain fields) ∧ fields.page? = some key ∧
        (o.fault.any fun fault => !fault.tookEffect) = false := by
  cases h with
  | submit job totalPages now hnew => exact .inl hkey
  | enqueue key' now traceId hpage hnew =>
    obtain ⟨lane, e, he, hpage⟩ := hkey
    rcases Redis.mem_entries_xadd he with hold | ⟨-, rfl⟩
    · exact .inl ⟨lane, e, hold, hpage⟩
    · simp only [enqueueFields, Option.some.injEq, RawValue.int.injEq] at hpage
      have hsame : key' = key := PageKey.ext_iff.mpr hpage
      subst hsame
      exact .inr (.inl ⟨now, traceId, rfl⟩)
  | idle l procs streams hsame howner =>
    refine .inl (unsettled_of_entries ?_ hkey)
    intro lane e he
    exact (hsame lane).entries ▸ he
  | take hl htaken hstarts =>
    refine .inl (unsettled_of_entries ?_ hkey)
    intro lane e he
    simp only [spawn, htaken.entries_setStream] at he
    exact he
  | crash c => exact .inl hkey
  | @run t o p c k hparty hprog =>
    obtain ⟨lane, e, he, hpage⟩ := hkey
    rcases Cmd.mem_entries_exec he with hold | ⟨hcmd, heffect⟩
    · exact .inl ⟨lane, e, hold, hpage⟩
    · refine .inr (.inr ⟨t, o, p, e.fields, rfl, hparty, ?_,
        RawTask.page?_eq_some.mpr hpage, heffect⟩)
      rw [Party.awaited, hprog]
      exact congrArg some hcmd

end Fleet

namespace Deployment

inductive Label (n : ℕ) where
  /-- A step of the workers. -/
  | worker (l : OcrOrchestrator.Label)
  /-- A request gets the lock. -/
  | request (r : Fin n) (job : JobId) (pages : ℕ)
  | evaluate (r : Fin n)
  | initJob (r : Fin n) (now : ℕ)
  | xadd (r : Fin n) (now : ℕ) (traceId : String)
  /-- The server answers an `XADD` of the pipeline with an error; the others are executed. -/
  | refuse (r : Fin n)
  | release (r : Fin n)
  /-- The critical section is left by an exception. -/
  | raise (r : Fin n)
  /-- The admission hash expires. -/
  | expire

variable {n : ℕ}

/-- Jobs are submitted by the replicas only. -/
def isWorkers : OcrOrchestrator.Label → Bool
  | .initJob _ _ _ => false
  | .enqueue _ _ _ => false
  | _ => true

def setReplica (s : Deployment n) (r : Fin n) (x : Replica) : Deployment n :=
  { s with replicas := Function.update s.replicas r x }

/-- One step, `none` if the label is not enabled. -/
def step (cfg : Settings) (adm : AdmissionSettings) (s : Deployment n) :
    Label n → Option (Deployment n)
  | .worker l =>
    if isWorkers l then (s.fleet.step cfg l).map fun f => { s with fleet := f } else none
  | .request r job pages =>
    -- a job of more than `max_pages` has been refused before
    if s.replicas r = .idle ∧ pages ≤ adm.maxPages then
      some (s.setReplica r (.evaluating job pages))
    else none
  | .evaluate r =>
    match s.replicas r with
    | .evaluating job pages =>
      let out := admissionScript pages adm.highWatermark adm.lowWatermark s.fleet.depth
        s.admission
      some ({ s with admission := out.2 }.setReplica r
        (if out.1.admitted then .initialising job pages else .idle))
    | _ => none
  | .initJob r now =>
    match s.replicas r with
    | .initialising job pages =>
      (s.fleet.step cfg (.initJob job pages now)).map fun f =>
        { s with fleet := f }.setReplica r (.enqueuing job pages 0)
    | _ => none
  | .xadd r now traceId =>
    match s.replicas r with
    | .enqueuing job pages next =>
      if next < pages then
        (s.fleet.step cfg (.enqueue ⟨job, next⟩ now traceId)).map fun f =>
          { s with fleet := f }.setReplica r (.enqueuing job pages (next + 1))
      else none
    | _ => none
  | .refuse r =>
    match s.replicas r with
    | .enqueuing job pages next =>
      if next < pages then some (s.setReplica r (.enqueuing job pages (next + 1))) else none
    | _ => none
  | .release r =>
    match s.replicas r with
    | .enqueuing _ pages next => if next = pages then some (s.setReplica r .idle) else none
    | _ => none
  | .raise r => if s.replicas r = .idle then none else some (s.setReplica r .idle)
  | .expire => some { s with admission := {} }

def start (n : ℕ) : Deployment n := ⟨.empty, {}, fun _ => .idle⟩

def system (cfg : Settings) (adm : AdmissionSettings) (n : ℕ) : System (Deployment n) (Label n) :=
  ⟨start n, step cfg adm⟩

/-- What a replica can do next: the fleet and the replica afterwards. -/
inductive Turn (cfg : Settings) (adm : AdmissionSettings) (s : Deployment n) (r : Fin n) :
    Fleet → Replica → Prop where
  | request {job : JobId} {pages : ℕ} (hpages : pages ≤ adm.maxPages) :
      Turn cfg adm s r s.fleet (.evaluating job pages)
  | admitted {job : JobId} {pages : ℕ} (hr : s.replicas r = .evaluating job pages)
      (hfits : s.fleet.depth + pages ≤ adm.highWatermark) :
      Turn cfg adm s r s.fleet (.initialising job pages)
  | init {job : JobId} {pages now : ℕ} {f : Fleet} (hr : s.replicas r = .initialising job pages)
      (hf : s.fleet.step cfg (.initJob job pages now) = some f) :
      Turn cfg adm s r f (.enqueuing job pages 0)
  | append {job : JobId} {pages next now : ℕ} {traceId : String} {f : Fleet}
      (hr : s.replicas r = .enqueuing job pages next) (hnext : next < pages)
      (hf : s.fleet.step cfg (.enqueue ⟨job, next⟩ now traceId) = some f) :
      Turn cfg adm s r f (.enqueuing job pages (next + 1))
  | refuse {job : JobId} {pages next : ℕ} (hr : s.replicas r = .enqueuing job pages next) :
      Turn cfg adm s r s.fleet (.enqueuing job pages (next + 1))
  | leave : Turn cfg adm s r s.fleet .idle

/-- What one step can do. -/
inductive Step (cfg : Settings) (adm : AdmissionSettings) (s : Deployment n) :
    Label n → Deployment n → Prop where
  | worker {l : OcrOrchestrator.Label} {f : Fleet} (hl : isWorkers l = true)
      (hf : s.fleet.step cfg l = some f) : Step cfg adm s (.worker l) { s with fleet := f }
  | turn {l : Label n} {r : Fin n} {f : Fleet} {x : Replica} (a : AdmissionHash)
      (h : Turn cfg adm s r f x) : Step cfg adm s l (setReplica ⟨f, a, s.replicas⟩ r x)
  | expire : Step cfg adm s .expire { s with admission := {} }

section Step
variable {cfg : Settings} {adm : AdmissionSettings} {s s' : Deployment n}

/-- **Every step** is one of the cases. -/
theorem step_cases {l : Label n} (hstep : s.step cfg adm l = some s') : Step cfg adm s l s' := by
  cases l with
  | worker l =>
    simp only [step] at hstep
    split at hstep
    next hl =>
      obtain ⟨f, hf, rfl⟩ := Option.map_eq_some_iff.mp hstep
      exact .worker hl hf
    next => cases hstep
  | request r job pages =>
    simp only [step] at hstep
    split at hstep
    next hcond =>
      obtain rfl := Option.some.inj hstep
      exact .turn s.admission (.request hcond.2)
    next => cases hstep
  | evaluate r =>
    simp only [step] at hstep
    split at hstep
    next job pages hr =>
      obtain rfl := Option.some.inj hstep
      split
      next hadmitted => exact .turn _ (.admitted hr (le_of_admitted hadmitted))
      next => exact .turn _ .leave
    next => cases hstep
  | initJob r now =>
    simp only [step] at hstep
    split at hstep
    next job pages hr =>
      obtain ⟨f, hf, rfl⟩ := Option.map_eq_some_iff.mp hstep
      exact .turn s.admission (.init hr hf)
    next => cases hstep
  | xadd r now traceId =>
    simp only [step] at hstep
    split at hstep
    next job pages next hr =>
      split at hstep
      next hnext =>
        obtain ⟨f, hf, rfl⟩ := Option.map_eq_some_iff.mp hstep
        exact .turn s.admission (.append hr hnext hf)
      next => cases hstep
    next => cases hstep
  | refuse r =>
    simp only [step] at hstep
    split at hstep
    next job pages next hr =>
      split at hstep
      · obtain rfl := Option.some.inj hstep
        exact .turn s.admission (.refuse hr)
      · cases hstep
    next => cases hstep
  | release r =>
    simp only [step] at hstep
    split at hstep
    next job pages next hr =>
      split at hstep
      · obtain rfl := Option.some.inj hstep
        exact .turn s.admission .leave
      · cases hstep
    next => cases hstep
  | raise r =>
    simp only [step] at hstep
    split at hstep
    · cases hstep
    · obtain rfl := Option.some.inj hstep
      exact .turn s.admission .leave
  | expire =>
    obtain rfl := Option.some.inj hstep
    exact .expire

end Step

/-- The condition on the steps of the workers. -/
def workersRequeueQueued (s : Deployment n) : Label n → Bool
  | .worker l => requeuesQueued s.fleet l
  | _ => true

/-- All the pages that some replica still owes. -/
def owed (s : Deployment n) : ℕ := ∑ r, (s.replicas r).owed

/-- The invariant: what is queued and what is owed stay within the bound, and no replica owes
more than one job. -/
structure Bounded (adm : AdmissionSettings) (s : Deployment n) : Prop where
  total : s.fleet.queuedPages.card + s.owed ≤ adm.highWatermark + (n - 1) * adm.maxPages
  pages : ∀ r job pages, s.replicas r = .evaluating job pages → pages ≤ adm.maxPages
  owes : ∀ r, (s.replicas r).owed ≤ adm.maxPages

variable {cfg : Settings} {adm : AdmissionSettings} {s s' : Deployment n} {r : Fin n}

/-- The replicas other than `r` owe the rest. -/
theorem owed_setReplica (s : Deployment n) (r : Fin n) (x : Replica) :
    (s.setReplica r x).owed + (s.replicas r).owed = s.owed + x.owed := by
  have hupdate : (fun i => (Function.update s.replicas r x i).owed) =
      Function.update (fun i => (s.replicas i).owed) r x.owed := by
    funext i
    exact Function.apply_update (fun _ y => Replica.owed y) s.replicas r x i
  have hsplit := Finset.add_sum_erase Finset.univ (fun i => (s.replicas i).owed)
    (Finset.mem_univ r)
  simp only [owed, setReplica, hupdate]
  rw [Finset.sum_update_of_mem (Finset.mem_univ r), Finset.sdiff_singleton_eq_erase]
  omega

/-- The others owe at most one job each. -/
theorem Bounded.owed_le (h : s.Bounded adm) (r : Fin n) :
    s.owed ≤ (s.replicas r).owed + (n - 1) * adm.maxPages := by
  have hsplit := Finset.add_sum_erase Finset.univ (fun i => (s.replicas i).owed)
    (Finset.mem_univ r)
  have hothers : ∑ i ∈ Finset.univ.erase r, (s.replicas i).owed ≤ (n - 1) * adm.maxPages := by
    calc ∑ i ∈ Finset.univ.erase r, (s.replicas i).owed
        ≤ (Finset.univ.erase r).card • adm.maxPages :=
          Finset.sum_le_card_nsmul _ _ _ fun i _ => h.owes i
      _ = (n - 1) * adm.maxPages := by
          rw [Finset.card_erase_of_mem (Finset.mem_univ r), Finset.card_fin, smul_eq_mul]
  simp only [owed]
  omega

theorem bounded_start (adm : AdmissionSettings) (n : ℕ) : (start n).Bounded adm where
  total := by simp [start, owed, Replica.owed, Fleet.queuedPages, Fleet.queued, Fleet.empty,
    Redis.empty, TaskStream.empty]
  pages := by
    intro r job pages h
    cases h
  owes := fun _ => Nat.zero_le _

/-- A replica moves on, perhaps with the fleet. -/
theorem Bounded.setReplica (h : s.Bounded adm) {f : Fleet} {a : AdmissionHash} {x : Replica}
    (htotal : f.queuedPages.card + (s.owed + x.owed) ≤
      adm.highWatermark + (n - 1) * adm.maxPages + (s.replicas r).owed)
    (howes : x.owed ≤ adm.maxPages)
    (hpages : ∀ job pages, x = .evaluating job pages → pages ≤ adm.maxPages) :
    (Deployment.setReplica ⟨f, a, s.replicas⟩ r x).Bounded adm := by
  have howed : (Deployment.setReplica ⟨f, a, s.replicas⟩ r x).owed + (s.replicas r).owed =
      s.owed + x.owed := owed_setReplica ⟨f, a, s.replicas⟩ r x
  refine ⟨?_, ?_, ?_⟩
  · have hfleet : (Deployment.setReplica ⟨f, a, s.replicas⟩ r x).fleet = f := rfl
    rw [hfleet]
    omega
  · intro i job pages hi
    simp only [Deployment.setReplica] at hi
    by_cases hir : i = r
    · subst hir
      rw [Function.update_self] at hi
      exact hpages job pages hi
    · rw [Function.update_of_ne hir] at hi
      exact h.pages i job pages hi
  · intro i
    simp only [Deployment.setReplica]
    by_cases hir : i = r
    · subst hir
      rw [Function.update_self]
      exact howes
    · rw [Function.update_of_ne hir]
      exact h.owes i

/-- A step of the workers queues nothing new. -/
theorem queuedPages_subset_of_worker {l : OcrOrchestrator.Label} {f : Fleet}
    (hl : isWorkers l = true) (hallow : requeuesQueued s.fleet l = true)
    (hstep : s.fleet.step cfg l = some f) : f.queuedPages ⊆ s.fleet.queuedPages := by
  intro key hkey
  rw [Fleet.mem_queuedPages] at hkey ⊢
  rcases Fleet.unsettled_of_step (step_spec hstep) hkey with
    hold | ⟨now, traceId, rfl⟩ | ⟨t, o, p, fields, rfl, hp, hawaited, hpage, heffect⟩
  · exact hold
  · cases hl
  · simp only [requeuesQueued, hp, Option.bind_some, hawaited, hpage, heffect, Bool.false_or,
      Option.all_some, decide_eq_true_eq] at hallow
    exact Fleet.mem_queuedPages.mp hallow

theorem queuedPages_subset_of_initJob {job : JobId} {pages now : ℕ} {f : Fleet}
    (hstep : s.fleet.step cfg (.initJob job pages now) = some f) :
    f.queuedPages ⊆ s.fleet.queuedPages := by
  intro key hkey
  rw [Fleet.mem_queuedPages] at hkey ⊢
  rcases Fleet.unsettled_of_step (step_spec hstep) hkey with
    hold | ⟨_, _, hl⟩ | ⟨_, _, _, _, hl, _⟩
  · exact hold
  · cases hl
  · cases hl

/-- An `XADD` of a replica queues one page. -/
theorem card_queuedPages_le_of_enqueue {key : PageKey} {now : ℕ} {traceId : String} {f : Fleet}
    (hstep : s.fleet.step cfg (.enqueue key now traceId) = some f) :
    f.queuedPages.card ≤ s.fleet.queuedPages.card + 1 := by
  have hsubset : f.queuedPages ⊆ insert key s.fleet.queuedPages := by
    intro key' hkey'
    rw [Finset.mem_insert, Fleet.mem_queuedPages]
    rw [Fleet.mem_queuedPages] at hkey'
    rcases Fleet.unsettled_of_step (step_spec hstep) hkey' with
      hold | ⟨_, _, hl⟩ | ⟨_, _, _, _, hl, _⟩
    · exact .inr hold
    · cases hl
      exact .inl rfl
    · cases hl
  exact le_trans (Finset.card_le_card hsubset) (Finset.card_insert_le _ _)

/-- Each turn pays for what it queues, and an admission fits beside what the others owe. -/
theorem Bounded.turn (h : s.Bounded adm) {f : Fleet} {x : Replica} (a : AdmissionHash)
    (hturn : Turn cfg adm s r f x) : (Deployment.setReplica ⟨f, a, s.replicas⟩ r x).Bounded adm := by
  have htotal := h.total
  cases hturn with
  | request hpages =>
    apply h.setReplica
    · simp only [Replica.owed]
      omega
    · exact Nat.zero_le _
    · intro job pages heq
      cases heq
      exact hpages
  | @admitted job pages hr hfits =>
    have hzero : (s.replicas r).owed = 0 := by
      rw [hr]
      rfl
    have hdepth := s.fleet.card_queuedPages_le_depth
    have howed := h.owed_le r
    apply h.setReplica
    · rw [hzero] at howed ⊢
      simp only [Replica.owed]
      omega
    · exact h.pages r job pages hr
    · intro job' pages' heq
      cases heq
  | @init job pages now f hr hf =>
    have hcard := Finset.card_le_card (queuedPages_subset_of_initJob hf)
    have hold : (s.replicas r).owed = pages := by
      rw [hr]
      rfl
    have howes := h.owes r
    apply h.setReplica
    · rw [hold]
      simp only [Replica.owed]
      omega
    · simp only [Replica.owed]
      omega
    · intro job' pages' heq
      cases heq
  | @append job pages next now traceId f hr hnext hf =>
    have hcard := card_queuedPages_le_of_enqueue hf
    have hold : (s.replicas r).owed = pages - next := by
      rw [hr]
      rfl
    have howes := h.owes r
    apply h.setReplica
    · rw [hold]
      simp only [Replica.owed]
      omega
    · simp only [Replica.owed]
      omega
    · intro job' pages' heq
      cases heq
  | @refuse job pages next hr =>
    have hold : (s.replicas r).owed = pages - next := by
      rw [hr]
      rfl
    have howes := h.owes r
    apply h.setReplica
    · rw [hold]
      simp only [Replica.owed]
      omega
    · simp only [Replica.owed]
      omega
    · intro job' pages' heq
      cases heq
  | leave =>
    apply h.setReplica
    · simp only [Replica.owed]
      omega
    · exact Nat.zero_le _
    · intro job pages heq
      cases heq

theorem Bounded.step (h : s.Bounded adm) {l : Label n} (hallow : s.workersRequeueQueued l = true)
    (hstep : Step cfg adm s l s') : s'.Bounded adm := by
  cases hstep with
  | worker hl hf =>
    have hcard := Finset.card_le_card (queuedPages_subset_of_worker hl hallow hf)
    refine ⟨?_, h.pages, h.owes⟩
    exact le_trans (Nat.add_le_add_right hcard _) h.total
  | turn a hturn => exact h.turn a hturn
  | expire => exact ⟨h.total, h.pages, h.owes⟩

/-- **The admission bound**: as long as workers only requeue pages that are still queued, the
pages with an unsettled entry never exceed the high watermark by more than one job for each
replica but one. -/
theorem card_queuedPages_le_of_reach (cfg : Settings) (adm : AdmissionSettings) (n : ℕ)
    (s : Deployment n) (hs : (system cfg adm n).Reach workersRequeueQueued s) :
    s.fleet.queuedPages.card ≤ adm.highWatermark + (n - 1) * adm.maxPages := by
  have hbounded : s.Bounded adm := by
    apply System.Reach.invariant (bounded_start adm n) _ hs
    intro s l s' h hallow hstep
    exact h.step hallow (step_cases hstep)
  have htotal := hbounded.total
  omega

/-- Steps of the workers. -/
def workers (ls : List OcrOrchestrator.Label) : List (Label n) := ls.map .worker

/-- Two replicas check the empty queue before either of them appends; then a worker takes the
first page of a job and hands it off. -/
def twoReplicas (r r' : Fin 2) : List (Label 2) :=
  [.request r 0 2, .request r' 1 2, .evaluate r, .evaluate r', .initJob r 1000, .initJob r' 1000,
    .xadd r 1000 "t", .xadd r' 1000 "u", .xadd r 1000 "t", .xadd r' 1000 "u"] ++
  workers ([.start 1, .ready 1, .deliver 1 .lead 1000] ++ runs 0 10 1000)

/-- The bound is reached, with the page that has been requeued. -/
theorem card_queuedPages_le_two_replicas :
    ∃ s : Deployment 2, (system {} ⟨2, 1, 2⟩ 2).Reach workersRequeueQueued s ∧
      s.fleet.redis.state? ⟨0, 0⟩ = some .layoutDone ∧
      s.fleet.queuedPages.card = 4 ∧ s.fleet.queuedPages.card ≤ 2 + (2 - 1) * 2 := by
  obtain ⟨s, hs, hq⟩ := System.exists_of_runAll (system {} ⟨2, 1, 2⟩ 2) workersRequeueQueued
    (fun s => decide (s.fleet.redis.state? ⟨0, 0⟩ = some .layoutDone ∧
      s.fleet.queuedPages.card = 4)) (twoReplicas 0 1) (by decide +kernel)
  obtain ⟨hstate, hcard⟩ := of_decide_eq_true hq
  exact ⟨s, hs, hstate, hcard, card_queuedPages_le_of_reach _ _ _ s hs⟩

/-- One replica submits a job of one page. -/
def submitOne (job now : ℕ) : List (Label 1) :=
  [.request 0 job 1, .evaluate 0, .initJob 0 now, .xadd 0 now "t", .release 0]

/-- The only page of a job is claimed by a worker that then stalls in the layout call.  A
reaper gives the page back, another worker fails it for good, and the next job is admitted
into the empty queue.  Only then is the layout call of the first worker refused. -/
def staleRequeue : List (Label 1) :=
  submitOne 0 1000 ++
    workers ([.start 1, .ready 1, .deliver 1 .lead 1000] ++ runs 0 3 1000 ++
      [.start 2, .ready 2, .reap 2 .lead ⟨1000, 0⟩ 40000] ++ runs 1 8 40000 ++
      [.deliver 2 .main 40000] ++ runs 2 3 40000 ++
      [.run 2 (.raises 40000 (.httpStatusError 400 "bad request"))] ++ runs 2 7 40000) ++
    submitOne 1 41000 ++
    workers ([.run 0 (.raises 41000 (.rateLimitTimeout .layout 1 1))] ++ runs 0 3 41000)

/-- With one replica and a watermark of one page, a worker that has lost its claim requeues a
page that is settled, beside the page that has been admitted since. -/
theorem not_card_queuedPages_le_stale_requeue :
    ¬ ∀ (cfg : Settings) (adm : AdmissionSettings) (n : ℕ) (s : Deployment n),
      (system cfg adm n).Reach System.anyStep s →
        s.fleet.queuedPages.card ≤ adm.highWatermark + (n - 1) * adm.maxPages := by
  intro hall
  obtain ⟨s, hs, hq⟩ := System.exists_of_runAll (system {} ⟨1, 1, 1⟩ 1) System.anyStep
    (fun s => decide (s.fleet.queuedPages.card = 2)) staleRequeue (by decide +kernel)
  have hle := hall _ _ _ s hs
  simp only [decide_eq_true_eq] at hq
  dsimp only at hle
  omega

end Deployment
end OcrOrchestrator
