import OcrOrchestrator.Api.Admission
import OcrOrchestrator.Worker.Checkpoint

/-!
# What a failed ingestion leaves behind

After its job has been admitted, a request writes the job and page hashes in one transaction
and then appends the pages, one `XADD` each, in a pipeline that is no transaction.  Whatever
raises in between, nothing is taken back: what has been written stays, and expires by its TTL.

The replicas and the workers are those of the admission bound.  Two things are added: every
request draws a job id of its own, and one whose pipeline had an `XADD` refused raises.

## Main definitions

* `Ingest`, `Ingest.system` — the deployment with the ids that have been drawn.
* `Fleet.Absent` — no hash and no entry of a job exists.
* `Fleet.Submitted` — its hashes exist, and entries of pages that have been appended only.
-/

namespace OcrOrchestrator

open Lib

namespace Fleet

/-- Nothing of this job exists. -/
structure Absent (f : Fleet) (job : JobId) : Prop where
  hash : f.redis.jobs job = none
  pages : ∀ i, f.redis.pages ⟨job, i⟩ = none
  entries : ∀ lane, ∀ e ∈ (f.redis.streams lane).entries, e.fields.jobId ≠ some job

/-- The job hash and all page hashes exist; every entry is of a page below `next`. -/
structure Submitted (f : Fleet) (job : JobId) (pages next : ℕ) : Prop where
  hash : (f.redis.jobs job).isSome = true
  pages : ∀ i : ℕ, i < pages → (f.redis.pages ⟨job, i⟩).isSome = true
  entries : ∀ lane, ∀ e ∈ (f.redis.streams lane).entries, e.fields.jobId = some job →
    ∃ i : ℕ, i < next ∧ e.fields.pageIndex = some (.int i)

end Fleet

/-- The deployment, the job ids drawn so far, and whether an `XADD` of the request a replica
serves has been answered with an error. -/
structure Ingest (n : ℕ) where
  deployment : Deployment n
  drawn : List JobId
  failed : Fin n → Bool

namespace Ingest
variable {n : ℕ}

/-- A request draws a new id, and returns normally only if no `XADD` was refused. -/
def accepts (s : Ingest n) : Deployment.Label n → Bool
  | .request _ job _ => decide (job ∉ s.drawn)
  | .release r => !s.failed r
  | _ => true

def drawnAfter (s : Ingest n) : Deployment.Label n → List JobId
  | .request _ job _ => job :: s.drawn
  | _ => s.drawn

def failedAfter (s : Ingest n) : Deployment.Label n → Fin n → Bool
  | .request r _ _ => Function.update s.failed r false
  | .refuse r => Function.update s.failed r true
  | _ => s.failed

/-- One step, `none` if the label is not enabled. -/
def step (cfg : Settings) (adm : AdmissionSettings) (s : Ingest n) (l : Deployment.Label n) :
    Option (Ingest n) :=
  if s.accepts l then
    (s.deployment.step cfg adm l).map fun d => ⟨d, s.drawnAfter l, s.failedAfter l⟩
  else none

def system (cfg : Settings) (adm : AdmissionSettings) (n : ℕ) :
    System (Ingest n) (Deployment.Label n) :=
  ⟨⟨.start n, [], fun _ => false⟩, step cfg adm⟩

/-- What a replica can do next: the fleet, the replica and the ids drawn afterwards. -/
inductive Turn (cfg : Settings) (s : Ingest n) (r : Fin n) :
    Fleet → Replica → List JobId → Prop where
  | request {job : JobId} {pages : ℕ} (hnew : job ∉ s.drawn) :
      Turn cfg s r s.deployment.fleet (.evaluating job pages) (job :: s.drawn)
  | admitted {job : JobId} {pages : ℕ}
      (hr : s.deployment.replicas r = .evaluating job pages) :
      Turn cfg s r s.deployment.fleet (.initialising job pages) s.drawn
  | init {job : JobId} {pages now : ℕ} {f : Fleet}
      (hr : s.deployment.replicas r = .initialising job pages)
      (hf : s.deployment.fleet.step cfg (.initJob job pages now) = some f) :
      Turn cfg s r f (.enqueuing job pages 0) s.drawn
  | append {job : JobId} {pages next now : ℕ} {traceId : String} {f : Fleet}
      (hr : s.deployment.replicas r = .enqueuing job pages next)
      (hf : s.deployment.fleet.step cfg (.enqueue ⟨job, next⟩ now traceId) = some f) :
      Turn cfg s r f (.enqueuing job pages (next + 1)) s.drawn
  | refuse {job : JobId} {pages next : ℕ}
      (hr : s.deployment.replicas r = .enqueuing job pages next) :
      Turn cfg s r s.deployment.fleet (.enqueuing job pages (next + 1)) s.drawn
  | leave : Turn cfg s r s.deployment.fleet .idle s.drawn

/-- What one step can do. -/
inductive Step (cfg : Settings) (s : Ingest n) : Ingest n → Prop where
  | worker {l : OcrOrchestrator.Label} {f : Fleet} (hl : Deployment.isWorkers l = true)
      (hf : s.deployment.fleet.step cfg l = some f) :
      Step cfg s { s with deployment := { s.deployment with fleet := f } }
  | turn {r : Fin n} {f : Fleet} {x : Replica} {drawn : List JobId} (a : AdmissionHash)
      (failed : Fin n → Bool) (h : Turn cfg s r f x drawn) :
      Step cfg s ⟨Deployment.setReplica ⟨f, a, s.deployment.replicas⟩ r x, drawn, failed⟩
  | expire : Step cfg s { s with deployment := { s.deployment with admission := {} } }

section Step
variable {cfg : Settings} {adm : AdmissionSettings} {s s' : Ingest n}

/-- **Every step** is one of the cases. -/
theorem step_cases {l : Deployment.Label n} (hstep : s.step cfg adm l = some s') :
    Step cfg s s' := by
  simp only [step] at hstep
  split at hstep
  next haccepts =>
    obtain ⟨d, hd, rfl⟩ := Option.map_eq_some_iff.mp hstep
    cases l with
    | worker l =>
      simp only [Deployment.step] at hd
      split at hd
      next hl =>
        obtain ⟨f, hf, rfl⟩ := Option.map_eq_some_iff.mp hd
        exact .worker hl hf
      next => cases hd
    | request r job pages =>
      simp only [Deployment.step] at hd
      split at hd
      · obtain rfl := Option.some.inj hd
        exact .turn s.deployment.admission _ (.request (by simpa [accepts] using haccepts))
      · cases hd
    | evaluate r =>
      simp only [Deployment.step] at hd
      split at hd
      next job pages hr =>
        obtain rfl := Option.some.inj hd
        split
        next => exact .turn _ _ (.admitted hr)
        next => exact .turn _ _ .leave
      next => cases hd
    | initJob r now =>
      simp only [Deployment.step] at hd
      split at hd
      next job pages hr =>
        obtain ⟨f, hf, rfl⟩ := Option.map_eq_some_iff.mp hd
        exact .turn s.deployment.admission _ (.init hr hf)
      next => cases hd
    | xadd r now traceId =>
      simp only [Deployment.step] at hd
      split at hd
      next job pages next hr =>
        split at hd
        next hnext =>
          obtain ⟨f, hf, rfl⟩ := Option.map_eq_some_iff.mp hd
          exact .turn s.deployment.admission _ (.append hr hf)
        next => cases hd
      next => cases hd
    | refuse r =>
      simp only [Deployment.step] at hd
      split at hd
      next job pages next hr =>
        split at hd
        · obtain rfl := Option.some.inj hd
          exact .turn s.deployment.admission _ (.refuse hr)
        · cases hd
      next => cases hd
    | release r =>
      simp only [Deployment.step] at hd
      split at hd
      next job pages next hr =>
        split at hd
        · obtain rfl := Option.some.inj hd
          exact .turn s.deployment.admission _ .leave
        · cases hd
      next => cases hd
    | raise r =>
      simp only [Deployment.step] at hd
      split at hd
      · cases hd
      · obtain rfl := Option.some.inj hd
        exact .turn s.deployment.admission _ .leave
    | expire =>
      obtain rfl := Option.some.inj hd
      exact .expire
  next => cases hstep

end Step

end Ingest

/-! ## What the workers leave alone -/

/-- A job that has neither its hash nor a page gets no hash from a command. -/
theorem Cmd.jobs_exec_none {cfg : Settings} {o : Oracle} {c : Cmd} {s : Redis} {job : JobId}
    (hjob : s.jobs job = none) (hpages : ∀ i, s.pages ⟨job, i⟩ = none) :
    (c.exec cfg o s).2.jobs job = none := by
  have happly : (c.apply cfg o s).2.jobs job = none := by
    cases c with
    | evalTransition key target allowed extra =>
      simp only [Cmd.apply]
      by_cases hkey : job = key.job
      · subst hkey
        rw [Function.update_self, hpages key.index, transitionScript_missing]
        exact hjob
      · rw [Function.update_of_ne hkey]
        exact hjob
    | _ => exact hjob
  rcases Cmd.exec_state cfg o c s with hs | hs <;> rw [hs]
  · exact hjob
  · exact happly

namespace Fleet

/-- Every entry of the job, and everybody who works on it, is about a page in `P`. -/
structure Within (f : Fleet) (job : JobId) (P : ℤ → Prop) : Prop where
  entries : ∀ lane, ∀ e ∈ (f.redis.streams lane).entries, e.fields.jobId = some job →
    ∃ i, P i ∧ e.fields.pageIndex = some (.int i)
  parties : ∀ t p, f.parties t = some p → p.key.job = job → P p.key.index

section Workers
variable {cfg : Settings} {f f' : Fleet} {l : OcrOrchestrator.Label} {job : JobId} {P : ℤ → Prop}

/-- Workers requeue the pages they work on, and nothing else. -/
theorem Within.worker (h : f.Within job P) (hissues : f.Issues)
    (hl : Deployment.isWorkers l = true) (hstep : OcrOrchestrator.Step cfg f l f') :
    f'.Within job P := by
  cases hstep with
  | submit => cases hl
  | enqueue => cases hl
  | idle l procs streams hsame howner =>
    refine ⟨?_, h.parties⟩
    intro lane e he
    exact h.entries lane e ((hsame lane).entries ▸ he)
  | @take l p e stream hl htaken hstarts =>
    refine ⟨?_, ?_⟩
    · intro lane x hx
      simp only [spawn, htaken.entries_setStream] at hx
      exact h.entries lane x hx
    · intro t q hq hjob
      by_cases ht : t = f.next
      · subst ht
        obtain rfl := Option.some.inj (spawn_parties_self.symm.trans hq)
        obtain ⟨i, hi, hpage⟩ := h.entries _ e htaken.mem (hjob ▸ htaken.job)
        rw [htaken.page] at hpage
        cases hpage
        exact hi
      · exact h.parties t q ((spawn_parties_ne ht).symm.trans hq) hjob
  | crash c =>
    refine ⟨h.entries, ?_⟩
    intro t p hp
    exact h.parties t p (Option.filter_eq_some_iff.mp hp).1
  | @run t o p c k hparty hprog =>
    refine ⟨?_, ?_⟩
    · intro lane e he hjob
      rcases Cmd.mem_entries_exec he with hold | ⟨hcmd, -⟩
      · exact h.entries lane e hold hjob
      · have hissued := hissues t p hparty
        rw [hprog] at hissued
        have hadds := hissued.1
        rw [hcmd] at hadds
        generalize hfields : e.fields = fields at hadds hjob
        cases hadds with
        | xaddMain countAttempt now =>
          exact ⟨p.task.pageIndex, h.parties t p hparty (Option.some.inj hjob), rfl⟩
    · intro t' q hq hjob
      by_cases ht : t' = t
      · subst ht
        obtain rfl := resume_parties_self hq
        exact h.parties t' p hparty hjob
      · rw [resume_parties_ne ht] at hq
        exact h.parties t' q hq hjob

/-- Workers neither create nor remove a page hash. -/
theorem pages_worker (hl : Deployment.isWorkers l = true)
    (hstep : OcrOrchestrator.Step cfg f l f') (key : PageKey) :
    (f'.redis.pages key).isSome = (f.redis.pages key).isSome := by
  cases hstep with
  | submit => cases hl
  | enqueue => cases hl
  | idle => rfl
  | take => rfl
  | crash => rfl
  | @run t o p c k hparty hprog =>
    simp only [resume]
    cases hp : f.redis.pages key with
    | none => rw [Cmd.pages_exec_none hp]
    | some page =>
      obtain ⟨page', hpage', -⟩ := Cmd.pages_exec_some cfg o c hp
      rw [hpage']
      rfl

/-- Workers do not remove a job hash, and write one only next to a page. -/
theorem jobs_worker (hl : Deployment.isWorkers l = true)
    (hstep : OcrOrchestrator.Step cfg f l f') (job : JobId) :
    ((f.redis.jobs job).isSome = true → (f'.redis.jobs job).isSome = true) ∧
      (f.redis.jobs job = none → (∀ i, f.redis.pages ⟨job, i⟩ = none) →
        f'.redis.jobs job = none) := by
  cases hstep with
  | submit => cases hl
  | enqueue => cases hl
  | idle => exact ⟨id, fun h _ => h⟩
  | take => exact ⟨id, fun h _ => h⟩
  | crash => exact ⟨id, fun h _ => h⟩
  | run hparty hprog => exact ⟨Cmd.jobs_isSome_exec, Cmd.jobs_exec_none⟩

/-- `init_job` runs for a job that has no hash. -/
theorem step_initJob {pages now : ℕ} (hstep : f.step cfg (.initJob job pages now) = some f') :
    f.redis.jobs job = none ∧ f' = { f with redis := initJob cfg now job pages f.redis } := by
  simp only [step] at hstep
  split at hstep
  · cases hstep
  · rename_i hnew
    exact ⟨by simpa using hnew, (Option.some.inj hstep).symm⟩

theorem step_enqueue {key : PageKey} {now : ℕ} {traceId : String}
    (hstep : f.step cfg (.enqueue key now traceId) = some f') :
    f' = { f with
      redis := f.redis.setStream (enqueueLane key)
        ((f.redis.streams (enqueueLane key)).xadd now (enqueueFields key now traceId)).2
      enqueued := Function.update f.enqueued key true } := by
  simp only [step] at hstep
  split at hstep
  · cases hstep
  · exact (Option.some.inj hstep).symm

theorem Within.mono {Q : ℤ → Prop} (h : f.Within job P) (hPQ : ∀ i, P i → Q i) :
    f.Within job Q := by
  refine ⟨?_, fun t p hp hjob => hPQ _ (h.parties t p hp hjob)⟩
  intro lane e he hjob
  obtain ⟨i, hi, hpage⟩ := h.entries lane e he hjob
  exact ⟨i, hPQ i hi, hpage⟩

/-- An `XADD` of a replica queues the page it names. -/
theorem Within.enqueue (h : f.Within job P) {key : PageKey} {now : ℕ} {traceId : String}
    (hkey : key.job = job → P key.index) :
    Within { f with
      redis := f.redis.setStream (enqueueLane key)
        ((f.redis.streams (enqueueLane key)).xadd now (enqueueFields key now traceId)).2
      enqueued := Function.update f.enqueued key true } job P := by
  refine ⟨?_, h.parties⟩
  intro lane e he hjob
  rcases Redis.mem_entries_xadd he with hold | ⟨-, rfl⟩
  · exact h.entries lane e hold hjob
  · exact ⟨key.index, hkey (Option.some.inj hjob), rfl⟩

end Workers

end Fleet

/-! ## The invariant -/

/-- The job the replica serves. -/
def Replica.job? : Replica → Option JobId
  | idle => none
  | evaluating job _ => some job
  | initialising job _ => some job
  | enqueuing job _ _ => some job

/-- The replica's job exists if and only if the replica has got past `init_job`. -/
def Replica.Tidy (f : Fleet) : Replica → Prop
  | idle => True
  | evaluating job _ => f.redis.jobs job = none
  | initialising job _ => f.redis.jobs job = none
  | enqueuing job pages next =>
    (f.redis.jobs job).isSome = true ∧
      (∀ i : ℕ, i < pages → (f.redis.pages ⟨job, i⟩).isSome = true) ∧
      f.Within job fun i => 0 ≤ i ∧ i < next

namespace Ingest
variable {n : ℕ} {cfg : Settings} {s s' : Ingest n} {r : Fin n}

/-- The invariant: what belongs to a job comes after its hash, a hash has an id that has been
drawn, and the replicas serve different jobs. -/
structure Tidy (s : Ingest n) : Prop where
  issues : s.deployment.fleet.Issues
  absent : ∀ job, s.deployment.fleet.redis.jobs job = none →
    (∀ i, s.deployment.fleet.redis.pages ⟨job, i⟩ = none) ∧
      s.deployment.fleet.Within job fun _ => False
  drawn : ∀ job, (s.deployment.fleet.redis.jobs job).isSome = true → job ∈ s.drawn
  held : ∀ r job, (s.deployment.replicas r).job? = some job → job ∈ s.drawn
  apart : ∀ r r' job, (s.deployment.replicas r).job? = some job →
    (s.deployment.replicas r').job? = some job → r = r'
  replicas : ∀ r, (s.deployment.replicas r).Tidy s.deployment.fleet

theorem tidy_start (cfg : Settings) (adm : AdmissionSettings) (n : ℕ) :
    (system cfg adm n).init.Tidy where
  issues := by
    intro t p hp
    cases hp
  absent := by
    refine fun job _ => ⟨fun _ => rfl, ⟨?_, ?_⟩⟩
    · intro lane e he
      cases he
    · intro t p hp
      cases hp
  drawn := by
    intro job hjob
    cases hjob
  held := by
    intro r job hjob
    cases hjob
  apart := by
    intro r r' job hjob
    cases hjob
  replicas := fun _ => trivial

/-- A step of the workers. -/
theorem Tidy.worker (h : s.Tidy) {l : OcrOrchestrator.Label} {f : Fleet}
    (hl : Deployment.isWorkers l = true) (hstep : OcrOrchestrator.Step cfg s.deployment.fleet l f) :
    Tidy { s with deployment := { s.deployment with fleet := f } } := by
  have hback : ∀ job, f.redis.jobs job = none → s.deployment.fleet.redis.jobs job = none := by
    intro job hnone
    by_contra hsome
    have hkept := (Fleet.jobs_worker hl hstep job).1 (Option.isSome_iff_ne_none.mpr hsome)
    rw [hnone] at hkept
    cases hkept
  refine ⟨h.issues.step hstep, ?_, ?_, h.held, h.apart, ?_⟩
  · intro job hnone
    obtain ⟨hpages, hwithin⟩ := h.absent job (hback job hnone)
    refine ⟨fun i => ?_, hwithin.worker h.issues hl hstep⟩
    have hsame := Fleet.pages_worker hl hstep ⟨job, i⟩
    rw [hpages i] at hsame
    exact Option.isSome_eq_false_iff.mp hsame |> Option.isNone_iff_eq_none.mp
  · intro job hsome
    apply h.drawn
    rw [Option.isSome_iff_ne_none]
    intro hnone
    have hstill := (Fleet.jobs_worker hl hstep job).2 hnone (h.absent job hnone).1
    rw [hstill] at hsome
    cases hsome
  · intro r
    have hr := h.replicas r
    cases hx : s.deployment.replicas r with
    | idle => trivial
    | evaluating job pages =>
      rw [hx] at hr
      exact (Fleet.jobs_worker hl hstep job).2 hr (h.absent job hr).1
    | initialising job pages =>
      rw [hx] at hr
      exact (Fleet.jobs_worker hl hstep job).2 hr (h.absent job hr).1
    | enqueuing job pages next =>
      rw [hx] at hr
      obtain ⟨hjob, hpages, hwithin⟩ := hr
      refine ⟨(Fleet.jobs_worker hl hstep job).1 hjob, fun i hi => ?_,
        hwithin.worker h.issues hl hstep⟩
      rw [Fleet.pages_worker hl hstep]
      exact hpages i hi

/-- A replica moves on, perhaps with the fleet. -/
theorem Tidy.setReplica (h : s.Tidy) {f : Fleet} {a : AdmissionHash} {x : Replica}
    {drawn : List JobId} {failed : Fin n → Bool} (hissues : f.Issues)
    (habsent : ∀ job, f.redis.jobs job = none →
      (∀ i, f.redis.pages ⟨job, i⟩ = none) ∧ f.Within job fun _ => False)
    (hdrawn : ∀ job, (f.redis.jobs job).isSome = true → job ∈ drawn)
    (hmore : ∀ job ∈ s.drawn, job ∈ drawn) (hheld : ∀ job, x.job? = some job → job ∈ drawn)
    (hapart : ∀ r' ≠ r, ∀ job, x.job? = some job → (s.deployment.replicas r').job? ≠ some job)
    (hx : x.Tidy f) (hothers : ∀ r' ≠ r, (s.deployment.replicas r').Tidy f) :
    Tidy ⟨Deployment.setReplica ⟨f, a, s.deployment.replicas⟩ r x, drawn, failed⟩ := by
  refine ⟨hissues, habsent, hdrawn, ?_, ?_, ?_⟩
  · intro r' job hjob
    simp only [Deployment.setReplica] at hjob
    by_cases hr : r' = r
    · subst hr
      rw [Function.update_self] at hjob
      exact hheld job hjob
    · rw [Function.update_of_ne hr] at hjob
      exact hmore job (h.held r' job hjob)
  · intro r₁ r₂ job h₁ h₂
    simp only [Deployment.setReplica] at h₁ h₂
    by_cases hr₁ : r₁ = r
    · by_cases hr₂ : r₂ = r
      · rw [hr₁, hr₂]
      · rw [hr₁, Function.update_self] at h₁
        rw [Function.update_of_ne hr₂] at h₂
        exact absurd h₂ (hapart r₂ hr₂ job h₁)
    · by_cases hr₂ : r₂ = r
      · rw [Function.update_of_ne hr₁] at h₁
        rw [hr₂, Function.update_self] at h₂
        exact absurd h₁ (hapart r₁ hr₁ job h₂)
      · rw [Function.update_of_ne hr₁] at h₁
        rw [Function.update_of_ne hr₂] at h₂
        exact h.apart r₁ r₂ job h₁ h₂
  · intro r'
    simp only [Deployment.setReplica]
    by_cases hr : r' = r
    · subst hr
      rw [Function.update_self]
      exact hx
    · rw [Function.update_of_ne hr]
      exact hothers r' hr

/-- The other replicas do not serve the job of `r`. -/
theorem Tidy.others (h : s.Tidy) {job : JobId} (hr : (s.deployment.replicas r).job? = some job) :
    ∀ r' ≠ r, (s.deployment.replicas r').job? ≠ some job :=
  fun r' hne hjob => hne (h.apart r' r job hjob hr)

/-- A step that keeps the fleet and the job of the replica. -/
theorem Tidy.stay (h : s.Tidy) {a : AdmissionHash} {x : Replica} {failed : Fin n → Bool}
    (hjob : ∀ job, x.job? = some job → (s.deployment.replicas r).job? = some job)
    (hx : x.Tidy s.deployment.fleet) :
    Tidy ⟨Deployment.setReplica ⟨s.deployment.fleet, a, s.deployment.replicas⟩ r x, s.drawn,
      failed⟩ := by
  refine h.setReplica h.issues h.absent h.drawn (fun _ hjob => hjob) ?_ ?_ hx
    fun r' _ => h.replicas r'
  · intro job hx
    exact h.held r job (hjob job hx)
  · intro r' hne job hx
    exact h.others (hjob job hx) r' hne

/-- `init_job` writes the hashes of its own job only. -/
theorem Tidy.init (h : s.Tidy) {job : JobId} {pages now : ℕ} {a : AdmissionHash}
    {failed : Fin n → Bool} (hr : s.deployment.replicas r = .initialising job pages) :
    Tidy ⟨Deployment.setReplica
      ⟨{ s.deployment.fleet with redis := initJob cfg now job pages s.deployment.fleet.redis },
        a, s.deployment.replicas⟩ r (.enqueuing job pages 0), s.drawn, failed⟩ := by
  have hserved : (s.deployment.replicas r).job? = some job := by
    rw [hr]
    rfl
  have hnone : s.deployment.fleet.redis.jobs job = none := by
    have htidy := h.replicas r
    rw [hr] at htidy
    exact htidy
  have hjobs : ∀ job' ≠ job, (initJob cfg now job pages s.deployment.fleet.redis).jobs job' =
      s.deployment.fleet.redis.jobs job' := fun job' hne => Function.update_of_ne hne _ _
  have hpages : ∀ job' ≠ job, ∀ i,
      (initJob cfg now job pages s.deployment.fleet.redis).pages ⟨job', i⟩ =
        s.deployment.fleet.redis.pages ⟨job', i⟩ := by
    intro job' hne i
    exact if_neg fun hkey => hne hkey.1
  refine h.setReplica h.issues ?_ ?_ (fun _ hjob => hjob) ?_ ?_ ?_ ?_
  · intro job' hnone'
    have hne : job' ≠ job := by
      rintro rfl
      simp [initJob] at hnone'
    rw [hjobs job' hne] at hnone'
    obtain ⟨hold, hwithin⟩ := h.absent job' hnone'
    refine ⟨fun i => ?_, ⟨hwithin.entries, hwithin.parties⟩⟩
    rw [hpages job' hne]
    exact hold i
  · intro job' hsome
    by_cases hne : job' = job
    · rw [hne]
      exact h.held r job hserved
    · rw [hjobs job' hne] at hsome
      exact h.drawn job' hsome
  · intro job' hjob
    obtain rfl := Option.some.inj hjob
    exact h.held r job hserved
  · intro r' hne job' hjob
    obtain rfl := Option.some.inj hjob
    exact h.others hserved r' hne
  · obtain ⟨-, hwithin⟩ := h.absent job hnone
    have hfresh : Fleet.Within
        { s.deployment.fleet with redis := initJob cfg now job pages s.deployment.fleet.redis }
        job fun _ => False := ⟨hwithin.entries, hwithin.parties⟩
    refine ⟨by simp [initJob], fun i hi => ?_, hfresh.mono fun _ hfalse => hfalse.elim⟩
    simp [initJob, hi]
  · intro r' hne
    have hother := h.others hserved r' hne
    have htidy := h.replicas r'
    cases hx : s.deployment.replicas r' with
    | idle => trivial
    | evaluating job' pages' =>
      rw [hx] at hother htidy
      exact (hjobs job' fun heq => hother (congrArg some heq)).trans htidy
    | initialising job' pages' =>
      rw [hx] at hother htidy
      exact (hjobs job' fun heq => hother (congrArg some heq)).trans htidy
    | enqueuing job' pages' next =>
      rw [hx] at hother htidy
      have hne' : job' ≠ job := fun heq => hother (congrArg some heq)
      obtain ⟨hjob, hold, hwithin⟩ := htidy
      refine ⟨?_, fun i hi => ?_, ⟨hwithin.entries, hwithin.parties⟩⟩
      · rw [hjobs job' hne']
        exact hjob
      · rw [hpages job' hne']
        exact hold i hi

/-- An `XADD` adds an entry of its own job only. -/
theorem Tidy.append (h : s.Tidy) {job : JobId} {pages next now : ℕ} {traceId : String}
    {a : AdmissionHash} {failed : Fin n → Bool}
    (hr : s.deployment.replicas r = .enqueuing job pages next) {f : Fleet}
    (hf : s.deployment.fleet.step cfg (.enqueue ⟨job, next⟩ now traceId) = some f) :
    Tidy ⟨Deployment.setReplica ⟨f, a, s.deployment.replicas⟩ r (.enqueuing job pages (next + 1)),
      s.drawn, failed⟩ := by
  obtain rfl := Fleet.step_enqueue hf
  have hserved : (s.deployment.replicas r).job? = some job := by
    rw [hr]
    rfl
  have htidy := h.replicas r
  rw [hr] at htidy
  obtain ⟨hjob, hpages, hwithin⟩ := htidy
  refine h.setReplica h.issues ?_ h.drawn (fun _ hjob => hjob) ?_ ?_ ?_ ?_
  · intro job' hnone
    have hne : job ≠ job' := by
      rintro rfl
      rw [show s.deployment.fleet.redis.jobs job = none from hnone] at hjob
      cases hjob
    obtain ⟨hold, hwithin'⟩ := h.absent job' hnone
    exact ⟨hold, hwithin'.enqueue fun heq => hne heq⟩
  · intro job' hjob'
    obtain rfl := Option.some.inj hjob'
    exact h.held r job hserved
  · intro r' hne job' hjob'
    obtain rfl := Option.some.inj hjob'
    exact h.others hserved r' hne
  · refine ⟨hjob, hpages, ?_⟩
    have hmore : s.deployment.fleet.Within job fun i => 0 ≤ i ∧ i < ((next + 1 : ℕ) : ℤ) :=
      hwithin.mono fun i hi => ⟨hi.1, by omega⟩
    exact hmore.enqueue fun _ => ⟨by simp, by simp⟩
  · intro r' hne
    have hother := h.others hserved r' hne
    have htidy := h.replicas r'
    cases hx : s.deployment.replicas r' with
    | idle => trivial
    | evaluating job' pages' =>
      rw [hx] at htidy
      exact htidy
    | initialising job' pages' =>
      rw [hx] at htidy
      exact htidy
    | enqueuing job' pages' next' =>
      rw [hx] at hother htidy
      obtain ⟨hjob', hold, hwithin'⟩ := htidy
      refine ⟨hjob', hold, hwithin'.enqueue fun heq => ?_⟩
      exact absurd (congrArg some heq.symm) hother

/-- **Every step keeps the invariant.** -/
theorem Tidy.step (h : s.Tidy) (hstep : Step cfg s s') : s'.Tidy := by
  cases hstep with
  | worker hl hf => exact h.worker hl (step_spec hf)
  | expire => exact ⟨h.issues, h.absent, h.drawn, h.held, h.apart, h.replicas⟩
  | @turn r f x drawn a failed hturn =>
    cases hturn with
    | @request job pages hnew =>
      have hnone : s.deployment.fleet.redis.jobs job = none := by
        by_contra hsome
        exact hnew (h.drawn job (Option.isSome_iff_ne_none.mpr hsome))
      refine h.setReplica h.issues h.absent (fun job' hjob' => ?_) (fun _ => List.mem_cons_of_mem _)
        ?_ ?_ hnone fun r' _ => h.replicas r'
      · exact List.mem_cons_of_mem _ (h.drawn job' hjob')
      · intro job' hjob'
        obtain rfl := Option.some.inj hjob'
        exact List.mem_cons_self
      · intro r' _ job' hjob' hheld
        obtain rfl := Option.some.inj hjob'
        exact hnew (h.held r' job hheld)
    | @admitted job pages hr =>
      have htidy := h.replicas r
      rw [hr] at htidy
      refine h.stay (fun job' hjob' => ?_) htidy
      rw [hr]
      exact hjob'
    | init hr hf =>
      obtain ⟨-, rfl⟩ := Fleet.step_initJob hf
      exact h.init hr
    | append hr hf => exact h.append hr hf
    | @refuse job pages next hr =>
      have htidy := h.replicas r
      rw [hr] at htidy
      obtain ⟨hjob, hpages, hwithin⟩ := htidy
      refine h.stay (fun job' hjob' => ?_) ⟨hjob, hpages, hwithin.mono fun i hi => ⟨hi.1, ?_⟩⟩
      · rw [hr]
        exact hjob'
      · push_cast
        omega
    | leave =>
      refine h.stay (fun job hjob => ?_) trivial
      cases hjob

/-- A request that raises leaves the fleet as it is. -/
theorem fleet_of_raise {adm : AdmissionSettings}
    (hstep : s.step cfg adm (.raise r) = some s') :
    s'.deployment.fleet = s.deployment.fleet := by
  simp only [Ingest.step, accepts, if_true, Deployment.step] at hstep
  obtain ⟨d, hd, rfl⟩ := Option.map_eq_some_iff.mp hstep
  split at hd
  · cases hd
  · obtain rfl := Option.some.inj hd
    rfl

/-- **What a request that raises after its admission leaves behind**: nothing, if `init_job`
has not taken effect; and otherwise all hashes of the job, and entries of those pages only
whose `XADD` has been executed. -/
theorem leftovers_of_raise (cfg : Settings) (adm : AdmissionSettings) (n : ℕ) (s s' : Ingest n)
    (r : Fin n) (hs : (system cfg adm n).Reach System.anyStep s)
    (hstep : s.step cfg adm (.raise r) = some s') :
    (∀ job pages, s.deployment.replicas r = .initialising job pages →
      s'.deployment.fleet.Absent job) ∧
    ∀ job pages next, s.deployment.replicas r = .enqueuing job pages next →
      s'.deployment.fleet.Submitted job pages next := by
  have htidy : s.Tidy := by
    apply System.Reach.invariant (tidy_start cfg adm n) _ hs
    intro s l s' h _ hstep
    exact h.step (step_cases hstep)
  rw [fleet_of_raise hstep]
  refine ⟨?_, ?_⟩
  · intro job pages hr
    have hnone := htidy.replicas r
    rw [hr] at hnone
    obtain ⟨hpages, hwithin⟩ := htidy.absent job hnone
    refine ⟨hnone, hpages, fun lane e he hjob => ?_⟩
    obtain ⟨i, hfalse, -⟩ := hwithin.entries lane e he hjob
    exact hfalse
  · intro job pages next hr
    have hsubmitted := htidy.replicas r
    rw [hr] at hsubmitted
    obtain ⟨hjob, hpages, hwithin⟩ := hsubmitted
    refine ⟨hjob, hpages, fun lane e he hjob => ?_⟩
    obtain ⟨i, ⟨hpos, hlt⟩, hpage⟩ := hwithin.entries lane e he hjob
    refine ⟨i.toNat, by omega, ?_⟩
    rw [Int.toNat_of_nonneg hpos]
    exact hpage

/-- A request for two pages gets through its admission. -/
def admittedRequest : List (Deployment.Label 1) :=
  [.request (Fin.last 0) 0 2, .evaluate (Fin.last 0)]

/-- The first page of two has been appended, and a worker has taken it. -/
def halfEnqueued : List (Deployment.Label 1) :=
  admittedRequest ++ [.initJob (Fin.last 0) 1000, .xadd (Fin.last 0) 1000 "t"] ++
    Deployment.workers [.start 1, .ready 1, .deliver 1 .lead 1000]

/-- Right after the admission a request that raises leaves nothing behind it; once the first page
of two is appended, it leaves all hashes and that page. -/
theorem leftovers_of_raise_halfEnqueued :
    (∃ s s' : Ingest 1, s.step {} ⟨5, 4, 2⟩ (.raise 0) = some s' ∧
      s.deployment.replicas 0 = .initialising 0 2 ∧ s'.deployment.fleet.Absent 0) ∧
    ∃ s s' : Ingest 1, s.step {} ⟨5, 4, 2⟩ (.raise 0) = some s' ∧
      s.deployment.replicas 0 = .enqueuing 0 2 1 ∧ s'.deployment.fleet.Submitted 0 2 1 := by
  have hreach : ∀ (x : Replica) (ls : List (Deployment.Label 1)),
      (((system {} ⟨5, 4, 2⟩ 1).runAll System.anyStep (system {} ⟨5, 4, 2⟩ 1).init ls).any fun s =>
        decide (s.deployment.replicas 0 = x) && (s.step {} ⟨5, 4, 2⟩ (.raise 0)).isSome) = true →
      ∃ s s' : Ingest 1, (system {} ⟨5, 4, 2⟩ 1).Reach System.anyStep s ∧
        s.step {} ⟨5, 4, 2⟩ (.raise 0) = some s' ∧ s.deployment.replicas 0 = x := by
    intro x ls hrun
    obtain ⟨s, hs, hq⟩ := System.exists_of_runAll _ _ _ ls hrun
    simp only [Bool.and_eq_true, decide_eq_true_eq] at hq
    obtain ⟨s', hstep⟩ := Option.isSome_iff_exists.mp hq.2
    exact ⟨s, s', hs, hstep, hq.1⟩
  obtain ⟨s, s', hs, hstep, hr⟩ := hreach (.initialising 0 2) admittedRequest (by decide +kernel)
  obtain ⟨u, u', hu, hstep', hr'⟩ := hreach (.enqueuing 0 2 1) halfEnqueued (by decide +kernel)
  exact ⟨⟨s, s', hstep, hr, (leftovers_of_raise _ _ _ s s' 0 hs hstep).1 0 2 hr⟩,
    u, u', hstep', hr', (leftovers_of_raise _ _ _ u u' 0 hu hstep').2 0 2 1 hr'⟩

/-- The pipeline breaks after its first `XADD`, when a worker already has the page: the job
hash is there to stay. -/
theorem not_absent_of_raise :
    ¬ ∀ (cfg : Settings) (adm : AdmissionSettings) (n : ℕ) (s s' : Ingest n) (r : Fin n)
      (job : JobId) (pages : ℕ), (system cfg adm n).Reach System.anyStep s →
      s.step cfg adm (.raise r) = some s' →
      (s.deployment.replicas r = .initialising job pages ∨
        ∃ next, s.deployment.replicas r = .enqueuing job pages next) →
      s'.deployment.fleet.Absent job := by
  intro hall
  obtain ⟨s, hs, hq⟩ := System.exists_of_runAll (system {} ⟨5, 4, 2⟩ 1) System.anyStep
    (fun s => decide (s.deployment.replicas 0 = .enqueuing 0 2 1) &&
      (s.step {} ⟨5, 4, 2⟩ (.raise 0)).any fun s' =>
        (s'.deployment.fleet.redis.jobs 0).isSome) halfEnqueued (by decide +kernel)
  simp only [Bool.and_eq_true, decide_eq_true_eq, Option.any_eq_true] at hq
  obtain ⟨hr, s', hstep, hsome⟩ := hq
  have habsent := hall _ _ _ s s' 0 0 2 hs hstep (.inr ⟨1, hr⟩)
  rw [habsent.hash] at hsome
  cases hsome

end Ingest
end OcrOrchestrator
