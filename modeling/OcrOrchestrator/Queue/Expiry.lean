import OcrOrchestrator.Lib.System
import OcrOrchestrator.Queue.Store

/-!
# Keys that expire

The job hash and the page hashes of a job carry a TTL.  An applied transition renews the
page it moved and the job hash; the other pages are renewed by a sweep, which the script
asks for when its marker is older than half the TTL, and which the worker runs afterwards,
as commands of its own.  Here the store has a clock.  Letting time pass removes the keys
whose TTL is over; a sweep that was asked for is applied now, later, or never.  A sweep is a
pipeline without a transaction: one that breaks off after some of its commands, which renews
the pages up to there, is not modelled, but one that never starts is.

Redis removes a key once its clock is past the expiry time, not at it.  One clock is used
by all parties.  The keys of two jobs are disjoint and no step of one touches those of the
other, so the steps are those of one job.

Beside the store stands the history the statements are about: when the job was last active,
when its pages were last renewed, when each page last moved, which have finished, and
when a sweep was lost.

## Main definitions

* `Timeline`, `Timeline.system` — the keys of one job over time.
* `Timeline.PagesKept` — no unfinished page has expired.
* `Timeline.UnstartedKept` — no page that has not moved has expired.
* `Timeline.JobOutlives` — the job hash outlives the pages, and every key has a TTL.
-/

namespace OcrOrchestrator

open Lib

/-- Time has passed: keys whose expiry time is over are gone. -/
def Redis.expire (s : Redis) (now : ℕ) : Redis :=
  { s with
    jobs := fun job => (s.jobs job).filter fun h => h.expiresAt.all fun t => now ≤ t
    pages := fun key => (s.pages key).filter fun p => p.expiresAt.all fun t => now ≤ t }

structure Timeline where
  redis : Redis
  clock : ℕ
  /-- Sweeps that a transition asked for and that have not run, with the number of pages. -/
  sweeps : List ℕ
  /-- How many pages the job was created with. -/
  total : ℕ
  /-- When the job was created or last made a successful transition. -/
  active : Option ℕ
  /-- When all pages were last renewed, by `init_job` or by a sweep. -/
  swept : ℕ
  /-- When a sweep was last lost. -/
  lostAt : Option ℕ
  /-- When the page last made a successful transition. -/
  moved : ℤ → Option ℕ
  /-- Has the page been terminal? -/
  finished : ℤ → Bool

namespace Timeline

inductive Label where
  | init (totalPages : ℕ)
  | transition (index : ℤ) (target : PageState) (allowed : List PageState)
      (extra : List (PageField × Json))
  | sweep (i : ℕ)
  | lose (i : ℕ)
  | tick (now : ℕ)

def empty : Timeline where
  redis := Redis.empty
  clock := 0
  sweeps := []
  total := 0
  active := none
  swept := 0
  lostAt := none
  moved := fun _ => none
  finished := fun _ => false

/-- The clock and nothing else: a command that is answered at this time. -/
def oracle (now : ℕ) : Oracle := ⟨now, .null, 0, none⟩

/-- The reply of a transition and the store afterwards. -/
def runScript (cfg : Settings) (s : Timeline) (key : PageKey) (target : PageState)
    (allowed : List PageState) (extra : List (PageField × Json)) : Reply × Redis :=
  (Cmd.evalTransition key target allowed extra).apply cfg (oracle s.clock) s.redis

/-- A job is created once.  `allowed_from` only ever narrows the predecessors. -/
def step (cfg : Settings) (job : JobId) (s : Timeline) : Label → Option Timeline
  | .init totalPages =>
    if s.active.isSome then none
    else some { s with
      redis := initJob cfg s.clock job totalPages s.redis
      total := totalPages
      active := some s.clock
      swept := s.clock }
  | .transition index target allowed extra =>
    if allowed.all fun src => src ∈ predecessors target then
      let out := s.runScript cfg ⟨job, index⟩ target allowed extra
      if out.1.ok then
        some { s with
          redis := out.2
          sweeps := if 0 < out.1.sweepPages then out.1.sweepPages :: s.sweeps else s.sweeps
          active := some s.clock
          moved := Function.update s.moved index (some s.clock)
          finished := if target.terminal then Function.update s.finished index true
            else s.finished }
      else some { s with redis := out.2 }
    else none
  | .sweep i =>
    (s.sweeps[i]?).map fun total => { s with
      redis := ((Cmd.pexpirePages job total).apply cfg (oracle s.clock) s.redis).2
      sweeps := s.sweeps.eraseIdx i
      swept := s.clock }
  | .lose i =>
    (s.sweeps[i]?).map fun _ => { s with sweeps := s.sweeps.eraseIdx i, lostAt := some s.clock }
  | .tick now =>
    if now < s.clock then none else some { s with redis := s.redis.expire now, clock := now }

def system (cfg : Settings) (job : JobId) : System Timeline Label := ⟨empty, step cfg job⟩

/-- `result_ttl_s` in milliseconds. -/
def ttl (cfg : Settings) : ℕ := cfg.resultTtlS * 1000

/-- Is the index one of the pages of a job with that many? -/
abbrev InRange (n : ℕ) (index : ℤ) : Prop := 0 ≤ index ∧ index < n

/-! ## What is asked of the store -/

/-- **The TTL bounds inactivity**: every page that has not finished still has its hash. -/
def PagesKept (job : JobId) (s : Timeline) : Prop :=
  ∀ index, InRange s.total index → s.finished index = false →
    (s.redis.pages ⟨job, index⟩).isSome

/-- Every page that has not moved still has its hash. -/
def UnstartedKept (job : JobId) (s : Timeline) : Prop :=
  ∀ index, InRange s.total index → s.moved index = none → (s.redis.pages ⟨job, index⟩).isSome

/-- **The job hash outlives the pages**: where there is a page there is the job hash with its
total, and every key carries a TTL. -/
structure JobOutlives (job : JobId) (s : Timeline) : Prop where
  total : ∀ index p, s.redis.pages ⟨job, index⟩ = some p →
    ∃ h n, s.redis.jobs job = some h ∧ h.totalPages = some n
  pageTtl : ∀ index p, s.redis.pages ⟨job, index⟩ = some p → p.expiresAt.isSome
  jobTtl : ∀ h, s.redis.jobs job = some h → h.expiresAt.isSome

/-! ## What a transition does -/

section Steps
variable {cfg : Settings} {job : JobId} {s s' : Timeline} {index : ℤ} {target : PageState}
  {allowed : List PageState} {extra : List (PageField × Json)}

/-- The script on the two hashes of the page. -/
def script (cfg : Settings) (s : Timeline) (key : PageKey) (target : PageState)
    (allowed : List PageState) (extra : List (PageField × Json)) :
    Reply × Option PageHash × Option JobHash :=
  transitionScript target s.clock target.terminal (ttl cfg) allowed extra (s.redis.pages key)
    (s.redis.jobs key.job)

theorem runScript_eq {key : PageKey} : s.runScript cfg key target allowed extra =
    ((s.script cfg key target allowed extra).1,
      { s.redis with
        pages := Function.update s.redis.pages key (s.script cfg key target allowed extra).2.1
        jobs := Function.update s.redis.jobs key.job
          (s.script cfg key target allowed extra).2.2 }) := rfl

/-- A script that reports failure has written nothing. -/
theorem runScript_of_rejected {key : PageKey}
    (hok : (s.script cfg key target allowed extra).1.ok ≠ true) :
    (s.runScript cfg key target allowed extra).2 = s.redis := by
  have hsame : (s.script cfg key target allowed extra).2 =
      (s.redis.pages key, s.redis.jobs key.job) := by
    simp only [script] at hok ⊢
    cases hp : s.redis.pages key with
    | none => rw [transitionScript_missing]
    | some p =>
      by_cases hin : p.state ∈ allowed
      · rw [hp, (transitionScript_applied hin).1] at hok
        exact absurd rfl hok
      · rw [transitionScript_rejected hin]
  rw [runScript_eq, hsame]
  simp

/-- An applied transition of a page whose job hash `h` exists. -/
structure Applied (cfg : Settings) (job : JobId) (s : Timeline) (index : ℤ) (h : JobHash)
    (s' : Timeline) : Prop where
  page : ∃ p, s'.redis.pages = Function.update s.redis.pages ⟨job, index⟩ (some p) ∧
    p.expiresAt = some (s.clock + ttl cfg)
  job : ∃ h', s'.redis.jobs job = some h' ∧ h'.totalPages = h.totalPages ∧
    h'.expiresAt = some (s.clock + ttl cfg) ∧
    h'.pagesRenewedAt = if sweepDue (ttl cfg) s.clock (h.pagesRenewedAt.getD 0) then
      some s.clock else h.pagesRenewedAt
  sweeps : s'.sweeps = if sweepDue (ttl cfg) s.clock (h.pagesRenewedAt.getD 0) ∧
    0 < h.totalPages.getD 0 then h.totalPages.getD 0 :: s.sweeps else s.sweeps
  active : s'.active = some s.clock
  moved : s'.moved = Function.update s.moved index (some s.clock)
  finished : ∀ i, s'.finished i = false → s.finished i = false
  rest : s'.clock = s.clock ∧ s'.total = s.total ∧ s'.swept = s.swept ∧ s'.lostAt = s.lostAt

/-- A transition is rejected, and then nothing happens, or the page exists and it is
applied. -/
theorem transition_cases
    (hstep : step cfg job s (.transition index target allowed extra) = some s') :
    s' = s ∨ (∃ p, s.redis.pages ⟨job, index⟩ = some p) ∧
      ∀ h, s.redis.jobs job = some h → Applied cfg job s index h s' := by
  simp only [step] at hstep
  split at hstep
  · split at hstep
    · rename_i hok
      obtain rfl := Option.some.inj hstep
      right
      obtain ⟨p, hp, hin⟩ := transitionScript_ok_iff.mp hok
      refine ⟨⟨p, hp⟩, fun h hh => ?_⟩
      have hpage : (s.script cfg ⟨job, index⟩ target allowed extra).2.1 =
          some (p.moved target s.clock (ttl cfg) extra) := by
        rw [script, hp]
        exact (transitionScript_applied hin).2
      have hrenewed : ∃ h', (s.script cfg ⟨job, index⟩ target allowed extra).2.2 = some h' ∧
          h'.totalPages = h.totalPages ∧ h'.expiresAt = some (s.clock + ttl cfg) ∧
          h'.pagesRenewedAt = (if sweepDue (ttl cfg) s.clock (h.pagesRenewedAt.getD 0) then
            some s.clock else h.pagesRenewedAt) ∧
          (s.script cfg ⟨job, index⟩ target allowed extra).1.sweepPages =
            (if sweepDue (ttl cfg) s.clock (h.pagesRenewedAt.getD 0) then
              h.totalPages.getD 0 else 0) := by
        rw [script, hp, hh]
        exact transitionScript_renewal hin
      obtain ⟨h', hjob, htotal, hexp, hmark, hsweep⟩ := hrenewed
      constructor
      · refine ⟨p.moved target s.clock (ttl cfg) extra, ?_, rfl⟩
        rw [runScript_eq, hpage]
      · refine ⟨h', ?_, htotal, hexp, hmark⟩
        simp only [runScript_eq, hjob, Function.update_self]
      · simp only [runScript_eq, hsweep]
        split <;> simp_all
      · rfl
      · rfl
      · intro i hi
        dsimp only at hi
        split at hi
        · by_cases hii : i = index
          · subst hii
            simp at hi
          · simpa [Function.update_of_ne hii] using hi
        · exact hi
      · exact ⟨rfl, rfl, rfl, rfl⟩
    · rename_i hok
      obtain rfl := Option.some.inj hstep
      left
      rw [runScript_of_rejected hok]
  · cases hstep

/-- A job is created if it has not been, and nothing else. -/
theorem init_cases {n : ℕ} (hstep : step cfg job s (.init n) = some s') :
    s.active = none ∧ s' = { s with
      redis := initJob cfg s.clock job n s.redis
      total := n
      active := some s.clock
      swept := s.clock } := by
  simp only [step] at hstep
  split at hstep
  · cases hstep
  · rename_i hnew
    exact ⟨by simpa using hnew, (Option.some.inj hstep).symm⟩

/-- Time does not run backwards. -/
theorem tick_cases {now : ℕ} (hstep : step cfg job s (.tick now) = some s') :
    s.clock ≤ now ∧ s' = { s with redis := s.redis.expire now, clock := now } := by
  simp only [step] at hstep
  split at hstep
  · cases hstep
  · rename_i hnow
    exact ⟨by omega, (Option.some.inj hstep).symm⟩

/-- What `init_job` leaves of a job that was not there. -/
theorem initJob_pages {now n : ℕ} {r : Redis} (hnone : r.pages ⟨job, index⟩ = none) :
    (initJob cfg now job n r).pages ⟨job, index⟩ =
      if InRange n index then some (PageHash.initial index now (ttl cfg)) else none := by
  simp only [initJob, true_and, hnone]
  rfl

theorem initJob_jobs {now n : ℕ} {r : Redis} :
    (initJob cfg now job n r).jobs job = some ⟨some n, some 0, some now, some (now + ttl cfg)⟩ :=
  Function.update_self ..

/-- A sweep renews the pages that are there. -/
theorem pexpirePages_pages {n deadline : ℕ} {r : Redis} :
    (r.pexpirePages job n deadline).pages ⟨job, index⟩ =
      if InRange n index then
        (r.pages ⟨job, index⟩).map fun p => { p with expiresAt := some deadline }
      else r.pages ⟨job, index⟩ := by
  simp only [Redis.pexpirePages, true_and]

theorem pexpirePages_pages_none {n deadline : ℕ} {r : Redis}
    (hnone : r.pages ⟨job, index⟩ = none) :
    (r.pexpirePages job n deadline).pages ⟨job, index⟩ = none := by
  rw [pexpirePages_pages, hnone]
  simp

/-- Only keys whose time is over are removed. -/
theorem expire_pages_eq_some {r : Redis} {now : ℕ} {key : PageKey} {p : PageHash} :
    (r.expire now).pages key = some p ↔
      r.pages key = some p ∧ ∀ t ∈ p.expiresAt, now ≤ t := by
  simp only [Redis.expire, Option.filter_eq_some_iff, Option.all_eq_true, decide_eq_true_eq]
  rfl

theorem expire_jobs_eq_some {r : Redis} {now : ℕ} {h : JobHash} :
    (r.expire now).jobs job = some h ↔
      r.jobs job = some h ∧ ∀ t ∈ h.expiresAt, now ≤ t := by
  simp only [Redis.expire, Option.filter_eq_some_iff, Option.all_eq_true, decide_eq_true_eq]
  rfl

end Steps

/-! ## The job hash and its pages -/

/-- Once a sweep has been applied after the job's last successful transition and within the
TTL from it, the job makes another one before that TTL runs out. -/
def transitionsAfterSweep (cfg : Settings) (s : Timeline) : Label → Bool
  | .tick now => s.active.all fun a =>
      now ≤ a + ttl cfg || s.swept ≤ a || a + ttl cfg < s.swept
  | _ => true

section Outlives
variable {cfg : Settings} {job : JobId} {s s' : Timeline}

/-- The job hash lives for a TTL from the last successful transition, the pages for a TTL
from then or from the last sweep, which then found the job hash there. -/
structure Bounded (cfg : Settings) (job : JobId) (s : Timeline) : Prop where
  fresh : s.active = none →
    s.redis.jobs job = none ∧ ∀ index, s.redis.pages ⟨job, index⟩ = none
  swept_le : s.swept ≤ s.clock
  active_le : ∀ a, s.active = some a → a ≤ s.clock
  jobHash : ∀ a h, s.active = some a → s.redis.jobs job = some h →
    h.expiresAt = some (a + ttl cfg) ∧ h.totalPages.isSome ∧ s.clock ≤ a + ttl cfg
  pages : ∀ a index p, s.active = some a → s.redis.pages ⟨job, index⟩ = some p →
    (s.redis.jobs job).isSome ∧ s.swept ≤ a + ttl cfg ∧
      ∃ e, p.expiresAt = some e ∧ e ≤ max a s.swept + ttl cfg

theorem Bounded.empty : Bounded cfg job Timeline.empty where
  fresh := fun _ => ⟨rfl, fun _ => rfl⟩
  swept_le := le_rfl
  active_le := by simp [Timeline.empty]
  jobHash := by simp [Timeline.empty]
  pages := by simp [Timeline.empty]

theorem Bounded.init (hb : Bounded cfg job s) {n : ℕ}
    (hstep : step cfg job s (.init n) = some s') : Bounded cfg job s' := by
  obtain ⟨hnew, rfl⟩ := init_cases hstep
  obtain ⟨-, hpages⟩ := hb.fresh hnew
  refine ⟨by simp, le_rfl, by simp, ?_, ?_⟩
  · intro a h ha hh
    obtain rfl := Option.some.inj ha
    rw [initJob_jobs] at hh
    obtain rfl := Option.some.inj hh
    exact ⟨rfl, rfl, Nat.le_add_right _ _⟩
  · intro a index p ha hp
    obtain rfl := Option.some.inj ha
    rw [initJob_pages (hpages index)] at hp
    split at hp
    · obtain rfl := Option.some.inj hp
      refine ⟨by rw [initJob_jobs]; rfl, Nat.le_add_right _ _, _, rfl, ?_⟩
      exact Nat.add_le_add_right (le_max_left _ _) _
    · cases hp

theorem Bounded.applied (hb : Bounded cfg job s) {index : ℤ} {h : JobHash}
    (hh : s.redis.jobs job = some h) (happ : Applied cfg job s index h s') :
    Bounded cfg job s' := by
  obtain ⟨q, hpage, hq⟩ := happ.page
  obtain ⟨h', hjob, htotal, hexp, -⟩ := happ.job
  obtain ⟨hclock, -, hswept, -⟩ := happ.rest
  have hactive : ∃ a, s.active = some a := by
    cases ha : s.active with
    | none => rw [(hb.fresh ha).1] at hh; cases hh
    | some a => exact ⟨a, rfl⟩
  obtain ⟨a, ha⟩ := hactive
  refine ⟨?_, by rw [hclock, hswept]; exact hb.swept_le, ?_, ?_, ?_⟩
  · intro hnone
    rw [happ.active] at hnone
    cases hnone
  · intro b hb'
    rw [happ.active] at hb'
    obtain rfl := Option.some.inj hb'
    exact hclock.ge
  · intro b k hb' hk
    rw [happ.active] at hb'
    obtain rfl := Option.some.inj hb'
    rw [hjob] at hk
    obtain rfl := Option.some.inj hk
    exact ⟨hexp, htotal ▸ (hb.jobHash a h ha hh).2.1, by omega⟩
  · intro b i p hb' hp
    rw [happ.active] at hb'
    obtain rfl := Option.some.inj hb'
    have hsold := hb.swept_le
    refine ⟨by rw [hjob]; rfl, by omega, ?_⟩
    rw [hpage] at hp
    by_cases hi : i = index
    · subst hi
      rw [Function.update_self] at hp
      obtain rfl := Option.some.inj hp
      exact ⟨_, hq, Nat.add_le_add_right (le_max_left _ _) _⟩
    · rw [Function.update_of_ne (by simpa using hi)] at hp
      obtain ⟨-, -, e, he, hle⟩ := hb.pages a i p ha hp
      have hold := hb.active_le a ha
      exact ⟨e, he, by omega⟩

/-- A sweep finds a page only while the job hash is there. -/
theorem Bounded.sweep (hb : Bounded cfg job s) {i : ℕ}
    (hstep : Timeline.step cfg job s (.sweep i) = some s') : Bounded cfg job s' := by
  obtain ⟨n, -, rfl⟩ := Option.map_eq_some_iff.mp hstep
  refine ⟨?_, le_rfl, hb.active_le, hb.jobHash, ?_⟩
  · intro hnone
    obtain ⟨hjob, hpages⟩ := hb.fresh hnone
    exact ⟨hjob, fun index => pexpirePages_pages_none (hpages index)⟩
  · intro a index p ha hp
    change (s.redis.pexpirePages job n _).pages _ = some p at hp
    rw [pexpirePages_pages] at hp
    split at hp
    · obtain ⟨q, hq, rfl⟩ := Option.map_eq_some_iff.mp hp
      obtain ⟨hjob, -, -⟩ := hb.pages a index q ha hq
      obtain ⟨h, hh⟩ := Option.isSome_iff_exists.mp hjob
      refine ⟨hjob, (hb.jobHash a h ha hh).2.2, _, rfl, ?_⟩
      exact Nat.add_le_add_right (le_max_right _ _) _
    · obtain ⟨hjob, -, e, he, hle⟩ := hb.pages a index p ha hp
      obtain ⟨h, hh⟩ := Option.isSome_iff_exists.mp hjob
      have hsold := hb.swept_le
      exact ⟨hjob, (hb.jobHash a h ha hh).2.2, e, he, by dsimp only; omega⟩

theorem Bounded.tick (hb : Bounded cfg job s) {now : ℕ}
    (hallow : transitionsAfterSweep cfg s (.tick now) = true)
    (hstep : Timeline.step cfg job s (.tick now) = some s') : Bounded cfg job s' := by
  obtain ⟨hnow, rfl⟩ := tick_cases hstep
  have hsold := hb.swept_le
  refine ⟨?_, by dsimp only; omega, ?_, ?_, ?_⟩
  · intro hnone
    obtain ⟨hjob, hpages⟩ := hb.fresh hnone
    exact ⟨by simp [Redis.expire, hjob], fun index => by simp [Redis.expire, hpages]⟩
  · intro a ha
    have hold := hb.active_le a ha
    dsimp only
    omega
  · intro a h ha hh
    obtain ⟨hh, halive⟩ := expire_jobs_eq_some.mp hh
    obtain ⟨hexp, htotal, -⟩ := hb.jobHash a h ha hh
    exact ⟨hexp, htotal, halive _ hexp⟩
  · intro a index p ha hp
    obtain ⟨hp, halive⟩ := expire_pages_eq_some.mp hp
    obtain ⟨hjob, hswept, e, he, hle⟩ := hb.pages a index p ha hp
    refine ⟨?_, hswept, e, he, hle⟩
    -- the page is still there, so the job hash is
    obtain ⟨h, hh⟩ := Option.isSome_iff_exists.mp hjob
    have hle' := halive e he
    have hcond : (now ≤ a + ttl cfg ∨ s.swept ≤ a) ∨ a + ttl cfg < s.swept := by
      have ha' : s.active = some a := ha
      simpa [transitionsAfterSweep, ha'] using hallow
    have hlife : now ≤ a + ttl cfg := by
      rcases hcond with (h | h) | h
      · exact h
      · rw [max_eq_left h] at hle
        omega
      · omega
    refine Option.isSome_iff_exists.mpr ⟨h, expire_jobs_eq_some.mpr ⟨hh, fun t ht => ?_⟩⟩
    rw [(hb.jobHash a h ha hh).1] at ht
    obtain rfl := Option.some.inj ht
    exact hlife

theorem Bounded.step (hb : Bounded cfg job s) {l : Label}
    (hallow : transitionsAfterSweep cfg s l = true) (hstep : step cfg job s l = some s') :
    Bounded cfg job s' := by
  cases l with
  | init n => exact hb.init hstep
  | transition index target allowed extra =>
    rcases transition_cases hstep with rfl | ⟨⟨p, hp⟩, happ⟩
    · exact hb
    · cases ha : s.active with
      | none =>
        rw [(hb.fresh ha).2] at hp
        cases hp
      | some a =>
        obtain ⟨h, hh⟩ := Option.isSome_iff_exists.mp (hb.pages a index p ha hp).1
        exact hb.applied hh (happ h hh)
  | sweep i => exact hb.sweep hstep
  | lose i =>
    obtain ⟨n, -, rfl⟩ := Option.map_eq_some_iff.mp hstep
    exact ⟨hb.fresh, hb.swept_le, hb.active_le, hb.jobHash, hb.pages⟩
  | tick now => exact hb.tick hallow hstep

/-- **The job hash outlives its pages** in every run in which a sweep that comes after the
last successful transition, and finds the pages there, is followed by another transition
within the TTL. -/
theorem jobOutlives_of_reach (cfg : Settings) (job : JobId) (s : Timeline)
    (hs : (system cfg job).Reach (transitionsAfterSweep cfg) s) : JobOutlives job s := by
  have hb : Bounded cfg job s :=
    hs.invariant Bounded.empty fun _ _ _ h hallow hstep => h.step hallow hstep
  have hactive : ∀ index p, s.redis.pages ⟨job, index⟩ = some p → ∃ a, s.active = some a := by
    intro index p hp
    cases ha : s.active with
    | none => rw [(hb.fresh ha).2] at hp; cases hp
    | some a => exact ⟨a, rfl⟩
  constructor
  · intro index p hp
    obtain ⟨a, ha⟩ := hactive index p hp
    obtain ⟨h, hh⟩ := Option.isSome_iff_exists.mp (hb.pages a index p ha hp).1
    obtain ⟨n, hn⟩ := Option.isSome_iff_exists.mp (hb.jobHash a h ha hh).2.1
    exact ⟨h, n, hh, hn⟩
  · intro index p hp
    obtain ⟨a, ha⟩ := hactive index p hp
    obtain ⟨-, -, e, he, -⟩ := hb.pages a index p ha hp
    rw [he]
    rfl
  · intro h hh
    cases ha : s.active with
    | none => rw [(hb.fresh ha).1] at hh; cases hh
    | some a =>
      rw [(hb.jobHash a h ha hh).1]
      rfl

/-- A TTL of one second. -/
def oneSecond : Settings := { resultTtlS := 1 }

/-- A worker takes the page into the layout stage. -/
def startPage (index : ℤ) : Label := .transition index .layoutRunning [.pending] []

/-- A reaper returns the page to the queue. -/
def returnPage (index : ℤ) : Label := .transition index .pending [.layoutRunning] []

/-- A job of two pages; one starts after 600 ms, the sweep it asks for runs 300 ms later, and the
other starts in time. -/
theorem jobOutlives_swept_late :
    ∃ s, (system oneSecond 0).Reach (transitionsAfterSweep oneSecond) s ∧
      (s.redis.pages ⟨0, 1⟩).isSome = true ∧ s.clock = 2400 ∧ JobOutlives 0 s := by
  obtain ⟨s, hs, hq⟩ := System.exists_of_runAll (system oneSecond 0)
    (transitionsAfterSweep oneSecond)
    (fun s => (s.redis.pages ⟨0, 1⟩).isSome && decide (s.clock = 2400))
    [.init 2, .tick 600, startPage 0, .tick 900, .sweep 0, .tick 1500, startPage 1, .tick 2400]
    (by decide +kernel)
  simp only [Bool.and_eq_true, decide_eq_true_eq] at hq
  exact ⟨s, hs, hq.1, hq.2, jobOutlives_of_reach _ _ s hs⟩

/-- The sweep runs 300 ms later, and the job makes no further transition: the pages are still
there when the job hash is gone. -/
theorem not_jobOutlives_swept_late :
    ¬ ∀ (cfg : Settings) (job : JobId) (s : Timeline),
      (system cfg job).Reach System.anyStep s → JobOutlives job s := by
  intro hall
  obtain ⟨s, hs, hq⟩ := System.exists_of_runAll (system oneSecond 0) System.anyStep
    (fun s => (s.redis.pages ⟨0, 1⟩).isSome && (s.redis.jobs 0).isNone)
    [.init 2, .tick 600, startPage 0, .tick 900, .sweep 0, .tick 1700] (by decide +kernel)
  simp only [Bool.and_eq_true, Option.isSome_iff_exists, Option.isNone_iff_eq_none] at hq
  obtain ⟨⟨p, hp⟩, hnone⟩ := hq
  obtain ⟨h, n, hh, -⟩ := (hall _ _ s hs).total 1 p hp
  rw [hnone] at hh
  cases hh

end Outlives

/-! ## A job that stays active -/

/-- `pages_renewed_at` of the job. -/
def marker (job : JobId) (s : Timeline) : Option ℕ := (s.redis.jobs job).bind JobHash.pagesRenewedAt

/-- No more than the TTL passes between two successful transitions. -/
def withinTtl (cfg : Settings) (s : Timeline) : Label → Bool
  | .tick now => s.active.all fun a => now ≤ a + ttl cfg
  | _ => true

section Live
variable {cfg : Settings} {job : JobId} {s s' : Timeline}

/-- The job hash is there with its total, its TTL counts from the last successful transition,
and its marker is at most half a TTL older than that. -/
structure Live (cfg : Settings) (job : JobId) (s : Timeline) : Prop where
  fresh : s.active = none → s.redis.jobs job = none ∧
    (∀ index, s.redis.pages ⟨job, index⟩ = none) ∧ s.sweeps = [] ∧ s.total = 0
  hash : ∀ a, s.active = some a → ∃ h m, s.redis.jobs job = some h ∧
    h.totalPages = some s.total ∧ h.pagesRenewedAt = some m ∧
    h.expiresAt = some (a + ttl cfg) ∧ m ≤ s.clock ∧ a ≤ s.clock ∧ 2 * a ≤ 2 * m + ttl cfg
  sweeps_eq : ∀ n ∈ s.sweeps, n = s.total
  moved_le : ∀ index t, s.moved index = some t → t ≤ s.clock

theorem Live.empty : Live cfg job Timeline.empty where
  fresh := fun _ => ⟨rfl, fun _ => rfl, rfl, rfl⟩
  hash := by simp [Timeline.empty]
  sweeps_eq := by simp [Timeline.empty]
  moved_le := by simp [Timeline.empty]

/-- A page that exists belongs to a job that was created. -/
theorem Live.active_of_page (hl : Live cfg job s) {index : ℤ} {p : PageHash}
    (hp : s.redis.pages ⟨job, index⟩ = some p) : ∃ a, s.active = some a := by
  cases ha : s.active with
  | none =>
    rw [(hl.fresh ha).2.1] at hp
    cases hp
  | some a => exact ⟨a, rfl⟩

theorem Live.active_of_hash (hl : Live cfg job s) {h : JobHash}
    (hh : s.redis.jobs job = some h) : ∃ a, s.active = some a := by
  cases ha : s.active with
  | none =>
    rw [(hl.fresh ha).1] at hh
    cases hh
  | some a => exact ⟨a, rfl⟩

theorem Live.active_le (hl : Live cfg job s) {a : ℕ} (ha : s.active = some a) :
    a ≤ s.clock := by
  obtain ⟨h, m, -, -, -, -, -, hle, -⟩ := hl.hash a ha
  exact hle

/-- An applied transition, with the marker before it: it asks for a sweep of all pages
exactly when the marker is due. -/
theorem Live.applied (hl : Live cfg job s) {index : ℤ} {target : PageState}
    {allowed : List PageState} {extra : List (PageField × Json)}
    (hstep : Timeline.step cfg job s (.transition index target allowed extra) = some s')
    (hne : s' ≠ s) : ∃ h m, Applied cfg job s index h s' ∧ s.redis.jobs job = some h ∧
      h.totalPages = some s.total ∧ h.pagesRenewedAt = some m ∧ m ≤ s.clock := by
  rcases transition_cases hstep with rfl | ⟨⟨p, hp⟩, happ⟩
  · exact absurd rfl hne
  · obtain ⟨a, ha⟩ := hl.active_of_page hp
    obtain ⟨h, m, hh, htotal, hm, -, hle, -⟩ := hl.hash a ha
    exact ⟨h, m, happ h hh, hh, htotal, hm, hle⟩

theorem Live.transition (hl : Live cfg job s) {index : ℤ} {target : PageState}
    {allowed : List PageState} {extra : List (PageField × Json)}
    (hstep : Timeline.step cfg job s (.transition index target allowed extra) = some s') :
    Live cfg job s' := by
  by_cases hne : s' = s
  · rw [hne]
    exact hl
  · obtain ⟨h, m, happ, hh, htotal, hm, hle⟩ := hl.applied hstep hne
    obtain ⟨h', hjob, htotal', hexp, hmark⟩ := happ.job
    obtain ⟨hclock, htot, -, -⟩ := happ.rest
    refine ⟨?_, ?_, ?_, ?_⟩
    · intro hnone
      rw [happ.active] at hnone
      cases hnone
    · intro a ha
      rw [happ.active] at ha
      obtain rfl := Option.some.inj ha
      rw [hm, Option.getD_some] at hmark
      rw [htot, hclock]
      cases hdue : sweepDue (ttl cfg) s.clock m with
      | true =>
        rw [hdue, if_pos rfl] at hmark
        exact ⟨h', s.clock, hjob, htotal'.trans htotal, hmark, hexp, le_rfl, le_rfl, by omega⟩
      | false =>
        rw [hdue, if_neg (by simp)] at hmark
        have hnot : ¬ 2 * m + ttl cfg < 2 * s.clock := by simpa [sweepDue] using hdue
        exact ⟨h', m, hjob, htotal'.trans htotal, hmark, hexp, hle, le_rfl, by omega⟩
    · intro n hn
      rw [happ.sweeps, htotal] at hn
      rw [htot]
      split at hn
      · rcases List.mem_cons.mp hn with rfl | hn
        · rfl
        · exact hl.sweeps_eq n hn
      · exact hl.sweeps_eq n hn
    · intro i t ht
      rw [happ.moved] at ht
      rw [hclock]
      by_cases hi : i = index
      · subst hi
        rw [Function.update_self] at ht
        exact (Option.some.inj ht).ge
      · rw [Function.update_of_ne hi] at ht
        exact hl.moved_le i t ht

theorem Live.step (hl : Live cfg job s) {l : Label} (hallow : withinTtl cfg s l = true)
    (hstep : Timeline.step cfg job s l = some s') : Live cfg job s' := by
  cases l with
  | init n =>
    obtain ⟨hnew, rfl⟩ := init_cases hstep
    obtain ⟨-, -, hsweeps, -⟩ := hl.fresh hnew
    refine ⟨by simp, ?_, by simp [hsweeps], hl.moved_le⟩
    intro a ha
    obtain rfl := Option.some.inj ha
    exact ⟨_, _, initJob_jobs, rfl, rfl, rfl, le_rfl, le_rfl, by omega⟩
  | transition index target allowed extra => exact hl.transition hstep
  | sweep i =>
    obtain ⟨n, -, rfl⟩ := Option.map_eq_some_iff.mp hstep
    refine ⟨?_, hl.hash, fun k hk => hl.sweeps_eq k (List.mem_of_mem_eraseIdx hk), hl.moved_le⟩
    intro hnone
    obtain ⟨hjob, hpages, hsweeps, htotal⟩ := hl.fresh hnone
    exact ⟨hjob, fun index => pexpirePages_pages_none (hpages index), by simp [hsweeps], htotal⟩
  | lose i =>
    obtain ⟨n, -, rfl⟩ := Option.map_eq_some_iff.mp hstep
    refine ⟨?_, hl.hash, fun k hk => hl.sweeps_eq k (List.mem_of_mem_eraseIdx hk), hl.moved_le⟩
    intro hnone
    obtain ⟨hjob, hpages, hsweeps, htotal⟩ := hl.fresh hnone
    exact ⟨hjob, hpages, by simp [hsweeps], htotal⟩
  | tick now =>
    obtain ⟨hnow, rfl⟩ := tick_cases hstep
    refine ⟨?_, ?_, hl.sweeps_eq, fun index t ht => (hl.moved_le index t ht).trans hnow⟩
    · intro hnone
      obtain ⟨hjob, hpages, hrest⟩ := hl.fresh hnone
      exact ⟨by simp [Redis.expire, hjob], fun index => by simp [Redis.expire, hpages], hrest⟩
    · intro a ha
      have ha' : s.active = some a := ha
      obtain ⟨h, m, hh, htotal, hm, hexp, hmc, hac, hhalf⟩ := hl.hash a ha
      have hlife : now ≤ a + ttl cfg := by simpa [withinTtl, ha'] using hallow
      refine ⟨h, m, expire_jobs_eq_some.mpr ⟨hh, fun t ht => ?_⟩, htotal, hm, hexp, ?_, ?_, hhalf⟩
      · rw [hexp] at ht
        obtain rfl := Option.some.inj ht
        exact hlife
      · dsimp only
        omega
      · dsimp only
        omega

/-- The marker of a job that was created. -/
theorem Live.marker_eq (hl : Live cfg job s) {a : ℕ} (ha : s.active = some a) :
    ∃ m, s.marker job = some m ∧ m ≤ s.clock ∧ a ≤ s.clock ∧ 2 * a ≤ 2 * m + ttl cfg := by
  obtain ⟨h, m, hh, -, hm, -, hrest⟩ := hl.hash a ha
  exact ⟨m, by simp [marker, hh, hm], hrest⟩

/-- A marker that is still there was there before time passed. -/
theorem marker_of_tick {now m : ℕ}
    (h : marker job { s with redis := s.redis.expire now, clock := now } = some m) :
    s.marker job = some m := by
  obtain ⟨hash, hhash, hm⟩ := Option.bind_eq_some_iff.mp h
  simp [marker, (expire_jobs_eq_some.mp hhash).1, hm]

/-- What an applied transition does to the marker and to the pending sweeps. -/
theorem Applied.marker_eq {index : ℤ} {h : JobHash} {m : ℕ} (happ : Applied cfg job s index h s')
    (htotal : h.totalPages = some s.total) (hm : h.pagesRenewedAt = some m) :
    (sweepDue (ttl cfg) s.clock m = true ∧ s'.marker job = some s.clock ∧
        s'.sweeps = if 0 < s.total then s.total :: s.sweeps else s.sweeps) ∨
      (sweepDue (ttl cfg) s.clock m = false ∧ s'.marker job = some m ∧ s'.sweeps = s.sweeps) := by
  obtain ⟨h', hjob, -, -, hmark⟩ := happ.job
  have hsweeps := happ.sweeps
  rw [hm, Option.getD_some] at hmark hsweeps
  rw [htotal, Option.getD_some] at hsweeps
  cases hdue : sweepDue (ttl cfg) s.clock m with
  | true =>
    rw [hdue, if_pos rfl] at hmark
    exact .inl ⟨rfl, by simp [marker, hjob, hmark], by simpa [hdue] using hsweeps⟩
  | false =>
    rw [hdue, if_neg (by simp)] at hmark
    exact .inr ⟨rfl, by simp [marker, hjob, hmark], by simpa [hdue] using hsweeps⟩

end Live

/-! ## Inactivity -/

/-- Less than the TTL passes between two successful transitions, and every sweep succeeds at
once. -/
def staysActive (cfg : Settings) (s : Timeline) : Label → Bool
  | .tick now => s.sweeps.isEmpty && s.active.all fun a => now < a + ttl cfg
  | .lose _ => false
  | _ => true

/-- No page is left but those that moved at `a`. -/
def othersFinished (s : Timeline) (a : ℕ) : Bool :=
  (List.range s.total).all fun i => s.finished i || s.moved i = some a

/-- After a transition that does not ask for a sweep, because the marker is too young, the next
one comes before the age that the marker has then and the gap exceed the TTL, unless all
other pages have finished.  (After one that does, the marker has no age.) -/
def shortGapAfterSkip (cfg : Settings) (job : JobId) (s : Timeline) : Label → Bool
  | .tick now => (s.marker job).all fun m => s.active.all fun a =>
      (a - m) + (now - a) ≤ ttl cfg || s.othersFinished a
  | _ => true

/-- The gaps between transitions are at most half the TTL. -/
def halfGaps (cfg : Settings) (s : Timeline) : Label → Bool
  | .tick now => s.active.all fun a => 2 * (now - a) ≤ ttl cfg
  | _ => true

theorem withinTtl_of_staysActive {cfg : Settings} {s : Timeline} {l : Label}
    (h : staysActive cfg s l = true) : withinTtl cfg s l = true := by
  cases l with
  | tick now =>
    simp only [staysActive, withinTtl, Bool.and_eq_true, Option.all_eq_true,
      decide_eq_true_eq] at h ⊢
    exact fun a ha => (h.2 a ha).le
  | _ => rfl

section Inactivity
variable {cfg : Settings} {job : JobId} {s s' : Timeline}

/-- Every unfinished page lives for a TTL from the time of the marker, unless a sweep is
about to run, and for a TTL from its own last transition, and no longer than for one of these. -/
structure Covered (cfg : Settings) (job : JobId) (s : Timeline) : Prop where
  pages : ∀ m, s.marker job = some m → ∀ index, InRange s.total index →
    s.finished index = false → ∃ p e, s.redis.pages ⟨job, index⟩ = some p ∧
      p.expiresAt = some e ∧ (s.sweeps ≠ [] ∨ m + ttl cfg ≤ e) ∧
      (∀ t, s.moved index = some t → t + ttl cfg ≤ e) ∧
      (e ≤ m + ttl cfg ∨ ∃ t, s.moved index = some t ∧ e ≤ t + ttl cfg)
  pending : ∀ m, s.marker job = some m → s.sweeps ≠ [] → m = s.clock

theorem Covered.empty : Covered cfg job Timeline.empty where
  pages := by simp [marker, Timeline.empty, Redis.empty]
  pending := by simp [Timeline.empty]

theorem Covered.transition (hc : Covered cfg job s) (hl : Live cfg job s) {index : ℤ}
    {target : PageState} {allowed : List PageState} {extra : List (PageField × Json)}
    (hstep : step cfg job s (.transition index target allowed extra) = some s') :
    Covered cfg job s' := by
  by_cases hne : s' = s
  · rw [hne]
    exact hc
  obtain ⟨h, m, happ, hh, htotal, hm, hle⟩ := hl.applied hstep hne
  obtain ⟨q, hpage, hq⟩ := happ.page
  obtain ⟨hclock, htot, -, -⟩ := happ.rest
  have hold : s.marker job = some m := by simp [marker, hh, hm]
  refine ⟨fun m' hm' i hi hfin => ?_, fun m' hm' hsweeps => ?_⟩
  · rw [htot] at hi
    rw [hpage, happ.moved]
    by_cases hii : i = index
    · subst hii
      refine ⟨q, _, Function.update_self .., hq, .inr ?_, ?_, .inr ⟨_, by simp, le_rfl⟩⟩
      · rcases happ.marker_eq htotal hm with ⟨-, hmark, -⟩ | ⟨-, hmark, -⟩
        · rw [hmark] at hm'
          obtain rfl := Option.some.inj hm'
          exact le_rfl
        · rw [hmark] at hm'
          obtain rfl := Option.some.inj hm'
          omega
      · intro t ht
        rw [Function.update_self] at ht
        obtain rfl := Option.some.inj ht
        exact le_rfl
    · obtain ⟨p, e, hp, he, hcov, hown, hend⟩ := hc.pages m hold i hi (happ.finished i hfin)
      rw [Function.update_of_ne (by simpa using hii), Function.update_of_ne hii]
      rcases happ.marker_eq htotal hm with ⟨-, hmark, hsweeps⟩ | ⟨-, hmark, hsweeps⟩
      · -- the marker has moved, and the sweep that goes with it is pending
        rw [hmark] at hm'
        obtain rfl := Option.some.inj hm'
        refine ⟨p, e, hp, he, .inl ?_, hown, hend.imp_left fun h => by omega⟩
        rw [hsweeps, if_pos (by have := hi.1; have := hi.2; omega)]
        simp
      · rw [hmark] at hm'
        obtain rfl := Option.some.inj hm'
        exact ⟨p, e, hp, he, by rwa [hsweeps], hown, hend⟩
  · rw [hclock]
    rcases happ.marker_eq htotal hm with ⟨-, hmark, -⟩ | ⟨-, hmark, hsame⟩
    · exact Option.some.inj (hm'.symm.trans hmark)
    · rw [hmark] at hm'
      obtain rfl := Option.some.inj hm'
      rw [hsame] at hsweeps
      exact hc.pending m hold hsweeps

theorem Covered.init (hl : Live cfg job s) {n : ℕ}
    (hstep : step cfg job s (.init n) = some s') : Covered cfg job s' := by
  obtain ⟨hnew, rfl⟩ := init_cases hstep
  obtain ⟨-, hpages, hsweeps, -⟩ := hl.fresh hnew
  refine ⟨fun m hm index hi _ => ?_, fun m _ hne => absurd hsweeps hne⟩
  have hclock : m = s.clock := by
    simpa [marker, initJob_jobs] using hm.symm
  subst hclock
  refine ⟨PageHash.initial index s.clock (ttl cfg), _, ?_, rfl, .inr le_rfl, fun t ht => ?_,
    .inl le_rfl⟩
  · rw [initJob_pages (hpages index), if_pos hi]
  · exact Nat.add_le_add_right (hl.moved_le index t ht) _

theorem Covered.sweep (hc : Covered cfg job s) (hl : Live cfg job s) {i : ℕ}
    (hstep : step cfg job s (.sweep i) = some s') : Covered cfg job s' := by
  obtain ⟨n, hn, rfl⟩ := Option.map_eq_some_iff.mp hstep
  have hmem := List.mem_of_getElem? hn
  obtain rfl := hl.sweeps_eq n hmem
  refine ⟨fun m hm index hi hfin => ?_, fun m hm _ => hc.pending m hm (List.ne_nil_of_mem hmem)⟩
  obtain ⟨p, e, hp, -⟩ := hc.pages m hm index hi hfin
  have hclock : m = s.clock := hc.pending m hm (List.ne_nil_of_mem hmem)
  refine ⟨{ p with expiresAt := some (s.clock + ttl cfg) }, _, ?_, rfl, .inr (by omega),
    fun t ht => ?_, .inl (by omega)⟩
  · change (s.redis.pexpirePages job s.total _).pages _ = _
    rw [pexpirePages_pages, if_pos hi, hp]
    rfl
  · exact Nat.add_le_add_right (hl.moved_le index t ht) _

theorem shortGapAfterSkip_tick {now m a : ℕ} {index : ℤ}
    (h : shortGapAfterSkip cfg job s (.tick now) = true) (hm : s.marker job = some m)
    (ha : s.active = some a) (hi : InRange s.total index) (hfin : s.finished index = false) :
    (a - m) + (now - a) ≤ ttl cfg ∨ s.moved index = some a := by
  obtain ⟨h0, hn⟩ := hi
  simp only [shortGapAfterSkip, othersFinished, hm, ha, Option.all_some, Bool.or_eq_true,
    decide_eq_true_eq, List.all_eq_true, List.mem_range] at h
  refine h.imp id fun hall => ?_
  have hpage := hall index.toNat (by omega)
  rw [Int.toNat_of_nonneg h0, hfin] at hpage
  simpa using hpage

theorem Covered.tick (hc : Covered cfg job s) (hl : Live cfg job s) {now : ℕ}
    (hallow : staysActive cfg s (.tick now) = true)
    (hgap : shortGapAfterSkip cfg job s (.tick now) = true)
    (hstep : step cfg job s (.tick now) = some s') : Covered cfg job s' := by
  obtain ⟨hclock, rfl⟩ := tick_cases hstep
  simp only [staysActive, Bool.and_eq_true, List.isEmpty_iff] at hallow
  refine ⟨fun m hm index hi hfin => ?_, fun m _ hne => absurd hallow.1 hne⟩
  have hmark := marker_of_tick hm
  obtain ⟨p, e, hp, he, hcov, hown, hend⟩ := hc.pages m hmark index hi hfin
  have hlife : m + ttl cfg ≤ e := hcov.resolve_left fun hne => hne hallow.1
  obtain ⟨a, ha⟩ := hl.active_of_page hp
  have hactive : now < a + ttl cfg := by simpa [ha] using hallow.2
  have hac := hl.active_le ha
  have hnow : now ≤ e := by
    rcases shortGapAfterSkip_tick hgap hmark ha hi hfin with hle | hlast
    · omega
    · have := hown a hlast
      omega
  refine ⟨p, e, expire_pages_eq_some.mpr ⟨hp, fun t ht => ?_⟩, he, .inr hlife, hown, hend⟩
  rw [he] at ht
  obtain rfl := Option.some.inj ht
  exact hnow

theorem Covered.step (hc : Covered cfg job s) (hl : Live cfg job s) {l : Label}
    (hallow : staysActive cfg s l = true) (hgap : shortGapAfterSkip cfg job s l = true)
    (hstep : step cfg job s l = some s') : Covered cfg job s' := by
  cases l with
  | init n => exact Covered.init hl hstep
  | transition index target allowed extra => exact hc.transition hl hstep
  | sweep i => exact hc.sweep hl hstep
  | lose i => cases hallow
  | tick now => exact hc.tick hl hallow hgap hstep

/-- Short gaps after the transitions that skip the sweep keep the pages. -/
theorem live_covered_of_reach {allow : Timeline → Label → Bool}
    (hallow : ∀ s l, Live cfg job s → allow s l = true →
      staysActive cfg s l = true ∧ shortGapAfterSkip cfg job s l = true)
    (hs : (system cfg job).Reach allow s) : Live cfg job s ∧ Covered cfg job s := by
  refine @System.Reach.invariant _ _ _ _ (fun s => Live cfg job s ∧ Covered cfg job s)
    ⟨Live.empty, Covered.empty⟩ ?_ _ hs
  intro s l s' h hl hstep
  obtain ⟨hactive, hgap⟩ := hallow s l h.1 hl
  exact ⟨h.1.step (withinTtl_of_staysActive hactive) hstep, h.2.step h.1 hactive hgap hstep⟩

theorem pagesKept_of_covered (hl : Live cfg job s) (hc : Covered cfg job s) :
    PagesKept job s := by
  intro index hi hfin
  cases ha : s.active with
  | none =>
    rw [(hl.fresh ha).2.2.2] at hi
    obtain ⟨hi1, hi2⟩ := hi
    omega
  | some a =>
    obtain ⟨m, hm, -⟩ := hl.marker_eq ha
    obtain ⟨p, -, hp, -⟩ := hc.pages m hm index hi hfin
    rw [hp]
    rfl

/-- **The TTL bounds inactivity** in every run in which a transition that skips the sweep is
followed by the next one before the age of the marker and the gap exceed the TTL. -/
theorem pagesKept_of_reach (cfg : Settings) (job : JobId) (s : Timeline)
    (hs : (system cfg job).Reach
      (fun s l => staysActive cfg s l && shortGapAfterSkip cfg job s l) s) : PagesKept job s := by
  have hinv := live_covered_of_reach (fun s l _ h => Bool.and_eq_true_iff.mp h) hs
  exact pagesKept_of_covered hinv.1 hinv.2

/-- Two pages and four transitions, of which the first skips the sweep and the second, 600 ms
later, asks for one; the other page is there after two seconds. -/
theorem pagesKept_renewed :
    ∃ s, (system oneSecond 0).Reach
        (fun s l => staysActive oneSecond s l && shortGapAfterSkip oneSecond 0 s l) s ∧
      s.clock = 2000 ∧ s.moved 1 = none ∧ PagesKept 0 s := by
  obtain ⟨s, hs, hq⟩ := System.exists_of_runAll (system oneSecond 0)
    (fun s l => staysActive oneSecond s l && shortGapAfterSkip oneSecond 0 s l)
    (fun s => decide (s.clock = 2000) && (s.moved 1).isNone)
    [.init 2, .tick 400, startPage 0, .tick 1000, returnPage 0, .sweep 0, .tick 1500, startPage 0,
      .tick 2000]
    (by decide +kernel)
  simp only [Bool.and_eq_true, decide_eq_true_eq, Option.isNone_iff_eq_none] at hq
  exact ⟨s, hs, hq.1, hq.2, pagesKept_of_reach _ _ s hs⟩

/-- A transition 400 ms after creation is too early to renew the other page, and the next
one, 999 ms after it, would be too late. -/
theorem not_pagesKept_renewed_late :
    ¬ ∀ (cfg : Settings) (job : JobId) (s : Timeline),
      (system cfg job).Reach (staysActive cfg) s → PagesKept job s := by
  intro hall
  obtain ⟨s, hs, hq⟩ := System.exists_of_runAll (system oneSecond 0) (staysActive oneSecond)
    (fun s => decide (s.total = 2) && !s.finished 1 && (s.redis.pages ⟨0, 1⟩).isNone)
    [.init 2, .tick 400, startPage 0, .tick 1399] (by decide +kernel)
  simp only [Bool.and_eq_true, decide_eq_true_eq, Bool.not_eq_true', Option.isNone_iff_eq_none]
    at hq
  obtain ⟨⟨htotal, hfin⟩, hnone⟩ := hq
  have hpage := hall _ _ s hs 1 ⟨by omega, by omega⟩ hfin
  rw [hnone] at hpage
  cases hpage

/-- Gaps of at most half a TTL are short enough: a marker that is too young is no older than
the other half. -/
theorem pagesKept_of_halfGaps (cfg : Settings) (job : JobId) (s : Timeline)
    (hs : (system cfg job).Reach (fun s l => staysActive cfg s l && halfGaps cfg s l) s) :
    PagesKept job s := by
  have hshort : ∀ (s : Timeline) (l : Label), Live cfg job s →
      (staysActive cfg s l && halfGaps cfg s l) = true →
        staysActive cfg s l = true ∧ shortGapAfterSkip cfg job s l = true := by
    intro s l hl hallow
    obtain ⟨hactive, hhalf⟩ := Bool.and_eq_true_iff.mp hallow
    refine ⟨hactive, ?_⟩
    cases l with
    | tick now =>
      cases ha : s.active with
      | none => simp [shortGapAfterSkip, ha]
      | some a =>
        obtain ⟨m, hm, -, -, hage⟩ := hl.marker_eq ha
        have hgap : 2 * (now - a) ≤ ttl cfg := by simpa [halfGaps, ha] using hhalf
        simp only [shortGapAfterSkip, hm, ha, Option.all_some, Bool.or_eq_true, decide_eq_true_eq]
        left
        omega
    | _ => rfl
  have hinv := live_covered_of_reach hshort hs
  exact pagesKept_of_covered hinv.1 hinv.2

/-- A longer gap costs every unfinished page that has not moved since the time of the marker. -/
theorem not_pagesKept_of_longGap (cfg : Settings) (job : JobId) {s s' : Timeline} {now m a : ℕ}
    {index : ℤ} (hs : (system cfg job).Reach
      (fun s l => staysActive cfg s l && shortGapAfterSkip cfg job s l) s)
    (hm : s.marker job = some m) (ha : s.active = some a) (hma : m ≤ a)
    (hgap : ttl cfg < (a - m) + (now - a)) (hi : InRange s.total index)
    (hfin : s.finished index = false) (hstill : ∀ t, s.moved index = some t → t ≤ m)
    (hstep : step cfg job s (.tick now) = some s') : ¬ PagesKept job s' := by
  obtain ⟨hl, hc⟩ := live_covered_of_reach (fun s l _ h => Bool.and_eq_true_iff.mp h) hs
  obtain ⟨hclock, rfl⟩ := tick_cases hstep
  have hac := hl.active_le ha
  obtain ⟨p, e, hp, he, -, -, hend⟩ := hc.pages m hm index hi hfin
  have hlate : e < now := by
    rcases hend with hend | ⟨t, ht, hend⟩
    · omega
    · have := hstill t ht
      omega
  intro hkept
  obtain ⟨q, hq⟩ := Option.isSome_iff_exists.mp (hkept index hi hfin)
  obtain ⟨hq, halive⟩ := expire_pages_eq_some.mp hq
  rw [hp] at hq
  obtain rfl := Option.some.inj hq
  have := halive e he
  omega

end Inactivity

/-! ## A lost sweep -/

/-- No more than `d` passes between two successful transitions, sweeps run at once, and at
most one of them is lost. -/
def losesOneSweep (d : ℕ) (s : Timeline) : Label → Bool
  | .tick now => s.sweeps.isEmpty && s.active.all fun a => now ≤ a + d
  | .lose _ => s.lostAt.isNone
  | _ => true

/-- A page that has not moved when a sweep is lost moves in the time that is then left of the
TTL it was last given.  Before that the gaps are no longer than for `shortGapAfterSkip`, as
gaps of at most half a TTL are. -/
def startsInTimeLeft (cfg : Settings) (job : JobId) (d : ℕ) (s : Timeline) : Label → Bool
  | .tick now => ((List.range s.total).all fun i => (s.moved i).isSome) ||
      match s.lostAt with
      | some lost => now ≤ lost + (ttl cfg - (lost - s.swept))
      | none => 2 * d ≤ ttl cfg ||
          (s.marker job).all fun m => s.active.all fun a => (a - m) + (now - a) ≤ ttl cfg
  | _ => true

section Lost
variable {cfg : Settings} {job : JobId} {s s' : Timeline} {d : ℕ}

/-- A page that has not moved lives for a TTL from the last renewal.  Until a sweep is lost,
the marker is the time of that renewal, unless a sweep is about to run; the one that is lost
leaves less than half of the TTL, and the marker where it was moved to. -/
structure Unmoved (cfg : Settings) (job : JobId) (s : Timeline) : Prop where
  pages : ∀ index, InRange s.total index → s.moved index = none →
    ∃ p, s.redis.pages ⟨job, index⟩ = some p ∧ p.expiresAt = some (s.swept + ttl cfg)
  pending : s.sweeps ≠ [] → s.marker job = some s.clock ∧ s.active = some s.clock
  one : s.sweeps.length ≤ 1
  swept_le : ∀ a, s.active = some a → s.swept ≤ a
  alive : s.active.isSome → s.clock ≤ s.swept + ttl cfg
  renewed : s.lostAt = none → s.total ≠ 0 → ∀ m, s.marker job = some m →
    s.sweeps ≠ [] ∧ 2 * s.swept + ttl cfg < 2 * s.clock ∨ m = s.swept
  lost : ∀ lost, s.lostAt = some lost → lost ≤ s.clock ∧ (s.swept < lost →
    s.marker job = some lost ∧ ttl cfg < 2 * (lost - s.swept))

theorem Unmoved.empty : Unmoved cfg job Timeline.empty where
  pages := by
    intro index hi
    obtain ⟨h0, hn⟩ := hi
    simp [Timeline.empty] at hn
    omega
  pending := by simp [Timeline.empty]
  one := by simp [Timeline.empty]
  swept_le := by simp [Timeline.empty]
  alive := by simp [Timeline.empty]
  renewed := by simp [Timeline.empty]
  lost := by simp [Timeline.empty]

/-- No sweep is asked for in the time that a lost one has left. -/
theorem Unmoved.not_due (hu : Unmoved cfg job s) (hactive : s.active.isSome) {lost m : ℕ}
    (hlost : s.lostAt = some lost) (hswept : s.swept < lost) (hm : s.marker job = some m) :
    sweepDue (ttl cfg) s.clock m = false := by
  obtain ⟨-, hafter⟩ := hu.lost lost hlost
  obtain ⟨hmark, hhalf⟩ := hafter hswept
  obtain rfl := Option.some.inj (hm.symm.trans hmark)
  have halive := hu.alive hactive
  simp only [sweepDue, decide_eq_false_iff_not]
  omega

theorem Unmoved.transition (hu : Unmoved cfg job s) (hl : Live cfg job s) {index : ℤ}
    {target : PageState} {allowed : List PageState} {extra : List (PageField × Json)}
    (hstep : step cfg job s (.transition index target allowed extra) = some s') :
    Unmoved cfg job s' := by
  by_cases hne : s' = s
  · rw [hne]
    exact hu
  obtain ⟨h, m, happ, hh, htotal, hm, hle⟩ := hl.applied hstep hne
  obtain ⟨q, hpage, -⟩ := happ.page
  obtain ⟨hclock, htot, hswept, hlost⟩ := happ.rest
  have hmark : s.marker job = some m := by simp [marker, hh, hm]
  obtain ⟨a, ha⟩ := hl.active_of_hash hh
  have hisSome : s.active.isSome := by rw [ha]; rfl
  -- a sweep is asked for only when none is pending
  have hnone : sweepDue (ttl cfg) s.clock m = true → s.sweeps = [] := by
    intro hdue
    by_contra hsweeps
    obtain rfl := Option.some.inj (hmark.symm.trans (hu.pending hsweeps).1)
    simp [sweepDue] at hdue
  refine ⟨?_, ?_, ?_, ?_, ?_, ?_, ?_⟩
  · intro i hi hmoved
    rw [htot] at hi
    rw [happ.moved] at hmoved
    have hii : i ≠ index := by
      rintro rfl
      simp at hmoved
    rw [Function.update_of_ne hii] at hmoved
    obtain ⟨p, hp, he⟩ := hu.pages i hi hmoved
    exact ⟨p, by rw [hpage, Function.update_of_ne (by simpa using hii), hp], hswept ▸ he⟩
  · intro hsweeps
    rw [hclock]
    refine ⟨?_, happ.active⟩
    rcases happ.marker_eq htotal hm with ⟨-, hmark', -⟩ | ⟨-, hmark', hsame⟩
    · exact hmark'
    · rw [hsame] at hsweeps
      rw [hmark', ← hmark]
      exact (hu.pending hsweeps).1
  · rcases happ.marker_eq htotal hm with ⟨hdue, -, hsweeps⟩ | ⟨-, -, hsame⟩
    · rw [hsweeps, hnone hdue]
      split <;> simp
    · rw [hsame]
      exact hu.one
  · intro b hb
    rw [happ.active] at hb
    obtain rfl := Option.some.inj hb
    rw [hswept]
    exact (hu.swept_le a ha).trans (hl.active_le ha)
  · intro _
    rw [hclock, hswept]
    exact hu.alive hisSome
  · intro hl' ht' m' hm'
    rw [hlost] at hl'
    rw [htot] at ht'
    rcases happ.marker_eq htotal hm with ⟨hdue, -, hsweeps⟩ | ⟨-, hmark', hsame⟩
    · left
      rw [hsweeps, if_pos (Nat.pos_of_ne_zero ht'), hswept, hclock]
      have heq := (hu.renewed hl' ht' m hmark).resolve_left fun hpend => hpend.1 (hnone hdue)
      simp only [sweepDue, decide_eq_true_eq] at hdue
      exact ⟨by simp, by omega⟩
    · rw [hmark'] at hm'
      rw [hsame, hswept, hclock]
      exact hu.renewed hl' ht' m' (hmark.trans hm')
  · intro lost hl'
    rw [hlost] at hl'
    obtain ⟨hle', hafter⟩ := hu.lost lost hl'
    rw [hclock, hswept]
    refine ⟨hle', fun hlt => ?_⟩
    have hdue := hu.not_due hisSome hl' hlt hmark
    rcases happ.marker_eq htotal hm with ⟨hdue', -, -⟩ | ⟨-, hmark', -⟩
    · rw [hdue] at hdue'
      cases hdue'
    · rw [hmark', ← hmark]
      exact hafter hlt

/-- Every page of a job that was created has moved. -/
def AllMoved (s : Timeline) : Prop :=
  s.active.isSome ∧ ∀ index, InRange s.total index → s.moved index ≠ none

/-- A page that has moved stays one that has, whatever happens to the keys. -/
theorem AllMoved.step (h : AllMoved s) {l : Label} (hstep : step cfg job s l = some s') :
    AllMoved s' := by
  obtain ⟨hactive, hmoved⟩ := h
  cases l with
  | init n =>
    obtain ⟨hnew, -⟩ := init_cases hstep
    rw [hnew] at hactive
    cases hactive
  | transition index target allowed extra =>
    simp only [Timeline.step] at hstep
    split at hstep
    · split at hstep
      · obtain rfl := Option.some.inj hstep
        refine ⟨rfl, fun i hi => ?_⟩
        by_cases hii : i = index
        · subst hii
          simp
        · simpa [Function.update_of_ne hii] using hmoved i hi
      · obtain rfl := Option.some.inj hstep
        exact ⟨hactive, hmoved⟩
    · cases hstep
  | sweep i =>
    obtain ⟨n, -, rfl⟩ := Option.map_eq_some_iff.mp hstep
    exact ⟨hactive, hmoved⟩
  | lose i =>
    obtain ⟨n, -, rfl⟩ := Option.map_eq_some_iff.mp hstep
    exact ⟨hactive, hmoved⟩
  | tick now =>
    obtain ⟨-, rfl⟩ := tick_cases hstep
    exact ⟨hactive, hmoved⟩

/-- While a page has not moved, the TTL given by the last renewal has not run out at the next
tick. -/
theorem Unmoved.alive_tick (hu : Unmoved cfg job s) (hl : Live cfg job s) {now a : ℕ}
    (ha : s.active = some a) (hallow : losesOneSweep d s (.tick now) = true)
    (hstarts : startsInTimeLeft cfg job d s (.tick now) = true) (hnot : ¬ AllMoved s) :
    now ≤ s.swept + ttl cfg := by
  have hgap : s.sweeps = [] ∧ now ≤ a + d := by
    simpa [losesOneSweep, ha, List.isEmpty_iff] using hallow
  have hisSome : s.active.isSome := by rw [ha]; rfl
  have halive := hu.alive hisSome
  obtain ⟨m, hm, -, hac, hhalf⟩ := hl.marker_eq ha
  have hsa := hu.swept_le a ha
  simp only [startsInTimeLeft, Bool.or_eq_true] at hstarts
  rcases hstarts with hall | hleft
  · refine absurd ⟨hisSome, fun i hi => ?_⟩ hnot
    obtain ⟨h0, hn⟩ := hi
    simp only [List.all_eq_true, List.mem_range] at hall
    have hmoved := hall i.toNat (by omega)
    rw [Int.toNat_of_nonneg h0] at hmoved
    exact Option.isSome_iff_ne_none.mp hmoved
  cases hlost : s.lostAt with
  | some lost =>
    have hle := (hu.lost lost hlost).1
    simp only [hlost, decide_eq_true_eq] at hleft
    omega
  | none =>
    by_cases htotal : s.total = 0
    · exact absurd ⟨hisSome, fun i hi => by obtain ⟨_, _⟩ := hi; omega⟩ hnot
    obtain rfl := (hu.renewed hlost htotal m hm).resolve_left fun hne => hne.1 hgap.1
    simp only [hlost, hm, ha, Option.all_some, Bool.or_eq_true, decide_eq_true_eq] at hleft
    omega

/-- The job is active as long as one of its pages has not moved. -/
theorem Unmoved.withinTtl (hu : Unmoved cfg job s) (hl : Live cfg job s) {l : Label}
    (hallow : losesOneSweep d s l = true) (hstarts : startsInTimeLeft cfg job d s l = true)
    (hnot : ¬ AllMoved s) : withinTtl cfg s l = true := by
  cases l with
  | tick now =>
    simp only [Timeline.withinTtl, Option.all_eq_true, decide_eq_true_eq]
    intro a ha
    have hle := hu.alive_tick hl ha hallow hstarts hnot
    have hswept := hu.swept_le a ha
    omega
  | _ => rfl

theorem Unmoved.step (hu : Unmoved cfg job s) (hl : Live cfg job s) {l : Label}
    (hallow : losesOneSweep d s l = true) (hstarts : startsInTimeLeft cfg job d s l = true)
    (hnot : ¬ AllMoved s) (hstep : step cfg job s l = some s') : Unmoved cfg job s' := by
  cases l with
  | init n =>
    obtain ⟨hnew, rfl⟩ := init_cases hstep
    obtain ⟨-, hpages, hsweeps, -⟩ := hl.fresh hnew
    refine ⟨?_, by simp [hsweeps], by simp [hsweeps], ?_, fun _ => Nat.le_add_right _ _, ?_, ?_⟩
    · intro index hi _
      refine ⟨PageHash.initial index s.clock (ttl cfg), ?_, rfl⟩
      rw [initJob_pages (hpages index), if_pos hi]
    · intro a ha
      exact (Option.some.inj ha).le
    · intro _ _ m hm
      exact .inr (by simpa [marker, initJob_jobs] using hm.symm)
    · intro lost hlost
      have hle := (hu.lost lost hlost).1
      exact ⟨hle, fun hlt => absurd hle (not_le.mpr hlt)⟩
  | transition index target allowed extra => exact hu.transition hl hstep
  | sweep i =>
    obtain ⟨n, hn, rfl⟩ := Option.map_eq_some_iff.mp hstep
    have hmem := List.mem_of_getElem? hn
    obtain ⟨hmark, hactive⟩ := hu.pending (List.ne_nil_of_mem hmem)
    obtain rfl := hl.sweeps_eq n hmem
    have hshort : (s.sweeps.eraseIdx i).length ≤ s.sweeps.length := List.length_eraseIdx_le _ _
    refine ⟨?_, fun _ => ⟨hmark, hactive⟩, hshort.trans hu.one, ?_,
      fun _ => Nat.le_add_right _ _, ?_, ?_⟩
    · intro index hi hmoved
      obtain ⟨p, hp, -⟩ := hu.pages index hi hmoved
      refine ⟨{ p with expiresAt := some (s.clock + ttl cfg) }, ?_, rfl⟩
      change (s.redis.pexpirePages job s.total _).pages _ = _
      rw [pexpirePages_pages, if_pos hi, hp]
      rfl
    · intro a ha
      exact (Option.some.inj (hactive.symm.trans ha)).le
    · intro _ _ m hm
      exact .inr (Option.some.inj (hm.symm.trans hmark))
    · intro lost hlost
      have hle := (hu.lost lost hlost).1
      exact ⟨hle, fun hlt => absurd hle (not_le.mpr hlt)⟩
  | lose i =>
    obtain ⟨n, hn, rfl⟩ := Option.map_eq_some_iff.mp hstep
    have hmem := List.mem_of_getElem? hn
    have hmark := hu.pending (List.ne_nil_of_mem hmem)
    have hshort : (s.sweeps.eraseIdx i).length ≤ s.sweeps.length := List.length_eraseIdx_le _ _
    refine ⟨hu.pages, fun _ => hmark, hshort.trans hu.one, hu.swept_le, hu.alive, by simp, ?_⟩
    intro lost hlost
    obtain rfl := Option.some.inj hlost
    refine ⟨le_rfl, fun hlt => ⟨hmark.1, ?_⟩⟩
    have hnone : s.lostAt = none := Option.isNone_iff_eq_none.mp hallow
    have htotal : s.total ≠ 0 := by
      intro hzero
      exact hnot ⟨by rw [hmark.2]; rfl, fun i hi => by obtain ⟨_, _⟩ := hi; omega⟩
    rcases hu.renewed hnone htotal _ hmark.1 with ⟨-, hdue⟩ | heq
    · dsimp only
      omega
    · exact absurd heq.symm hlt.ne
  | tick now =>
    have hsweeps : s.sweeps = [] := by
      simp only [losesOneSweep, Bool.and_eq_true, List.isEmpty_iff] at hallow
      exact hallow.1
    have hlive := hl.step (hu.withinTtl hl hallow hstarts hnot) hstep
    obtain ⟨hnow, rfl⟩ := tick_cases hstep
    refine ⟨?_, by simp [hsweeps], by simp [hsweeps], hu.swept_le, ?_, ?_, ?_⟩
    · intro index hi hmoved
      obtain ⟨p, hp, he⟩ := hu.pages index hi hmoved
      obtain ⟨a, ha⟩ := hl.active_of_page hp
      refine ⟨p, expire_pages_eq_some.mpr ⟨hp, fun t ht => ?_⟩, he⟩
      rw [he] at ht
      obtain rfl := Option.some.inj ht
      exact hu.alive_tick hl ha hallow hstarts hnot
    · intro hisSome
      obtain ⟨a, ha⟩ := Option.isSome_iff_exists.mp hisSome
      exact hu.alive_tick hl ha hallow hstarts hnot
    · intro hlost htotal m hm
      exact .inr ((hu.renewed hlost htotal m (marker_of_tick hm)).resolve_left
        fun hpend => hpend.1 hsweeps)
    · intro lost hlost
      obtain ⟨hle, hafter⟩ := hu.lost lost hlost
      refine ⟨hle.trans hnow, fun hlt => ?_⟩
      obtain ⟨hmark, hhalf⟩ := hafter hlt
      -- the job hash is still there, with its marker
      obtain ⟨hash, hhash, -⟩ := Option.bind_eq_some_iff.mp hmark
      obtain ⟨a, ha⟩ := hl.active_of_hash hhash
      obtain ⟨m, hm, -⟩ := hlive.marker_eq ha
      obtain rfl := Option.some.inj ((marker_of_tick hm).symm.trans hmark)
      exact ⟨hm, hhalf⟩

/-- As long as some page has not moved, the keys are as they should be. -/
theorem allMoved_or_unmoved (hs : (system cfg job).Reach
    (fun s l => losesOneSweep d s l && startsInTimeLeft cfg job d s l) s) :
    AllMoved s ∨ Live cfg job s ∧ Unmoved cfg job s := by
  refine @System.Reach.invariant _ _ _ _
    (fun s => AllMoved s ∨ Live cfg job s ∧ Unmoved cfg job s)
    (.inr ⟨Live.empty, Unmoved.empty⟩) ?_ _ hs
  intro s l s' h hallow hstep
  rw [Bool.and_eq_true] at hallow
  by_cases hall : AllMoved s
  · exact .inl (hall.step hstep)
  · obtain ⟨hl, hu⟩ := h.resolve_left hall
    exact .inr ⟨hl.step (hu.withinTtl hl hallow.1 hallow.2 hall) hstep,
      hu.step hl hallow.1 hallow.2 hall hstep⟩

/-- One page of two is started and returned every 100 ms, and the sweep asked for after
600 ms is lost. -/
def lostSweep : List Label :=
  [.init 2, .tick 100, startPage 0, .tick 200, returnPage 0, .tick 300, startPage 0, .tick 400,
    returnPage 0, .tick 500, startPage 0, .tick 600, returnPage 0, .lose 0, .tick 700,
    startPage 0, .tick 800, returnPage 0, .tick 900, startPage 0]

/-- After a lost sweep it is too late for the next: none is asked for while a page that has not
moved is still there, and one that has not when the time left is over is gone. -/
theorem lost_sweep_not_retried (cfg : Settings) (job : JobId) {s s' : Timeline} {now lost : ℕ}
    {index : ℤ} (hs : (system cfg job).Reach
      (fun s l => losesOneSweep d s l && startsInTimeLeft cfg job d s l) s)
    (hlost : s.lostAt = some lost) (hswept : s.swept < lost) (hi : InRange s.total index)
    (hmoved : s.moved index = none) :
    (∃ m, s.marker job = some m ∧ sweepDue (ttl cfg) s.clock m = false) ∧
      (lost + (ttl cfg - (lost - s.swept)) < now → step cfg job s (.tick now) = some s' →
        ¬ UnstartedKept job s') := by
  obtain ⟨hl, hu⟩ := (allMoved_or_unmoved hs).resolve_left fun hall => hall.2 index hi hmoved
  obtain ⟨p, hp, he⟩ := hu.pages index hi hmoved
  obtain ⟨a, ha⟩ := hl.active_of_page hp
  have hisSome : s.active.isSome := by rw [ha]; rfl
  obtain ⟨hle, hafter⟩ := hu.lost lost hlost
  refine ⟨⟨lost, (hafter hswept).1, hu.not_due hisSome hlost hswept (hafter hswept).1⟩,
    fun hlate hstep hkept => ?_⟩
  have halive := hu.alive hisSome
  obtain ⟨-, rfl⟩ := tick_cases hstep
  obtain ⟨q, hq⟩ := Option.isSome_iff_exists.mp (hkept index hi hmoved)
  obtain ⟨hq, hnow⟩ := expire_pages_eq_some.mp hq
  rw [hp] at hq
  obtain rfl := Option.some.inj hq
  have := hnow _ he
  omega

end Lost
end Timeline
end OcrOrchestrator
