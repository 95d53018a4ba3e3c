import OcrOrchestrator.Worker.Lines
import OcrOrchestrator.Lib.Dict
import OcrOrchestrator.Lib.System

/-!
# Leases

A reaper takes an entry that has been idle for `reaper_min_idle_s`.  Idle time says how long ago
an entry was delivered, not whether somebody works on it, so each worker runs a maintenance task
that resets the clock of all entries it holds, every `lease_renew_interval_s`.  The same task
flushes the metrics and makes the reaper's scans, and while it does, nothing is renewed.

Here the fleet gets a clock, stop requests and the maintenance task of every worker.  One
iteration sleeps, renews, which is one `XCLAIM` for each lane, and works; all orphans of a worker
are claimed and recovered while it works.  If every part of an iteration ends in time, no entry of
a live coroutine is ever taken, and this is what the fleet's own statements assume.

The task ends when a stop has been requested and nothing is in flight.  That can be too early: a
read that was begun before the stop may still bring an entry, and nobody renews it.

A renewal covers the entries held when it began.  The entry of a handler that has ended since is
left out of the claim, and a scan may be made in any iteration.  A worker that has drained cancels
its task and ends, which is no different from a crash.

## Main definitions

* `Leased`, `Leased.step` — the fleet with its clock and its maintenance tasks.
* `Pace`, `Leased.prompt` — how long each part of an iteration may take.
* `Leased.attended` — the condition on deliveries.
* `Lease` — how old the line of a held entry can be.
-/

namespace OcrOrchestrator

open Lib

/-- What a maintenance task is at, and since when. -/
inductive Upkeep where
  | sleeping (since : ℕ)
  /-- The claims that are still to be sent, one for each lane. -/
  | renewing (since : ℕ) (todo : List (Lane × List StreamId))
  /-- The flush, and the scan if there is one. -/
  | working (since : ℕ)
  /-- The loop has been left. -/
  | ended

def Upkeep.since : Upkeep → ℕ
  | sleeping b => b
  | renewing b _ => b
  | working b => b
  | ended => 0

/-- The entries a worker holds: `_held`, in the order in which their handlers started. -/
def Fleet.heldBy (f : Fleet) (c : Consumer) : List (Lane × StreamId) :=
  (List.range f.next).filterMap fun t =>
    (f.parties t).bind fun p => if p.consumer = c ∧ p.role = .handler then some p.entry else none

/-- Entries by the lane they were read from. -/
def byStream (entries : List (Lane × StreamId)) : Dict Lane (List StreamId) :=
  entries.foldl (fun d e => d.update e.1 fun ids => ids.getD [] ++ [e.2]) []

structure Leased where
  fleet : Fleet
  now : ℕ
  /-- `_stopping` of each worker. -/
  stopping : Consumer → Bool
  /-- `none` before the first iteration. -/
  upkeep : Consumer → Option Upkeep
  /-- When the last renewal that a worker has completed began. -/
  pulse : Consumer → ℕ
  /-- When each party started. -/
  since : ℕ → ℕ

namespace Leased

/-- What can happen next: time passes, the fleet takes a step, a worker is asked to stop, a
maintenance task goes on. -/
inductive Label where
  | tick (ms : ℕ)
  | act (l : OcrOrchestrator.Label)
  | requestStop (c : Consumer)
  | sleep (c : Consumer)
  | wake (c : Consumer)
  | renewLane (c : Consumer)
  | renewed (c : Consumer)
  | leave (c : Consumer)

/-- Renewals are made by the maintenance task, and so are scans, while it works. -/
def enabled (s : Leased) : OcrOrchestrator.Label → Bool
  | .renew _ _ _ _ => false
  | .reap c _ _ _ => match s.upkeep c with
    | some (.working _) => true
    | _ => false
  | _ => true

/-- The maintenance task is at the head of its loop: nothing has been done yet, or the work of an
iteration is done and no orphan is left. -/
def atLoop (s : Leased) (c : Consumer) : Bool :=
  match s.upkeep c with
  | none => decide (s.fleet.procs c = some .running)
  | some (.working _) => !s.fleet.anyParty fun p => decide (p.consumer = c ∧ p.role = .reaper)
  | _ => false

/-- A handler of the worker is alive.  One that has ended stays in `_in_flight` until the dispatch
loop has seen it, so the maintenance loop may also go on when this is false. -/
def inFlight (s : Leased) (c : Consumer) : Bool :=
  s.fleet.anyParty fun p => decide (p.consumer = c ∧ p.role = .handler)

/-- The fleet has taken a step.  What a worker has goes with its process. -/
def after (s : Leased) (l : OcrOrchestrator.Label) (fleet : Fleet) : Leased :=
  { s with
    fleet
    stopping := match l with
      | .crash c => Function.update s.stopping c false
      | _ => s.stopping
    upkeep := match l with
      | .crash c => Function.update s.upkeep c none
      | _ => s.upkeep
    since := Function.update s.since s.fleet.next s.now }

/-- One step, `none` if the label is not enabled.  `interval` is `lease_renew_interval_s`. -/
def step (cfg : Settings) (interval : ℕ) (s : Leased) : Label → Option Leased
  | .tick ms => some { s with now := s.now + ms }
  | .act l =>
    if l.isAt s.now && s.enabled l then (s.fleet.step cfg l).map (s.after l) else none
  | .requestStop c =>
    if (s.fleet.procs c).isSome then
      some { s with stopping := Function.update s.stopping c true }
    else none
  | .sleep c =>
    if s.atLoop c then
      some { s with upkeep := Function.update s.upkeep c (some (.sleeping s.now)) }
    else none
  | .wake c =>
    match s.upkeep c with
    | some (.sleeping b) =>
      if b + interval ≤ s.now then
        let renewing := .renewing s.now (byStream (s.fleet.heldBy c))
        some { s with upkeep := Function.update s.upkeep c (some renewing) }
      else none
    | _ => none
  | .renewLane c =>
    match s.upkeep c with
    | some (.renewing b ((lane, ids) :: todo)) =>
      some { s with
        fleet := s.fleet.renewAll cfg c lane s.now ids
        upkeep := Function.update s.upkeep c (some (.renewing b todo)) }
    | _ => none
  | .renewed c =>
    match s.upkeep c with
    | some (.renewing b []) =>
      some { s with
        upkeep := Function.update s.upkeep c (some (.working s.now))
        pulse := Function.update s.pulse c b }
    | _ => none
  | .leave c =>
    if s.atLoop c && s.stopping c && !s.inFlight c then
      some { s with upkeep := Function.update s.upkeep c (some .ended) }
    else none

def empty : Leased := ⟨.empty, 0, fun _ => false, fun _ => none, fun _ => 0, fun _ => 0⟩

def system (cfg : Settings) (interval : ℕ) : System Leased Label := ⟨empty, step cfg interval⟩

/-- The worker's maintenance task has ended. -/
def hasLeft (s : Leased) (c : Consumer) : Bool :=
  match s.upkeep c with
  | some .ended => true
  | _ => false

/-- No entry is delivered to a worker whose maintenance task has ended. -/
def attended (s : Leased) : Label → Bool
  | .act (.deliver c _ _) => !s.hasLeft c
  | _ => true

end Leased

/-! ## Keeping time -/

/-- How long, at most, a worker takes to start its maintenance task, and for the parts of an
iteration. -/
structure Pace where
  startMs : ℕ
  sleepMs : ℕ
  renewMs : ℕ
  workMs : ℕ

/-- How late a renewal can begin after the one before it, and how long it takes. -/
def Pace.total (pace : Pace) : ℕ :=
  max pace.startMs (pace.renewMs + pace.workMs) + pace.sleepMs + pace.renewMs

def Upkeep.limit (pace : Pace) : Upkeep → ℕ
  | sleeping _ => pace.sleepMs
  | renewing _ _ => pace.renewMs
  | working _ => pace.workMs
  | ended => 0

namespace Leased

/-- When the party's worker has to be done with what its maintenance task is at. -/
def due (pace : Pace) (s : Leased) (t : ℕ) (p : Party) : ℕ :=
  match s.upkeep p.consumer with
  | none => s.since t + pace.startMs
  | some u => u.since + u.limit pace

/-- Time only passes as long as no worker with something to lose and a maintenance task is
overdue. -/
def prompt (pace : Pace) (s : Leased) : Label → Bool
  | .tick ms => !(List.range s.fleet.next).any fun t =>
      (s.fleet.parties t).any fun p =>
        !s.hasLeft p.consumer && decide (s.due pace t p < s.now + ms)
  | _ => true

/-- A condition on the fleet's own steps. -/
def fleetOnly (allow : Fleet → OcrOrchestrator.Label → Bool) (s : Leased) : Label → Bool
  | .act l => allow s.fleet l
  | _ => true

end Leased

/-! ## What a renewal covers -/

theorem Fleet.mem_heldBy {f : Fleet} {c : Consumer} {e : Lane × StreamId} : e ∈ f.heldBy c ↔
    ∃ t p, t < f.next ∧ f.parties t = some p ∧ p.consumer = c ∧ p.role = .handler ∧ p.entry = e := by
  simp only [heldBy, List.mem_filterMap, List.mem_range, Option.bind_eq_some_iff,
    Option.ite_none_right_eq_some, Option.some.injEq]
  constructor
  · rintro ⟨t, ht, p, hp, ⟨hc, hrole⟩, he⟩
    exact ⟨t, p, ht, hp, hc, hrole, he⟩
  · rintro ⟨t, p, ht, hp, hc, hrole, he⟩
    exact ⟨t, ht, p, hp, ⟨hc, hrole⟩, he⟩

/-- Each entry is among the ids of its lane. -/
theorem mem_byStream {entries : List (Lane × StreamId)} {e : Lane × StreamId} (h : e ∈ entries) :
    ∃ ids, (e.1, ids) ∈ byStream entries ∧ e.2 ∈ ids := by
  have hget : ((byStream entries).get e.1).getD [] =
      (entries.filter fun x => x.1 = e.1).foldl (fun ids x => ids ++ [x.2]) [] :=
    Dict.getD_foldl_update [] Prod.fst (fun x ids => ids ++ [x.2]) entries [] e.1
  have hids : (entries.filter fun x => x.1 = e.1).foldl (fun ids x => ids ++ [x.2]) [] =
      (entries.filter fun x => x.1 = e.1).map Prod.snd := by
    rw [List.foldl_append_eq_append, List.nil_append, ← List.flatMap_def, List.map_eq_flatMap]
  have hmem : e.2 ∈ ((byStream entries).get e.1).getD [] := by
    rw [hget, hids]
    exact List.mem_map_of_mem (List.mem_filter.mpr ⟨h, by simp⟩)
  cases hd : (byStream entries).get e.1 with
  | none => simp [hd] at hmem
  | some ids =>
    obtain ⟨⟨lane, ids'⟩, hfind, rfl⟩ := Option.map_eq_some_iff.mp hd
    obtain rfl : lane = e.1 := by simpa using List.find?_some hfind
    exact ⟨ids', List.mem_of_find?_eq_some hfind, by simpa [hd] using hmem⟩

/-! ## What keeps a lease -/

/-- How long after the start of the last complete renewal this part of an iteration begins. -/
def Upkeep.offset (pace : Pace) : Upkeep → ℕ
  | sleeping _ => max pace.startMs (pace.renewMs + pace.workMs)
  | renewing _ _ => max pace.startMs (pace.renewMs + pace.workMs) + pace.sleepMs
  | working _ => pace.renewMs
  | ended => 0

/-- When the lease of a handler was last known to be good. -/
def Leased.base (s : Leased) (t : ℕ) (p : Party) : ℕ := max (s.since t) (s.pulse p.consumer)

/-- The line of a live party is no older than the party, and for a handler no older than its
worker's last complete renewal; and that was not long ago. -/
structure Lease (pace : Pace) (s : Leased) : Prop where
  started : ∀ t, s.since t ≤ s.now
  pulsed : ∀ c, s.pulse c ≤ s.now
  begun : ∀ c u, s.upkeep c = some u → u.since ≤ s.now
  idle : ∀ c, s.fleet.procs c ≠ some .running → s.upkeep c = none
  left : ∀ t p, s.fleet.parties t = some p → s.hasLeft p.consumer = false
  past : ∀ entry q, s.fleet.Line entry q → q.deliveredAt ≤ s.now
  fresh : ∀ t p q, s.fleet.parties t = some p → s.fleet.Line p.entry q →
    s.since t ≤ q.deliveredAt ∧ (p.role = .handler → s.pulse p.consumer ≤ q.deliveredAt)
  /-- What is not renewed yet is still to be. -/
  round : ∀ t p b todo q, s.fleet.parties t = some p → p.role = .handler →
    s.upkeep p.consumer = some (.renewing b todo) → s.fleet.Line p.entry q →
    b ≤ q.deliveredAt ∨ ∃ ids, (p.entry.1, ids) ∈ todo ∧ p.entry.2 ∈ ids
  scan : ∀ t p, s.fleet.parties t = some p → p.role = .reaper →
    ∃ b, s.upkeep p.consumer = some (.working b) ∧ b ≤ s.since t
  time : ∀ t p, s.fleet.parties t = some p → s.now ≤ max (s.since t) (s.due pace t p)
  phase : ∀ t p u, s.fleet.parties t = some p → s.upkeep p.consumer = some u →
    u.since ≤ s.base t p + u.offset pace

namespace Lease
variable {cfg : Settings} {interval : ℕ} {pace : Pace} {s s' : Leased}

theorem empty (pace : Pace) : Lease pace Leased.empty where
  started _ := le_refl _
  pulsed _ := le_refl _
  begun _ _ h := by cases h
  idle _ _ := rfl
  left _ _ h := by cases h
  past _ _ h := by cases h.1
  fresh _ _ _ h := by cases h
  round _ _ _ _ _ h := by cases h
  scan _ _ h := by cases h
  time _ _ h := by cases h
  phase _ _ _ h := by cases h

/-- **The line of a live party is not old enough to be taken.** -/
theorem not_idle (h : Lease pace s) (hpace : pace.total < cfg.reaperMinIdleMs) {t : ℕ} {p : Party}
    {q : Pending} (hp : s.fleet.parties t = some p) (hline : s.fleet.Line p.entry q) :
    s.now < cfg.reaperMinIdleMs + q.deliveredAt := by
  obtain ⟨hsince, hpulse⟩ := h.fresh t p q hp hline
  have htime := h.time t p hp
  have hstart : pace.startMs ≤ pace.total := by
    unfold Pace.total
    omega
  cases hrole : p.role with
  | reaper =>
    obtain ⟨b, hu, hb⟩ := h.scan t p hp hrole
    simp only [Leased.due, hu, Upkeep.since, Upkeep.limit] at htime
    have hwork : pace.workMs ≤ pace.total := by
      unfold Pace.total
      omega
    omega
  | handler =>
    have hpulse := hpulse hrole
    cases hu : s.upkeep p.consumer with
    | none =>
      simp only [Leased.due, hu] at htime
      omega
    | some u =>
      have hphase := h.phase t p u hp hu
      simp only [Leased.due, hu] at htime
      have hpart : u.offset pace + u.limit pace ≤ pace.total := by
        cases u <;> simp only [Upkeep.offset, Upkeep.limit, Pace.total] <;> omega
      simp only [Leased.base] at hphase
      omega

/-- Time passes. -/
theorem tick (h : Lease pace s) {ms : ℕ} (hprompt : s.prompt pace (.tick ms) = true)
    (hnext : ∀ t p, s.fleet.parties t = some p → t < s.fleet.next) :
    Lease pace { s with now := s.now + ms } where
  started t := (h.started t).trans (Nat.le_add_right _ _)
  pulsed c := (h.pulsed c).trans (Nat.le_add_right _ _)
  begun c u hu := (h.begun c u hu).trans (Nat.le_add_right _ _)
  idle := h.idle
  left := h.left
  past e q hq := (h.past e q hq).trans (Nat.le_add_right _ _)
  fresh := h.fresh
  round := h.round
  scan := h.scan
  time t p hp := by
    simp only [Leased.prompt, Bool.not_eq_true', List.any_eq_false, List.mem_range] at hprompt
    have hdue := hprompt t (hnext t p hp)
    rw [hp] at hdue
    rw [Option.any_some, h.left t p hp, Bool.not_false, Bool.true_and, decide_eq_true_eq,
      not_lt] at hdue
    exact hdue.trans (le_max_right _ _)
  phase := h.phase

/-- A stop request by itself changes nothing. -/
theorem requestStop (h : Lease pace s) {stopping : Consumer → Bool} :
    Lease pace { s with stopping } :=
  { h with }

/-- A maintenance task goes on to its next part. -/
theorem turn (h : Lease pace s) {c : Consumer} (u' : Upkeep) {pulse : ℕ}
    (hproc : s.fleet.procs c = some .running) (hended : u' ≠ .ended) (hnow : u'.since = s.now)
    (hpulsed : pulse ≤ s.now)
    (hfresh : ∀ t p q, s.fleet.parties t = some p → p.consumer = c → p.role = .handler →
      s.fleet.Line p.entry q → pulse ≤ q.deliveredAt)
    (hround : ∀ t p b todo q, s.fleet.parties t = some p → p.consumer = c → p.role = .handler →
      u' = .renewing b todo → s.fleet.Line p.entry q →
      b ≤ q.deliveredAt ∨ ∃ ids, (p.entry.1, ids) ∈ todo ∧ p.entry.2 ∈ ids)
    (hscan : ∀ t p, s.fleet.parties t = some p → p.consumer = c → p.role ≠ .reaper)
    (hphase : ∀ t p, s.fleet.parties t = some p → p.consumer = c →
      s.now ≤ max (s.since t) pulse + u'.offset pace) :
    Lease pace { s with
      upkeep := Function.update s.upkeep c (some u')
      pulse := Function.update s.pulse c pulse } where
  started := h.started
  pulsed c' := by
    by_cases hc : c' = c
    · simpa [hc] using hpulsed
    · simpa [hc] using h.pulsed c'
  begun c' v hv := by
    by_cases hc : c' = c
    · subst hc
      obtain rfl : u' = v := by simpa using hv
      exact hnow.le
    · exact h.begun c' v (by simpa [hc] using hv)
  idle c' hidle := by
    have hne : c' ≠ c := by
      rintro rfl
      exact hidle hproc
    simpa [hne] using h.idle c' hidle
  left t p hp := by
    by_cases hc : p.consumer = c
    · cases u' with
      | ended => exact absurd rfl hended
      | _ => simp [Leased.hasLeft, hc]
    · simpa [Leased.hasLeft, hc] using h.left t p hp
  past := h.past
  fresh t p q hp hline := by
    refine ⟨(h.fresh t p q hp hline).1, fun hrole => ?_⟩
    by_cases hc : p.consumer = c
    · simpa [hc] using hfresh t p q hp hc hrole hline
    · simpa [hc] using (h.fresh t p q hp hline).2 hrole
  round t p b todo q hp hrole hv hline := by
    by_cases hc : p.consumer = c
    · exact hround t p b todo q hp hc hrole (by simpa [hc] using hv) hline
    · exact h.round t p b todo q hp hrole (by simpa [hc] using hv) hline
  scan t p hp hrole := by
    have hne : p.consumer ≠ c := fun hc => hscan t p hp hc hrole
    simpa [hne] using h.scan t p hp hrole
  time t p hp := by
    by_cases hc : p.consumer = c
    · simp only [Leased.due, hc, Function.update_self, hnow]
      omega
    · simpa [Leased.due, hc] using h.time t p hp
  phase t p v hp hv := by
    by_cases hc : p.consumer = c
    · obtain rfl : u' = v := by simpa [hc] using hv
      simpa [Leased.base, hc, hnow] using hphase t p hp hc
    · simpa [Leased.base, hc] using h.phase t p v hp (by simpa [hc] using hv)

/-- A worker with a maintenance task runs. -/
theorem running (h : Lease pace s) {c : Consumer} {u : Upkeep} (hu : s.upkeep c = some u) :
    s.fleet.procs c = some .running := by
  by_contra hproc
  rw [h.idle c hproc] at hu
  cases hu

/-- A worker begins a renewal: everything it holds is still to be renewed. -/
theorem wake (h : Lease pace s) {c : Consumer} {b : ℕ} (hu : s.upkeep c = some (.sleeping b))
    (hnext : ∀ t p, s.fleet.parties t = some p → t < s.fleet.next) :
    let renewing := .renewing s.now (byStream (s.fleet.heldBy c))
    Lease pace { s with upkeep := Function.update s.upkeep c (some renewing) } := by
  intro renewing
  have hturn := h.turn (.renewing s.now (byStream (s.fleet.heldBy c))) (h.running hu) nofun rfl
    (h.pulsed c)
    (fun t p q hp hc hrole hline => hc ▸ (h.fresh t p q hp hline).2 hrole) ?_ ?_ ?_
  · simpa using hturn
  · rintro t p b todo q hp hc hrole hv -
    obtain ⟨rfl, rfl⟩ := Upkeep.renewing.inj hv
    exact .inr (mem_byStream (Fleet.mem_heldBy.mpr ⟨t, p, hnext t p hp, hp, hc, hrole, rfl⟩))
  · intro t p hp hc hrole
    obtain ⟨b', hu', -⟩ := h.scan t p hp hrole
    rw [hc, hu] at hu'
    cases hu'
  · intro t p hp hc
    have hphase := h.phase t p _ hp (hc ▸ hu)
    have htime := h.time t p hp
    simp only [Leased.due, hc, hu, Upkeep.limit, Upkeep.since] at htime
    simp only [Leased.base, hc, Upkeep.since, Upkeep.offset] at hphase ⊢
    omega

/-- The last claim of a renewal has been sent. -/
theorem renewed (h : Lease pace s) {c : Consumer} {b : ℕ} (hu : s.upkeep c = some (.renewing b [])) :
    Lease pace { s with
      upkeep := Function.update s.upkeep c (some (.working s.now))
      pulse := Function.update s.pulse c b } := by
  refine h.turn _ (h.running hu) nofun rfl (h.begun c _ hu) ?_ (fun _ _ _ _ _ _ _ _ hv => by cases hv) ?_ ?_
  · intro t p q hp hc hrole hline
    rcases h.round t p b [] q hp hrole (hc ▸ hu) hline with hb | ⟨ids, hmem, -⟩
    · exact hb
    · cases hmem
  · intro t p hp hc hrole
    obtain ⟨b', hu', -⟩ := h.scan t p hp hrole
    rw [hc, hu] at hu'
    cases hu'
  · intro t p hp hc
    have htime := h.time t p hp
    simp only [Leased.due, hc, hu, Upkeep.limit, Upkeep.since] at htime
    simp only [Upkeep.offset]
    omega

/-- At the head of the loop no orphan is left. -/
theorem no_orphan (h : Lease pace s) (hnext : ∀ t p, s.fleet.parties t = some p → t < s.fleet.next)
    {c : Consumer} (hloop : s.atLoop c = true) {t : ℕ} {p : Party}
    (hp : s.fleet.parties t = some p) (hc : p.consumer = c) : p.role ≠ .reaper := by
  intro hrole
  obtain ⟨b, hu, -⟩ := h.scan t p hp hrole
  rw [hc] at hu
  simp only [Leased.atLoop, hu, Bool.not_eq_true'] at hloop
  rw [Fleet.anyParty_eq_true.mpr ⟨t, p, hnext t p hp, hp, decide_eq_true ⟨hc, hrole⟩⟩] at hloop
  cases hloop

/-- The loop goes on. -/
theorem sleep (h : Lease pace s) (hnext : ∀ t p, s.fleet.parties t = some p → t < s.fleet.next)
    {c : Consumer} (hloop : s.atLoop c = true) :
    Lease pace { s with upkeep := Function.update s.upkeep c (some (.sleeping s.now)) } := by
  have hproc : s.fleet.procs c = some .running := by
    cases hu : s.upkeep c with
    | none => simpa [Leased.atLoop, hu] using hloop
    | some u => exact h.running hu
  have hturn := h.turn (.sleeping s.now) hproc nofun rfl (h.pulsed c)
    (fun t p q hp hc hrole hline => hc ▸ (h.fresh t p q hp hline).2 hrole)
    (fun _ _ _ _ _ _ _ _ hv => by cases hv) (fun t p => h.no_orphan hnext hloop) ?_
  · simpa using hturn
  · intro t p hp hc
    have htime := h.time t p hp
    cases hu : s.upkeep c with
    | none =>
      simp only [Leased.due, hc, hu] at htime
      simp only [Upkeep.offset]
      omega
    | some u =>
      have hphase := h.phase t p u hp (hc ▸ hu)
      cases u with
      | working b =>
        simp only [Leased.due, hc, hu, Upkeep.limit, Upkeep.since] at htime
        simp only [Leased.base, hc, Upkeep.since, Upkeep.offset] at hphase ⊢
        omega
      | _ => simp [Leased.atLoop, hu] at hloop

/-- The loop ends.  Nobody is left who would need it. -/
theorem leave (h : Lease pace s) (hnext : ∀ t p, s.fleet.parties t = some p → t < s.fleet.next)
    {c : Consumer} (hloop : s.atLoop c = true) (hflight : s.inFlight c = false) :
    Lease pace { s with upkeep := Function.update s.upkeep c (some .ended) } := by
  have hgone : ∀ {t p}, s.fleet.parties t = some p → p.consumer ≠ c := by
    intro t p hp hc
    cases hrole : p.role with
    | reaper => exact h.no_orphan hnext hloop hp hc hrole
    | handler =>
      rw [Leased.inFlight, Fleet.anyParty_eq_true.mpr
        ⟨t, p, hnext t p hp, hp, decide_eq_true ⟨hc, hrole⟩⟩] at hflight
      cases hflight
  constructor
  case started => exact h.started
  case pulsed => exact h.pulsed
  case begun =>
    intro c' u hu
    by_cases hc : c' = c
    · obtain rfl : Upkeep.ended = u := by simpa [hc] using hu
      exact Nat.zero_le _
    · exact h.begun c' u (by simpa [hc] using hu)
  case idle =>
    intro c' hidle
    have hne : c' ≠ c := by
      rintro rfl
      cases hu : s.upkeep c' with
      | none => exact hidle (by simpa [Leased.atLoop, hu] using hloop)
      | some u => exact hidle (h.running hu)
    simpa [hne] using h.idle c' hidle
  case left => exact fun t p hp => by simpa [Leased.hasLeft, hgone hp] using h.left t p hp
  case past => exact h.past
  case fresh => exact h.fresh
  case round =>
    intro t p b todo q hp hrole hu
    exact h.round t p b todo q hp hrole (by simpa [hgone hp] using hu)
  case scan => exact fun t p hp hrole => by simpa [hgone hp] using h.scan t p hp hrole
  case time => exact fun t p hp => by simpa [Leased.due, hgone hp] using h.time t p hp
  case phase =>
    intro t p u hp hu
    exact h.phase t p u hp (by simpa [hgone hp] using hu)

/-- A claim of a renewal is sent: what it names is renewed. -/
theorem renewLane (h : Lease pace s) {c : Consumer} {b : ℕ} {lane : Lane} {ids : List StreamId}
    {todo : List (Lane × List StreamId)} (hu : s.upkeep c = some (.renewing b ((lane, ids) :: todo)))
    (hnext : ∀ t p, s.fleet.parties t = some p → t < s.fleet.next) :
    Lease pace { s with
      fleet := s.fleet.renewAll cfg c lane s.now ids
      upkeep := Function.update s.upkeep c (some (.renewing b todo)) } := by
  have hrenewal : Fleet.Renewal s.fleet (s.fleet.renewAll cfg c lane s.now ids) s.now :=
    Fleet.renewal_renewAll c lane s.now ids
  have hline : ∀ entry q, (s.fleet.renewAll cfg c lane s.now ids).Line entry q →
      s.fleet.Line entry q ∨ q.deliveredAt = s.now := hrenewal.line
  have hupkeep : ∀ {c' : Consumer} {v : Upkeep},
      Function.update s.upkeep c (some (.renewing b todo)) c' = some v →
      ∃ v', s.upkeep c' = some v' ∧ v'.since = v.since ∧ v'.offset pace = v.offset pace ∧
        v'.limit pace = v.limit pace := by
    intro c' v hv
    by_cases hc : c' = c
    · obtain rfl : Upkeep.renewing b todo = v := by simpa [hc] using hv
      exact ⟨.renewing b ((lane, ids) :: todo), by rw [hc]; exact hu, rfl, rfl, rfl⟩
    · exact ⟨v, by simpa [hc] using hv, rfl, rfl, rfl⟩
  have hbegun : b ≤ s.now := h.begun c _ hu
  constructor
  case started => exact h.started
  case pulsed => exact h.pulsed
  case begun =>
    intro c' v hv
    obtain ⟨v', hv', hsince, -⟩ := hupkeep hv
    exact hsince ▸ h.begun c' v' hv'
  case idle =>
    intro c' hproc
    rw [hrenewal.procs] at hproc
    have hne : c' ≠ c := by
      rintro rfl
      exact hproc (h.running hu)
    simpa [hne] using h.idle c' hproc
  case left =>
    intro t p hp
    rw [hrenewal.parties] at hp
    by_cases hc : p.consumer = c
    · simp [Leased.hasLeft, hc]
    · simpa [Leased.hasLeft, hc] using h.left t p hp
  case past =>
    intro entry q hq
    rcases hline entry q hq with hold | hnow
    · exact h.past entry q hold
    · exact hnow.le
  case fresh =>
    intro t p q hp hq
    rw [hrenewal.parties] at hp
    rcases hline _ q hq with hold | hnow
    · exact h.fresh t p q hp hold
    · exact ⟨(h.started t).trans hnow.ge, fun _ => (h.pulsed _).trans hnow.ge⟩
  case round =>
    intro t p b' todo' q hp hrole hv hq
    rw [hrenewal.parties] at hp
    rcases hline _ q hq with hold | hnow
    · by_cases hc : p.consumer = c
      · obtain ⟨rfl, rfl⟩ : b = b' ∧ todo = todo' := by simpa [hc] using hv
        rcases h.round t p b _ q hp hrole (hc ▸ hu) hold with hb | ⟨ids', hmem, hid⟩
        · exact .inl hb
        · rcases List.mem_cons.mp hmem with heq | htail
          · obtain ⟨hlane, rfl⟩ := Prod.mk.inj heq
            refine .inl (hbegun.trans (Fleet.line_renewAll hid ?_ h.past (hlane ▸ hq)).ge)
            exact Fleet.anyParty_eq_true.mpr ⟨t, p, hnext t p hp, hp,
              decide_eq_true ⟨hc, hrole, rfl⟩⟩
          · exact .inr ⟨ids', htail, hid⟩
      · exact h.round t p b' todo' q hp hrole (by simpa [hc] using hv) hold
    · refine .inl (hnow ▸ ?_)
      obtain ⟨v', hv', hsince, -⟩ := hupkeep hv
      have hb := h.begun _ v' hv'
      rwa [hsince] at hb
  case scan =>
    intro t p hp hrole
    rw [hrenewal.parties] at hp
    obtain ⟨b', hu', hb'⟩ := h.scan t p hp hrole
    have hne : p.consumer ≠ c := by
      rintro rfl
      rw [hu] at hu'
      cases hu'
    exact ⟨b', by simpa [hne] using hu', hb'⟩
  case time =>
    intro t p hp
    rw [hrenewal.parties] at hp
    have htime := h.time t p hp
    by_cases hc : p.consumer = c
    · simp only [Leased.due, hc, hu] at htime
      simp only [Leased.due, hc, Function.update_self]
      exact htime
    · simpa [Leased.due, hc] using htime
  case phase =>
    intro t p v hp hv
    rw [hrenewal.parties] at hp
    obtain ⟨v', hv', hsince, hoffset, -⟩ := hupkeep hv
    have hphase := h.phase t p v' hp hv'
    rw [hsince, hoffset] at hphase
    exact hphase

/-! ### A step of the fleet

A party that was alive before has its worker's maintenance task as it was; one that has just taken
its entry starts now. -/

section Act
variable {l : OcrOrchestrator.Label} {f' : Fleet}

theorem upkeep_after {c : Consumer} (hlive : l ≠ .crash c) :
    (s.after l f').upkeep c = s.upkeep c := by
  cases l with
  | crash c' =>
    have hne : c ≠ c' := fun hc => hlive (by rw [hc])
    simp [Leased.after, hne]
  | _ => rfl

/-- A task that is there after the step was there before. -/
theorem upkeep_of_after {c : Consumer} {u : Upkeep} (h : (s.after l f').upkeep c = some u) :
    s.upkeep c = some u := by
  by_cases hlive : l = .crash c
  · subst hlive
    simp [Leased.after] at h
  · rwa [upkeep_after hlive] at h

theorem hasLeft_after {c : Consumer} (hlive : l ≠ .crash c) :
    (s.after l f').hasLeft c = s.hasLeft c := by
  rw [Leased.hasLeft, upkeep_after hlive, Leased.hasLeft]

theorem since_stayed {t : ℕ} {q : Party}
    (hnext : ∀ t p, s.fleet.parties t = some p → t < s.fleet.next)
    (hq : s.fleet.parties t = some q) : (s.after l f').since t = s.since t :=
  Function.update_of_ne (hnext _ _ hq).ne _ _

theorem since_took {t : ℕ} (ht : t = s.fleet.next) : (s.after l f').since t = s.now := by
  subst ht
  exact Function.update_self ..

variable (h : Lease pace s) {t : ℕ} {p : Party} (halive : Fleet.Alive s.fleet l f' s.now t p)

/-- Only a worker that runs, and has not crashed, has a maintenance task. -/
theorem idle_after (h : Lease pace s) (hfires : Fires cfg s.fleet l f') {c : Consumer}
    (hproc : f'.procs c ≠ some .running) : (s.after l f').upkeep c = none := by
  by_cases hlive : l = .crash c
  · subst hlive
    simp [Leased.after]
  · refine (upkeep_after hlive).trans (h.idle c fun hrun => hproc ?_)
    cases hfires with
    | start c' hnew =>
      have hne : c ≠ c' := by
        rintro rfl
        rw [hnew] at hrun
        cases hrun
      simpa [hne] using hrun
    | ready c' =>
      by_cases hc : c = c'
      · simp [hc]
      · simpa [hc] using hrun
    | crash c' =>
      have hne : c ≠ c' := fun hc => hlive (by rw [hc])
      simpa [hne] using hrun
    | _ => exact hrun

include h halive

/-- Whoever takes an entry has a worker whose maintenance task has not ended. -/
theorem left_after (henabled : s.enabled l = true) (hattended : s.attended (.act l) = true) :
    (s.after l f').hasLeft p.consumer = false := by
  cases halive with
  | stayed hq hcons hrole hentry hlive =>
    rw [hasLeft_after hlive, hcons]
    exact h.left t _ hq
  | took ht hlive hnew hread hreap =>
    rw [hasLeft_after hlive]
    cases hrole : p.role with
    | handler =>
      rcases hread hrole with hstarting | ⟨lane, rfl⟩
      · rw [Leased.hasLeft, h.idle p.consumer (by simp [hstarting])]
      · simpa [Leased.attended] using hattended
    | reaper =>
      obtain ⟨lane, id, rfl⟩ := hreap hrole
      cases hu : s.upkeep p.consumer with
      | none => rw [Leased.hasLeft, hu]
      | some u =>
        cases u with
        | ended => simp [Leased.enabled, hu] at henabled
        | _ => rw [Leased.hasLeft, hu]

theorem scan_after (hnext : ∀ t p, s.fleet.parties t = some p → t < s.fleet.next)
    (henabled : s.enabled l = true) (hrole : p.role = .reaper) :
    ∃ b, (s.after l f').upkeep p.consumer = some (.working b) ∧ b ≤ (s.after l f').since t := by
  cases halive with
  | stayed hq hcons hrole' hentry hlive =>
    rw [upkeep_after hlive, since_stayed hnext hq, hcons]
    exact h.scan t _ hq (hrole' ▸ hrole)
  | took ht hlive hnew hread hreap =>
    obtain ⟨lane, id, rfl⟩ := hreap hrole
    rw [upkeep_after hlive, since_took ht]
    simp only [Leased.enabled] at henabled
    split at henabled
    · rename_i b hu
      exact ⟨b, hu, h.begun _ _ hu⟩
    · cases henabled

theorem fresh_after (hnext : ∀ t p, s.fleet.parties t = some p → t < s.fleet.next) {q : Pending}
    (hline : s.fleet.Line p.entry q ∨ q.deliveredAt = s.now) (hq : f'.Line p.entry q) :
    (s.after l f').since t ≤ q.deliveredAt ∧
      (p.role = .handler → s.pulse p.consumer ≤ q.deliveredAt) := by
  cases halive with
  | stayed hq' hcons hrole hentry hlive =>
    rw [since_stayed hnext hq', hcons]
    rcases hline with hold | hnow
    · rw [hrole]
      exact h.fresh t _ q hq' (hentry ▸ hold)
    · exact ⟨(h.started t).trans hnow.ge, fun _ => (h.pulsed _).trans hnow.ge⟩
  | took ht hlive hnew hread hreap =>
    rw [since_took ht, hnew q hq]
    exact ⟨le_refl _, fun _ => h.pulsed _⟩

theorem round_after {q : Pending} {b : ℕ} {todo : List (Lane × List StreamId)}
    (hrole : p.role = .handler) (hu : (s.after l f').upkeep p.consumer = some (.renewing b todo))
    (hline : s.fleet.Line p.entry q ∨ q.deliveredAt = s.now) (hq : f'.Line p.entry q) :
    b ≤ q.deliveredAt ∨ ∃ ids, (p.entry.1, ids) ∈ todo ∧ p.entry.2 ∈ ids := by
  have hold := upkeep_of_after hu
  have hbegun : b ≤ s.now := h.begun _ _ hold
  cases halive with
  | stayed hq' hcons hrole' hentry hlive =>
    rcases hline with hsame | hnow
    · rw [hentry]
      exact h.round t _ b todo q hq' (hrole' ▸ hrole) (hcons ▸ hold) (hentry ▸ hsame)
    · exact .inl (hnow ▸ hbegun)
  | took ht hlive hnew hread hreap => exact .inl (hnew q hq ▸ hbegun)

theorem time_after (hnext : ∀ t p, s.fleet.parties t = some p → t < s.fleet.next) :
    s.now ≤ max ((s.after l f').since t) ((s.after l f').due pace t p) := by
  cases halive with
  | stayed hq hcons hrole hentry hlive =>
    have htime := h.time t _ hq
    rw [Leased.due] at htime
    rw [Leased.due, upkeep_after hlive, since_stayed hnext hq, hcons]
    exact htime
  | took ht hlive hnew hread hreap =>
    rw [since_took ht]
    exact le_max_left _ _

theorem phase_after (hnext : ∀ t p, s.fleet.parties t = some p → t < s.fleet.next) {u : Upkeep}
    (hu : (s.after l f').upkeep p.consumer = some u) :
    u.since ≤ (s.after l f').base t p + u.offset pace := by
  have hold := upkeep_of_after hu
  cases halive with
  | stayed hq hcons hrole hentry hlive =>
    have hphase := h.phase t _ u hq (hcons ▸ hold)
    rw [Leased.base] at hphase
    rw [Leased.base, since_stayed hnext hq, hcons]
    exact hphase
  | took ht hlive hnew hread hreap =>
    have hbegun := h.begun _ _ hold
    rw [Leased.base, since_took ht]
    omega

end Act

/-- The fleet takes a step. -/
theorem act (h : Lease pace s) {l : OcrOrchestrator.Label} {f' : Fleet}
    (hfires : Fires cfg s.fleet l f') (hat : l.isAt s.now = true) (henabled : s.enabled l = true)
    (hattended : s.attended (.act l) = true) (hsound : ∀ lane, (s.fleet.redis.streams lane).Sound)
    (hnext : ∀ t p, s.fleet.parties t = some p → t < s.fleet.next) :
    Lease pace (s.after l f') := by
  have hline : ∀ {entry q}, f'.Line entry q → s.fleet.Line entry q ∨ q.deliveredAt = s.now :=
    Fleet.line_fires hfires hsound hat
  have halive : ∀ {t p}, f'.parties t = some p → Fleet.Alive s.fleet l f' s.now t p :=
    Fleet.alive_fires hfires hsound hat
  constructor
  case started =>
    intro t
    by_cases ht : t = s.fleet.next
    · exact (since_took ht).le
    · simpa [Leased.after, ht] using h.started t
  case pulsed => exact h.pulsed
  case begun => exact fun c u hu => h.begun c u (upkeep_of_after hu)
  case idle => exact fun c => h.idle_after hfires
  case left => exact fun t p hp => h.left_after (halive hp) henabled hattended
  case past =>
    intro entry q hq
    rcases hline hq with hold | hnow
    · exact h.past entry q hold
    · exact hnow.le
  case fresh => exact fun t p q hp hq => h.fresh_after (halive hp) hnext (hline hq) hq
  case round =>
    exact fun t p b todo q hp hrole hu hq => h.round_after (halive hp) hrole hu (hline hq) hq
  case scan => exact fun t p hp hrole => h.scan_after (halive hp) hnext henabled hrole
  case time => exact fun t p hp => h.time_after (halive hp) hnext
  case phase => exact fun t p u hp hu => h.phase_after (halive hp) hnext hu

end Lease

/-! ## Runs -/

section Runs
variable {cfg : Settings} {interval : ℕ} {pace : Pace} {s : Leased}
variable {allow : Fleet → Label → Bool}

theorem Reach.mono {allow' : Fleet → Label → Bool}
    (hmono : ∀ f l, allow f l = true → allow' f l = true) {f : Fleet} (h : Reach cfg allow f) :
    Reach cfg allow' f := by
  induction h with
  | init => exact .init
  | step _ hallow hstep ih => exact ih.step (hmono _ _ hallow) hstep

/-- A renewal is a run of the fleet. -/
theorem Reach.renewAll {f : Fleet} (hrenew : ∀ f c lane id now, allow f (.renew c lane id now) = true)
    (h : Reach cfg allow f) (c : Consumer) (lane : Lane) (now : ℕ) (ids : List StreamId) :
    Reach cfg allow (f.renewAll cfg c lane now ids) := by
  induction ids generalizing f with
  | nil => exact h
  | cons id ids ih =>
    refine ih ?_
    dsimp only
    cases hstep : f.step cfg (.renew c lane id now) with
    | none => exact h
    | some f' => exact h.step (hrenew f c lane id now) hstep

theorem Reach.books (hstore : ∀ f l, allow f l = true → storeCallsSucceed f l = true) {f : Fleet}
    (h : Reach cfg allow f) : Books f ∧ ∀ t p, f.parties t = some p → t < f.next := by
  obtain ⟨φ, hphased, -, hbooks⟩ := h.invariant (I := fun f _ => Books f) hstore
    (fun _ => Books.empty) (fun _ _ _ _ _ _ _ _ hI _ htick => htick.books hI)
  exact ⟨hbooks, fun t p hp => (hphased t p hp).1⟩

theorem Reach.holders (hstore : ∀ f l, allow f l = true → storeCallsSucceed f l = true) {f : Fleet}
    (h : Reach cfg (fun f l => allow f l && reapsOnlyOrphans f l) f) : Undisturbed f := by
  obtain ⟨φ, -, -, -, hu⟩ := h.invariant (I := fun f _ => Books f ∧ Undisturbed f)
    (fun f l hallow => hstore f l (Bool.and_eq_true_iff.mp hallow).1)
    (fun φ => ⟨Books.empty, Undisturbed.empty⟩)
    (fun f _ l _ _ _ hphased _ hI hallow htick =>
      ⟨htick.books hI.1, htick.undisturbed hphased hI.1 (Bool.and_eq_true_iff.mp hallow).2 hI.2⟩)
  exact hu

/-- An entry that somebody works on cannot be taken. -/
theorem Lease.step_reap (h : Lease pace s) (hpace : pace.total < cfg.reaperMinIdleMs) {t : ℕ}
    {p : Party} (hp : s.fleet.parties t = some p) (c : Consumer) :
    s.fleet.step cfg (.reap c p.entry.1 p.entry.2 s.now) = none := by
  cases hstep : s.fleet.step cfg (.reap c p.entry.1 p.entry.2 s.now) with
  | none => rfl
  | some f' =>
    exfalso
    cases fires_of_step hstep with
    | reap hproc hother hread htask =>
      obtain ⟨q, hline, hidle⟩ := TaskStream.idle_of_xclaim hread
      exact absurd hidle (h.not_idle hpace hp hline).not_ge

/-- So reapers only take entries whose holder is gone. -/
theorem Lease.reapsOnlyOrphans (h : Lease pace s) (hpace : pace.total < cfg.reaperMinIdleMs)
    {l : Label} {f' : Fleet} (hat : l.isAt s.now = true) (hstep : s.fleet.step cfg l = some f') :
    reapsOnlyOrphans s.fleet l = true := by
  cases l with
  | reap c lane id now =>
    obtain rfl : now = s.now := by simpa [Label.isAt] using hat
    rw [OcrOrchestrator.reapsOnlyOrphans, Bool.not_eq_true', Bool.eq_false_iff]
    intro hlive
    obtain ⟨t, p, -, hp, hentry⟩ := Fleet.anyParty_eq_true.mp hlive
    have hnone := h.step_reap hpace hp c
    rw [of_decide_eq_true hentry, hstep] at hnone
    cases hnone
  | _ => rfl

/-- **A run that keeps time** is a run of the fleet in which reapers only take orphans. -/
theorem reach_of_prompt (allow : Fleet → Label → Bool) (hpace : pace.total < cfg.reaperMinIdleMs)
    (hstore : ∀ f l, allow f l = true → storeCallsSucceed f l = true)
    (hrenew : ∀ f c lane id now, allow f (.renew c lane id now) = true)
    (h : (Leased.system cfg interval).Reach
      (fun s l => s.prompt pace l && s.attended l && s.fleetOnly allow l) s) :
    Reach cfg (fun f l => allow f l && reapsOnlyOrphans f l) s.fleet ∧
      Lease pace s := by
  refine @System.Reach.invariant _ _ _ _ (fun s => Reach cfg
    (fun f l => allow f l && reapsOnlyOrphans f l) s.fleet ∧ Lease pace s)
    ⟨.init, .empty pace⟩ ?_ _ h
  rintro s l s' ⟨hreach, hlease⟩ hallow hstep
  simp only [Bool.and_eq_true] at hallow
  obtain ⟨⟨hprompt, hattended⟩, hfleet⟩ := hallow
  obtain ⟨hbooks, hnext⟩ := hreach.books fun f l hl => hstore f l (Bool.and_eq_true_iff.mp hl).1
  cases l with
  | tick ms =>
    obtain rfl := Option.some.inj hstep
    exact ⟨hreach, hlease.tick hprompt hnext⟩
  | act l =>
    simp only [Leased.system, Leased.step] at hstep
    split at hstep
    next hcond =>
      obtain ⟨hat, henabled⟩ := Bool.and_eq_true_iff.mp hcond
      obtain ⟨f', hf', rfl⟩ := Option.map_eq_some_iff.mp hstep
      have horphans := hlease.reapsOnlyOrphans hpace hat hf'
      exact ⟨hreach.step (Bool.and_eq_true_iff.mpr ⟨hfleet, horphans⟩) hf',
        hlease.act (fires_of_step hf') hat henabled hattended hbooks.sound hnext⟩
    next => cases hstep
  | wake c =>
    simp only [Leased.system, Leased.step] at hstep
    split at hstep
    next b hu =>
      split at hstep
      next =>
        obtain rfl := Option.some.inj hstep
        exact ⟨hreach, hlease.wake hu hnext⟩
      next => cases hstep
    next => cases hstep
  | renewLane c =>
    simp only [Leased.system, Leased.step] at hstep
    split at hstep
    next b lane ids todo hu =>
      obtain rfl := Option.some.inj hstep
      exact ⟨hreach.renewAll (fun f c lane id now => by simp [hrenew, reapsOnlyOrphans]) c lane _ ids,
        hlease.renewLane hu hnext⟩
    next => cases hstep
  | renewed c =>
    simp only [Leased.system, Leased.step] at hstep
    split at hstep
    next b hu =>
      obtain rfl := Option.some.inj hstep
      exact ⟨hreach, hlease.renewed hu⟩
    next => cases hstep
  | requestStop c =>
    simp only [Leased.system, Leased.step] at hstep
    split at hstep
    next =>
      obtain rfl := Option.some.inj hstep
      exact ⟨hreach, hlease.requestStop⟩
    next => cases hstep
  | sleep c =>
    simp only [Leased.system, Leased.step] at hstep
    split at hstep
    next hloop =>
      obtain rfl := Option.some.inj hstep
      exact ⟨hreach, hlease.sleep hnext hloop⟩
    next => cases hstep
  | leave c =>
    simp only [Leased.system, Leased.step] at hstep
    split at hstep
    next hcond =>
      simp only [Bool.and_eq_true, Bool.not_eq_true'] at hcond
      obtain rfl := Option.some.inj hstep
      exact ⟨hreach, hlease.leave hnext hcond.1.1 hcond.2⟩
    next => cases hstep

/-- **Nobody alive is evicted** if every worker keeps time and none is delivered an entry after its
maintenance task has ended: who works on an entry took it last, holds it in the Pending Entries
List, and no scan can take it now. -/
theorem lease_holds (hpace : pace.total < cfg.reaperMinIdleMs)
    (h : (Leased.system cfg interval).Reach
      (fun s l => s.prompt pace l && s.attended l && s.fleetOnly storeCallsSucceed l) s)
    {t : ℕ} {p : Party} (hp : s.fleet.parties t = some p) :
    s.fleet.taker p.entry = some t ∧
      (∀ q, (s.fleet.redis.streams p.entry.1).owner? p.entry.2 = some q →
        q.consumer = p.consumer) ∧
      ∀ c, s.fleet.step cfg (.reap c p.entry.1 p.entry.2 s.now) = none := by
  obtain ⟨hreach, hlease⟩ := reach_of_prompt storeCallsSucceed hpace
    (fun _ _ hl => hl) (fun _ _ _ _ _ => rfl) h
  have hu := hreach.holders fun _ _ hl => hl
  exact ⟨hu.holds t p hp, fun q hq => hu.owner t p q hp hq, hlease.step_reap hpace hp⟩

/-- **Nothing is dropped** if every worker keeps time, none is delivered an entry after its
maintenance task has ended, and no refused final attempt rolls back a VLM claim. -/
theorem zeroDrop_of_prompt (hpace : pace.total < cfg.reaperMinIdleMs)
    (h : (Leased.system cfg interval).Reach (fun s l => s.prompt pace l && s.attended l &&
      s.fleetOnly (fun f l => storeCallsSucceed f l && sparesVlmClaims f l) l) s) :
    s.fleet.ZeroDrop := by
  obtain ⟨hreach, -⟩ := reach_of_prompt
    (fun f l => storeCallsSucceed f l && sparesVlmClaims f l) hpace
    (fun _ _ hl => (Bool.and_eq_true_iff.mp hl).1) (fun _ _ _ _ _ => rfl) h
  have hspared : Reach cfg
      (fun f l => storeCallsSucceed f l && reapsOnlyOrphans f l && sparesVlmClaims f l) s.fleet :=
    hreach.mono fun f l hl => by
      simp only [Bool.and_eq_true] at hl ⊢
      exact ⟨⟨hl.1.1, hl.2⟩, hl.1.2⟩
  obtain ⟨φ, told, token, hheld⟩ := hspared.held_of_orphans
  exact hheld.zeroDrop

end Runs

/-! ## A page that takes long

One worker has taken a page and waits for the model, longer than the reapers' idle time. -/

/-- An iteration of the maintenance task, one second for each part but the sleep. -/
def Leased.iteration (c : Consumer) (lanes : ℕ) : List Leased.Label :=
  [.sleep c, .tick 5000, .wake c, .tick 1000] ++ List.replicate lanes (.renewLane c) ++
  [.renewed c, .tick 1000]

/-- A worker takes the page and is asked to stop; its maintenance task goes on.  A second one
stops and ends its task, and six iterations later a third gets to scan. -/
def Leased.longPage : List Leased.Label :=
  [.tick 1000, .act (.initJob 0 1 1000), .act (.enqueue ⟨0, 0⟩ 1000 "t"), .act (.start 1),
    .act (.ready 1), .act (.deliver 1 .lead 1000), .requestStop 1, .act (.start 2),
    .act (.ready 2), .requestStop 2, .leave 2] ++
  (List.replicate 6 (Leased.iteration 1 1)).flatten ++
  [.sleep 1, .act (.start 3), .act (.ready 3), .sleep 3, .tick 5000, .wake 3, .renewed 3]

/-- A renewal at most every 28 seconds. -/
def Pace.usual : Pace := ⟨5000, 6000, 5000, 12000⟩

/-- The first party is alive, started long ago, and another worker may scan. -/
def Leased.isLong (s : Leased) : Bool :=
  (s.fleet.parties 0).isSome && decide (s.since 0 + 30000 < s.now) &&
    s.enabled (.reap 3 .lead ⟨1000, 0⟩ s.now) && s.fleet.enqueued ⟨0, 0⟩

theorem lease_holds_longPage : ∃ (s : Leased) (p : Party), s.isLong = true ∧ s.fleet.parties 0 = some p ∧
    s.fleet.taker p.entry = some 0 ∧
    s.fleet.step {} (.reap 3 p.entry.1 p.entry.2 s.now) = none := by
  obtain ⟨s, hs, hq⟩ := (Leased.system {} 5000).exists_of_runAll
    (fun s l => s.prompt Pace.usual l && s.attended l && s.fleetOnly storeCallsSucceed l)
    Leased.isLong Leased.longPage (by decide +kernel)
  have hq' := hq
  simp only [Leased.isLong, Bool.and_eq_true] at hq'
  obtain ⟨p, hp⟩ := Option.isSome_iff_exists.mp hq'.1.1.1
  obtain ⟨htaker, -, hreap⟩ := lease_holds (by decide +kernel) hs hp
  exact ⟨s, p, hq, hp, htaker, hreap 3⟩

theorem zeroDrop_longPage : ∃ s : Leased, s.isLong = true ∧ s.fleet.ZeroDrop := by
  obtain ⟨s, hs, hq⟩ := (Leased.system {} 5000).exists_of_runAll
    (fun s l => s.prompt Pace.usual l && s.attended l &&
      s.fleetOnly (fun f l => storeCallsSucceed f l && sparesVlmClaims f l) l) Leased.isLong
    Leased.longPage (by decide +kernel)
  exact ⟨s, hq, zeroDrop_of_prompt (by decide +kernel) hs⟩

/-- An idle worker is asked to stop and its maintenance task ends before its read brings the page;
half a minute later another one takes it away. -/
def Leased.lateEntry : List Leased.Label :=
  [.tick 1000, .act (.start 1), .act (.ready 1), .requestStop 1, .leave 1,
    .act (.initJob 0 1 1000), .act (.enqueue ⟨0, 0⟩ 1000 "t"), .act (.deliver 1 .lead 1000),
    .act (.start 2), .act (.ready 2)] ++
  (List.replicate 5 (Leased.iteration 2 0)).flatten ++
  [.act (.reap 2 .lead ⟨1000, 0⟩ 36000)]

example : (((Leased.system {} 5000).runAll
    (fun s l => s.prompt Pace.usual l && s.fleetOnly storeCallsSucceed l) Leased.empty
    Leased.lateEntry).any fun s =>
      (s.fleet.parties 0).any fun p => decide (s.fleet.taker p.entry = some 1)) = true := by
  decide +kernel

end OcrOrchestrator
