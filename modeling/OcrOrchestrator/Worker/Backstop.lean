import OcrOrchestrator.Worker.Handler
import OcrOrchestrator.Lib.System
import Mathlib.Tactic.Linarith
import Mathlib.Tactic.Positivity

/-!
# The requeue ceiling and the age of a page

A page that meets a saturated endpoint goes back to the queue until its age reaches one of
two thresholds.  The number of requeues is bounded too, by a ceiling derived from the smaller
threshold and the pause that a slot takes after a saturation, so that age is what ends the
bouncing and the ceiling only catches a loop that runs away.

The pause is taken by the slot and not by the page: the replacement is on the stream before
the slot begins to sleep, and another slot may take it at once.  This module follows the
slots, the lanes and the clock.  Every requeue here is one after a saturation; an entry that
is settled in any other way is acknowledged.

## Main definitions

* `Slot`, `Backstop`, `Backstop.step` — slots, lanes and a clock.
* `Backstop.AgeBinds` — the count only decides where the age does.
* `Backstop.spaced` — a requeued entry waits its share of the age budget on the stream.
-/

namespace OcrOrchestrator

open Lib

namespace Settings

/-- The age at which a page stops holding out for full fidelity. -/
def ageBudgetS (cfg : Settings) : ℚ := min cfg.degradeAfterS cfg.pageDeadlineS

/-- `per_requeue_s`: how far apart the derivation of the ceiling takes two requeues to be. -/
def perRequeueS (cfg : Settings) : ℚ := max cfg.saturationPauseS (1 / 20)

/-- The pause before a slot is freed after a saturation: the projected time to the next free
slot, if there is one, but never more than the configured pause. -/
def pauseS (cfg : Settings) (retryAfterS : ℚ) : ℚ :=
  min (if retryAfterS = 0 then cfg.saturationPauseS else retryAfterS) cfg.saturationPauseS

end Settings

/-- One of the places of a worker's semaphore. -/
inductive Slot where
  | idle
  | handling (task : PageTask) (deliveredAt : ℕ) (final : Bool)
  | pausing (untilMs : ℚ)

/-- The slots of all workers over one Redis, and the clock in epoch milliseconds. -/
structure Backstop (k : ℕ) where
  redis : Redis
  slots : Fin k → Slot
  now : ℕ

namespace Backstop

/-- What can happen next. -/
inductive Label (k : ℕ) where
  | tick (ms : ℕ)
  | enqueue (key : PageKey) (traceId : String)
  | deliver (i : Fin k) (lane : Lane)
  | saturate (i : Fin k) (retryAfterS : ℚ)
  | settle (i : Fin k)
  | wake (i : Fin k)

variable {k : ℕ}

/-- The epoch is long past. -/
def start : Backstop k := ⟨Redis.empty, fun _ => .idle, 1⟩

/-- Calls that answer at this time. -/
def oracle (now : ℕ) : Oracle := ⟨now, .null, 0, none⟩

/-- Run a piece of a handler at the present time. -/
def perform (cfg : Settings) (s : Backstop k) (p : Py Unit) : Redis :=
  (p.eval (Cmd.exec cfg (oracle s.now)) s.redis).2

/-- Give a slot something else to do. -/
def setSlot (s : Backstop k) (i : Fin k) (slot : Slot) : Backstop k :=
  { s with slots := Function.update s.slots i slot }

/-- The task that a read of one entry returns. -/
def take? (s : Backstop k) (i : Fin k) (lane : Lane) : Option (PageTask × TaskStream) := do
  let (e, stream) ← (s.redis.streams lane).deliverNext i s.now
  let task ← (parse lane e.id e.fields).toOption
  return (task, stream)

/-- One step, `none` if the label is not enabled. -/
def step (cfg : Settings) (s : Backstop k) : Label k → Option (Backstop k)
  | .tick ms => some { s with now := s.now + ms }
  | .enqueue key traceId =>
      let lane := enqueueLane key
      let stream := ((s.redis.streams lane).xadd s.now (enqueueFields key s.now traceId)).2
      some { s with redis := s.redis.setStream lane stream }
  | .deliver i lane =>
      match s.slots i with
      | .idle => do
          let (task, stream) ← s.take? i lane
          some ({ s with redis := s.redis.setStream lane stream }.setSlot i
            (.handling task s.now (finalAttempt cfg task s.now)))
      | _ => none
  | .saturate i retryAfterS =>
      match s.slots i with
      | .handling task _ false =>
          -- the replacement is published before the slot sleeps
          let pause := cfg.pauseS retryAfterS
          some ({ s with redis := s.perform cfg (requeue task) }.setSlot i
            (if 0 < pause then .pausing (s.now + pause * 1000) else .idle))
      | _ => none
  | .settle i =>
      match s.slots i with
      | .handling task _ _ => some ({ s with redis := s.perform cfg (ack task) }.setSlot i .idle)
      | _ => none
  | .wake i =>
      match s.slots i with
      | .pausing untilMs => if untilMs ≤ s.now then some (s.setSlot i .idle) else none
      | _ => none

def system (cfg : Settings) : System (Backstop k) (Label k) := ⟨start, step cfg⟩

/-- The count decides nothing that the age does not decide. -/
structure DecidedByAge (cfg : Settings) (task : PageTask) (now : ℕ) (final : Bool) : Prop where
  count : (cfg.effectiveMaxRequeues : ℤ) ≤ task.attempt + 1 →
    cfg.ageBudgetS ≤ task.ageMs now / 1000
  final : final = true →
    cfg.degradeAfterS ≤ task.ageMs now / 1000 ∨ cfg.pageDeadlineS ≤ task.ageMs now / 1000

/-- **The ceiling never binds before the age does**: a delivered task that has reached the
ceiling is as old as the smaller threshold, and a final attempt is final by age. -/
def AgeBinds (cfg : Settings) (s : Backstop k) : Prop :=
  ∀ i task deliveredAt final, s.slots i = .handling task deliveredAt final →
    DecidedByAge cfg task deliveredAt final

/-- A wait of one of the equal parts into which the requeues up to the ceiling divide the age
budget. -/
def sharesBudget (cfg : Settings) (waitedMs : ℤ) : Bool :=
  decide (1000 * cfg.ageBudgetS ≤ (cfg.effectiveMaxRequeues - 1) * waitedMs)

/-- **A requeued entry is not delivered at once**: it has waited its share of the age budget on
the stream. -/
def spaced (cfg : Settings) (s : Backstop k) : Label k → Bool
  | .deliver i lane => (s.take? i lane).all fun (task, _) =>
      decide (task.attempt ≤ 0) || sharesBudget cfg (s.now - task.enqueuedAtMs)
  | _ => true

/-- The assumption that the ceiling is derived from: one requeue of a page in `per_requeue_s`. -/
def oncePerPause (cfg : Settings) (s : Backstop k) : Label k → Bool
  | .deliver i lane => (s.take? i lane).all fun (task, _) =>
      decide (task.attempt ≤ 0) ||
        decide (1000 * cfg.perRequeueS ≤ (s.now - task.enqueuedAtMs : ℤ))
  | _ => true

/-! ## What a step stores -/

section Stored
variable {cfg : Settings} {s : Backstop k} {i j : Fin k} {lane : Lane} {e : Entry}
  {task : PageTask} {stream : TaskStream} {slot : Slot}

/-- Settling an entry stores nothing. -/
theorem mem_entries_ack (h : e ∈ ((s.perform cfg (ack task)).streams lane).entries) :
    e ∈ (s.redis.streams lane).entries := by
  change e ∈ (Function.update (Function.update s.redis.streams task.stream _) task.stream _
    lane).entries at h
  rw [Function.update_idem] at h
  by_cases hlane : lane = task.stream
  · subst hlane
    rw [Function.update_self, TaskStream.mem_xdel_entries] at h
    change e ∈ (Function.update s.redis.streams task.stream _ task.stream).entries ∧ _ at h
    rw [Function.update_self] at h
    exact h.1
  · rwa [Function.update_of_ne hlane] at h

/-- A requeue stores the replacement and nothing else. -/
theorem mem_entries_requeue (h : e ∈ ((s.perform cfg (requeue task)).streams lane).entries) :
    e ∈ (s.redis.streams lane).entries ∨ e.fields = requeueFields task true s.now := by
  let added := s.redis.setStream .main
    ((s.redis.streams .main).xadd s.now (requeueFields task true s.now)).2
  have hadded : e ∈ (added.streams lane).entries :=
    mem_entries_ack (s := { s with redis := added }) h
  rcases Redis.mem_entries_xadd hadded with hold | ⟨-, hnew⟩
  · exact .inl hold
  · exact .inr (by rw [hnew])

/-- A read returns a stored entry and leaves the stream's entries alone. -/
theorem take?_spec (h : s.take? i lane = some (task, stream)) :
    stream.entries = (s.redis.streams lane).entries ∧
      ∃ e ∈ (s.redis.streams lane).entries, parse lane e.id e.fields = .ok task := by
  simp only [take?, Option.bind_eq_bind, Option.bind_eq_some_iff, Option.pure_def,
    Option.some.injEq, Prod.mk.injEq] at h
  obtain ⟨⟨e, stream'⟩, hnext, task', htask, rfl, rfl⟩ := h
  obtain ⟨hmem, -, hentries, -⟩ := TaskStream.deliverNext_spec hnext
  refine ⟨hentries, e, hmem, ?_⟩
  revert htask
  cases parse lane e.id e.fields with
  | error exc => exact fun h => nomatch h
  | ok parsed => exact fun h => congrArg _ (Option.some.inj h)

theorem setSlot_handling {deliveredAt : ℕ} {final : Bool}
    (h : (s.setSlot i slot).slots j = .handling task deliveredAt final) :
    slot = .handling task deliveredAt final ∨ s.slots j = .handling task deliveredAt final := by
  simp only [setSlot] at h
  by_cases hj : j = i
  · subst hj
    rw [Function.update_self] at h
    exact .inl h
  · rw [Function.update_of_ne hj] at h
    exact .inr h

end Stored

/-! ## Attempts take time -/

/-- The page is as old as `n` waits make it. -/
def Aged (cfg : Settings) (task : PageTask) (n now : ℤ) : Prop :=
  n * (1000 * cfg.ageBudgetS) ≤ (cfg.effectiveMaxRequeues - 1) * ((now - task.origin : ℤ) : ℚ)

/-- A stored entry with attempt `a` had waited `a - 1` times when it was written. -/
structure Entered (cfg : Settings) (now : ℕ) (task : PageTask) : Prop where
  origin_pos : 0 < task.origin
  origin_le : task.origin ≤ task.enqueuedAtMs
  enqueued_le : task.enqueuedAtMs ≤ now
  attempt_nonneg : 0 ≤ task.attempt
  aged : 0 < task.attempt → Aged cfg task (task.attempt - 1) task.enqueuedAtMs

/-- A delivered task with attempt `a` had waited `a` times when it was delivered. -/
structure Handled (cfg : Settings) (now : ℕ) (task : PageTask) (deliveredAt : ℕ)
    (final : Bool) : Prop where
  origin_pos : 0 < task.origin
  origin_le : task.origin ≤ deliveredAt
  delivered_le : deliveredAt ≤ now
  attempt_nonneg : 0 ≤ task.attempt
  aged : Aged cfg task task.attempt deliveredAt
  final_eq : final = finalAttempt cfg task deliveredAt

/-- Every page has had the time that its requeues take. -/
structure Paced (cfg : Settings) (s : Backstop k) : Prop where
  now_pos : 0 < s.now
  entries : ∀ lane, ∀ e ∈ (s.redis.streams lane).entries, ∀ task,
    parse lane e.id e.fields = .ok task → Entered cfg s.now task
  slots : ∀ i task deliveredAt final, s.slots i = .handling task deliveredAt final →
    Handled cfg s.now task deliveredAt final

section Ages
variable {cfg : Settings} {s : Backstop k} {i : Fin k} {lane : Lane} {id : StreamId}
  {key : PageKey} {traceId : String} {task task' : PageTask} {stream : TaskStream} {slot : Slot}
  {redis : Redis} {n deliveredAt now now' : ℕ} {final : Bool}

/-- With the default in place the ceiling is at least fifty. -/
theorem fifty_le_effectiveMaxRequeues (hunset : cfg.maxRequeuesSet = false)
    (hdefault : cfg.maxRequeues = 50) : 50 ≤ cfg.effectiveMaxRequeues := by
  simp only [Settings.effectiveMaxRequeues, hunset, hdefault]
  exact le_max_left _ _

theorem ceiling_pos (hunset : cfg.maxRequeuesSet = false) (hdefault : cfg.maxRequeues = 50) :
    (0 : ℚ) < cfg.effectiveMaxRequeues - 1 := by
  have hfifty : (50 : ℚ) ≤ cfg.effectiveMaxRequeues := by
    exact_mod_cast fifty_le_effectiveMaxRequeues hunset hdefault
  linarith

/-- Age only grows. -/
theorem Aged.mono {a t t' : ℤ} (h : Aged cfg task a t)
    (hceil : (0 : ℚ) < cfg.effectiveMaxRequeues - 1) (hle : t ≤ t') : Aged cfg task a t' := by
  have hcast : ((t - task.origin : ℤ) : ℚ) ≤ ((t' - task.origin : ℤ) : ℚ) := by
    exact_mod_cast Int.sub_le_sub_right hle _
  exact h.trans (mul_le_mul_of_nonneg_left hcast hceil.le)

/-- One more wait of a share of the budget. -/
theorem Aged.wait {a t t' : ℤ} (h : Aged cfg task (a - 1) t)
    (hshare : sharesBudget cfg (t' - t) = true) : Aged cfg task a t' := by
  have hshare : 1000 * cfg.ageBudgetS ≤ (cfg.effectiveMaxRequeues - 1) * ((t' - t : ℤ) : ℚ) :=
    of_decide_eq_true hshare
  simp only [Aged] at h ⊢
  push_cast at h hshare ⊢
  linarith

/-- The ceiling's worth of waits uses the age budget up. -/
theorem Aged.budget {a t : ℤ} (h : Aged cfg task a t)
    (hceil : (0 : ℚ) < cfg.effectiveMaxRequeues - 1)
    (hcount : (cfg.effectiveMaxRequeues : ℤ) ≤ a + 1) (hpos : 0 ≤ cfg.ageBudgetS) :
    1000 * cfg.ageBudgetS ≤ ((t - task.origin : ℤ) : ℚ) := by
  have hcount : (cfg.effectiveMaxRequeues : ℚ) - 1 ≤ a := by
    have : ((cfg.effectiveMaxRequeues : ℤ) : ℚ) ≤ ((a + 1 : ℤ) : ℚ) := by exact_mod_cast hcount
    push_cast at this
    linarith
  refine le_of_mul_le_mul_left ?_ hceil
  calc (cfg.effectiveMaxRequeues - 1 : ℚ) * (1000 * cfg.ageBudgetS)
      ≤ a * (1000 * cfg.ageBudgetS) := mul_le_mul_of_nonneg_right hcount (by linarith)
    _ ≤ _ := h

theorem origin_of_pos (h : 0 < task.firstEnqueuedAtMs) :
    task.origin = task.firstEnqueuedAtMs := if_neg h.ne'

/-- A fresh entry has no requeue behind it. -/
theorem Entered.of_enqueue (hpos : 0 < now)
    (h : parse lane id (enqueueFields key now traceId) = .ok task) : Entered cfg now task := by
  have hfirst : task.firstEnqueuedAtMs = now := by rw [← Except.ok.inj h]
  have henqueued : task.enqueuedAtMs = now := by rw [← Except.ok.inj h]
  have hattempt : task.attempt = 0 := by rw [← Except.ok.inj h]
  have horigin : task.origin = now := by
    rw [origin_of_pos (by rw [hfirst]; exact_mod_cast hpos), hfirst]
  refine ⟨?_, ?_, henqueued.le, hattempt.ge, fun h => absurd hattempt h.ne'⟩
  · rw [horigin]
    exact_mod_cast hpos
  · rw [horigin, henqueued]

/-- A requeue keeps the origin, and the attempt it adds has been waited for. -/
theorem Entered.of_requeue (h : Handled cfg now task deliveredAt final)
    (hceil : (0 : ℚ) < cfg.effectiveMaxRequeues - 1)
    (hparse : parse lane id (requeueFields task true now) = .ok task') :
    Entered cfg now task' := by
  have hfirst : task'.firstEnqueuedAtMs = task.origin := by rw [← Except.ok.inj hparse]
  have henqueued : task'.enqueuedAtMs = now := by rw [← Except.ok.inj hparse]
  have hattempt : task'.attempt = task.attempt + 1 := by
    rw [← Except.ok.inj hparse]
    rfl
  have horigin : task'.origin = task.origin := by
    rw [origin_of_pos (hfirst ▸ h.origin_pos), hfirst]
  have hdelivered : (deliveredAt : ℤ) ≤ now := by exact_mod_cast h.delivered_le
  refine ⟨horigin ▸ h.origin_pos, ?_, henqueued.le, ?_, fun _ => ?_⟩
  · rw [horigin, henqueued]
    exact h.origin_le.trans hdelivered
  · rw [hattempt]
    exact Int.add_nonneg h.attempt_nonneg Int.one_nonneg
  · rw [Aged, horigin, hattempt, henqueued, Int.add_sub_cancel]
    exact h.aged.mono hceil hdelivered

/-- A delivery after a wait completes the attempt. -/
theorem Handled.of_entered (h : Entered cfg now task)
    (hspaced : (decide (task.attempt ≤ 0) || sharesBudget cfg (now - task.enqueuedAtMs)) = true)
    (hceil : (0 : ℚ) < cfg.effectiveMaxRequeues - 1) :
    Handled cfg now task now (finalAttempt cfg task now) := by
  have hle : task.origin ≤ now := h.origin_le.trans h.enqueued_le
  refine ⟨h.origin_pos, hle, le_rfl, h.attempt_nonneg, ?_, rfl⟩
  by_cases hfresh : task.attempt ≤ 0
  · have hzero : task.attempt = 0 := le_antisymm hfresh h.attempt_nonneg
    have hnonneg : (0 : ℚ) ≤ ((now - task.origin : ℤ) : ℚ) := by
      exact_mod_cast Int.sub_nonneg_of_le hle
    simpa [Aged, hzero] using mul_nonneg hceil.le hnonneg
  · simp only [hfresh, decide_false, Bool.false_or] at hspaced
    exact (h.aged (not_le.mp hfresh)).wait hspaced

/-- What the waits amount to: age decides. -/
theorem Handled.decidedByAge (h : Handled cfg now task deliveredAt final)
    (hceil : (0 : ℚ) < cfg.effectiveMaxRequeues - 1) :
    DecidedByAge cfg task deliveredAt final := by
  have hage : (((deliveredAt : ℤ) - task.origin : ℤ) : ℚ) ≤ task.ageMs deliveredAt := by
    exact_mod_cast le_max_right _ _
  have hnonneg : (0 : ℚ) ≤ task.ageMs deliveredAt := by exact_mod_cast le_max_left _ _
  have hcount : (cfg.effectiveMaxRequeues : ℤ) ≤ task.attempt + 1 →
      cfg.ageBudgetS ≤ task.ageMs deliveredAt / 1000 := by
    intro hcount
    rw [le_div_iff₀ (by norm_num)]
    rcases le_total 0 cfg.ageBudgetS with hpos | hneg
    · have := h.aged.budget hceil hcount hpos
      linarith
    · linarith
  refine ⟨hcount, fun hfinal => ?_⟩
  have hdecision := h.final_eq ▸ hfinal
  simp only [finalAttempt, Bool.or_eq_true, decide_eq_true_eq] at hdecision
  rcases hdecision with hage' | hattempt
  · exact hage'
  · exact min_le_iff.mp (hcount hattempt)

end Ages

/-! ## Every step keeps the pace -/

section Runs
variable {cfg : Settings} {s s' : Backstop k} {i : Fin k} {lane : Lane} {task : PageTask}
  {slot : Slot} {redis : Redis} {l : Label k}

theorem paced_start : Paced cfg (start : Backstop k) where
  now_pos := Nat.one_pos
  entries _ _ he := absurd he List.not_mem_nil
  slots _ _ _ _ h := nomatch h

theorem Paced.tick (h : Paced cfg s) (ms : ℕ) : Paced cfg { s with now := s.now + ms } where
  now_pos := Nat.add_pos_left h.now_pos ms
  entries lane e he task hparse := by
    have hentered := h.entries lane e he task hparse
    refine { hentered with enqueued_le := hentered.enqueued_le.trans ?_ }
    exact_mod_cast Nat.le_add_right s.now ms
  slots i task deliveredAt final hslot := by
    have hhandled := h.slots i task deliveredAt final hslot
    exact { hhandled with delivered_le := hhandled.delivered_le.trans (Nat.le_add_right _ _) }

/-- A step that keeps the clock keeps the pace if what it stores and what it starts do. -/
theorem Paced.act (h : Paced cfg s)
    (hentries : ∀ lane, ∀ e ∈ (redis.streams lane).entries,
      e ∈ (s.redis.streams lane).entries ∨
        ∀ task, parse lane e.id e.fields = .ok task → Entered cfg s.now task)
    (hslot : ∀ task deliveredAt final, slot = .handling task deliveredAt final →
      Handled cfg s.now task deliveredAt final) :
    Paced cfg ({ s with redis }.setSlot i slot) where
  now_pos := h.now_pos
  entries lane e he := (hentries lane e he).elim (h.entries lane e) id
  slots j task deliveredAt final hj :=
    (setSlot_handling hj).elim (hslot task deliveredAt final) (h.slots j task deliveredAt final)

/-- Storing an entry in a lane and starting nothing. -/
theorem Paced.enqueue (h : Paced cfg s) (key : PageKey) (traceId : String) :
    Paced cfg { s with
      redis := s.redis.setStream (enqueueLane key)
        ((s.redis.streams (enqueueLane key)).xadd s.now (enqueueFields key s.now traceId)).2 } where
  now_pos := h.now_pos
  entries lane e he task hparse := by
    rcases Redis.mem_entries_xadd he with hold | ⟨-, rfl⟩
    · exact h.entries lane e hold task hparse
    · exact .of_enqueue h.now_pos hparse
  slots := h.slots

theorem Paced.step (h : Paced cfg s) (hceil : (0 : ℚ) < cfg.effectiveMaxRequeues - 1)
    (hspaced : spaced cfg s l = true) (hstep : step cfg s l = some s') : Paced cfg s' := by
  cases l with
  | tick ms =>
    obtain rfl := Option.some.inj hstep
    exact h.tick ms
  | enqueue key traceId =>
    obtain rfl := Option.some.inj hstep
    exact h.enqueue key traceId
  | deliver i lane =>
    simp only [Backstop.step] at hstep
    split at hstep
    · simp only [Option.bind_eq_bind, Option.bind_eq_some_iff] at hstep
      obtain ⟨⟨task, stream⟩, htake, hstep⟩ := hstep
      obtain rfl := Option.some.inj hstep
      obtain ⟨hentries, e, hmem, hparse⟩ := take?_spec htake
      simp only [spaced, htake, Option.all_some] at hspaced
      refine h.act (fun lane' e' he' => .inl ?_) ?_
      · rcases Redis.mem_entries_setStream he' with hold | ⟨rfl, hread⟩
        · exact hold
        · rwa [hentries] at hread
      intro task' deliveredAt final heq
      obtain ⟨rfl, rfl, rfl⟩ := Slot.handling.inj heq
      exact .of_entered (h.entries lane e hmem task hparse) hspaced hceil
    · cases hstep
  | saturate i retryAfterS =>
    simp only [Backstop.step] at hstep
    split at hstep
    · rename_i task deliveredAt hslot
      obtain rfl := Option.some.inj hstep
      have hhandled := h.slots i task deliveredAt false hslot
      refine h.act (fun lane e he => ?_) ?_
      · rcases mem_entries_requeue he with hold | hnew
        · exact .inl hold
        · exact .inr fun task' hparse => .of_requeue hhandled hceil (hnew ▸ hparse)
      · intro task' deliveredAt' final heq
        split at heq <;> cases heq
    · cases hstep
  | settle i =>
    simp only [Backstop.step] at hstep
    split at hstep
    · obtain rfl := Option.some.inj hstep
      exact h.act (fun lane e he => .inl (mem_entries_ack he)) (fun _ _ _ heq => nomatch heq)
    · cases hstep
  | wake i =>
    simp only [Backstop.step] at hstep
    split at hstep
    · split at hstep
      · obtain rfl := Option.some.inj hstep
        exact h.act (fun lane e he => .inl he) (fun _ _ _ heq => nomatch heq)
      · cases hstep
    · cases hstep

/-- Along a run of waits every page has had the time that its requeues take. -/
theorem paced_of_reach (hceil : (0 : ℚ) < cfg.effectiveMaxRequeues - 1)
    (hreach : (system cfg).Reach (spaced cfg) s) : Paced cfg s :=
  hreach.invariant paced_start fun _ _ _ h hspaced hstep => h.step hceil hspaced hstep

/-- **Where every requeued entry waits for its share of the age budget, age is what binds**:
whatever the thresholds and the pause, with any number of slots and any projected waits, the
ceiling never decides before the age does. -/
theorem ageBinds_of_reach (cfg : Settings) (hunset : cfg.maxRequeuesSet = false)
    (hdefault : cfg.maxRequeues = 50) (k : ℕ) (s : Backstop k)
    (hreach : (system cfg).Reach (spaced cfg) s) : AgeBinds cfg s := by
  have hceil := ceiling_pos hunset hdefault
  intro i task deliveredAt final hslot
  exact ((paced_of_reach hceil hreach).slots i task deliveredAt final hslot).decidedByAge hceil

/-- One requeue per pause leaves every requeued entry its share: the ceiling is doubled for
headroom, and never below fifty. -/
theorem sharesBudget_of_perRequeue {waitedMs : ℤ} (hunset : cfg.maxRequeuesSet = false)
    (hdefault : cfg.maxRequeues = 50) (hwait : 1000 * cfg.perRequeueS ≤ waitedMs) :
    sharesBudget cfg waitedMs = true := by
  have hceil := ceiling_pos hunset hdefault
  have hper : 0 < cfg.perRequeueS := lt_of_lt_of_le (by norm_num) (le_max_right _ _)
  have hbudget : cfg.ageBudgetS ≤ (cfg.effectiveMaxRequeues - 1) * cfg.perRequeueS := by
    rw [← div_le_iff₀ hper]
    have hfifty := fifty_le_effectiveMaxRequeues hunset hdefault
    have hderived : ⌊cfg.ageBudgetS / cfg.perRequeueS⌋.toNat * 2 ≤ cfg.effectiveMaxRequeues := by
      simp only [Settings.effectiveMaxRequeues, hunset]
      exact le_max_right _ _
    have hfloor : ⌊cfg.ageBudgetS / cfg.perRequeueS⌋ + 1 ≤ (cfg.effectiveMaxRequeues : ℤ) - 1 := by
      omega
    have hlt := Int.lt_floor_add_one (cfg.ageBudgetS / cfg.perRequeueS)
    have hcast : ((⌊cfg.ageBudgetS / cfg.perRequeueS⌋ + 1 : ℤ) : ℚ) ≤
        ((cfg.effectiveMaxRequeues - 1 : ℤ) : ℚ) := by exact_mod_cast hfloor
    push_cast at hcast
    linarith
  refine decide_eq_true ?_
  calc 1000 * cfg.ageBudgetS
      ≤ (cfg.effectiveMaxRequeues - 1) * (1000 * cfg.perRequeueS) := by linarith
    _ ≤ (cfg.effectiveMaxRequeues - 1) * waitedMs := mul_le_mul_of_nonneg_left hwait hceil.le

/-- What the derivation of the ceiling takes for granted is enough. -/
theorem spaced_of_oncePerPause (hunset : cfg.maxRequeuesSet = false)
    (hdefault : cfg.maxRequeues = 50) (h : oncePerPause cfg s l = true) :
    spaced cfg s l = true := by
  cases l with
  | deliver i lane =>
    simp only [oncePerPause, spaced, Option.all_eq_true, Bool.or_eq_true, decide_eq_true_eq] at h ⊢
    intro next hnext
    exact (h next hnext).imp_right (sharesBudget_of_perRequeue hunset hdefault)
  | _ => rfl

end Runs

/-- A run with one slot that sleeps out its pause before it takes the page again. -/
theorem ageBinds_paused : ∃ s : Backstop 1, (system {}).Reach (spaced {}) s ∧
    (match s.slots 0 with
      | .handling task _ _ => decide (task.attempt = 1)
      | _ => false) = true ∧ AgeBinds {} s := by
  obtain ⟨s, hreach, hattempt⟩ := System.exists_of_runAll (system {}) (spaced {})
    (fun s : Backstop 1 => match s.slots 0 with
      | .handling task _ _ => decide (task.attempt = 1)
      | _ => false)
    [.enqueue ⟨0, 1⟩ "t", .deliver 0 .main, .saturate 0 1, .tick 500, .wake 0, .deliver 0 .main]
    (by decide +kernel)
  exact ⟨s, hreach, hattempt, ageBinds_of_reach {} rfl rfl 1 s hreach⟩

/-- Full fidelity for ten seconds. -/
def tenSeconds : Settings := { degradeAfterS := 10 }

/-- One slot after the other takes the page and meets a saturated endpoint; all are asleep
when the last one takes it. -/
def bounces : List (Label 50) :=
  .enqueue ⟨0, 1⟩ "t" ::
    ((List.finRange 50).take 49).flatMap (fun i => [.deliver i .main, .saturate i 1]) ++
    [.deliver 49 .main]

/-- **The ceiling binds at age zero**: forty-nine slots requeue the page within the same
millisecond, each of them before it sleeps, and the fiftieth is at its final attempt. -/
theorem not_ageBinds_bounced : ¬ ∀ (cfg : Settings), cfg.maxRequeuesSet = false →
    cfg.maxRequeues = 50 → 0 < cfg.degradeAfterS → 0 < cfg.pageDeadlineS →
    0 < cfg.saturationPauseS → ∀ (k : ℕ) (s : Backstop k),
    (system cfg).Reach System.anyStep s → AgeBinds cfg s := by
  intro hall
  obtain ⟨s, hreach, hfinal⟩ := System.exists_of_runAll (system tenSeconds) System.anyStep
    (fun s : Backstop 50 => match s.slots 49 with
      | .handling task deliveredAt final => final && decide (task.ageMs deliveredAt = 0)
      | _ => false) bounces (by decide +kernel)
  have hbinds := hall tenSeconds rfl rfl (by norm_num [tenSeconds])
    (by norm_num [tenSeconds]) (by norm_num [tenSeconds]) 50 s hreach
  split at hfinal
  · rename_i task deliveredAt final hslot
    simp only [Bool.and_eq_true, decide_eq_true_eq] at hfinal
    have hage := (hbinds 49 task deliveredAt final hslot).final hfinal.1
    rw [hfinal.2] at hage
    exact absurd hage (by norm_num [tenSeconds])
  · cases hfinal

end Backstop
end OcrOrchestrator
