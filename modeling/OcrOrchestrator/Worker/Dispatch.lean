import OcrOrchestrator.Lib.System
import OcrOrchestrator.Queue.Read

/-!
# The dispatch loop

`Worker.run` resumes its own pending entries, then reads as much as it has free slots for,
starts a handler for each task, and waits for one to finish when nothing can be read.  A
finished handler keeps its slot until the loop collects it.

The handlers run beside the loop and are only counted here; what they do to the streams, and
what everybody else does, may happen before any single command of a read.

## Main definitions

* `nextRead` — the read of one turn of the loop, and what it has room for.
* `Worker`, `Worker.system` — the loop with its handlers.
* `ReadCall`, `ReadCall.system` — a single read.
-/

namespace OcrOrchestrator.Dispatch

open Lib

/-- The settings of the loop, with the bounds that are checked when they are loaded. -/
structure WorkerSettings where
  workerConcurrency : ℕ := 16
  workerPrefetch : ℕ := 8
  workerLeadReserve : ℕ := 4
  workerLeadPollMs : ℕ := 100
  workerBlockMs : ℕ := 2000
  workerConcurrency_pos : 0 < workerConcurrency := by decide
  workerPrefetch_pos : 0 < workerPrefetch := by decide
  workerBlockMs_pos : 0 < workerBlockMs := by decide

/-- The slots that only the lead lane may use; never the last one. -/
def leadReserve (cfg : WorkerSettings) : ℕ :=
  min cfg.workerLeadReserve (cfg.workerConcurrency - 1)

/-- The read of one turn of the loop: what it has room for, and the call.  Without a reserve
the lanes share one count, otherwise each has its own budget. -/
def nextRead (cfg : WorkerSettings) (capacity leadInFlight : ℕ) : ℕ × Reader (List PageTask) :=
  if leadReserve cfg = 0 then
    (min cfg.workerPrefetch capacity,
      readCount (min cfg.workerPrefetch capacity) cfg.workerBlockMs 0)
  else
    let leadBudget := leadReserve cfg - leadInFlight
    let mainBudget := min cfg.workerPrefetch (capacity - leadBudget)
    (capacity,
      readBudgets (min leadBudget capacity) mainBudget cfg.workerBlockMs cfg.workerLeadPollMs)

theorem nextRead_room_le (cfg : WorkerSettings) (capacity leadInFlight : ℕ) :
    (nextRead cfg capacity leadInFlight).1 ≤ capacity := by
  unfold nextRead
  split
  · exact min_le_right _ _
  · exact le_refl _

/-- Whatever the lanes hold, a turn of the loop reads no more than it has room for. -/
theorem yields_nextRead (cfg : WorkerSettings) (capacity leadInFlight : ℕ) :
    (nextRead cfg capacity leadInFlight).2.Yields
      (WithinCount (nextRead cfg capacity leadInFlight).1) fun tasks =>
        tasks.length ≤ (nextRead cfg capacity leadInFlight).1 := by
  unfold nextRead
  split
  · exact yields_readCount _ _ _
  · apply yields_readBudgets
    dsimp only
    omega

/-- A handler the loop has started; a finished one keeps its slot until it is collected. -/
structure Handle where
  task : PageTask
  finished : Bool

/-- Where the loop is. -/
inductive Phase where
  /-- In a read that has room for `room` tasks: the one at start-up or one of the loop. -/
  | reading (room : ℕ) (startup : Bool) (prog : Reader (List PageTask))
  /-- At the head of the loop. -/
  | looping
  /-- Nothing to read, or no room for it. -/
  | idling
  | stopped

structure Worker where
  lanes : Lanes
  phase : Phase
  inFlight : List Handle
  leadInFlight : ℕ
  stopping : Bool

/-- What can happen next. -/
inductive Label where
  /-- `XADD` by the API, a handler or a reaper. -/
  | arrive (lane : Lane) (now : ℕ) (fields : RawTask)
  /-- Anything else that others do to the streams. -/
  | others (lanes : Lanes)
  /-- The command of the read that is going on is answered, or raises. -/
  | answer (now : ℕ) (fault : Option ReadExn)
  /-- A handler finishes. -/
  | finish (i : ℕ)
  | loop
  | idle
  | requestStop

/-- Another process appends an entry. -/
def arrive (s : Lanes) (lane : Lane) (now : ℕ) (fields : RawTask) : Lanes :=
  Function.update s lane ((s lane).xadd now fields).2

/-- A command is answered, or raises. -/
def answer (consumer : Consumer) (now : ℕ) (fault : Option ReadExn) (c : QueueCmd) (s : Lanes) :
    Except ReadExn (QueueRet c) × Lanes :=
  match fault with
  | none => c.exec consumer now s
  | some e => (.error e, s)

/-- The blocking read over both lanes, made with room for one task, does not find something
in each of them. -/
def roomForBoth (room : ℕ) (s : Lanes) (prog : Reader (List PageTask)) : Label → Bool
  | .answer _ none =>
    match prog with
    | .call c _ => !c.takesTwoForOne room s
    | _ => true
  | _ => true

theorem withinCount_answer {consumer : Consumer} {now room : ℕ} {fault : Option ReadExn}
    {c : QueueCmd} {k : Except ReadExn (QueueRet c) → Reader (List PageTask)} {s : Lanes}
    (h : roomForBoth room s (.call c k) (.answer now fault) = true) :
    WithinCount room c (answer consumer now fault c s).1 := by
  cases fault with
  | none =>
    apply withinCount_exec
    simpa [roomForBoth] using h
  | some e => cases c <;> trivial

namespace Worker

/-- `_spawn`, for each task in turn. -/
def spawn (w : Worker) (tasks : List PageTask) : Worker :=
  { w with
    inFlight := w.inFlight ++ tasks.map fun task => ⟨task, false⟩
    leadInFlight := w.leadInFlight + tasks.countP fun task => decide (task.stream = .lead) }

/-- Go on with a read: its tasks are started when it returns, and an exception ends the
worker.  Having started something the loop comes round at once. -/
def enter (w : Worker) (room : ℕ) (startup : Bool) : Reader (List PageTask) → Worker
  | .ret tasks => { w.spawn tasks with
      phase := if startup || !tasks.isEmpty then .looping else .idling }
  | .raise _ => { w with phase := .stopped }
  | .call c k => { w with phase := .reading room startup (.call c k) }

/-- The start of `run`. -/
def start (cfg : WorkerSettings) (lanes : Lanes) : Worker :=
  enter ⟨lanes, .looping, [], 0, false⟩ cfg.workerConcurrency true
    (readOwnPending cfg.workerConcurrency)

/-- The end of `_handle`: the lane accounting is released. -/
def finish (w : Worker) (i : ℕ) (h : Handle) : Worker :=
  { w with
    inFlight := w.inFlight.set i { h with finished := true }
    leadInFlight := if h.task.stream = .lead then w.leadInFlight - 1 else w.leadInFlight }

/-- One step, `none` if the label is not enabled. -/
def step (cfg : WorkerSettings) (consumer : Consumer) (w : Worker) : Label → Option Worker
  | .arrive lane now fields => some { w with lanes := Dispatch.arrive w.lanes lane now fields }
  | .others lanes => some { w with lanes }
  | .answer now fault =>
    match w.phase with
    | .reading room startup (.call c k) =>
      let out := answer consumer now fault c w.lanes
      some ({ w with lanes := out.2 }.enter room startup (k out.1))
    | _ => none
  | .finish i =>
    match w.inFlight[i]? with
    | some h => if h.finished then none else some (w.finish i h)
    | none => none
  | .loop =>
    match w.phase with
    | .looping =>
      if w.stopping && w.inFlight.isEmpty then some { w with phase := .stopped }
      else if w.inFlight.length < cfg.workerConcurrency ∧ w.stopping = false then
        let read := nextRead cfg (cfg.workerConcurrency - w.inFlight.length) w.leadInFlight
        some (w.enter read.1 false read.2)
      else some { w with phase := .idling }
    | _ => none
  | .idle =>
    match w.phase with
    | .idling =>
      if w.inFlight.isEmpty then
        some { w with phase := if w.stopping then .stopped else .looping }
      else if w.inFlight.any Handle.finished then
        -- `asyncio.wait`, then `_reap`
        some { w with inFlight := w.inFlight.filter (fun h => !h.finished), phase := .looping }
      else none
    | _ => none
  | .requestStop => some { w with stopping := true }

def system (cfg : WorkerSettings) (consumer : Consumer) (lanes : Lanes) : System Worker Label :=
  ⟨start cfg lanes, step cfg consumer⟩

/-- The condition on the read that is going on, if there is one. -/
def readsFit (w : Worker) (l : Label) : Bool :=
  match w.phase with
  | .reading room _ prog => roomForBoth room w.lanes prog l
  | _ => true

/-- The invariant: the slots in use and the room of the read that is going on fit, and the
read will not return more than it has room for. -/
structure Fits (cfg : WorkerSettings) (w : Worker) : Prop where
  inFlight_le : w.inFlight.length ≤ cfg.workerConcurrency
  reading : ∀ room startup prog, w.phase = .reading room startup prog →
    w.inFlight.length + room ≤ cfg.workerConcurrency ∧
      prog.Yields (WithinCount room) fun tasks => tasks.length ≤ room

variable {cfg : WorkerSettings} {consumer : Consumer} {w w' : Worker}

/-- Outside of a read only the slots matter. -/
theorem fits_of_not_reading (hle : w.inFlight.length ≤ cfg.workerConcurrency)
    (hphase : ∀ room startup prog, w.phase ≠ .reading room startup prog) : w.Fits cfg :=
  ⟨hle, fun room startup prog h => absurd h (hphase room startup prog)⟩

/-- Fitting is about the slots and the phase only. -/
theorem Fits.congr (h : w.Fits cfg) (hinFlight : w'.inFlight.length ≤ w.inFlight.length)
    (hphase : w'.phase = w.phase) : w'.Fits cfg := by
  refine ⟨le_trans hinFlight h.inFlight_le, ?_⟩
  intro room startup prog hreading
  obtain ⟨hroom, hyields⟩ := h.reading room startup prog (hphase ▸ hreading)
  exact ⟨by omega, hyields⟩

theorem fits_enter {room : ℕ} {startup : Bool} {prog : Reader (List PageTask)}
    (hroom : w.inFlight.length + room ≤ cfg.workerConcurrency)
    (hprog : prog.Yields (WithinCount room) fun tasks => tasks.length ≤ room) :
    (w.enter room startup prog).Fits cfg := by
  cases prog with
  | ret tasks =>
    have htasks : tasks.length ≤ room := hprog
    apply fits_of_not_reading
    · simp only [enter, spawn, List.length_append, List.length_map]
      omega
    · intro room startup prog
      simp only [enter]
      split <;> simp
  | raise e =>
    apply fits_of_not_reading
    · simp only [enter]
      omega
    · simp [enter]
  | call c k =>
    constructor
    · simp only [enter]
      omega
    · intro room' startup' prog' hphase
      simp only [enter, Phase.reading.injEq] at hphase
      obtain ⟨rfl, rfl, rfl⟩ := hphase
      exact ⟨hroom, hprog⟩

theorem fits_start (cfg : WorkerSettings) (lanes : Lanes) : (start cfg lanes).Fits cfg := by
  apply fits_enter
  · simp
  · exact yields_readOwnPending _

/-- Everything a step can do. -/
inductive Moves (cfg : WorkerSettings) (consumer : Consumer) (w : Worker) :
    Label → Worker → Prop
  | arrive (lane : Lane) (now : ℕ) (fields : RawTask) :
      Moves cfg consumer w (.arrive lane now fields)
        { w with lanes := Dispatch.arrive w.lanes lane now fields }
  | others (lanes : Lanes) : Moves cfg consumer w (.others lanes) { w with lanes }
  | answer (now : ℕ) (fault : Option ReadExn) {room : ℕ} {startup : Bool} {c : QueueCmd}
      {k : Except ReadExn (QueueRet c) → Reader (List PageTask)}
      (hphase : w.phase = .reading room startup (.call c k)) :
      Moves cfg consumer w (.answer now fault)
        ({ w with lanes := (answer consumer now fault c w.lanes).2 }.enter room startup
          (k (answer consumer now fault c w.lanes).1))
  | finish {i : ℕ} {handle : Handle} (hi : w.inFlight[i]? = some handle)
      (hrun : handle.finished = false) :
      Moves cfg consumer w (.finish i) (w.finish i handle)
  | read (hfree : w.inFlight.length < cfg.workerConcurrency) (hgo : w.stopping = false) :
      Moves cfg consumer w .loop
        (w.enter (nextRead cfg (cfg.workerConcurrency - w.inFlight.length) w.leadInFlight).1 false
          (nextRead cfg (cfg.workerConcurrency - w.inFlight.length) w.leadInFlight).2)
  | turn {l : Label} (hl : l = .loop ∨ l = .idle) {phase : Phase}
      (hphase : phase = .looping ∨ phase = .idling ∨ phase = .stopped) :
      Moves cfg consumer w l { w with phase }
  | collect : Moves cfg consumer w .idle
      { w with inFlight := w.inFlight.filter (fun h => !h.finished), phase := .looping }
  | requestStop : Moves cfg consumer w .requestStop { w with stopping := true }

theorem moves_of_step {l : Label} (hstep : w.step cfg consumer l = some w') :
    w.Moves cfg consumer l w' := by
  cases l with
  | arrive lane now fields =>
    obtain rfl := Option.some.inj hstep
    exact .arrive lane now fields
  | others lanes =>
    obtain rfl := Option.some.inj hstep
    exact .others lanes
  | answer now fault =>
    simp only [Worker.step] at hstep
    split at hstep
    next room startup c k hphase =>
      obtain rfl := Option.some.inj hstep
      exact .answer now fault hphase
    next => cases hstep
  | finish i =>
    simp only [Worker.step] at hstep
    split at hstep
    next handle hi =>
      split at hstep
      next => cases hstep
      next hrun =>
        obtain rfl := Option.some.inj hstep
        exact .finish hi (by simpa using hrun)
    next => cases hstep
  | loop =>
    simp only [Worker.step] at hstep
    split at hstep
    next =>
      split at hstep
      next =>
        obtain rfl := Option.some.inj hstep
        exact .turn (.inl rfl) (.inr (.inr rfl))
      next =>
        split at hstep
        next hfree =>
          obtain rfl := Option.some.inj hstep
          exact .read hfree.1 hfree.2
        next =>
          obtain rfl := Option.some.inj hstep
          exact .turn (.inl rfl) (.inr (.inl rfl))
    next => cases hstep
  | idle =>
    simp only [Worker.step] at hstep
    split at hstep
    next =>
      split at hstep
      next =>
        obtain rfl := Option.some.inj hstep
        refine .turn (.inr rfl) ?_
        cases w.stopping <;> simp
      next =>
        split at hstep
        next =>
          obtain rfl := Option.some.inj hstep
          exact .collect
        next => cases hstep
    next => cases hstep
  | requestStop =>
    obtain rfl := Option.some.inj hstep
    exact .requestStop

/-- **One step** keeps the slots within bounds. -/
theorem Fits.step (h : w.Fits cfg) {l : Label} (hallow : w.readsFit l = true)
    (hstep : w.step cfg consumer l = some w') : w'.Fits cfg := by
  cases moves_of_step hstep with
  | arrive => exact h.congr (le_refl _) rfl
  | others => exact h.congr (le_refl _) rfl
  | answer now fault hphase =>
    obtain ⟨hroom, hyields⟩ := h.reading _ _ _ hphase
    simp only [readsFit, hphase] at hallow
    exact fits_enter hroom (hyields _ (withinCount_answer hallow))
  | finish => exact h.congr (by simp [finish]) rfl
  | read hfree =>
    have hroom := nextRead_room_le cfg (cfg.workerConcurrency - w.inFlight.length) w.leadInFlight
    exact fits_enter (by omega) (yields_nextRead _ _ _)
  | turn _ hphase =>
    refine fits_of_not_reading h.inFlight_le ?_
    rcases hphase with rfl | rfl | rfl <;> simp
  | collect =>
    apply fits_of_not_reading
    · exact le_trans (List.length_filter_le _ _) h.inFlight_le
    · simp
  | requestStop => exact h.congr (le_refl _) rfl

theorem Fits.of_reach {lanes : Lanes} (hw : (system cfg consumer lanes).Reach readsFit w) :
    w.Fits cfg := by
  apply System.Reach.invariant (fits_start cfg lanes) _ hw
  intro w l w' h hallow hstep
  exact h.step hallow hstep

end Worker

/-! ## A single read -/

/-- A read that is going on, and the streams. -/
structure ReadCall where
  lanes : Lanes
  prog : Reader (List PageTask)

namespace ReadCall

/-- The steps of a read: the labels of the loop itself do not occur. -/
def step (consumer : Consumer) (r : ReadCall) : Label → Option ReadCall
  | .arrive lane now fields => some { r with lanes := Dispatch.arrive r.lanes lane now fields }
  | .others lanes => some { r with lanes }
  | .answer now fault =>
    match r.prog with
    | .call c k =>
      let out := answer consumer now fault c r.lanes
      some ⟨out.2, k out.1⟩
    | _ => none
  | _ => none

/-- `read(count=n)`. -/
def system (consumer : Consumer) (n blockMs leadBlockMs : ℕ) (lanes : Lanes) :
    System ReadCall Label :=
  ⟨⟨lanes, readCount n blockMs leadBlockMs⟩, step consumer⟩

/-- The tasks the read has returned. -/
def returned (r : ReadCall) : List PageTask :=
  match r.prog with
  | .ret tasks => tasks
  | _ => []

variable {consumer : Consumer} {n blockMs leadBlockMs : ℕ} {lanes : Lanes} {r : ReadCall}

theorem yields_of_reach (hr : (system consumer n blockMs leadBlockMs lanes).Reach
      (fun r => roomForBoth n r.lanes r.prog) r) :
    r.prog.Yields (WithinCount n) fun tasks => tasks.length ≤ n := by
  apply @System.Reach.invariant _ _ _ _ (fun r : ReadCall =>
    r.prog.Yields (WithinCount n) fun tasks => tasks.length ≤ n) ?_ ?_ _ hr
  · exact yields_readCount n blockMs leadBlockMs
  · intro r l r' h hallow hstep
    cases l with
    | arrive lane now fields =>
      obtain rfl := Option.some.inj hstep
      exact h
    | others lanes =>
      obtain rfl := Option.some.inj hstep
      exact h
    | answer now fault =>
      simp only [system, step] at hstep
      split at hstep
      next c k hprog =>
        obtain rfl := Option.some.inj hstep
        rw [hprog] at h hallow
        exact h _ (withinCount_answer hallow)
      next => cases hstep
    | _ => cases hstep

theorem length_returned_le (h : r.prog.Yields (WithinCount n) fun tasks => tasks.length ≤ n) :
    r.returned.length ≤ n := by
  unfold returned
  split
  next tasks hprog =>
    rw [hprog] at h
    exact h
  next => exact Nat.zero_le _

end ReadCall

/-! ## Bounded dispatch -/

/-- **Bounded dispatch**: as long as no blocking read that was made with room for one task
finds something in both lanes, the loop never has more handlers than its concurrency, and a
read never returns more than its count. -/
theorem boundedDispatch_of_reach (cfg : WorkerSettings) (consumer : Consumer) (lanes : Lanes)
    (n blockMs leadBlockMs : ℕ) :
    (∀ w : Worker, (Worker.system cfg consumer lanes).Reach Worker.readsFit w →
      w.inFlight.length ≤ cfg.workerConcurrency) ∧
    (∀ r : ReadCall, (ReadCall.system consumer n blockMs leadBlockMs lanes).Reach
      (fun r => roomForBoth n r.lanes r.prog) r → r.returned.length ≤ n) := by
  constructor
  · intro w hw
    exact (Worker.Fits.of_reach hw).inFlight_le
  · intro r hr
    exact ReadCall.length_returned_le (ReadCall.yields_of_reach hr)

/-- Two pages arrive in the main lane while the only slot is free; one of them is started. -/
theorem boundedDispatch_one_slot :
    ∃ w : Worker, (Worker.system { workerConcurrency := 1 } 1 fun _ => .empty).Reach
        Worker.readsFit w ∧
      ((w.lanes .main).entries.length = 2 ∧ w.inFlight.length = 1) ∧ w.inFlight.length ≤ 1 := by
  obtain ⟨w, hw, hq⟩ := System.exists_of_runAll
    (Worker.system { workerConcurrency := 1 } 1 fun _ => .empty) Worker.readsFit
    (fun w => decide ((w.lanes .main).entries.length = 2 ∧ w.inFlight.length = 1))
    [.answer 0 none, .answer 0 none, .loop, .answer 0 none, .answer 0 none,
      .arrive .main 1 (enqueueFields ⟨0, 1⟩ 1 "t"), .arrive .main 1 (enqueueFields ⟨0, 2⟩ 1 "t"),
      .answer 1 none]
    (by decide +kernel)
  exact ⟨w, hw, by simpa using hq, (boundedDispatch_of_reach _ _ _ 1 2000 0).1 w hw⟩

/-- A page arrives in each lane while the only slot is free, after both probes have found
nothing: both are started, and a read for one task returns both. -/
theorem not_boundedDispatch_both_lanes :
    (¬ ∀ (cfg : WorkerSettings) (consumer : Consumer) (lanes : Lanes) (w : Worker),
      (Worker.system cfg consumer lanes).Reach System.anyStep w →
        w.inFlight.length ≤ cfg.workerConcurrency) ∧
    ¬ ∀ (consumer : Consumer) (n blockMs leadBlockMs : ℕ) (lanes : Lanes) (r : ReadCall),
      (ReadCall.system consumer n blockMs leadBlockMs lanes).Reach System.anyStep r →
        r.returned.length ≤ n := by
  constructor
  · intro hall
    obtain ⟨w, hw, hq⟩ := System.exists_of_runAll
      (Worker.system { workerConcurrency := 1 } 1 fun _ => .empty) System.anyStep
      (fun w => decide (w.inFlight.length = 2))
      [.answer 0 none, .answer 0 none, .loop, .answer 0 none, .answer 0 none,
        .arrive .lead 1 (enqueueFields ⟨0, 0⟩ 1 "t"), .arrive .main 1 (enqueueFields ⟨0, 1⟩ 1 "t"),
        .answer 1 none]
      (by decide +kernel)
    have hle := hall _ _ _ w hw
    simp only [decide_eq_true_eq] at hq
    dsimp only at hle
    omega
  · intro hall
    obtain ⟨r, hr, hq⟩ := System.exists_of_runAll
      (ReadCall.system 1 1 2000 0 fun _ => .empty) System.anyStep
      (fun r => decide (r.returned.length = 2))
      [.answer 0 none, .answer 0 none, .arrive .lead 1 (enqueueFields ⟨0, 0⟩ 1 "t"),
        .arrive .main 1 (enqueueFields ⟨0, 1⟩ 1 "t"), .answer 1 none] (by decide +kernel)
    have hle := hall _ _ _ _ _ r hr
    simp only [decide_eq_true_eq] at hq
    omega

end OcrOrchestrator.Dispatch
