import OcrOrchestrator.Queue.Delivery
import OcrOrchestrator.Worker.Dispatch

/-!
# The reserved slots

`worker_lead_reserve` slots are kept for the lead lane.  The loop works its budgets out from
two counters that change at different moments: a handler that ends gives its lane counter back
at once, and its slot only when the loop collects it.  In between both budgets are too small,
never too large.  The blocking read over both lanes asks each for half of the main budget, so
it may take more lead pages than the lead budget says, but not more main ones.

## Main definitions

* `Worker.running` — the handlers of a lane that have not ended.
* `Worker.Reserved` — the invariant.
-/

namespace OcrOrchestrator.Dispatch

open Lib

/-! ## How much of a read comes from the main lane -/

/-- The entries of a response that come from the main lane. -/
def mainTotal (r : Response) : ℕ :=
  (r.map fun s => if s.1 = Lane.main then s.2.length else 0).sum

@[simp] theorem mainTotal_nil : mainTotal [] = 0 := rfl

@[simp] theorem mainTotal_cons (lane : Lane) (es : List Entry) (r : Response) :
    mainTotal ((lane, es) :: r) = (if lane = .main then es.length else 0) + mainTotal r := by
  simp [mainTotal]

@[simp] theorem mainTotal_append (r r' : Response) :
    mainTotal (r ++ r' : Response) = mainTotal r + mainTotal r' := by
  simp [mainTotal]

/-- An answer has no more main entries than `COUNT` for each time the main lane was asked. -/
def MainWithin : (c : QueueCmd) → Except ReadExn (QueueRet c) → Prop
  | .xreadgroup lanes _ count _, .ok r => mainTotal r ≤ lanes.count .main * count
  | _, _ => True

theorem mainTotal_readEach_le (consumer : Consumer) (now : ℕ) (source : ReadFrom) (count : ℕ)
    (lanes : List Lane) (s : Lanes) :
    mainTotal (readEach consumer now source count lanes s).1 ≤ lanes.count .main * count := by
  induction lanes generalizing s with
  | nil => simp [readEach]
  | cons lane rest ih =>
    have hone := length_readOne_le consumer now source count (s lane)
    have hrest := ih (Function.update s lane (readOne consumer now source count (s lane)).2)
    have hcount : (lane :: rest).count .main * count =
        rest.count .main * count + if lane = .main then count else 0 := by
      by_cases hlane : lane = .main
      · simp [hlane, Nat.succ_mul]
      · simp [hlane]
    rw [hcount]
    simp only [readEach]
    split
    · omega
    · rw [mainTotal_cons]
      split <;> omega

theorem mainWithin_answer (consumer : Consumer) (now : ℕ) (fault : Option ReadExn)
    (c : QueueCmd) (s : Lanes) : MainWithin c (answer consumer now fault c s).1 := by
  cases fault with
  | some e => cases c <;> trivial
  | none =>
    cases c with
    | xreadgroup lanes source count blockMs =>
      by_cases hcount : count = 0
      · simp only [answer, QueueCmd.exec, hcount, if_true]
        trivial
      · simp only [answer, QueueCmd.exec, hcount, if_false]
        exact mainTotal_readEach_le consumer now source count lanes s
    | _ => trivial

/-- The tasks of the main lane. -/
def mainTasks (tasks : List PageTask) : ℕ := tasks.countP fun task => decide (task.stream = .main)

theorem mainYields_flattenStream {may : (c : QueueCmd) → Except ReadExn (QueueRet c) → Prop}
    (lane : Lane) (es : List Entry) :
    (flattenStream lane es).Yields may fun tasks => mainTasks tasks ≤ mainTotal [(lane, es)] := by
  induction es with
  | nil => exact Nat.zero_le _
  | cons e es ih =>
    have hcons : mainTotal [(lane, e :: es)] =
        mainTotal [(lane, es)] + if lane = .main then 1 else 0 := by
      by_cases hlane : lane = .main <;> simp [hlane]
    unfold flattenStream
    split
    next task htask =>
      apply Prog.Yields.bind ih
      intro tasks htasks
      change mainTasks (task :: tasks) ≤ _
      rw [hcons, mainTasks, List.countP_cons, (parse_spec htask).1]
      simp only [mainTasks] at htasks
      by_cases hlane : lane = .main
      · simp only [hlane, decide_true, if_true] at htasks ⊢
        omega
      · simpa [hlane] using htasks
    next =>
      apply Prog.Yields.bind (yields_quarantine lane e.id)
      intro _ _
      refine ih.mono fun tasks htasks => ?_
      rw [hcons]
      omega

theorem mainYields_flatten {may : (c : QueueCmd) → Except ReadExn (QueueRet c) → Prop}
    (r : Response) :
    (flatten r).Yields may fun tasks => mainTasks tasks ≤ mainTotal r := by
  induction r with
  | nil => exact Nat.zero_le _
  | cons stream rest ih =>
    obtain ⟨lane, es⟩ := stream
    unfold flatten
    apply Prog.Yields.bind (mainYields_flattenStream lane es)
    intro tasks htasks
    apply Prog.Yields.bind ih
    intro more hmore
    change mainTasks (tasks ++ more) ≤ _
    have hsplit : mainTotal ((lane, es) :: rest) = mainTotal [(lane, es)] + mainTotal rest := by
      simp
    rw [hsplit]
    simp only [mainTasks, List.countP_append] at htasks hmore ⊢
    omega

theorem mainYields_xreadgroup (lanes : List Lane) (source : ReadFrom) (count : ℕ)
    (blockMs : Option ℕ) :
    (xreadgroup lanes source count blockMs).Yields MainWithin fun r =>
      mainTotal r ≤ lanes.count .main * count :=
  Prog.Yields.perform fun _ hr => hr

theorem mainYields_probeLead (leadCount : ℕ) :
    (probeLead leadCount).Yields MainWithin fun r => mainTotal r = 0 := by
  unfold probeLead
  split
  · exact (mainYields_xreadgroup _ _ _ _).mono fun r hr => by simpa using hr
  · exact rfl

/-- **The main budget binds every way a read can end**, the blocking ones as well. -/
theorem mainYields_readBudgets (leadCount mainCount blockMs leadBlockMs : ℕ) :
    (readBudgets leadCount mainCount blockMs leadBlockMs).Yields MainWithin fun tasks =>
      mainTasks tasks ≤ mainCount := by
  have hlanes : (readLanes leadCount mainCount blockMs none leadBlockMs).Yields MainWithin
      fun r => mainTotal r ≤ mainCount := by
    unfold readLanes
    apply Prog.Yields.bind (mainYields_probeLead leadCount)
    intro lead hlead
    have hbudget : mainBudget mainCount none lead = mainCount := rfl
    rw [hbudget]
    split
    next =>
      split
      · exact hlead.le.trans (Nat.zero_le _)
      · exact (mainYields_xreadgroup _ _ _ _).mono fun r hr => hr.trans (by simp)
    next hpos =>
      apply Prog.Yields.bind (mainYields_xreadgroup _ _ _ _)
      intro main hmain
      have hmain' : mainTotal main ≤ mainCount := by simpa using hmain
      split
      · change mainTotal (lead ++ main) ≤ mainCount
        rw [mainTotal_append]
        omega
      · -- half of the budget from each lane, but at least one
        refine (mainYields_xreadgroup _ _ _ _).mono fun r hr => ?_
        have hshare : mainTotal r ≤ max 1 (mainCount / 2) := by simpa using hr
        omega
  have hgroup : ∀ e, (recreateGroup e).Yields MainWithin fun r => mainTotal r ≤ mainCount := by
    intro e
    cases e with
    | noGroup =>
      apply Prog.Yields.bind (m := fun _ => True) (Prog.Yields.perform fun _ _ => trivial)
      exact fun _ _ => Nat.zero_le _
    | dataError => trivial
    | other exn => trivial
  apply Prog.Yields.bind (hlanes.tryCatch hgroup)
  intro r hr
  exact (mainYields_flatten r).mono fun tasks htasks => htasks.trans hr

/-! ## Nothing to resume -/

/-- Nothing is pending under the consumer. -/
def NoneOwn (consumer : Consumer) (s : Lanes) : Prop :=
  ∀ lane, ∀ p ∈ (s lane).pel, p.consumer ≠ consumer

/-- A program that only asks for what is pending under the consumer, and is told that there
is nothing. -/
def resuming : Protocol QueueCmd QueueRet ReadExn Unit where
  may c r :=
    match c, r with
    | .xreadgroup _ .ownPending _ _, .ok resp => resp.ids = []
    | _, _ => True
  move _ c _ _ := ∃ lanes count blockMs, c = .xreadgroup lanes .ownPending count blockMs

theorem readEach_ownPending {consumer : Consumer} {s : Lanes} (h : NoneOwn consumer s)
    (now count : ℕ) (lanes : List Lane) :
    (readEach consumer now .ownPending count lanes s).1.ids = [] ∧
      NoneOwn consumer (readEach consumer now .ownPending count lanes s).2 := by
  induction lanes generalizing s with
  | nil => exact ⟨rfl, h⟩
  | cons lane rest ih =>
    have hown : (s lane).pel.filter (fun p => decide (p.consumer = consumer)) = [] := by
      simpa [List.filter_eq_nil_iff] using h lane
    have hread : readOne consumer now .ownPending count (s lane) = ([], s lane) := by
      simp [readOne, TaskStream.readPending, hown]
    have hrest := ih h
    simp only [readEach, hread, Function.update_eq_self]
    simpa using hrest

theorem resuming_may_error (c : QueueCmd) (e : ReadExn) : resuming.may c (.error e) := by
  cases c with
  | xreadgroup lanes source count blockMs => cases source <;> trivial
  | _ => trivial

/-- One command of the start-up, answered or raising. -/
theorem resuming_answer {consumer : Consumer} {c : QueueCmd}
    {k : Except ReadExn (QueueRet c) → Reader (List PageTask)} {s : Lanes}
    {post : Except ReadExn (List PageTask) → Unit → Prop} (hown : NoneOwn consumer s)
    (h : (Prog.call c k).Follows resuming post ()) (now : ℕ) (fault : Option ReadExn) :
    NoneOwn consumer (answer consumer now fault c s).2 ∧
      (k (answer consumer now fault c s).1).Follows resuming post () := by
  obtain ⟨-, ⟨lanes, count, blockMs, rfl⟩, -⟩ :=
    h (.error .noGroup) (resuming_may_error c .noGroup)
  have herror : ∀ e, (k (.error e)).Follows resuming post () := by
    intro e
    obtain ⟨_, -, hk⟩ := h (.error e) (resuming_may_error _ e)
    exact hk
  cases fault with
  | some e => exact ⟨hown, herror e⟩
  | none =>
    by_cases hcount : count = 0
    · simp only [answer, QueueCmd.exec, hcount, if_true]
      exact ⟨hown, herror .dataError⟩
    · have hread := readEach_ownPending hown now count lanes
      simp only [answer, QueueCmd.exec, hcount, if_false]
      obtain ⟨_, -, hk⟩ := h (.ok (readEach consumer now .ownPending count lanes s).1) hread.1
      exact ⟨hread.2, hk⟩

theorem flatten_of_ids {r : Response} (h : r.ids = []) : flatten r = .ret [] := by
  induction r with
  | nil => rfl
  | cons stream rest ih =>
    obtain ⟨lane, es⟩ := stream
    rw [Response.ids_cons, List.append_eq_nil_iff, List.map_eq_nil_iff] at h
    obtain ⟨rfl, hrest⟩ := h
    simp only [flatten, flattenStream, ih hrest]
    rfl

theorem follows_readOwnPending (count : ℕ) :
    (readOwnPending count).Follows resuming (fun r _ => ∀ tasks, r = .ok tasks → tasks = []) () := by
  have hask : ∀ lane n, (xreadgroup [lane] .ownPending n none).Follows resuming
      (fun r _ => ∀ resp, r = .ok resp → resp.ids = []) () := by
    intro lane n
    refine Prog.Follows.perform fun r hr => ⟨(), ⟨_, _, _, rfl⟩, fun resp hresp => ?_⟩
    subst hresp
    exact hr
  unfold readOwnPending
  apply Prog.Follows.bind (hask .lead count)
  · intro lead _ hlead
    apply Prog.Follows.bind (m := fun r _ => ∀ resp, r = .ok resp → resp.ids = [])
    · unfold ownPendingMain
      split
      · exact hask .main _
      · rintro resp hresp
        obtain rfl := Except.ok.inj hresp
        rfl
    · intro main _ hmain
      have hids : (lead ++ main : Response).ids = [] := by
        rw [Response.ids_append, hlead lead rfl, hmain main rfl, List.append_nil]
      rw [flatten_of_ids hids]
      intro tasks htasks
      obtain rfl := Except.ok.inj htasks
      rfl
    · intro e _ _ tasks htasks
      cases htasks
  · intro e _ _ tasks htasks
    cases htasks

namespace Worker

/-- The handlers of a lane that have not ended. -/
def running (w : Worker) (lane : Lane) : ℕ :=
  w.inFlight.countP fun h => !h.finished && decide (h.task.stream = lane)

/-- While the worker reads its own pending entries at start-up, others put none there. -/
def ownUntouched (consumer : Consumer) (w : Worker) : Label → Bool
  | .others lanes =>
    match w.phase with
    | .reading _ true _ => [Lane.lead, .main].all fun lane => (lanes lane).pel.all fun p =>
        decide (p.consumer ≠ consumer) ||
          (w.lanes lane).pel.any fun q => decide (q.id = p.id ∧ q.consumer = consumer)
    | _ => true
  | _ => true

/-- The invariant: the counter of the lead lane counts its handlers; the handlers of the main
lane leave the reserve free, also with what the read that is going on may bring; and the read
at start-up brings nothing. -/
structure Reserved (cfg : WorkerSettings) (consumer : Consumer) (w : Worker) : Prop where
  counter : w.leadInFlight = w.running .lead
  main_le : w.running .main ≤ cfg.workerConcurrency - leadReserve cfg
  reading : ∀ room prog, w.phase = .reading room false prog →
    ∃ budget, w.running .main + budget ≤ cfg.workerConcurrency - leadReserve cfg ∧
      prog.Yields MainWithin fun tasks => mainTasks tasks ≤ budget
  startup : ∀ room prog, w.phase = .reading room true prog → NoneOwn consumer w.lanes ∧
    prog.Follows resuming (fun r _ => ∀ tasks, r = .ok tasks → tasks = []) ()

section Reserved
variable {cfg : WorkerSettings} {consumer : Consumer} {w w' : Worker}

/-- Outside of a read. -/
theorem reserved_of_not_reading (hcounter : w.leadInFlight = w.running .lead)
    (hmain : w.running .main ≤ cfg.workerConcurrency - leadReserve cfg)
    (hphase : ∀ room startup prog, w.phase ≠ .reading room startup prog) :
    w.Reserved cfg consumer :=
  ⟨hcounter, hmain, fun room prog h => absurd h (hphase room false prog),
    fun room prog h => absurd h (hphase room true prog)⟩

/-- Starting handlers. -/
theorem running_spawn (w : Worker) (tasks : List PageTask) (lane : Lane) :
    (w.spawn tasks).running lane =
      w.running lane + tasks.countP fun task => decide (task.stream = lane) := by
  simp [running, spawn, List.countP_append, List.countP_map, Function.comp_def]

/-- The two lanes share the slots. -/
theorem running_add_le (w : Worker) : w.running .lead + w.running .main ≤ w.inFlight.length := by
  unfold running
  induction w.inFlight with
  | nil => simp
  | cons h hs ih =>
    simp only [List.countP_cons, List.length_cons]
    cases hf : h.finished <;> cases hl : h.task.stream <;> simp <;> omega

/-- Going on with a read of the loop. -/
theorem reserved_enter {room budget : ℕ} {prog : Reader (List PageTask)}
    (hcounter : w.leadInFlight = w.running .lead)
    (hbudget : w.running .main + budget ≤ cfg.workerConcurrency - leadReserve cfg)
    (hprog : prog.Yields MainWithin fun tasks => mainTasks tasks ≤ budget) :
    (w.enter room false prog).Reserved cfg consumer := by
  have hle : w.running .main ≤ cfg.workerConcurrency - leadReserve cfg := by omega
  cases prog with
  | ret tasks =>
    have htasks : mainTasks tasks ≤ budget := hprog
    have hmain := running_spawn w tasks .main
    have hlead := running_spawn w tasks .lead
    apply reserved_of_not_reading
    · change (w.spawn tasks).leadInFlight = (w.spawn tasks).running .lead
      rw [hlead, ← hcounter]
      rfl
    · change (w.spawn tasks).running .main ≤ _
      simp only [mainTasks] at htasks
      omega
    · intro room startup prog
      simp only [enter]
      split <;> simp
  | raise e => exact reserved_of_not_reading hcounter hle (by simp [enter])
  | call c k =>
    refine ⟨hcounter, hle, ?_, ?_⟩
    · intro room' prog' hphase
      simp only [enter, Phase.reading.injEq] at hphase
      obtain ⟨-, -, rfl⟩ := hphase
      exact ⟨budget, hbudget, hprog⟩
    · intro room' prog' hphase
      simp [enter] at hphase

/-- Going on with the read at start-up. -/
theorem reserved_enter_startup {room : ℕ} {prog : Reader (List PageTask)}
    (hcounter : w.leadInFlight = w.running .lead)
    (hmain : w.running .main ≤ cfg.workerConcurrency - leadReserve cfg)
    (hown : NoneOwn consumer w.lanes)
    (hprog : prog.Follows resuming (fun r _ => ∀ tasks, r = .ok tasks → tasks = []) ()) :
    (w.enter room true prog).Reserved cfg consumer := by
  cases prog with
  | ret tasks =>
    obtain rfl : tasks = [] := hprog tasks rfl
    have hspawn : ∀ lane, (w.spawn []).running lane = w.running lane := fun lane => by
      simp [running_spawn]
    refine reserved_of_not_reading ?_ ?_ (by simp [enter])
    · change (w.spawn []).leadInFlight = (w.spawn []).running .lead
      rw [hspawn, ← hcounter]
      rfl
    · change (w.spawn []).running .main ≤ _
      rwa [hspawn]
  | raise e => exact reserved_of_not_reading hcounter hmain (by simp [enter])
  | call c k =>
    refine ⟨hcounter, hmain, ?_, ?_⟩
    · intro room' prog' hphase
      simp [enter] at hphase
    · intro room' prog' hphase
      simp only [enter, Phase.reading.injEq] at hphase
      obtain ⟨-, -, rfl⟩ := hphase
      exact ⟨hown, hprog⟩

/-- The budget of a turn of the loop, in terms of what is running. -/
theorem reserved_budget (w : Worker) (hcounter : w.leadInFlight = w.running .lead)
    (hmain : w.running .main ≤ cfg.workerConcurrency - leadReserve cfg) :
    w.running .main + min cfg.workerPrefetch
        (cfg.workerConcurrency - w.inFlight.length - (leadReserve cfg - w.leadInFlight)) ≤
      cfg.workerConcurrency - leadReserve cfg := by
  have hslots := w.running_add_le
  rw [hcounter]
  omega

/-- A handler ends: its lane has one less, and the other as many as before. -/
theorem running_finish {i : ℕ} {h : Handle} (hi : w.inFlight[i]? = some h)
    (hrun : h.finished = false) (lane : Lane) :
    (w.finish i h).running lane + (if h.task.stream = lane then 1 else 0) = w.running lane := by
  obtain ⟨hlt, hget⟩ := List.getElem?_eq_some_iff.1 hi
  have hcount := List.countP_set (p := fun h : Handle => !h.finished &&
    decide (h.task.stream = lane)) (a := { h with finished := true }) hlt
  rw [hget] at hcount
  by_cases hlane : h.task.stream = lane
  · have hpos : 0 < w.running lane := by
      refine List.countP_pos_iff.2 ⟨h, List.mem_of_getElem? hi, ?_⟩
      simp [hrun, hlane]
    simp only [hrun, hlane, Bool.not_false, Bool.not_true, Bool.false_and, Bool.and_self,
      decide_true, Bool.false_eq_true, if_true, if_false] at hcount ⊢
    simp only [running, finish] at hpos ⊢
    omega
  · simp only [hlane, decide_false, Bool.and_false, Bool.false_eq_true, if_false] at hcount ⊢
    simpa only [running, finish, Nat.add_zero, Nat.sub_zero] using hcount

/-- Collecting the handlers that have ended. -/
theorem running_reap (w : Worker) (phase : Phase) (lane : Lane) :
    ({ w with inFlight := w.inFlight.filter (fun h => !h.finished), phase } : Worker).running
      lane = w.running lane := by
  simp only [running, List.countP_filter]
  refine List.countP_congr fun h _ => ?_
  cases h.finished <;> simp

theorem Reserved.lanes (h : w.Reserved cfg consumer) {s : Lanes}
    (hown : ∀ room prog, w.phase = .reading room true prog → NoneOwn consumer w.lanes →
      NoneOwn consumer s) :
    ({ w with lanes := s } : Worker).Reserved cfg consumer :=
  ⟨h.counter, h.main_le, h.reading, fun room prog hphase =>
    ⟨hown room prog hphase (h.startup room prog hphase).1, (h.startup room prog hphase).2⟩⟩

theorem noneOwn_arrive {s : Lanes} (h : NoneOwn consumer s) (lane : Lane) (now : ℕ)
    (fields : RawTask) : NoneOwn consumer (Dispatch.arrive s lane now fields) := by
  intro lane' p hp
  refine h lane' p ?_
  by_cases hlane : lane' = lane
  · subst hlane
    simpa [Dispatch.arrive, TaskStream.xadd] using hp
  · simpa [Dispatch.arrive, hlane] using hp

theorem noneOwn_others {s : Lanes} {room : ℕ} {prog : Reader (List PageTask)}
    (hphase : w.phase = .reading room true prog) (h : NoneOwn consumer w.lanes)
    (hallow : w.ownUntouched consumer (.others s) = true) : NoneOwn consumer s := by
  intro lane p hp hown
  simp only [ownUntouched, hphase, List.all_eq_true] at hallow
  have hlane := hallow lane (by cases lane <;> simp) p hp
  simp only [hown, ne_eq, not_true_eq_false, decide_false, Bool.false_or, List.any_eq_true,
    decide_eq_true_eq] at hlane
  obtain ⟨q, hq, -, hqown⟩ := hlane
  exact h lane q hq hqown

/-- A handler ends. -/
theorem Reserved.finish {i : ℕ} {handle : Handle} (h : w.Reserved cfg consumer)
    (hi : w.inFlight[i]? = some handle) (hrun : handle.finished = false) :
    (w.finish i handle).Reserved cfg consumer := by
  have hlead := running_finish hi hrun .lead
  have hmain := running_finish hi hrun .main
  refine ⟨?_, ?_, ?_, h.startup⟩
  · have hcounter : (w.finish i handle).leadInFlight =
        if handle.task.stream = .lead then w.leadInFlight - 1 else w.leadInFlight := rfl
    rw [hcounter, h.counter]
    by_cases hlane : handle.task.stream = .lead
    · rw [if_pos hlane] at hlead ⊢
      omega
    · rw [if_neg hlane] at hlead ⊢
      omega
  · have hle := h.main_le
    omega
  · intro room prog hphase
    obtain ⟨budget, hbudget, hyields⟩ := h.reading room prog hphase
    exact ⟨budget, by omega, hyields⟩

/-- **One step** leaves the reserve free. -/
theorem Reserved.step {l : Label} (hreserve : leadReserve cfg ≠ 0) (h : w.Reserved cfg consumer)
    (hallow : w.ownUntouched consumer l = true) (hstep : w.step cfg consumer l = some w') :
    w'.Reserved cfg consumer := by
  cases moves_of_step hstep with
  | arrive lane now fields => exact h.lanes fun _ _ _ hown => noneOwn_arrive hown lane now fields
  | others lanes => exact h.lanes fun _ _ hphase hown => noneOwn_others hphase hown hallow
  | @answer now fault room startup c k hphase =>
    cases startup with
    | false =>
      obtain ⟨budget, hbudget, hyields⟩ := h.reading room _ hphase
      exact reserved_enter h.counter hbudget (hyields _ (mainWithin_answer _ _ _ _ _))
    | true =>
      obtain ⟨hown, hfollows⟩ := h.startup room _ hphase
      obtain ⟨hown', hk⟩ := resuming_answer hown hfollows now fault
      exact reserved_enter_startup h.counter h.main_le hown' hk
  | finish hi hrun => exact h.finish hi hrun
  | read =>
    simp only [nextRead, hreserve, if_false]
    exact reserved_enter h.counter (reserved_budget w h.counter h.main_le)
      (mainYields_readBudgets _ _ _ _)
  | turn _ hphase =>
    refine reserved_of_not_reading h.counter h.main_le ?_
    rcases hphase with rfl | rfl | rfl <;> simp
  | collect =>
    refine reserved_of_not_reading ?_ ?_ (by simp)
    · rw [running_reap]
      exact h.counter
    · rw [running_reap]
      exact h.main_le
  | requestStop => exact ⟨h.counter, h.main_le, h.reading, h.startup⟩

theorem Reserved.of_reach {lanes : Lanes} (hreserve : leadReserve cfg ≠ 0)
    (hown : NoneOwn consumer lanes)
    (hw : (system cfg consumer lanes).Reach (ownUntouched consumer) w) :
    w.Reserved cfg consumer := by
  apply System.Reach.invariant _ _ hw
  · exact reserved_enter_startup rfl (Nat.zero_le _) hown (follows_readOwnPending _)
  · exact fun w l w' h hallow hstep => h.step hreserve hallow hstep

end Reserved
end Worker

/-- **The main lane never occupies reserved slots.**  For every concurrency of two or more,
every reserve of one or more and every prefetch, starting with nothing pending under the
consumer until the worker has looked, and whatever arrives, is read by others, raises or ends,
in any order: at most `worker_concurrency - min(worker_lead_reserve, worker_concurrency - 1)`
handlers of main-lane tasks are running, and `_lead_in_flight` is the number of lead-lane
handlers that are. -/
theorem reserve_kept (cfg : WorkerSettings) (consumer : Consumer) (lanes : Lanes)
    (hconcurrency : 2 ≤ cfg.workerConcurrency) (hreserve : 1 ≤ cfg.workerLeadReserve)
    (hown : NoneOwn consumer lanes) (w : Worker)
    (hw : (Worker.system cfg consumer lanes).Reach (Worker.ownUntouched consumer) w) :
    w.running .main ≤
        cfg.workerConcurrency - min cfg.workerLeadReserve (cfg.workerConcurrency - 1) ∧
      w.leadInFlight = w.running .lead := by
  have hpos : leadReserve cfg ≠ 0 := by
    unfold leadReserve
    omega
  have h := Worker.Reserved.of_reach hpos hown hw
  exact ⟨h.main_le, h.counter⟩

/-- Two slots, one of them reserved: with two pages waiting in the main lane one is running,
and the worker waits for the lead lane. -/
theorem reserve_kept_two_slots :
    ∃ w : Worker, (Worker.system { workerConcurrency := 2 } 1 fun _ => .empty).Reach
        (Worker.ownUntouched 1) w ∧
      w.running .main = 1 ∧ (w.lanes .main).entries.length = 2 ∧
      w.running .main ≤ 2 - min 4 (2 - 1) ∧ w.leadInFlight = w.running .lead := by
  obtain ⟨w, hw, hq⟩ := System.exists_of_runAll
    (Worker.system { workerConcurrency := 2 } 1 fun _ => .empty) (Worker.ownUntouched 1)
    (fun w => decide (w.running .main = 1 ∧ (w.lanes .main).entries.length = 2))
    [.arrive .main 1 (enqueueFields ⟨0, 1⟩ 1 "t"), .arrive .main 1 (enqueueFields ⟨0, 2⟩ 1 "t"),
      .answer 1 none, .answer 1 none, .loop, .answer 1 none, .answer 1 none, .loop, .answer 1 none]
    (by decide +kernel)
  simp only [decide_eq_true_eq] at hq
  have hkept := reserve_kept { workerConcurrency := 2 } 1 (fun _ => .empty) (by decide) (by decide)
    (fun _ _ hp => by simp [TaskStream.empty] at hp) w hw
  exact ⟨w, hw, hq.1, hq.2, hkept⟩

end OcrOrchestrator.Dispatch
