import OcrOrchestrator.Lib.Liveness
import OcrOrchestrator.Worker.Dispatch

/-!
# The worker drains

After `request_stop` the loop takes no new pages, and it ends once the pages it holds are done.  A
read that raises ends it at once, with its pages in the air.

The books are kept beside the loop: the tasks that were taken, in the order they were started, and
the tasks whose handlers have finished.

## Main definitions

* `Shift` — the loop with its books.
* `Shift.Sound` — the invariant.
* `Shift.own` — what the worker and its handlers do themselves.

## Main results

* `Shift.drained` — a live worker that is told to stop comes to a stop, and leaves no page behind.
-/

namespace OcrOrchestrator.Dispatch

open Lib

/-- The read that is going on. -/
def Phase.read : Phase → Option (Reader (List PageTask))
  | .reading _ _ prog => some prog
  | _ => none

/-- How far the loop is from its end, when no read is going on. -/
def Phase.togo : Phase → ℕ
  | .looping => 2
  | .idling => 1
  | _ => 0

/-- The handlers that have not finished. -/
def Worker.open (w : Worker) : List Handle := w.inFlight.filter fun h => !h.finished

/-- The loop with its books. -/
structure Shift where
  worker : Worker
  taken : List PageTask
  handled : List PageTask
  raised : Bool

namespace Shift

/-- The read goes on by raising. -/
def raises (consumer : Consumer) (w : Worker) : Label → Bool
  | .answer now fault =>
    match w.phase with
    | .reading _ _ (.call c k) =>
      match k (answer consumer now fault c w.lanes).1 with
      | .raise _ => true
      | _ => false
    | _ => false
  | _ => false

/-- The task of the handler that finishes. -/
def finishes (w : Worker) : Label → List PageTask
  | .finish i => (w.inFlight[i]?.map Handle.task).toList
  | _ => []

/-- A step of the loop.  New handlers are at the end. -/
def step (cfg : WorkerSettings) (consumer : Consumer) (s : Shift) (l : Label) : Option Shift :=
  (s.worker.step cfg consumer l).map fun w =>
    { worker := w
      taken := s.taken ++ (w.inFlight.drop s.worker.inFlight.length).map Handle.task
      handled := s.handled ++ finishes s.worker l
      raised := s.raised || raises consumer s.worker l }

def system (cfg : WorkerSettings) (consumer : Consumer) (lanes : Lanes) : System Shift Label :=
  ⟨⟨.start cfg lanes, [], [], false⟩, step cfg consumer⟩

/-- What the worker does itself, or its handlers or the server do for it. -/
def own : Label → Bool
  | .answer _ _ | .finish _ | .loop | .idle => true
  | _ => false

end Shift

/-! ## What a step does -/

namespace Worker
variable {cfg : WorkerSettings} {consumer : Consumer} {w w' : Worker}

/-- What a step does, with what the loop has seen. -/
inductive Acts (cfg : WorkerSettings) (consumer : Consumer) (w : Worker) : Label → Worker → Prop
  | others {l : Label} (hl : Shift.own l = false) (lanes : Lanes) (stopping : Bool)
      (hstop : w.stopping = true → stopping = true) : Acts cfg consumer w l { w with lanes, stopping }
  | answer (now : ℕ) (fault : Option ReadExn) {room : ℕ} {startup : Bool} {c : QueueCmd}
      {k : Except ReadExn (QueueRet c) → Reader (List PageTask)}
      (hphase : w.phase = .reading room startup (.call c k)) :
      Acts cfg consumer w (.answer now fault)
        ({ w with lanes := (Dispatch.answer consumer now fault c w.lanes).2 }.enter room startup
          (k (Dispatch.answer consumer now fault c w.lanes).1))
  | finish {i : ℕ} {handle : Handle} (hi : w.inFlight[i]? = some handle)
      (hrun : handle.finished = false) : Acts cfg consumer w (.finish i) (w.finish i handle)
  | read (hphase : w.phase = .looping) (hgo : w.stopping = false) :
      Acts cfg consumer w .loop
        (w.enter (nextRead cfg (cfg.workerConcurrency - w.inFlight.length) w.leadInFlight).1 false
          (nextRead cfg (cfg.workerConcurrency - w.inFlight.length) w.leadInFlight).2)
  | pause (hphase : w.phase = .looping) : Acts cfg consumer w .loop { w with phase := .idling }
  | collect (hphase : w.phase = .idling) (hdone : w.inFlight.any Handle.finished = true) :
      Acts cfg consumer w .idle
        { w with inFlight := w.inFlight.filter (fun h => !h.finished), phase := .looping }
  | resume (hphase : w.phase = .idling) (hgo : w.stopping = false) :
      Acts cfg consumer w .idle { w with phase := .looping }
  | stop {l : Label} (hl : l = .loop ∨ l = .idle)
      (hphase : w.phase = .looping ∨ w.phase = .idling) (hnone : w.inFlight = [])
      (hstop : w.stopping = true) : Acts cfg consumer w l { w with phase := .stopped }

theorem acts_of_step {l : Label} (hstep : w.step cfg consumer l = some w') :
    w.Acts cfg consumer l w' := by
  cases l with
  | arrive lane now fields =>
    obtain rfl := Option.some.inj hstep
    exact .others rfl _ _ id
  | others lanes =>
    obtain rfl := Option.some.inj hstep
    exact .others rfl _ _ id
  | answer now fault =>
    simp only [Worker.step] at hstep
    split at hstep
    next room startup c k hphase =>
      obtain rfl := Option.some.inj hstep
      exact .answer now fault hphase
    next => cases hstep
  | finish i =>
    simp only [Worker.step] at hstep
    split at hstep
    next handle hi =>
      split at hstep
      next => cases hstep
      next hrun =>
        obtain rfl := Option.some.inj hstep
        exact .finish hi (by simpa using hrun)
    next => cases hstep
  | loop =>
    simp only [Worker.step] at hstep
    split at hstep
    next hphase =>
      split at hstep
      next hstop =>
        obtain rfl := Option.some.inj hstep
        rw [Bool.and_eq_true, List.isEmpty_iff] at hstop
        exact .stop (.inl rfl) (.inl hphase) hstop.2 hstop.1
      next =>
        split at hstep
        next hfree =>
          obtain rfl := Option.some.inj hstep
          exact .read hphase hfree.2
        next =>
          obtain rfl := Option.some.inj hstep
          exact .pause hphase
    next => cases hstep
  | idle =>
    simp only [Worker.step] at hstep
    split at hstep
    next hphase =>
      split at hstep
      next hnone =>
        obtain rfl := Option.some.inj hstep
        rw [List.isEmpty_iff] at hnone
        by_cases hstop : w.stopping = true
        · rw [if_pos hstop]
          exact .stop (.inr rfl) (.inr hphase) hnone hstop
        · rw [if_neg hstop]
          exact .resume hphase (by simpa using hstop)
      next =>
        split at hstep
        next hdone =>
          obtain rfl := Option.some.inj hstep
          exact .collect hphase hdone
        next => cases hstep
    next => cases hstep
  | requestStop =>
    obtain rfl := Option.some.inj hstep
    exact .others rfl _ _ fun _ => rfl

/-! ### Where a read leaves the loop -/

/-- A read over the lanes has nothing to do, or begins with a command. -/
theorem readLanes_begins (leadCount mainCount blockMs : ℕ) (totalCap : Option ℕ)
    (leadBlockMs : ℕ) : readLanes leadCount mainCount blockMs totalCap leadBlockMs = .ret [] ∨
      ∃ c k, readLanes leadCount mainCount blockMs totalCap leadBlockMs = .call c k := by
  by_cases hlead : 0 < leadCount
  · exact .inr ⟨_, _, by rw [readLanes, probeLead, if_pos hlead]; rfl⟩
  rw [readLanes, probeLead, if_neg hlead, Prog.pure_eq_ret, Prog.ret_bind]
  split
  · split
    · exact .inl rfl
    · exact .inr ⟨_, _, rfl⟩
  · exact .inr ⟨_, _, rfl⟩

/-- A read does not begin by raising. -/
theorem nextRead_ne_raise (capacity leadInFlight : ℕ) (e : ReadExn) :
    (nextRead cfg capacity leadInFlight).2 ≠ .raise e := by
  have hread : ∀ leadCount mainCount blockMs totalCap leadBlockMs,
      ((readLanes leadCount mainCount blockMs totalCap leadBlockMs).tryCatch recreateGroup >>=
        flatten) ≠ .raise e := by
    intro leadCount mainCount blockMs totalCap leadBlockMs
    rcases readLanes_begins leadCount mainCount blockMs totalCap leadBlockMs with h | ⟨c, k, h⟩
    · rw [h]
      change (Prog.ret [] : Reader (List PageTask)) ≠ .raise e
      simp
    · rw [h]
      change (Prog.call c _ : Reader (List PageTask)) ≠ .raise e
      simp
  rw [nextRead]
  split
  · exact hread _ _ _ _ _
  · exact hread _ _ _ _ _

/-- The handlers that have not finished, when a handler finishes. -/
theorem open_finish {i : ℕ} {handle : Handle} (hi : w.inFlight[i]? = some handle)
    (hrun : handle.finished = false) : w.open.Perm (handle :: (w.finish i handle).open) := by
  obtain ⟨hlt, hget⟩ := List.getElem?_eq_some_iff.mp hi
  have hsplit : ∃ before after, w.inFlight = before ++ w.inFlight[i] :: after ∧
      before.length = i ∧ w.inFlight.set i { handle with finished := true } =
        before ++ { handle with finished := true } :: after := List.exists_of_set hlt
  obtain ⟨before, after, heq, -, hset⟩ := hsplit
  rw [hget] at heq
  have hopen : w.open = before.filter (fun h => !h.finished) ++
      handle :: after.filter fun h => !h.finished := by
    rw [Worker.open, heq]
    simp [hrun]
  have hfinish : (w.finish i handle).open = before.filter (fun h => !h.finished) ++
      after.filter fun h => !h.finished := by
    simp only [Worker.open, Worker.finish, hset]
    simp
  rw [hopen, hfinish]
  exact List.perm_middle

/-- What a read that ends starts is at the end, and has not finished. -/
theorem open_enter (room : ℕ) (startup : Bool) (prog : Reader (List PageTask)) :
    (w.enter room startup prog).open.map Handle.task = w.open.map Handle.task ++
      ((w.enter room startup prog).inFlight.drop w.inFlight.length).map Handle.task := by
  cases prog with
  | ret tasks =>
    have hnew : (tasks.map fun task => (⟨task, false⟩ : Handle)).filter (fun h => !h.finished) =
        tasks.map fun task => ⟨task, false⟩ := List.filter_eq_self.mpr (by simp)
    simp only [Worker.open, enter, spawn, List.filter_append, hnew, List.drop_left, List.map_append]
  | raise e => simp [Worker.open, enter]
  | call c k => simp [Worker.open, enter]

theorem stopping_enter (room : ℕ) (startup : Bool) (prog : Reader (List PageTask)) :
    (w.enter room startup prog).stopping = w.stopping := by cases prog <;> rfl

theorem read_enter {room : ℕ} {startup : Bool} {prog p : Reader (List PageTask)}
    (h : (w.enter room startup prog).phase.read = some p) : p = prog ∧ ∃ c k, prog = .call c k := by
  cases prog with
  | ret tasks =>
    simp only [enter] at h
    split at h <;> cases h
  | raise e => cases h
  | call c k => exact ⟨(Option.some.inj h).symm, c, k, rfl⟩

theorem raise_of_enter_stopped {room : ℕ} {startup : Bool} {prog : Reader (List PageTask)}
    (h : (w.enter room startup prog).phase = .stopped) : ∃ e, prog = .raise e := by
  cases prog with
  | ret tasks =>
    simp only [enter] at h
    split at h <;> cases h
  | raise e => exact ⟨e, rfl⟩
  | call c k => cases h

end Worker

namespace Shift
variable {cfg : WorkerSettings} {consumer : Consumer} {s s' : Shift}

/-- Every task that was taken has been handled, or its handler has not finished; a read that goes
on has a command out; and the loop has ended in one of two ways. -/
structure Sound (s : Shift) : Prop where
  account : s.taken.Perm (s.handled ++ s.worker.open.map Handle.task)
  reading : ∀ prog, s.worker.phase.read = some prog → ∃ c k, prog = .call c k
  ended : s.worker.phase = .stopped →
    s.raised = true ∨ s.worker.stopping = true ∧ s.worker.inFlight = []

/-- The books after a step. -/
theorem exists_of_step {l : Label} (h : s.step cfg consumer l = some s') :
    s.worker.Acts cfg consumer l s'.worker ∧
      s'.taken = s.taken ++
        (s'.worker.inFlight.drop s.worker.inFlight.length).map Handle.task ∧
      s'.handled = s.handled ++ finishes s.worker l ∧
      s'.raised = (s.raised || raises consumer s.worker l) := by
  obtain ⟨w, hw, rfl⟩ := Option.map_eq_some_iff.mp h
  exact ⟨Worker.acts_of_step hw, rfl, rfl, rfl⟩

/-- The books balance again if what was open before and what is new is what has finished and what
is open now. -/
theorem Sound.balance (h : s.Sound) {new finished : List PageTask} {w : Worker}
    (hbooks : (s.worker.open.map Handle.task ++ new).Perm (finished ++ w.open.map Handle.task)) :
    (s.taken ++ new).Perm (s.handled ++ finished ++ w.open.map Handle.task) := by
  have htaken := h.account.append_right new
  rw [List.append_assoc] at htaken ⊢
  exact htaken.trans (hbooks.append_left s.handled)

theorem Sound.step {l : Label} (h : s.Sound) (hstep : s.step cfg consumer l = some s') :
    s'.Sound := by
  obtain ⟨hacts, htaken, hhandled, hraised⟩ := exists_of_step hstep
  rcases s' with ⟨w, taken, handled, raised⟩
  dsimp only at hacts htaken hhandled hraised
  subst htaken hhandled hraised
  cases hacts with
  | others hl lanes stopping hstop =>
    have hfinishes : finishes s.worker l = [] := by cases l <;> first | rfl | cases hl
    refine ⟨h.balance ?_, h.reading, fun hphase => ?_⟩
    · simp [hfinishes, Worker.open]
    · rcases h.ended hphase with hraised | ⟨hstopping, hnone⟩
      · exact .inl (by simp [hraised])
      · exact .inr ⟨hstop hstopping, hnone⟩
  | @answer now fault room startup c k hphase =>
    refine ⟨h.balance ?_, fun prog hprog => ?_, fun hended => ?_⟩
    · rw [Worker.open_enter]
      exact .refl _
    · obtain ⟨rfl, hcall⟩ := Worker.read_enter hprog
      exact hcall
    · obtain ⟨e, he⟩ := Worker.raise_of_enter_stopped hended
      exact .inl (by simp [raises, hphase, he])
  | @finish i handle hi hrun =>
    refine ⟨h.balance ?_, h.reading, fun hended => ?_⟩
    · have hdrop : (s.worker.finish i handle).inFlight.drop s.worker.inFlight.length = [] :=
        List.drop_eq_nil_of_le (by simp [Worker.finish])
      simpa [hdrop, finishes, hi] using (Worker.open_finish hi hrun).map Handle.task
    · rcases h.ended hended with hraised | ⟨hstopping, hnone⟩
      · exact .inl (by simp [hraised])
      · simp [hnone] at hi
  | read hphase hgo =>
    refine ⟨h.balance ?_, fun prog hprog => ?_, fun hended => ?_⟩
    · rw [Worker.open_enter]
      exact .refl _
    · obtain ⟨rfl, hcall⟩ := Worker.read_enter hprog
      exact hcall
    · obtain ⟨e, he⟩ := Worker.raise_of_enter_stopped hended
      exact absurd he (Worker.nextRead_ne_raise _ _ e)
  | pause hphase =>
    refine ⟨h.balance ?_, fun _ hprog => (by cases hprog), fun hended => by cases hended⟩
    simp [finishes, Worker.open]
  | collect hphase hdone =>
    refine ⟨h.balance ?_, fun _ hprog => (by cases hprog), fun hended => by cases hended⟩
    have hdrop : (s.worker.inFlight.filter fun h => !h.finished).drop s.worker.inFlight.length = [] :=
      List.drop_eq_nil_of_le (List.length_filter_le _ _)
    simp [finishes, Worker.open, hdrop]
  | resume hphase hgo =>
    refine ⟨h.balance ?_, fun _ hprog => (by cases hprog), fun hended => by cases hended⟩
    simp [finishes, Worker.open]
  | stop hl hphase hnone hstop =>
    refine ⟨h.balance ?_, fun _ hprog => (by cases hprog), fun _ => .inr ⟨hstop, hnone⟩⟩
    have hfinishes : finishes s.worker l = [] := by rcases hl with rfl | rfl <;> rfl
    simp [hfinishes, Worker.open]

theorem sound_start (cfg : WorkerSettings) (consumer : Consumer) (lanes : Lanes) :
    (system cfg consumer lanes).init.Sound :=
  ⟨.refl _, fun _ hprog => ⟨_, _, (Option.some.inj hprog).symm⟩, (fun hended => nomatch hended)⟩

theorem Sound.of_reach {lanes : Lanes} (hs : (system cfg consumer lanes).Reach System.anyStep s) :
    s.Sound :=
  hs.invariant (sound_start cfg consumer lanes) fun _ _ _ h _ hstep => h.step hstep

/-! ## On the way to the end -/

/-- What is left to do: the read that goes on, handlers to finish, handlers to collect, turns of the
loop. -/
def rank (s : Shift) : Option (Reader (List PageTask)) × ℕ × ℕ × ℕ :=
  (s.worker.phase.read, s.worker.open.length, s.worker.inFlight.length, s.worker.phase.togo)

def Less : Option (Reader (List PageTask)) × ℕ × ℕ × ℕ →
    Option (Reader (List PageTask)) × ℕ × ℕ × ℕ → Prop :=
  Prod.Lex Prog.Behind (Prod.Lex (· < ·) (Prod.Lex (· < ·) (· < ·)))

theorem wellFounded_less : WellFounded Less :=
  WellFounded.prod_lex Prog.wellFounded_behind
    (WellFounded.prod_lex Nat.lt_wfRel.wf (WellFounded.prod_lex Nat.lt_wfRel.wf Nat.lt_wfRel.wf))

/-- With a stop requested nothing adds to what is left to do, and the worker's own steps take
something off. -/
theorem rank_step {l : Label} (hstop : s.worker.stopping = true)
    (hstep : s.step cfg consumer l = some s') :
    Less s'.rank s.rank ∨ own l = false ∧ s'.rank = s.rank := by
  obtain ⟨hacts, -⟩ := exists_of_step hstep
  rcases s' with ⟨w, taken, handled, raised⟩
  dsimp only at hacts
  cases hacts with
  | others hl lanes stopping hstop => exact .inr ⟨hl, rfl⟩
  | @answer now fault room startup c k hphase =>
    refine .inl (Prod.Lex.left _ _ ?_)
    rw [hphase]
    cases hread : (Worker.enter _ room startup (k _)).phase.read with
    | none => exact .finished _
    | some p =>
      obtain ⟨rfl, -⟩ := Worker.read_enter hread
      exact .next (.call c k _)
  | finish hi hrun =>
    refine .inl (Prod.Lex.right _ (Prod.Lex.left _ _ ?_))
    rw [(Worker.open_finish hi hrun).length_eq]
    exact Nat.lt_succ_self _
  | read hphase hgo => simp [hstop] at hgo
  | pause hphase =>
    refine .inl ?_
    rw [rank, rank, hphase]
    exact Prod.Lex.right _ (Prod.Lex.right _ (Prod.Lex.right _ (Nat.lt_succ_self 1)))
  | collect hphase hdone =>
    have hopen : s.worker.open.length =
        ((s.worker.inFlight.filter fun h => !h.finished).filter fun h => !h.finished).length := by
      rw [List.filter_filter, Worker.open]
      simp
    have hfewer : (s.worker.inFlight.filter fun h => !h.finished).length <
        s.worker.inFlight.length := by
      obtain ⟨handle, hmem, hfinished⟩ := List.any_eq_true.mp hdone
      exact List.length_filter_lt_length_iff_exists.mpr ⟨handle, hmem, by simp [hfinished]⟩
    refine .inl ?_
    rw [rank, rank, hphase, hopen]
    exact Prod.Lex.right _ (Prod.Lex.right _ (Prod.Lex.left _ _ hfewer))
  | resume hphase hgo => simp [hstop] at hgo
  | stop hl hphase hnone hstop =>
    refine .inl ?_
    rcases hphase with hphase | hphase
    · rw [rank, rank, hphase]
      exact Prod.Lex.right _ (Prod.Lex.right _ (Prod.Lex.right _ (Nat.zero_lt_succ _)))
    · rw [rank, rank, hphase]
      exact Prod.Lex.right _ (Prod.Lex.right _ (Prod.Lex.right _ (Nat.zero_lt_succ _)))

/-- As long as the loop has not ended something of its own can happen. -/
theorem Sound.enabled {lanes : Lanes} (h : s.Sound) (hrun : s.worker.phase ≠ .stopped) :
    System.Run.Enabled (system cfg consumer lanes) own s := by
  have hcan : ∀ l w, own l = true → s.worker.step cfg consumer l = some w →
      System.Run.Enabled (system cfg consumer lanes) own s := fun l w hl hw =>
    ⟨l, _, hl, Option.map_eq_some_iff.mpr ⟨w, hw, rfl⟩⟩
  cases hphase : s.worker.phase with
  | reading room startup prog =>
    obtain ⟨c, k, rfl⟩ := h.reading prog (by rw [hphase]; rfl)
    exact hcan (.answer 0 none) _ rfl (by simp only [Worker.step, hphase]; rfl)
  | looping =>
    cases hstep : s.worker.step cfg consumer .loop with
    | some w => exact hcan .loop w rfl hstep
    | none =>
      simp only [Worker.step, hphase] at hstep
      split at hstep
      · cases hstep
      · split at hstep <;> cases hstep
  | idling =>
    cases hstep : s.worker.step cfg consumer .idle with
    | some w => exact hcan .idle w rfl hstep
    | none =>
      -- nobody has finished, but somebody is there, and can finish
      simp only [Worker.step, hphase] at hstep
      split at hstep
      next => cases hstep
      next hsome =>
        split at hstep
        next => cases hstep
        next hdone =>
          obtain ⟨handle, hmem⟩ := List.exists_mem_of_ne_nil _ (mt List.isEmpty_iff.mpr hsome)
          obtain ⟨i, hi⟩ := List.mem_iff_getElem?.mp hmem
          have hopen : handle.finished = false := by
            by_contra hfinished
            exact hdone (List.any_eq_true.mpr ⟨handle, hmem, by simpa using hfinished⟩)
          exact hcan (.finish i) _ rfl (by simp only [Worker.step, hi, hopen]; rfl)
  | stopped => exact absurd hphase hrun

/-! ## The end -/

/-- The loop does not come back. -/
theorem stopped_step {l : Label} (hs : s.worker.phase = .stopped)
    (hstep : s.step cfg consumer l = some s') : s'.worker.phase = .stopped := by
  obtain ⟨hacts, -⟩ := exists_of_step hstep
  rcases s' with ⟨w, taken, handled, raised⟩
  dsimp only at hacts ⊢
  cases hacts with
  | others => exact hs
  | answer _ _ hphase => simp [hs] at hphase
  | finish => exact hs
  | read hphase => simp [hs] at hphase
  | pause hphase => simp [hs] at hphase
  | collect hphase => simp [hs] at hphase
  | resume hphase => simp [hs] at hphase
  | stop => rfl

theorem stopping_step {l : Label} (hs : s.worker.stopping = true)
    (hstep : s.step cfg consumer l = some s') : s'.worker.stopping = true := by
  obtain ⟨hacts, -⟩ := exists_of_step hstep
  rcases s' with ⟨w, taken, handled, raised⟩
  dsimp only at hacts ⊢
  cases hacts with
  | others _ _ _ hstop => exact hstop hs
  | answer => exact (Worker.stopping_enter ..).trans hs
  | finish => exact hs
  | read => exact (Worker.stopping_enter ..).trans hs
  | pause => exact hs
  | collect => exact hs
  | resume => exact hs
  | stop => exact hs

/-- With a stop requested, only the read that was going on brings tasks. -/
theorem taken_step {l : Label} (hs : s.worker.stopping = true) (hread : s.worker.phase.read = none)
    (hstep : s.step cfg consumer l = some s') :
    s'.worker.phase.read = none ∧ s'.taken = s.taken := by
  obtain ⟨hacts, htaken, -⟩ := exists_of_step hstep
  have hnone : ∀ hs : List Handle, hs.length ≤ s.worker.inFlight.length →
      s.taken ++ (hs.drop s.worker.inFlight.length).map Handle.task = s.taken := fun hs hle => by
    rw [List.drop_eq_nil_of_le hle, List.map_nil, List.append_nil]
  rcases s' with ⟨w, taken, handled, raised⟩
  dsimp only at hacts htaken ⊢
  subst htaken
  cases hacts with
  | others => exact ⟨hread, hnone _ le_rfl⟩
  | answer _ _ hphase => simp [hphase, Phase.read] at hread
  | finish => exact ⟨hread, hnone _ (by simp [Worker.finish])⟩
  | read _ hgo => simp [hs] at hgo
  | pause => exact ⟨rfl, hnone _ le_rfl⟩
  | collect => exact ⟨rfl, hnone _ (List.length_filter_le _ _)⟩
  | resume => exact ⟨rfl, hnone _ le_rfl⟩
  | stop => exact ⟨rfl, hnone _ le_rfl⟩

/-- At the end there is nothing to do. -/
theorem not_enabled {lanes : Lanes} (hphase : s.worker.phase = .stopped)
    (hnone : s.worker.inFlight = []) :
    ¬System.Run.Enabled (system cfg consumer lanes) own s := by
  rintro ⟨l, s', hl, hstep⟩
  obtain ⟨hacts, -⟩ := exists_of_step hstep
  rcases s' with ⟨w, taken, handled, raised⟩
  dsimp only at hacts
  cases hacts with
  | others hother => simp [hl] at hother
  | answer _ _ hreading => simp [hphase] at hreading
  | finish hi => simp [hnone] at hi
  | read hlooping => simp [hphase] at hlooping
  | pause hlooping => simp [hphase] at hlooping
  | collect hidling => simp [hphase] at hidling
  | resume hidling => simp [hphase] at hidling
  | stop _ hturn => simp [hphase] at hturn

/-- **The worker drains.**  Take any settings, any content of the lanes and any run in which the
worker does not keep what it can do waiting for ever, whatever others do to the lanes and whatever
its reads meet.  From some moment after a stop is requested the loop has ended; unless a read
raised, it holds nothing then, and every task it ever took has been handled to the end, once.  No
task is taken after the request but by a read that was going on. -/
theorem drained {lanes : Lanes} (r : (system cfg consumer lanes).Run) (hlive : r.Live own) (n : ℕ)
    (hstop : (r.state n).worker.stopping = true) :
    (∃ m, n ≤ m ∧ ∀ k, m ≤ k → (r.state k).worker.phase = .stopped ∧
      ((r.state k).raised = false →
        (r.state k).worker.inFlight = [] ∧ (r.state k).taken.Perm (r.state k).handled)) ∧
    ((r.state n).worker.phase.read = none →
      ∀ k, n ≤ k → (r.state k).taken = (r.state n).taken) := by
  have hsound : ∀ k, (r.state k).Sound := fun k => Sound.of_reach (r.reach k)
  have hstopping := r.forever (P := fun s => s.worker.stopping = true) hstop
    fun _ _ _ => stopping_step
  constructor
  · obtain ⟨m, hm, hend⟩ := System.Run.eventually hlive
      (fun s => s.worker.phase = .stopped) wellFounded_less rank n
      (fun m hm _ => rank_step (hstopping m hm) (r.next m))
      fun m _ hgoal => (hsound m).enabled hgoal
    have hended := r.forever (P := fun s => s.worker.phase = .stopped) hend
      fun _ _ _ => stopped_step
    refine ⟨m, hm, fun k hk => ⟨hended k hk, fun hraised => ?_⟩⟩
    have hnone : (r.state k).worker.inFlight = [] := by
      rcases (hsound k).ended (hended k hk) with hyes | ⟨-, hnone⟩
      · simp [hraised] at hyes
      · exact hnone
    have haccount := (hsound k).account
    rw [Worker.open, hnone] at haccount
    exact ⟨hnone, by simpa using haccount⟩
  · intro hread k hk
    have hfrozen := r.forever
      (P := fun s => s.worker.stopping = true ∧ s.worker.phase.read = none ∧
        s.taken = (r.state n).taken) ⟨hstop, hread, rfl⟩
      (fun s l s' ⟨hs, hread, htaken⟩ hstep => ⟨stopping_step hs hstep,
        (taken_step hs hread hstep).1, (taken_step hs hread hstep).2.trans htaken⟩) k hk
    exact hfrozen.2.2

/-- Two slots: a stop is requested while a read finds nothing in the lead lane; the read goes on,
brings a page from the main lane, and the page finishes. -/
def lastPage : List Label :=
  [.answer 1 none, .answer 1 none, .loop, .answer 1 none, .requestStop,
    .arrive .main 1 (enqueueFields ⟨0, 0⟩ 1 "t"), .answer 1 none, .loop, .finish 0, .idle, .loop]

abbrev twoSlots : System Shift Label := system { workerConcurrency := 2 } 1 fun _ => .empty

theorem drained_lastPage :
    ∃ r : twoSlots.Run, r.Live own ∧
      (r.state 5).worker.stopping = true ∧ (r.state 5).taken.length = 0 ∧
      (r.state 7).taken.length = 1 ∧
      (∃ m, 5 ≤ m ∧ ∀ k, m ≤ k → (r.state k).worker.phase = .stopped ∧
        ((r.state k).raised = false →
          (r.state k).worker.inFlight = [] ∧ (r.state k).taken.Perm (r.state k).handled)) ∧
      ((r.state 5).worker.phase.read = none →
        ∀ k, 5 ≤ k → (r.state k).taken = (r.state 5).taken) := by
  have hruns : (twoSlots.runAll System.anyStep twoSlots.init lastPage).any (fun s =>
      s.worker.stopping && s.worker.inFlight.isEmpty && s.worker.phase.read.isNone &&
        decide (s.worker.phase.togo = 0)) = true := by
    decide +kernel
  obtain ⟨s, hrun, hs⟩ := (Option.any_eq_true _ _).mp hruns
  simp only [Bool.and_eq_true, List.isEmpty_iff, Option.isNone_iff_eq_none,
    decide_eq_true_eq] at hs
  obtain ⟨⟨⟨hstop, hnone⟩, hread⟩, htogo⟩ := hs
  have hphase : s.worker.phase = .stopped := by
    cases hp : s.worker.phase <;> simp [hp, Phase.read, Phase.togo] at hread htogo ⊢
  have hrest : twoSlots.step s .requestStop = some s := by
    rcases s with ⟨⟨lanes, phase, inFlight, leadInFlight, stopping⟩, taken, handled, raised⟩
    dsimp only at hstop hnone
    subst hstop hnone
    simp [system, Shift.step, Worker.step, finishes, raises]
  have hfive : ((twoSlots.runAll System.anyStep twoSlots.init (lastPage.take 5)).getD
      twoSlots.init).worker.stopping = true ∧
      ((twoSlots.runAll System.anyStep twoSlots.init (lastPage.take 5)).getD
        twoSlots.init).taken.length = 0 := by
    decide +kernel
  have hseven : ((twoSlots.runAll System.anyStep twoSlots.init (lastPage.take 7)).getD
      twoSlots.init).taken.length = 1 := by
    decide +kernel
  have hlive := System.Run.live_ofList hrun hrest (not_enabled hphase hnone)
  exact ⟨.ofList _ lastPage .requestStop hrun hrest, hlive, hfive.1, hfive.2, hseven,
    drained _ hlive 5 hfive.1⟩

end Shift

end OcrOrchestrator.Dispatch
