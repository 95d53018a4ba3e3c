import OcrOrchestrator.Lib.Dict
import OcrOrchestrator.Lib.System
import OcrOrchestrator.Queue.Accounting
import OcrOrchestrator.Worker.Checkpoint

/-!
# Polling a job

`GET /jobs/{job_id}` reads the job hash, and after it the state of one page after the other: the
pipeline of `page_states` is not a transaction, so workers may commit between any two of its
commands and the answer need not describe any single moment.  What makes it usable is that the
counter is read first, and that no page leaves a terminal state.

The workers are the fleet, whose keys do not expire: after `result_ttl_s` of inactivity the answer
is a 404, and before it a page that lost its hash is counted as missing.  One client polls, any
number of times; its requests do not disturb anybody, so others may do the same beside it.  The id
and the file name, which the answer repeats, are left out.

## Main definitions

* `JobView`, `jobView` — the body of an answer.
* `Polling`, `Polling.system` — the fleet and a client.
* `JobView.Coherent`, `Polling.Answer.Before` — what is wanted of an answer, and of two in a row.
* `Polling.answers_of_reach` — every answer is coherent, and progress never goes back.
-/

namespace OcrOrchestrator

open Lib

/-! ## The body of an answer -/

/-- The name a page is counted under. -/
def countedAs (state : Option PageState) : String := (state.map PageState.value).getD "MISSING"

/-- The loop over the states. -/
def stateCounts (states : List (Option PageState)) : Dict String ℕ :=
  states.foldl (fun counts s => counts.update (countedAs s) fun o => o.getD 0 + 1) []

structure JobView where
  totalPages : ℕ
  done : ℕ
  complete : Bool
  stateCounts : Dict String ℕ
  deriving DecidableEq

/-- What `get_job` returns. -/
def jobView (total done : ℕ) (states : List (Option PageState)) : JobView :=
  ⟨total, done, decide (total ≤ done), stateCounts states⟩

namespace JobView

/-- How many pages are counted in a state of this kind. -/
def pages (v : JobView) (p : PageState → Bool) : ℕ :=
  (PageState.all.map fun st => if p st then (v.stateCounts.get st.value).getD 0 else 0).sum

/-- **A coherent answer**: every page is counted, in a state it can be in; no more of them are
reported done than are counted as terminal; and a complete job has no other pages. -/
structure Coherent (v : JobView) : Prop where
  counted : v.pages (fun _ => true) = v.totalPages
  done_le : v.done ≤ v.pages PageState.terminal
  complete_iff : v.complete = true ↔ v.done = v.totalPages
  finished : v.complete = true → v.pages (fun st => !st.terminal) = 0

end JobView

theorem get_stateCounts (states : List (Option PageState)) (name : String) :
    ((stateCounts states).get name).getD 0 = states.countP fun s => countedAs s = name := by
  have hloop := Dict.getD_foldl_update 0 countedAs (fun _ n => n + 1) states [] name
  have hcount : ∀ (l : List (Option PageState)) (n : ℕ),
      l.foldl (fun n _ => n + 1) n = n + l.length := by
    intro l
    induction l with
    | nil => exact fun n => rfl
    | cons s l ih =>
      intro n
      rw [List.foldl_cons, ih, List.length_cons]
      omega
  rw [stateCounts, hloop, hcount, List.countP_eq_length_filter]
  simp

/-- One more page in a state. -/
theorem sum_states (p : PageState → Bool) (st : PageState) :
    (PageState.all.map fun st' => if p st' ∧ st.value = st'.value then 1 else 0).sum =
      if p st then 1 else 0 := by
  cases st <;> simp [PageState.all, PageState.value]

theorem pages_jobView (total done : ℕ) (states : List (Option PageState))
    (p : PageState → Bool) :
    (jobView total done states).pages p = states.countP fun s => s.any p := by
  simp only [JobView.pages, jobView, get_stateCounts]
  induction states with
  | nil => simp
  | cons s states ih =>
    rw [List.countP_cons, ← ih]
    cases s with
    | none => simp [PageState.all, countedAs, PageState.value]
    | some st =>
      rw [Option.any_some, ← sum_states, ← List.sum_map_add]
      congr 1
      refine List.map_congr_left fun st' _ => ?_
      by_cases hname : st.value = st'.value <;>
        cases p st' <;> simp [countedAs, hname]

/-! ## A client that polls -/

/-- How a request has ended. -/
inductive Polling.Answer where
  /-- 404. -/
  | notFound
  /-- The hash has no `total_pages`. -/
  | keyError
  | ok (view : JobView)

/-- Where the request of the client is. -/
inductive Polling.Request where
  | none
  /-- What the job hash said, and the states read so far. -/
  | reading (total done : ℕ) (states : List (Option PageState))

/-- The fleet, and the client with the answers it has got, oldest first. -/
structure Polling where
  fleet : Fleet
  request : Polling.Request
  answers : List Polling.Answer

namespace Polling

inductive Label where
  /-- A step of the workers. -/
  | worker (l : OcrOrchestrator.Label)
  | getJob
  /-- `HGET` for the next page. -/
  | pageState
  | respond
  /-- A command raises, or the client goes away. -/
  | abandon

def step (cfg : Settings) (job : JobId) (s : Polling) : Label → Option Polling
  | .worker l => (s.fleet.step cfg l).map fun fleet => { s with fleet }
  | .getJob =>
    match s.request with
    | .reading .. => none
    | .none =>
      match s.fleet.redis.jobs job with
      | none => some { s with answers := s.answers ++ [.notFound] }
      | some hash =>
        match hash.totalPages with
        | none => some { s with answers := s.answers ++ [.keyError] }
        | some total => some { s with request := .reading total (hash.doneCount.getD 0) [] }
  | .pageState =>
    match s.request with
    | .none => none
    | .reading total done states =>
      if states.length < total then
        let states := states ++ [s.fleet.redis.state? ⟨job, states.length⟩]
        some { s with request := .reading total done states }
      else none
  | .respond =>
    match s.request with
    | .none => none
    | .reading total done states =>
      if states.length < total then none
      else some { s with
        request := .none
        answers := s.answers ++ [.ok (jobView total done states)] }
  | .abandon => some { s with request := .none }

def system (cfg : Settings) (job : JobId) : System Polling Label :=
  ⟨⟨.empty, .none, []⟩, step cfg job⟩

end Polling

/-- **Two answers in a row**: a job that was there stays, and what was counted as terminal in the
first is reported done in the second. -/
def Polling.Answer.Before : Polling.Answer → Polling.Answer → Prop
  | .ok v, .ok w => v.totalPages = w.totalPages ∧ v.pages PageState.terminal ≤ w.done
  | .ok _, .notFound => False
  | _, _ => True

/-! ## The counters of the fleet -/

/-- The counter of the job is right, and none of its pages is missing. -/
structure Whole (s : Redis) (job : JobId) (n : ℕ) : Prop extends Accounted s job n where
  present : ∀ i : ℕ, i < n → (s.pages ⟨job, i⟩).isSome = true

section Fleet
variable {cfg : Settings} {f f' : Fleet} {l : Label} {job : JobId} {n : ℕ}

theorem Whole.congr {s s' : Redis} (h : Whole s job n) (hjobs : s'.jobs = s.jobs)
    (hpages : s'.pages = s.pages) : Whole s' job n where
  toAccounted := h.toAccounted.congr (by rw [hjobs]) fun i => by rw [Redis.state?, hpages]; rfl
  present := by
    rw [hpages]
    exact h.present

theorem Whole.unique {s : Redis} {n' : ℕ} (h : Whole s job n) (h' : Whole s job n') : n = n' := by
  obtain ⟨j, hj, hn, -⟩ := h.hash
  obtain ⟨j', hj', hn', -⟩ := h'.hash
  obtain rfl := Option.some.inj (hj.symm.trans hj')
  exact Option.some.inj (hn.symm.trans hn')

/-- A terminal page stays as it is. -/
theorem Agrees.terminal_step (h : Agrees f) (hstep : Step cfg f l f') {key : PageKey}
    {st : PageState} (hst : f.redis.state? key = some st) (hterm : st.terminal = true) :
    f'.redis.state? key = some st := by
  obtain ⟨page, hpage, rfl⟩ := Option.map_eq_some_iff.mp hst
  cases hstep with
  | submit job totalPages now hnew =>
    have hjob : key.job ≠ job := by
      rintro rfl
      simpa [hnew] using h.pageJob key (by simp [hpage])
    simpa [Redis.state?, initJob, hjob] using hst
  | @run t o p c k hparty hprog =>
    have hord := h.parties t p hparty
    rw [hprog] at hord
    obtain ⟨page', hpage', hcase⟩ := Cmd.pages_exec_some cfg o c hpage
    rcases hcase with ⟨hsame, -⟩ | ⟨target, allowed, extra, rfl, hin, -⟩
    · rw [← hsame]
      simp [Fleet.resume, Redis.state?, hpage']
    · -- Nothing is asked of a page that is done.
      have hopen := terminal_eq_false_of_mem_predecessors (hord.1.1 _ hin)
      rw [hterm] at hopen
      cases hopen
  | _ => exact hst

/-- **One step** of the fleet keeps the job whole. -/
theorem Agrees.whole_step (h : Agrees f) (hstep : Step cfg f l f') (hw : Whole f.redis job n) :
    Whole f'.redis job n := by
  cases hstep with
  | submit job' totalPages now hnew =>
    have hjob : job ≠ job' := by
      rintro rfl
      obtain ⟨j, hj, -⟩ := hw.hash
      simp [hnew] at hj
    refine ⟨hw.toAccounted.congr (by simp [initJob, hjob]) fun i => ?_, fun i hi => ?_⟩
    · simp [Redis.state?, initJob, hjob]
    · simpa [initJob, hjob] using hw.present i hi
  | @run t o p c k hparty hprog =>
    have hord := h.parties t p hparty
    rw [hprog] at hord
    refine ⟨hw.toAccounted.exec cfg o c ?_, fun i hi => ?_⟩
    · rintro key target allowed extra rfl
      exact hord.1.1
    · obtain ⟨page, hpage⟩ := Option.isSome_iff_exists.mp (hw.present i hi)
      obtain ⟨page', hpage', -⟩ := Cmd.pages_exec_some cfg o c hpage
      simp [Fleet.resume, hpage']
  | _ => exact hw.congr rfl rfl

/-- A new job is whole. -/
theorem Agrees.whole_submit (h : Agrees f) (now : ℕ) (hnew : f.redis.jobs job = none) :
    Whole (initJob cfg now job n f.redis) job n := by
  refine ⟨Accounted.initJob cfg now n fun i => ?_, fun i hi => ?_⟩
  · simpa [hnew] using h.pageJob ⟨job, i⟩
  · simp [initJob, hi]

/-- No command creates a job. -/
theorem Agrees.jobs_exec_none (h : Agrees f) (cfg : Settings) (o : Oracle) (c : Cmd)
    (hnone : f.redis.jobs job = none) : (c.exec cfg o f.redis).2.jobs job = none := by
  rcases Cmd.exec_state cfg o c f.redis with hs | hs <;> rw [hs]
  · exact hnone
  · cases c with
    | evalTransition key target allowed extra =>
      have hpage : key.job = job → f.redis.pages key = none := by
        rintro rfl
        cases hp : f.redis.pages key with
        | none => rfl
        | some page => simpa [hnone] using h.pageJob key (by simp [hp])
      by_cases hj : job = key.job
      · subst hj
        simpa [Cmd.apply, hpage rfl, transitionScript] using hnone
      · simpa [Cmd.apply, hj] using hnone
    | _ => exact hnone

/-- Every job is whole. -/
theorem Agrees.jobs_step (h : Agrees f) (hstep : Step cfg f l f')
    (hw : ∀ job, (f.redis.jobs job).isSome = true → ∃ n, Whole f.redis job n) (job : JobId)
    (hjob : (f'.redis.jobs job).isSome = true) : ∃ n, Whole f'.redis job n := by
  by_cases hold : (f.redis.jobs job).isSome = true
  · obtain ⟨n, hn⟩ := hw job hold
    exact ⟨n, h.whole_step hstep hn⟩
  · rw [Bool.not_eq_true, Option.isSome_eq_false_iff, Option.isNone_iff_eq_none] at hold
    cases hstep with
    | submit job' totalPages now hnew =>
      by_cases hj : job = job'
      · subst hj
        exact ⟨totalPages, h.whole_submit now hnew⟩
      · simp [initJob, hj, hold] at hjob
    | @run t o p c k hparty hprog =>
      have hnone := h.jobs_exec_none cfg o c hold
      simp [Fleet.resume, hnone] at hjob
    | _ => simp [Fleet.spawn, hold] at hjob

end Fleet

/-! ## One request -/

/-- Was the page read as terminal? -/
def seenTerminal (state : Option PageState) : Bool := state.any PageState.terminal

theorem Redis.terminalCount_eq (s : Redis) (job : JobId) (n : ℕ) :
    s.terminalCount job n = (List.range n).countP (s.terminalAt job) := by
  induction n with
  | zero => rfl
  | succ n ih =>
    rw [List.range_succ, List.countP_append, ← ih, Redis.terminalCount, Finset.range_add_one,
      Finset.filter_insert]
    cases hn : s.terminalAt job n <;> simp [Redis.terminalCount, hn]

/-- A request under way: what was reported done has been read as terminal, or is still to be
read and terminal by now; and what has been read as terminal is. -/
structure Reading (r : Redis) (job : JobId) (total done : ℕ) (states : List (Option PageState)) :
    Prop where
  whole : Whole r job total
  length_le : states.length ≤ total
  present : ∀ s ∈ states, s.isSome = true
  done_le : done ≤ states.countP seenTerminal +
    ((List.range total).drop states.length).countP (r.terminalAt job)
  seen_le : states.countP seenTerminal ≤
    ((List.range total).take states.length).countP (r.terminalAt job)

namespace Reading
variable {r r' : Redis} {job : JobId} {total done : ℕ} {states : List (Option PageState)}

/-- The job hash has been read. -/
theorem start (h : Whole r job total) : Reading r job total (r.terminalCount job total) [] where
  whole := h
  length_le := Nat.zero_le _
  present := by simp
  done_le := by simp [Redis.terminalCount_eq]
  seen_le := by simp

/-- Others may go on meanwhile. -/
theorem goOn (h : Reading r job total done states) (hw : Whole r' job total)
    (hterm : ∀ i, r.terminalAt job i = true → r'.terminalAt job i = true) :
    Reading r' job total done states where
  whole := hw
  length_le := h.length_le
  present := h.present
  done_le := h.done_le.trans (Nat.add_le_add_left
    (List.countP_mono_left fun i _ hi => hterm i hi) _)
  seen_le := h.seen_le.trans (List.countP_mono_left fun i _ hi => hterm i hi)

/-- The next page is read. -/
theorem next (h : Reading r job total done states) (hlt : states.length < total) :
    Reading r job total done (states ++ [r.state? ⟨job, states.length⟩]) := by
  have hlen : states.length < (List.range total).length := by simpa using hlt
  have hpage : seenTerminal (r.state? ⟨job, states.length⟩) = r.terminalAt job states.length := rfl
  refine ⟨h.whole, ?_, ?_, ?_, ?_⟩
  · rw [List.length_append]
    exact hlt
  · intro s hs
    rcases List.mem_append.mp hs with hs | hs
    · exact h.present s hs
    · obtain rfl := List.mem_singleton.mp hs
      rw [Redis.isSome_state?]
      exact h.whole.present _ hlt
  · have hdone := h.done_le
    rw [List.drop_eq_getElem_cons hlen, List.getElem_range, List.countP_cons] at hdone
    rw [List.countP_append, List.countP_singleton, hpage, List.length_append,
      List.length_singleton]
    omega
  · have hseen := h.seen_le
    rw [List.countP_append, List.countP_singleton, hpage, List.length_append,
      List.length_singleton, List.take_add_one, List.getElem?_eq_getElem hlen, List.getElem_range,
      Option.toList_some, List.countP_append, List.countP_singleton]
    omega

/-- Every page has been read. -/
theorem coherent (h : Reading r job total done states) (hall : total ≤ states.length) :
    (jobView total done states).Coherent ∧
      (jobView total done states).pages PageState.terminal ≤ r.terminalCount job total := by
  have hlen : states.length = total := le_antisymm h.length_le hall
  have hcounted : states.countP (fun s => s.any fun _ => true) = total := by
    rw [← hlen, List.countP_eq_length]
    intro s hs
    obtain ⟨st, rfl⟩ := Option.isSome_iff_exists.mp (h.present s hs)
    rfl
  have hdone : done ≤ states.countP seenTerminal := by
    have hle := h.done_le
    rw [List.drop_of_length_le (by simpa using hall)] at hle
    exact hle
  have hseen : states.countP seenTerminal ≤ r.terminalCount job total := by
    simpa [hlen, Redis.terminalCount_eq] using h.seen_le
  have hle := states.countP_le_length (p := seenTerminal)
  refine ⟨⟨?_, ?_, ?_, ?_⟩, ?_⟩
  · rw [pages_jobView]
    exact hcounted
  · rw [pages_jobView]
    exact hdone
  · simp only [jobView, decide_eq_true_eq]
    omega
  · intro hcomplete
    have hcomplete : total ≤ done := of_decide_eq_true hcomplete
    have hsplit := states.length_eq_countP_add_countP seenTerminal
    have hrest : states.countP (fun s => s.any fun st => !st.terminal) ≤
        states.countP fun s => ¬seenTerminal s = true := by
      refine List.countP_mono_left fun s _ hs => ?_
      cases s with
      | none => cases hs
      | some st => simpa [seenTerminal] using hs
    rw [pages_jobView]
    omega
  · rw [pages_jobView]
    exact hseen

end Reading

/-! ## Any number of requests -/

namespace Polling
variable {cfg : Settings} {job : JobId} {s s' : Polling}

/-- The invariant. -/
structure Fair (job : JobId) (s : Polling) : Prop where
  agrees : Agrees s.fleet
  jobs : ∀ job, (s.fleet.redis.jobs job).isSome = true → ∃ n, Whole s.fleet.redis job n
  reading : ∀ total done states, s.request = .reading total done states →
    Reading s.fleet.redis job total done states ∧
      ∀ v, .ok v ∈ s.answers → v.pages PageState.terminal ≤ done
  kept : ∀ v, .ok v ∈ s.answers → v.Coherent ∧ Whole s.fleet.redis job v.totalPages ∧
    v.pages PageState.terminal ≤ s.fleet.redis.terminalCount job v.totalPages
  noKeyError : .keyError ∉ s.answers
  ordered : s.answers.Pairwise Answer.Before

theorem fair_start (cfg : Settings) (job : JobId) : Fair job (system cfg job).init where
  agrees := (Reach.init : Reach cfg (fun _ _ => true) _).agrees
  jobs := by simp [system, Fleet.empty, Redis.empty]
  reading := nofun
  kept := by simp [system]
  noKeyError := by simp [system]
  ordered := List.Pairwise.nil

/-- **One step** keeps the answers fair. -/
theorem Fair.step (h : Fair job s) {l : Label} (hstep : s.step cfg job l = some s') :
    Fair job s' := by
  cases l with
  | worker l =>
    obtain ⟨f, hf, rfl⟩ := Option.map_eq_some_iff.mp hstep
    have hspec := step_spec hf
    have hterm : ∀ i, s.fleet.redis.terminalAt job i = true →
        f.redis.terminalAt job i = true := by
      intro i hi
      obtain ⟨st, hst, hterm⟩ := (Option.any_eq_true _ _).mp hi
      rw [Redis.terminalAt, h.agrees.terminal_step hspec hst hterm]
      exact hterm
    refine ⟨(h.agrees.step hf).1, h.agrees.jobs_step hspec h.jobs, ?_, ?_, h.noKeyError,
      h.ordered⟩
    · intro total done states hreq
      obtain ⟨hreading, hanswers⟩ := h.reading total done states hreq
      exact ⟨hreading.goOn (h.agrees.whole_step hspec hreading.whole) hterm, hanswers⟩
    · intro v hv
      obtain ⟨hcoherent, hwhole, hle⟩ := h.kept v hv
      refine ⟨hcoherent, h.agrees.whole_step hspec hwhole, hle.trans ?_⟩
      rw [Redis.terminalCount_eq, Redis.terminalCount_eq]
      exact List.countP_mono_left fun i _ hi => hterm i hi
  | getJob =>
    simp only [Polling.step] at hstep
    split at hstep
    · cases hstep
    · next hidle =>
      split at hstep
      next hnone =>
        obtain rfl := Option.some.inj hstep
        refine ⟨h.agrees, h.jobs, ?_, ?_, ?_, ?_⟩
        · intro total done states hreq
          cases hidle.symm.trans hreq
        · intro v hv
          exact h.kept v (by simpa using hv)
        · simpa using h.noKeyError
        · refine List.pairwise_append.mpr ⟨h.ordered, List.pairwise_singleton _ _, ?_⟩
          rintro (_ | _ | v) hv _ hnew <;> obtain rfl := List.mem_singleton.mp hnew
          · trivial
          · trivial
          · -- The job is still there.
            obtain ⟨j, hj, -⟩ := (h.kept v hv).2.1.hash
            cases hnone.symm.trans hj
      next hash hhash =>
        obtain ⟨n, hn⟩ := h.jobs job (by simp [hhash])
        obtain ⟨j, hj, htotal, hdone⟩ := hn.hash
        obtain rfl := Option.some.inj (hhash.symm.trans hj)
        rw [htotal] at hstep
        obtain rfl := Option.some.inj hstep
        refine ⟨h.agrees, h.jobs, ?_, h.kept, h.noKeyError, h.ordered⟩
        rintro _ _ _ ⟨⟩
        rw [hdone, Option.getD_some]
        refine ⟨.start hn, fun v hv => ?_⟩
        obtain ⟨-, hwhole, hle⟩ := h.kept v hv
        rwa [hwhole.unique hn] at hle
  | pageState =>
    simp only [Polling.step] at hstep
    split at hstep
    · cases hstep
    · next total done states hreq =>
      split at hstep
      next hlt =>
        obtain rfl := Option.some.inj hstep
        obtain ⟨hreading, hanswers⟩ := h.reading total done states hreq
        refine ⟨h.agrees, h.jobs, ?_, h.kept, h.noKeyError, h.ordered⟩
        rintro _ _ _ ⟨⟩
        exact ⟨hreading.next hlt, hanswers⟩
      next => cases hstep
  | respond =>
    simp only [Polling.step] at hstep
    split at hstep
    · cases hstep
    · next total done states hreq =>
      split at hstep
      next => cases hstep
      next hlt =>
        obtain rfl := Option.some.inj hstep
        obtain ⟨hreading, hanswers⟩ := h.reading total done states hreq
        obtain ⟨hcoherent, hle⟩ := hreading.coherent (not_lt.mp hlt)
        refine ⟨h.agrees, h.jobs, fun _ _ _ hreq => (by cases hreq), ?_,
          by simpa using h.noKeyError, ?_⟩
        · intro v hv
          rcases List.mem_append.mp hv with hv | hv
          · exact h.kept v hv
          · obtain ⟨⟩ := List.mem_singleton.mp hv
            exact ⟨hcoherent, hreading.whole, hle⟩
        · refine List.pairwise_append.mpr ⟨h.ordered, List.pairwise_singleton _ _, ?_⟩
          rintro (_ | _ | v) hv _ hnew <;> obtain rfl := List.mem_singleton.mp hnew
          · trivial
          · trivial
          · exact ⟨(h.kept v hv).2.1.unique hreading.whole, hanswers v hv⟩
  | abandon =>
    obtain rfl := Option.some.inj hstep
    exact ⟨h.agrees, h.jobs, fun _ _ _ hreq => (by cases hreq), h.kept, h.noKeyError, h.ordered⟩

/-- **Polling is fair**, whatever the workers do meanwhile, crash or raise: every answer is
coherent, the hash of a job is never found half written, and of two answers the later one does not
go back. -/
theorem answers_of_reach (hs : (system cfg job).Reach System.anyStep s) :
    (∀ v, .ok v ∈ s.answers → v.Coherent) ∧ .keyError ∉ s.answers ∧
      s.answers.Pairwise Answer.Before := by
  have hfair : Fair job s := hs.invariant (fair_start cfg job) fun _ _ _ h _ hstep => h.step hstep
  exact ⟨fun v hv => (hfair.kept v hv).1, hfair.noKeyError, hfair.ordered⟩

/-- A job of two pages, polled before it is there, and while its first page becomes terminal after
the counter was read: it is counted and not yet reported. -/
def polledJob : List Label :=
  [.getJob, .worker (.initJob 0 2 1000), .worker (.enqueue ⟨0, 0⟩ 1000 "t"), .worker (.start 1),
    .worker (.ready 1), .worker (.deliver 1 .lead 1000)] ++
  (runs 0 3 1000).map .worker ++
  [.worker (.run 0 (.raises 1000 (.exception "RuntimeError" "layout exploded")))] ++
  [.getJob, .worker (.run 0 (.answer 1000)), .worker (.run 0 (.answer 1000)), .pageState,
    .pageState, .respond]

/-- The job was not there, and then a page was terminal that the counter had not counted. -/
def behind (s : Polling) : Bool :=
  match s.answers with
  | [.notFound, .ok v] => decide (v.done = 0 ∧ v.pages PageState.terminal = 1)
  | _ => false

theorem answers_polledJob : ∃ s : Polling,
    (∃ v, s.answers = [.notFound, .ok v] ∧ v.done = 0 ∧ v.pages PageState.terminal = 1) ∧
      ∀ v, .ok v ∈ s.answers → v.Coherent := by
  obtain ⟨s, hs, hq⟩ := System.exists_of_runAll (system {} 0) System.anyStep
    behind polledJob (by decide +kernel)
  refine ⟨s, ?_, (answers_of_reach hs).1⟩
  unfold behind at hq
  split at hq
  · next v hanswers => exact ⟨v, hanswers, of_decide_eq_true hq⟩
  · cases hq

end Polling

end OcrOrchestrator
