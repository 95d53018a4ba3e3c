import OcrOrchestrator.Queue.Store
import Mathlib.Data.Finset.Card
import Mathlib.Data.Finset.Range

/-!
# Completion accounting

`done_count` is incremented by the same script that makes a page terminal, and nothing
leaves a terminal state, so the counter is the number of terminal pages.  The transition
that brings it to `total_pages` is the one that made the last page terminal, and there is
only one such transition.

## Main definitions

* `Redis.terminalCount`, `Redis.allTerminal` — counted and decided from the page hashes.
* `Accounted` — the counter of a job agrees with its pages.
* `TransitionCall`, `runCalls` — a sequence of `transition` calls.
* `completion_accounting` — the accounting law for every such sequence.
-/

namespace OcrOrchestrator

open Lib PageState

namespace Redis

/-- Is this page of the job terminal? -/
def terminalAt (s : Redis) (job : JobId) (i : ℕ) : Bool := (s.state? ⟨job, i⟩).any terminal

/-- How many of the first `n` pages of the job are terminal. -/
def terminalCount (s : Redis) (job : JobId) (n : ℕ) : ℕ :=
  ((Finset.range n).filter fun i => s.terminalAt job i = true).card

/-- Are all of the first `n` pages of the job terminal? -/
def allTerminal (s : Redis) (job : JobId) (n : ℕ) : Bool := (List.range n).all (s.terminalAt job)

theorem terminalCount_le (s : Redis) (job : JobId) (n : ℕ) : s.terminalCount job n ≤ n := by
  have h := Finset.card_filter_le (Finset.range n) fun i => s.terminalAt job i = true
  rwa [Finset.card_range] at h

theorem allTerminal_iff {s : Redis} {job : JobId} {n : ℕ} :
    s.allTerminal job n = true ↔ n ≤ s.terminalCount job n := by
  have hfilter : (∀ i ∈ Finset.range n, s.terminalAt job i = true) ↔
      (Finset.range n).filter (fun i => s.terminalAt job i = true) = Finset.range n :=
    Finset.filter_eq_self.symm
  constructor
  · intro h
    rw [allTerminal, List.all_eq_true] at h
    have heq := hfilter.mp fun i hi => h i (by simpa using hi)
    rw [terminalCount, heq, Finset.card_range]
  · intro h
    have heq := Finset.eq_of_subset_of_card_le (Finset.filter_subset
      (fun i => s.terminalAt job i = true) (Finset.range n)) (by simpa [terminalCount] using h)
    rw [allTerminal, List.all_eq_true]
    intro i hi
    exact hfilter.mpr heq i (by simpa using hi)

/-- Pages in the same states give the same counts. -/
theorem terminalCount_congr {s s' : Redis} {job : JobId} (n : ℕ)
    (h : ∀ i : ℤ, s'.state? ⟨job, i⟩ = s.state? ⟨job, i⟩) :
    s'.terminalCount job n = s.terminalCount job n := by
  have hsame : ∀ i, s'.terminalAt job i = s.terminalAt job i := fun i => by
    rw [terminalAt, h, terminalAt]
  simp only [terminalCount, hsame]

/-- One more page of the job becomes terminal. -/
theorem terminalCount_succ {s s' : Redis} {job : JobId} {n i : ℕ} {target : PageState}
    (hi : i < n) (hopen : s.terminalAt job i = false) (htarget : target.terminal = true)
    (h : s'.state? = Function.update s.state? ⟨job, i⟩ (some target)) :
    s'.terminalCount job n = s.terminalCount job n + 1 := by
  have hself : s'.terminalAt job i = true := by
    simp [terminalAt, h, htarget]
  have hother : ∀ j, j ≠ i → s'.terminalAt job j = s.terminalAt job j := by
    intro j hj
    have hne : (⟨job, j⟩ : PageKey) ≠ ⟨job, i⟩ := by simpa using hj
    simp [terminalAt, h, hne]
  have hset : (Finset.range n).filter (fun j => s'.terminalAt job j = true) =
      insert i ((Finset.range n).filter fun j => s.terminalAt job j = true) := by
    ext j
    by_cases hj : j = i
    · simp [hj, hself, hi]
    · simp [hj, hother j hj]
  rw [terminalCount, hset, Finset.card_insert_of_notMem (by simp [hopen])]
  rfl

/-- A move of one page between open states changes no count. -/
theorem terminalCount_open {s s' : Redis} {key : PageKey} {target st : PageState} (n : ℕ)
    (hs : s.state? key = some st) (hopen : st.terminal = false) (htarget : target.terminal = false)
    (h : s'.state? = Function.update s.state? key (some target)) (job : JobId) :
    s'.terminalCount job n = s.terminalCount job n := by
  have hsame : ∀ i, s'.terminalAt job i = s.terminalAt job i := by
    intro i
    by_cases hk : (⟨job, i⟩ : PageKey) = key
    · simp [terminalAt, h, hk, hs, hopen, htarget]
    · simp [terminalAt, h, hk]
  simp only [terminalCount, hsame]

end Redis

/-! ## What one script call does to the counter -/

section Script
variable {cfg : Settings} {o : Oracle} {s : Redis} {key : PageKey} {target : PageState}
  {allowed : List PageState} {extra : List (PageField × Json)}

/-- A rejected script call changes nothing and asks for no sweep. -/
theorem evalTransition_rejected
    (h : ((Cmd.evalTransition key target allowed extra).apply cfg o s).1.ok = false) :
    ((Cmd.evalTransition key target allowed extra).apply cfg o s).2 = s ∧
      ((Cmd.evalTransition key target allowed extra).apply cfg o s).1.sweepPages = 0 := by
  have hrej : ∃ observed, transitionScript target o.now target.terminal (cfg.resultTtlS * 1000)
      allowed extra (s.pages key) (s.jobs key.job) =
        (Reply.rejected observed, s.pages key, s.jobs key.job) := by
    cases hp : s.pages key with
    | none => exact ⟨none, rfl⟩
    | some p =>
      refine ⟨some p.state, transitionScript_rejected fun hin => ?_⟩
      rw [Bool.eq_false_iff] at h
      exact h (transitionScript_ok_iff.mpr ⟨p, hp, hin⟩)
  obtain ⟨observed, hrej⟩ := hrej
  simp [Cmd.apply, hrej, Reply.rejected]

/-- An applied script call: the state moves, and a job hash that exists keeps its total and
counts the page if it became terminal. -/
theorem evalTransition_applied
    (h : ((Cmd.evalTransition key target allowed extra).apply cfg o s).1.ok = true) :
    ∃ st ∈ allowed, s.state? key = some st ∧
      ((Cmd.evalTransition key target allowed extra).apply cfg o s).2.state? =
        Function.update s.state? key (some target) ∧
      (∀ job, job ≠ key.job →
        ((Cmd.evalTransition key target allowed extra).apply cfg o s).2.jobs job = s.jobs job) ∧
      ∀ j n d, s.jobs key.job = some j → j.totalPages = some n → j.doneCount = some d →
        ∃ j', ((Cmd.evalTransition key target allowed extra).apply cfg o s).2.jobs key.job = some j' ∧
          j'.totalPages = some n ∧
          (target.terminal = true →
            j'.doneCount = some (d + 1) ∧
            ((Cmd.evalTransition key target allowed extra).apply cfg o s).1.doneCount = d + 1 ∧
            ((Cmd.evalTransition key target allowed extra).apply cfg o s).1.totalPages = n) ∧
          (target.terminal = false →
            j'.doneCount = some d ∧
            ((Cmd.evalTransition key target allowed extra).apply cfg o s).1.totalPages = -1) := by
  obtain ⟨p, hp, hin⟩ := transitionScript_ok_iff.mp h
  refine ⟨p.state, hin, by simp [Redis.state?, hp], ?_, ?_, ?_⟩
  · funext k
    by_cases hk : k = key
    · subst hk
      simp [Redis.state?, Cmd.apply, hp, (transitionScript_applied hin).2]
    · simp [Redis.state?, Cmd.apply, hk]
  · intro job hjob
    simp [Cmd.apply, hjob]
  · intro j n d hj hn hd
    obtain ⟨j', hj', htotal, hdone, hreplyDone, hreplyTotal⟩ := transitionScript_job hin
    simp only [Cmd.apply, Function.update_self, hp, hj]
    refine ⟨j', hj', htotal.trans hn, ?_, ?_⟩
    · intro hterm
      rw [hdone, hreplyDone, hreplyTotal]
      simp [hterm, hd, hn]
    · intro hterm
      rw [hdone, hreplyTotal]
      simp [hterm, hd]

end Script

/-! ## The counter of a job -/

/-- The counter of the job agrees with its pages, and it has no pages beyond its total. -/
structure Accounted (s : Redis) (job : JobId) (n : ℕ) : Prop where
  hash : ∃ j, s.jobs job = some j ∧ j.totalPages = some n ∧
    j.doneCount = some (s.terminalCount job n)
  range : ∀ i : ℤ, (s.state? ⟨job, i⟩).isSome = true → 0 ≤ i ∧ i < n

namespace Accounted
variable {cfg : Settings} {o : Oracle} {s s' : Redis} {job : JobId} {n : ℕ}

/-- A fresh job has a counter of zero. -/
theorem initJob (cfg : Settings) (now n : ℕ) (h : ∀ i : ℤ, s.pages ⟨job, i⟩ = none) :
    Accounted (initJob cfg now job n s) job n := by
  have hopen : ∀ i, (OcrOrchestrator.initJob cfg now job n s).terminalAt job i = false := by
    intro i
    simp only [Redis.terminalAt, Redis.state?, OcrOrchestrator.initJob]
    split
    · rfl
    · simp [h]
  refine ⟨⟨⟨some n, some 0, some now, some (now + cfg.resultTtlS * 1000)⟩,
    by simp [OcrOrchestrator.initJob], rfl, ?_⟩, ?_⟩
  · simp [Redis.terminalCount, hopen]
  · intro i hi
    simp only [Redis.state?, OcrOrchestrator.initJob, true_and] at hi
    split at hi
    · assumption
    · simp [h] at hi

/-- Only the job hash and the page states matter. -/
theorem congr (h : Accounted s job n) (hjob : s'.jobs job = s.jobs job)
    (hstate : ∀ i : ℤ, s'.state? ⟨job, i⟩ = s.state? ⟨job, i⟩) : Accounted s' job n := by
  obtain ⟨j, hj, htotal, hdone⟩ := h.hash
  refine ⟨⟨j, hjob.trans hj, htotal, ?_⟩, ?_⟩
  · rw [hdone, Redis.terminalCount_congr n hstate]
  · intro i hi
    rw [hstate] at hi
    exact h.range i hi

/-- **One script call** keeps the counter right, and reports a completed job exactly when it
made the last open page terminal. -/
theorem evalTransition (cfg : Settings) (o : Oracle) (key : PageKey) {target : PageState}
    {allowed : List PageState} (extra : List (PageField × Json)) (h : Accounted s job n)
    (hlegal : ∀ st ∈ allowed, st ∈ predecessors target) :
    let out := (Cmd.evalTransition key target allowed extra).apply cfg o s
    Accounted out.2 job n ∧
      ((key.job = job ∧ out.1.ok = true ∧ 0 < out.1.totalPages ∧
        out.1.totalPages ≤ out.1.doneCount) ↔
          s.allTerminal job n = false ∧ out.2.allTerminal job n = true) := by
  intro out
  rw [Bool.eq_false_iff, ne_eq, Redis.allTerminal_iff, Redis.allTerminal_iff]
  cases hok : out.1.ok
  · obtain ⟨hsame, -⟩ := evalTransition_rejected hok
    have hsame : out.2 = s := hsame
    rw [hsame]
    exact ⟨h, by simp⟩
  · obtain ⟨st, hst, hs, hup, hjobs, hcount⟩ := evalTransition_applied hok
    have hup : out.2.state? = _ := hup
    have hstopen := terminal_eq_false_of_mem_predecessors (hlegal st hst)
    by_cases hkey : key.job = job
    · subst hkey
      obtain ⟨j, hj, htotal, hdone⟩ := h.hash
      obtain ⟨j', hj', htotal', hterminal, hopen⟩ := hcount j n _ hj htotal hdone
      -- The page is one of the job's: it exists.
      have hexists : (s.state? ⟨key.job, key.index⟩).isSome = true := by
        rw [show (⟨key.job, key.index⟩ : PageKey) = key from rfl, hs]
        rfl
      obtain ⟨hlow, hhigh⟩ := h.range key.index hexists
      have hrange : ∀ i : ℤ, (out.2.state? ⟨key.job, i⟩).isSome = true → 0 ≤ i ∧ i < n := by
        intro i hi
        rw [hup] at hi
        by_cases hk : (⟨key.job, i⟩ : PageKey) = key
        · rw [← hk] at hlow hhigh
          exact ⟨hlow, hhigh⟩
        · rw [Function.update_of_ne hk] at hi
          exact h.range i hi
      have hindex : ((key.index.toNat : ℕ) : ℤ) = key.index := Int.toNat_of_nonneg hlow
      have hpage : (⟨key.job, (key.index.toNat : ℕ)⟩ : PageKey) = key := by rw [hindex]
      cases hterm : target.terminal
      · obtain ⟨hdone', hreply⟩ := hopen hterm
        have hreply : out.1.totalPages = -1 := hreply
        have hcounts := Redis.terminalCount_open n hs hstopen hterm hup key.job
        have hdone' : j'.doneCount = some (out.2.terminalCount key.job n) := by
          rw [hdone', hcounts]
        refine ⟨⟨⟨j', hj', htotal', hdone'⟩, hrange⟩, ?_⟩
        rw [hcounts, hreply]
        simp
      · obtain ⟨hdone', hreplyDone, hreplyTotal⟩ := hterminal hterm
        have hreplyDone : out.1.doneCount = s.terminalCount key.job n + 1 := hreplyDone
        have hreplyTotal : out.1.totalPages = n := hreplyTotal
        have hcounts : out.2.terminalCount key.job n = s.terminalCount key.job n + 1 := by
          refine Redis.terminalCount_succ (i := key.index.toNat) (by omega) ?_ hterm ?_
          · rw [Redis.terminalAt, hpage, hs]
            exact hstopen
          · rw [hpage]
            exact hup
        refine ⟨⟨⟨j', hj', htotal', by rw [hdone', hcounts]⟩, hrange⟩, ?_⟩
        have hle := out.2.terminalCount_le key.job n
        rw [hreplyDone, hreplyTotal]
        simp only [true_and]
        omega
    · have hsame : ∀ i : ℤ, out.2.state? ⟨job, i⟩ = s.state? ⟨job, i⟩ := by
        intro i
        rw [hup, Function.update_of_ne]
        rintro rfl
        exact hkey rfl
      refine ⟨h.congr (hjobs job (Ne.symm hkey)) hsame, ?_⟩
      rw [Redis.terminalCount_congr n hsame]
      simp [hkey]

/-- The expiry sweep changes no state and no counter. -/
theorem pexpirePages (h : Accounted s job n) (job' : JobId) (total deadline : ℕ) :
    Accounted (s.pexpirePages job' total deadline) job n :=
  h.congr rfl fun _ => congrFun (Redis.state?_pexpirePages s job' total deadline) _

/-- Any command keeps the counter right, if it requests moves of the table only. -/
theorem exec (cfg : Settings) (o : Oracle) (c : Cmd) (h : Accounted s job n)
    (hlegal : ∀ key target allowed extra, c = .evalTransition key target allowed extra →
      ∀ st ∈ allowed, st ∈ predecessors target) : Accounted (c.exec cfg o s).2 job n := by
  rcases Cmd.exec_state cfg o c s with hs | hs <;> rw [hs]
  · exact h
  · cases c with
    | evalTransition key target allowed extra =>
      exact (h.evalTransition cfg o key extra (hlegal key target allowed extra rfl)).1
    | pexpirePages job' total => exact h.pexpirePages _ _ _
    | _ => exact h.congr rfl fun _ => rfl

/-- If the pages that are counted are terminal, all pages of the job are. -/
theorem terminal_of_allTerminal (h : Accounted s job n) (hall : s.allTerminal job n = true)
    {i : ℤ} {st : PageState} (hst : s.state? ⟨job, i⟩ = some st) : st.terminal = true := by
  obtain ⟨hlow, hhigh⟩ := h.range i (by rw [hst]; rfl)
  rw [Redis.allTerminal, List.all_eq_true] at hall
  have hi : ((i.toNat : ℕ) : ℤ) = i := Int.toNat_of_nonneg hlow
  have hterm := hall i.toNat (List.mem_range.mpr (by omega))
  rwa [Redis.terminalAt, hi, hst] at hterm

end Accounted

/-! ## Sequences of calls -/

/-- The arguments of one `transition` call, and the clock it reads. -/
structure TransitionCall where
  key : PageKey
  target : PageState
  allowedFrom : Option (List PageState)
  fields : List (PageField × Json)
  now : ℕ

namespace TransitionCall

/-- The caller leaves the sources out, or narrows them. -/
def Legal (c : TransitionCall) : Prop :=
  ∀ sources, c.allowedFrom = some sources → ∀ st ∈ sources, st ∈ predecessors c.target

/-- The call on a store that answers. -/
def run (cfg : Settings) (c : TransitionCall) (s : Redis) : Except Exn TransitionResult × Redis :=
  (transition c.key c.target c.allowedFrom c.fields).eval
    (fun cmd => cmd.exec cfg ⟨c.now, .null, 0, none⟩) s

/-- Did the call report that it completed the job? -/
def completes (job : JobId) (c : TransitionCall) : Except Exn TransitionResult → Bool
  | .ok r => decide (c.key.job = job) && r.completedJob
  | .error _ => false

/-- The script call behind a `transition` call. -/
def script (cfg : Settings) (c : TransitionCall) (s : Redis) : Reply × Redis :=
  (Cmd.evalTransition c.key c.target (c.allowedFrom.getD (predecessors c.target)) c.fields).apply
    cfg ⟨c.now, .null, 0, none⟩ s

/-- A call raises without touching the store, or runs the script, and then the sweep if the
script asks for it. -/
theorem run_spec (cfg : Settings) (c : TransitionCall) (s : Redis) :
    (∃ exc, c.run cfg s = (.error exc, s)) ∨
      ((c.run cfg s).1 = .ok ⟨(c.script cfg s).1.ok, (c.script cfg s).1.observed,
          (c.script cfg s).1.doneCount, (c.script cfg s).1.totalPages, c.target⟩ ∧
        (c.run cfg s).2 = if 0 < (c.script cfg s).1.sweepPages then
            (c.script cfg s).2.pexpirePages c.key.job (c.script cfg s).1.sweepPages
              (c.now + cfg.resultTtlS * 1000)
          else (c.script cfg s).2) := by
  have hscript : ∀ sources, sources = c.allowedFrom.getD (predecessors c.target) →
      (Cmd.evalTransition c.key c.target sources c.fields).exec cfg ⟨c.now, .null, 0, none⟩ s =
        (.ok (c.script cfg s).1, (c.script cfg s).2) := by
    rintro _ rfl
    exact Cmd.exec_of_fault_none rfl _ _
  simp only [run, transition]
  split
  · exact .inl ⟨_, rfl⟩
  · right
    simp only [await, Prog.eval_bind, Prog.eval_perform, hscript _ rfl]
    by_cases hsweep : 0 < (c.script cfg s).1.sweepPages
    · simp [hsweep, renewJobPages, await, Prog.eval_bind, Prog.eval_tryCatch, Prog.eval_perform,
        Cmd.exec, Cmd.apply]
    · simp [hsweep]

variable (cfg : Settings) {c : TransitionCall} {s : Redis} {job : JobId} {n : ℕ}

theorem Legal.sources (h : c.Legal) :
    ∀ st ∈ c.allowedFrom.getD (predecessors c.target), st ∈ predecessors c.target := by
  cases hsources : c.allowedFrom with
  | none => exact fun st hst => hst
  | some sources => exact h sources hsources

/-- A rejected call leaves the store as it was. -/
theorem run_rejected {cfg : Settings} {r : TransitionResult}
    (hr : (c.run cfg s).1 = .ok r) (h : r.ok = false) :
    (c.run cfg s).2 = s := by
  rcases c.run_spec cfg s with ⟨exc, hexc⟩ | ⟨hresult, hstore⟩
  · rw [hexc] at hr
    cases hr
  · rw [hresult] at hr
    cases hr
    obtain ⟨hsame, hsweep⟩ := evalTransition_rejected h
    have hsweep : (c.script cfg s).1.sweepPages = 0 := hsweep
    rw [hstore, hsweep]
    exact hsame

/-- **One call** keeps the counter right, and reports a completed job exactly when it made
the last open page terminal. -/
theorem run_accounted (c : TransitionCall) (h : Accounted s job n) (hlegal : c.Legal) :
    Accounted (c.run cfg s).2 job n ∧
      (c.completes job (c.run cfg s).1 = true ↔
        s.allTerminal job n = false ∧ (c.run cfg s).2.allTerminal job n = true) := by
  rcases c.run_spec cfg s with ⟨exc, hexc⟩ | ⟨hresult, hstore⟩
  · rw [hexc]
    refine ⟨h, ?_⟩
    cases s.allTerminal job n <;> simp [completes]
  · obtain ⟨hscript, hcompleted⟩ :=
      h.evalTransition cfg ⟨c.now, .null, 0, none⟩ c.key c.fields hlegal.sources
    have hswept : Accounted (c.run cfg s).2 job n ∧
        (c.run cfg s).2.allTerminal job n = (c.script cfg s).2.allTerminal job n := by
      rw [hstore]
      split
      · refine ⟨hscript.pexpirePages _ _ _, ?_⟩
        rw [Bool.eq_iff_iff, Redis.allTerminal_iff, Redis.allTerminal_iff,
          Redis.terminalCount_congr n fun _ => congrFun (Redis.state?_pexpirePages _ _ _ _) _]
      · exact ⟨hscript, rfl⟩
    refine ⟨hswept.1, ?_⟩
    rw [hswept.2, hresult]
    have hcompleted : (c.key.job = job ∧ (c.script cfg s).1.ok = true ∧
        0 < (c.script cfg s).1.totalPages ∧
        (c.script cfg s).1.totalPages ≤ (c.script cfg s).1.doneCount) ↔
      s.allTerminal job n = false ∧ (c.script cfg s).2.allTerminal job n = true := hcompleted
    rw [← hcompleted]
    simp [completes, TransitionResult.completedJob, and_assoc]

/-- A terminal page is frozen: a call moves at most its expiry time. -/
theorem run_frozen (c : TransitionCall) (hlegal : c.Legal) {key : PageKey} {p : PageHash}
    (hp : s.pages key = some p) (hterm : p.state.terminal = true) :
    ∃ p', (c.run cfg s).2.pages key = some p' ∧ { p' with expiresAt := p.expiresAt } = p := by
  rcases c.run_spec cfg s with ⟨exc, hexc⟩ | ⟨-, hstore⟩
  · rw [hexc]
    exact ⟨p, hp, rfl⟩
  · have hscript : (c.script cfg s).2.pages key = some p := by
      simp only [script, Cmd.apply]
      by_cases hk : key = c.key
      · subst hk
        have hout : p.state ∉ c.allowedFrom.getD (predecessors c.target) := by
          intro hin
          have hopen := terminal_eq_false_of_mem_predecessors (hlegal.sources _ hin)
          rw [hterm] at hopen
          cases hopen
        rw [Function.update_self, hp, transitionScript_rejected hout]
      · rw [Function.update_of_ne hk]
        exact hp
    rw [hstore]
    split
    · simp only [Redis.pexpirePages, hscript]
      split
      · exact ⟨_, rfl, rfl⟩
      · exact ⟨p, rfl, rfl⟩
    · exact ⟨p, hscript, rfl⟩

end TransitionCall

/-- Run the calls one after the other, whoever issues them, and pair each with its outcome. -/
def runCalls (cfg : Settings) :
    List TransitionCall → Redis → List (TransitionCall × Except Exn TransitionResult) × Redis
  | [], s => ([], s)
  | c :: calls, s =>
    let out := c.run cfg s
    let rest := runCalls cfg calls out.2
    ((c, out.1) :: rest.1, rest.2)

/-- How many of the outcomes report that the job was completed. -/
def completions (job : JobId) (outcomes : List (TransitionCall × Except Exn TransitionResult)) : ℕ :=
  outcomes.countP fun o => o.1.completes job o.2

section Runs
variable {calls : List TransitionCall} {s : Redis} {job : JobId} {n : ℕ}

/-- Once every page is terminal, every page stays so. -/
theorem TransitionCall.allTerminal_run (cfg : Settings) (c : TransitionCall) (h : c.Legal)
    (hall : s.allTerminal job n = true) : (c.run cfg s).2.allTerminal job n = true := by
  rw [Redis.allTerminal, List.all_eq_true] at hall ⊢
  intro i hi
  obtain ⟨st, hst, hterm⟩ := Option.any_eq_true _ _ |>.mp (hall i hi)
  obtain ⟨p, hp, rfl⟩ := Option.map_eq_some_iff.mp hst
  obtain ⟨p', hp', hsame⟩ := c.run_frozen cfg h hp hterm
  have hstate : p'.state = p.state := by rw [← hsame]
  rw [Redis.terminalAt, Redis.state?, hp', Option.map_some, hstate]
  exact hterm

/-- **The whole run** keeps the counter right, and the completed job is reported once if the
last open page became terminal during the run, and never otherwise. -/
theorem runCalls_accounted (cfg : Settings) (h : Accounted s job n) (hlegal : ∀ c ∈ calls, c.Legal) :
    Accounted (runCalls cfg calls s).2 job n ∧
      completions job (runCalls cfg calls s).1 + (s.allTerminal job n).toNat =
        ((runCalls cfg calls s).2.allTerminal job n).toNat := by
  induction calls generalizing s with
  | nil => exact ⟨h, by simp [runCalls, completions]⟩
  | cons c calls ih =>
    have hc : c.Legal := hlegal c (by simp)
    obtain ⟨hstep, hreport⟩ := c.run_accounted cfg h hc
    obtain ⟨hrest, hcount⟩ := ih hstep fun c' hc' => hlegal c' (by simp [hc'])
    refine ⟨hrest, ?_⟩
    have hcons : completions job (runCalls cfg (c :: calls) s).1 =
        completions job (runCalls cfg calls (c.run cfg s).2).1 +
          (c.completes job (c.run cfg s).1).toNat := by
      simp only [completions, runCalls, List.countP_cons]
      cases c.completes job (c.run cfg s).1 <;> rfl
    rw [hcons]
    -- The call either completes the job or leaves "all pages are terminal" as it was.
    have hone : (c.completes job (c.run cfg s).1).toNat + (s.allTerminal job n).toNat =
        ((c.run cfg s).2.allTerminal job n).toNat := by
      cases hbefore : s.allTerminal job n
      · cases hafter : (c.run cfg s).2.allTerminal job n <;> simp_all
      · have hafter := c.allTerminal_run cfg hc hbefore
        simp_all
    have hlast : (runCalls cfg (c :: calls) s).2 = (runCalls cfg calls (c.run cfg s).2).2 := rfl
    rw [hlast]
    omega

/-- A terminal page is frozen through every later call. -/
theorem runCalls_frozen (cfg : Settings) (hlegal : ∀ c ∈ calls, c.Legal) {key : PageKey} {p : PageHash}
    (hp : s.pages key = some p) (hterm : p.state.terminal = true) :
    ∃ p', (runCalls cfg calls s).2.pages key = some p' ∧
      { p' with expiresAt := p.expiresAt } = p := by
  induction calls generalizing s p with
  | nil => exact ⟨p, hp, rfl⟩
  | cons c calls ih =>
    obtain ⟨p₁, hp₁, hsame₁⟩ := c.run_frozen cfg (hlegal c (by simp)) hp hterm
    have hterm₁ : p₁.state.terminal = true := by
      rw [← hsame₁] at hterm
      exact hterm
    obtain ⟨p', hp', hsame'⟩ := ih (fun c' hc' => hlegal c' (by simp [hc'])) hp₁ hterm₁
    refine ⟨p', hp', ?_⟩
    rw [← hsame₁, ← hsame']

/-- **Completion accounting.**  After every sequence of legal calls on a job initialised once:
the counter is the number of terminal pages and at most the total; a terminal page never
changes again but for its expiry time; a rejected call changes nothing; a call reports the
completed job exactly when it made the last open page terminal; and exactly one call of the
run did so if every page is terminal, none otherwise. -/
theorem completion_accounting (cfg : Settings) (s₀ : Redis) (now : ℕ) (job : JobId) (n : ℕ)
    (calls : List TransitionCall) (hn : 1 ≤ n) (hfresh : ∀ i : ℤ, s₀.pages ⟨job, i⟩ = none)
    (hlegal : ∀ c ∈ calls, c.Legal) :
    let out := runCalls cfg calls (initJob cfg now job n s₀)
    let s := out.2
    (∃ j, s.jobs job = some j ∧ j.totalPages = some n ∧
        j.doneCount = some (s.terminalCount job n)) ∧
      s.terminalCount job n ≤ n ∧
      (∀ i : ℤ, (s.pages ⟨job, i⟩).isSome = true → 0 ≤ i ∧ i < n) ∧
      (∀ key p, s.pages key = some p → p.state.terminal = true →
        ∀ later : List TransitionCall, (∀ c ∈ later, c.Legal) →
          ∃ p', (runCalls cfg later s).2.pages key = some p' ∧
            { p' with expiresAt := p.expiresAt } = p) ∧
      (∀ c : TransitionCall, c.Legal →
        (∀ r, (c.run cfg s).1 = .ok r → r.ok = false → (c.run cfg s).2 = s) ∧
        (c.completes job (c.run cfg s).1 = true ↔
          s.allTerminal job n = false ∧ (c.run cfg s).2.allTerminal job n = true)) ∧
      completions job out.1 = (s.allTerminal job n).toNat := by
  intro out s
  have hinit := Accounted.initJob cfg now n hfresh
  obtain ⟨hrun, hcount⟩ := runCalls_accounted cfg hinit hlegal
  refine ⟨hrun.hash, s.terminalCount_le job n, ?_, ?_, ?_, ?_⟩
  · intro i hi
    exact hrun.range i (by rw [Redis.isSome_state?]; exact hi)
  · intro key p hp hterm later hlater
    exact runCalls_frozen cfg hlater hp hterm
  · intro c hc
    exact ⟨fun r hr hrej => c.run_rejected hr hrej, (c.run_accounted cfg hrun hc).2⟩
  · -- A fresh job with at least one page has an open page.
    have hopen : (initJob cfg now job n s₀).allTerminal job n = false := by
      rw [Bool.eq_false_iff, ne_eq, Redis.allTerminal, List.all_eq_true]
      intro hall
      have hzero := hall 0 (List.mem_range.mpr hn)
      have hpos : 0 < n := hn
      simp [Redis.terminalAt, Redis.state?, initJob, hpos, PageHash.initial, PageState.terminal,
        transitions] at hzero
    rw [hopen] at hcount
    exact hcount

/-- Two workers on a job of two pages: page 0 fails at once and is committed a second time,
an index out of range is tried, and page 1 fails after a claim. -/
def twoPageCalls : List TransitionCall :=
  [⟨⟨7, 0⟩, .failed, none, [], 1⟩, ⟨⟨7, 0⟩, .failed, none, [], 2⟩, ⟨⟨7, 2⟩, .failed, none, [], 2⟩,
    ⟨⟨7, 1⟩, .layoutRunning, none, [], 3⟩, ⟨⟨7, 1⟩, .failed, some [.layoutRunning], [], 4⟩]

theorem completion_accounting_twoPageCalls :
    (∀ i : ℤ, Redis.empty.pages ⟨7, i⟩ = none) ∧ (∀ c ∈ twoPageCalls, c.Legal) ∧
      completions 7 (runCalls {} twoPageCalls
        (initJob {} 0 7 2 Redis.empty)).1 = 1 := by
  have hlegal : ∀ c ∈ twoPageCalls, c.Legal := by
    simp only [twoPageCalls, TransitionCall.Legal]
    decide
  have h := completion_accounting {} Redis.empty 0 7 2 twoPageCalls (by decide)
    (fun _ => rfl) hlegal
  exact ⟨fun _ => rfl, hlegal, h.2.2.2.2.2.trans (by decide +kernel)⟩

end Runs

end OcrOrchestrator
