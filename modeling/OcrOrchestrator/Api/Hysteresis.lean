import OcrOrchestrator.Api.Admission

/-!
# Hysteresis of the admission gate

The gate trips at the high watermark and recovers only at the low one.  One evaluation can do
both: it recovers, finds that its own job does not fit, and trips again.  The flag, the two
transition counters and the four tallies are written on different branches of the script.

The evaluations of a run come with any queue lengths at all: nothing is assumed about what
the workers and the other replicas do in between.

## Main definitions

* `AdmissionController.evaluate` — one evaluation, with its verdict.
* `AdmissionController.after` — the admission hash after a list of evaluations.
* `AdmissionController.Hysteresis` — what the gate promises over a whole run.
-/

namespace OcrOrchestrator

/-- What `evaluate` returns. -/
structure Verdict where
  admitted : Bool
  depth : ℕ
  shedding : Bool
  retryAfterS : ℤ
  shedJobs : ℕ
  shedPages : ℕ
  admittedJobs : ℕ

/-- The settings of an `AdmissionController`. -/
structure AdmissionController where
  highWatermark : ℕ
  lowWatermark : ℕ
  retryAfterCapS : ℕ

/-- One call of `evaluate`: the pages of the job, and what the call comes upon, the queue
length, the service rate and the jitter it draws. -/
structure Evaluation where
  pages : ℕ
  depth : ℕ
  serviceRate : ℚ
  jitter : ℚ

namespace AdmissionController

/-- `_retry_after`: the time to drain to the low watermark, jittered, in whole seconds and
within one second and the cap. -/
def retryAfter (c : AdmissionController) (e : Evaluation) : ℤ :=
  max 1 (min c.retryAfterCapS ⌈((e.depth - c.lowWatermark : ℕ) : ℚ) / e.serviceRate * (1 + e.jitter)⌉)

/-- `evaluate`. -/
def evaluate (c : AdmissionController) (h : AdmissionHash) (e : Evaluation) :
    Verdict × AdmissionHash :=
  let out := admissionScript e.pages c.highWatermark c.lowWatermark e.depth h
  let retryAfterS := if out.1.admitted then 0 else c.retryAfter e
  (⟨out.1.admitted, out.1.depth, out.1.shedding, retryAfterS, out.1.shedJobs, out.1.shedPages,
    out.1.admittedJobs⟩, out.2)

/-- The admission hash after a list of evaluations, from an absent key. -/
def after (c : AdmissionController) (es : List Evaluation) : AdmissionHash :=
  es.foldl (fun h e => (c.evaluate h e).2) {}

/-- The evaluation trips the gate. -/
def tripsAt (c : AdmissionController) (es : List Evaluation) (e : Evaluation) : Prop :=
  (c.after (es ++ [e])).trips = (c.after es).trips + 1

/-- **Hysteresis and accounting** of a run. -/
structure Hysteresis (c : AdmissionController) (es : List Evaluation) : Prop where
  /-- A job is admitted only if it fits. -/
  fits : ∀ before e rest, es = before ++ e :: rest →
    (c.evaluate (c.after before) e).1.admitted = true → e.depth + e.pages ≤ c.highWatermark
  /-- After a trip, no job is admitted until the queue is down to the low watermark. -/
  shut : ∀ before trip between e rest, es = before ++ trip :: (between ++ e :: rest) →
    c.tripsAt before trip → (∀ x ∈ between ++ [e], c.lowWatermark < x.depth) →
    (c.evaluate (c.after (before ++ trip :: between)) e).1.admitted = false
  /-- The gate is shut if and only if it has tripped once more than it has recovered. -/
  flag : (c.after es).trips = (c.after es).recoveries + (c.after es).shedding.toNat
  jobs : (c.after es).admittedJobs + (c.after es).shedJobs = es.length
  pages : (c.after es).admittedPages + (c.after es).shedPages = (es.map Evaluation.pages).sum

section Evaluate
variable {c : AdmissionController} {h : AdmissionHash} {e : Evaluation} {es : List Evaluation}

/-- The branches of an evaluation: a gate that stays shut, a job that is admitted, and a job
that does not fit, which trips the gate. -/
theorem evaluate_cases (c : AdmissionController) (h : AdmissionHash) (e : Evaluation) :
    (h.shedding = true ∧ c.lowWatermark < e.depth ∧ (c.evaluate h e).1.admitted = false ∧
      (c.evaluate h e).2 =
        { h with shedJobs := h.shedJobs + 1, shedPages := h.shedPages + e.pages }) ∨
    ((h.recover c.lowWatermark e.depth).shedding = false ∧
      e.depth + e.pages ≤ c.highWatermark ∧ (c.evaluate h e).1.admitted = true ∧
      (c.evaluate h e).2 =
        { h.recover c.lowWatermark e.depth with
          admittedJobs := h.admittedJobs + 1, admittedPages := h.admittedPages + e.pages }) ∨
    ((h.recover c.lowWatermark e.depth).shedding = false ∧
      c.highWatermark < e.depth + e.pages ∧ (c.evaluate h e).1.admitted = false ∧
      (c.evaluate h e).2 =
        { h.recover c.lowWatermark e.depth with
          shedding := true, trips := h.trips + 1
          shedJobs := h.shedJobs + 1, shedPages := h.shedPages + e.pages }) := by
  by_cases hfits : e.depth + e.pages ≤ c.highWatermark
  · cases hshed : h.shedding with
    | false => simp [evaluate, admissionScript, AdmissionHash.recover, AdmissionHash.decide, *]
    | true =>
      by_cases hlow : e.depth ≤ c.lowWatermark
      · simp [evaluate, admissionScript, AdmissionHash.recover, AdmissionHash.decide, *]
      · simp [evaluate, admissionScript, AdmissionHash.recover, AdmissionHash.decide, *]
        omega
  · cases hshed : h.shedding with
    | false =>
      simp [evaluate, admissionScript, AdmissionHash.recover, AdmissionHash.decide, *]
      omega
    | true =>
      by_cases hlow : e.depth ≤ c.lowWatermark
      · simp [evaluate, admissionScript, AdmissionHash.recover, AdmissionHash.decide, *]
        omega
      · simp [evaluate, admissionScript, AdmissionHash.recover, AdmissionHash.decide, *]
        omega

/-- The transition counters and the tallies, against the evaluations so far. -/
structure Accounts (h : AdmissionHash) (es : List Evaluation) : Prop where
  flag : h.trips = h.recoveries + h.shedding.toNat
  jobs : h.admittedJobs + h.shedJobs = es.length
  pages : h.admittedPages + h.shedPages = (es.map Evaluation.pages).sum

/-- A recovery is counted when the flag falls, and touches no tally. -/
theorem Accounts.recover (hacc : Accounts h es) (low depth : ℕ) :
    Accounts (h.recover low depth) es := by
  obtain ⟨hflag, hjobs, hpages⟩ := hacc
  unfold AdmissionHash.recover
  split
  · rename_i hdrained
    have hshed : h.shedding = true := by
      rw [Bool.and_eq_true] at hdrained
      exact hdrained.1
    rw [hshed] at hflag
    exact ⟨hflag, hjobs, hpages⟩
  · exact ⟨hflag, hjobs, hpages⟩

theorem recover_counters (h : AdmissionHash) (low depth : ℕ) :
    (h.recover low depth).trips = h.trips ∧
      (h.recover low depth).admittedJobs = h.admittedJobs ∧
      (h.recover low depth).admittedPages = h.admittedPages ∧
      (h.recover low depth).shedJobs = h.shedJobs ∧
      (h.recover low depth).shedPages = h.shedPages := by
  unfold AdmissionHash.recover
  split
  · exact ⟨rfl, rfl, rfl, rfl, rfl⟩
  · exact ⟨rfl, rfl, rfl, rfl, rfl⟩

/-- Every evaluation adds its job to exactly one of the two tallies. -/
theorem Accounts.evaluate (hacc : Accounts h es) (c : AdmissionController) (e : Evaluation) :
    Accounts (c.evaluate h e).2 (es ++ [e]) := by
  have hrecovered := hacc.recover c.lowWatermark e.depth
  obtain ⟨htrips, hajobs, hapages, hsjobs, hspages⟩ :=
    recover_counters h c.lowWatermark e.depth
  have hjobs := hrecovered.jobs
  have hpages := hrecovered.pages
  have hflag := hrecovered.flag
  have hlength : (es ++ [e]).length = es.length + 1 := by simp
  have hsum : ((es ++ [e]).map Evaluation.pages).sum = (es.map Evaluation.pages).sum + e.pages := by
    simp
  obtain ⟨-, -, -, heq⟩ | ⟨hopen, -, -, heq⟩ | ⟨hopen, -, -, heq⟩ := evaluate_cases c h e
  · rw [heq]
    refine ⟨hacc.flag, ?_, ?_⟩
    · simp only [hlength]
      omega
    · simp only [hsum]
      omega
  · rw [heq]
    refine ⟨hflag, ?_, ?_⟩
    · simp only [hlength]
      omega
    · simp only [hsum]
      omega
  · rw [heq]
    rw [hopen, htrips] at hflag
    refine ⟨?_, ?_, ?_⟩
    · simp only [hflag, Bool.toNat_false, Bool.toNat_true, Nat.add_zero]
    · simp only [hlength]
      omega
    · simp only [hsum]
      omega

/-- A gate that is shut stays shut above the low watermark, and refuses. -/
theorem evaluate_of_shedding (hshed : h.shedding = true) (hlow : c.lowWatermark < e.depth) :
    (c.evaluate h e).1.admitted = false ∧ (c.evaluate h e).2.shedding = true := by
  have hshut : (h.recover c.lowWatermark e.depth).shedding = true := by
    rw [AdmissionHash.recover, if_neg, hshed]
    simp [hlow]
  obtain ⟨-, -, hrefused, heq⟩ | ⟨hopen, -, -, -⟩ | ⟨hopen, -, -, -⟩ := evaluate_cases c h e
  · rw [heq]
    exact ⟨hrefused, hshed⟩
  · rw [hshut] at hopen
    cases hopen
  · rw [hshut] at hopen
    cases hopen

/-- The gate is shut when it has just tripped. -/
theorem shedding_of_trip (htrip : (c.evaluate h e).2.trips = h.trips + 1) :
    (c.evaluate h e).2.shedding = true := by
  have hkept := (recover_counters h c.lowWatermark e.depth).1
  obtain ⟨-, -, -, heq⟩ | ⟨-, -, -, heq⟩ | ⟨-, -, -, heq⟩ := evaluate_cases c h e
  · rw [heq] at htrip
    simp at htrip
  · rw [heq] at htrip
    simp only [hkept] at htrip
    omega
  · rw [heq]

end Evaluate

/-! ## A run -/

section Run
variable {c : AdmissionController} {e : Evaluation} {es : List Evaluation}

theorem after_concat (c : AdmissionController) (es : List Evaluation) (e : Evaluation) :
    c.after (es ++ [e]) = (c.evaluate (c.after es) e).2 := by
  rw [after, List.foldl_append]
  rfl

theorem accounts_after (c : AdmissionController) (es : List Evaluation) :
    Accounts (c.after es) es := by
  induction es using List.reverseRecOn with
  | nil => exact ⟨rfl, rfl, rfl⟩
  | append_singleton es e ih =>
    rw [after_concat]
    exact ih.evaluate c e

/-- A gate that is shut is still shut after evaluations that all find more than the low
watermark. -/
theorem shedding_after (hshed : (c.after es).shedding = true) (between : List Evaluation)
    (hlow : ∀ x ∈ between, c.lowWatermark < x.depth) :
    (c.after (es ++ between)).shedding = true := by
  induction between using List.reverseRecOn with
  | nil => rwa [List.append_nil]
  | append_singleton between e ih =>
    rw [← List.append_assoc, after_concat]
    have hbefore := ih fun x hx => hlow x (List.mem_append_left _ hx)
    exact (evaluate_of_shedding hbefore (hlow e (by simp))).2

/-- **Hysteresis of the gate**, over every run of evaluations. -/
theorem hysteresis (c : AdmissionController) (es : List Evaluation) : c.Hysteresis es where
  fits := fun _ _ _ _ hadmitted => le_of_admitted hadmitted
  shut := by
    intro before trip between e rest _ htrip hlow
    rw [tripsAt, after_concat] at htrip
    have hshed : (c.after (before ++ [trip])).shedding = true := by
      rw [after_concat]
      exact shedding_of_trip htrip
    have hstill := shedding_after hshed between fun x hx => hlow x (List.mem_append_left _ hx)
    rw [List.append_assoc, List.singleton_append] at hstill
    exact (evaluate_of_shedding hstill (hlow e (by simp))).1
  flag := (accounts_after c es).flag
  jobs := (accounts_after c es).jobs
  pages := (accounts_after c es).pages

end Run

end AdmissionController
end OcrOrchestrator
