import OcrOrchestrator.Eval.FloatBox
import OcrOrchestrator.Eval.TreeScore
import OcrOrchestrator.Eval.Work
import Mathlib.Data.Rat.Floor

/-!
# The evaluation endpoint

`app/api/evaluate.py`: a predicted and a true document are parsed, refused if comparing them
would cost too much, and scored three ways.  Trees, boxes and texts are validated in different
places, which raise different exceptions; the endpoint turns some of them into refusals.

The interpreter's own tables are parameters: what it knows of code points, what `float()`
makes of a string, and which labels are equal.  So are the four measured durations.  Limits on
the nesting depth of a request belong to the JSON decoder and are not modelled.

A run also counts the cells the tree edit distance writes, so that the cost promised by the
guard can be compared with the cost incurred.

## Main definitions

* `EvaluateRequest`, `EvaluateResponse`, `Failure` — what goes in and what comes out.
* `parse`, `compute`, `evaluateRun`, `evaluate` — the endpoint.
* `Answered` — refused with 413 or 422, or answered with finite numbers only.
-/

namespace OcrOrchestrator
namespace Evaluate

open Eval Lib

/-! ## Requests -/

/-- `cer_unit`. -/
inductive CerUnit where
  | grapheme
  | codepoint
deriving DecidableEq

def CerUnit.name : CerUnit → String
  | grapheme => "grapheme"
  | codepoint => "codepoint"

/-- A request that passed validation.  A document is a mapping or `null`. -/
structure EvaluateRequest where
  predicted : Option (List (Str × Value)) := none
  truth : Option (List (Str × Value)) := none
  iouThreshold : ℚ := defaultThreshold
  cerUnit : CerUnit := .grapheme
  labelKey : Str := ofLiteral "type"
  childrenKey : Str := ofLiteral "children"
  textKey : Str := ofLiteral "text"
  bboxKey : Str := ofLiteral "bbox"
  threshold_mem : 0 ≤ iouThreshold ∧ iouThreshold ≤ 1
  key_length : ∀ key ∈ [labelKey, childrenKey, textKey, bboxKey], key.length ≤ 64

/-- The two documents of a request. -/
inductive Side where
  | predicted
  | truth
deriving DecidableEq

namespace EvaluateRequest

/-- The document of a side, as a value. -/
def document (request : EvaluateRequest) : Side → Value
  | .predicted => request.predicted.elim .null .dict
  | .truth => request.truth.elim .null .dict

/-- `_collect`, on the document of a side. -/
def collected (request : EvaluateRequest) (side : Side) : Str × List Value :=
  collect request.childrenKey request.textKey request.bboxKey (request.document side)

end EvaluateRequest

/-- The settings the endpoint reads. -/
structure EvalSettings where
  evalMaxNodes : ℕ := 2000
  evalTedBudgetMs : ℚ := 100
  evalTedWorkPerMs : ℕ := 1800

/-- `eval_max_ted_work`. -/
def EvalSettings.evalMaxTedWork (s : EvalSettings) : ℕ :=
  (s.evalTedBudgetMs * s.evalTedWorkPerMs).floor.toNat

/-- What the interpreter supplies: facts about code points, `float()` of a string, and the
class of a label under `==`. -/
structure Interpreter (α : Type) where
  ucd : UnicodeData
  parseFloat : Str → Option ExtRat
  label : Value → α

/-! ## Responses -/

structure TextMetrics where
  cer : WithTop ℚ
  wer : WithTop ℚ
  cerErrors : ℕ
  cerLength : ℕ
  werErrors : ℕ
  werLength : ℕ
  unit : String

structure BoxMetrics where
  meanIou : WithTop ℚ
  meanMatchedIou : ℚ
  precision : ℚ
  «recall» : ℚ
  f1 : ℚ
  truePositives : ℕ
  falsePositives : ℕ
  falseNegatives : ℕ
  predictedBoxes : ℕ
  truthBoxes : ℕ
  threshold : ℚ

structure StructureMetrics where
  treeEditDistance : ℕ
  normalised : ℚ
  predictedNodes : ℕ
  truthNodes : ℕ
  predictedDepth : ℕ
  truthDepth : ℕ
  tedWork : ℕ

structure Timings where
  tedMs : ℚ
  textMs : ℚ
  boxesMs : ℚ
  computeMs : ℚ

structure EvaluateResponse where
  text : TextMetrics
  boxes : BoxMetrics
  structure_ : StructureMetrics
  timings : Timings

/-- The numbers of a response besides the two error rates. -/
def EvaluateResponse.otherNumbers (r : EvaluateResponse) : List (WithTop ℚ) :=
  [r.boxes.meanIou] ++
    [r.boxes.meanMatchedIou, r.boxes.precision, r.boxes.recall, r.boxes.f1, r.boxes.threshold,
      r.structure_.normalised, r.timings.tedMs, r.timings.textMs, r.timings.boxesMs,
      r.timings.computeMs].map (fun q : ℚ => (q : WithTop ℚ)) ++
    [r.text.cerErrors, r.text.cerLength, r.text.werErrors, r.text.werLength,
      r.boxes.truePositives, r.boxes.falsePositives, r.boxes.falseNegatives,
      r.boxes.predictedBoxes, r.boxes.truthBoxes, r.structure_.treeEditDistance,
      r.structure_.predictedNodes, r.structure_.truthNodes, r.structure_.predictedDepth,
      r.structure_.truthDepth, r.structure_.tedWork].map (fun n : ℕ => ((n : ℚ) : WithTop ℚ))

/-- All numbers of a response. -/
def EvaluateResponse.numbers (r : EvaluateResponse) : List (WithTop ℚ) :=
  r.text.cer :: r.text.wer :: r.otherNumbers

/-- What the computation may raise. -/
inductive ComputeError where
  | text (error : TextError)
  | box (error : BboxError)

/-- `isinstance(exc, ValueError)`. -/
def ComputeError.isValueError : ComputeError → Bool
  | text _ => true
  | box error => error.isValueError

/-- The `detail` of a refusal: "{side}: {exc}", "{side}: {size} nodes exceeds the limit of
{limit}", "tree comparison would cost {work} work units, exceeding the limit of {limit} …" and
"{exc}". -/
inductive Detail (α : Type) where
  | tree (side : Side) (error : TreeError α)
  | nodes (side : Side) (size limit : ℕ)
  | work (tedWork limit : ℕ) (budgetMs : ℚ) (predictedNodes predictedDepth : ℕ)
  | payload (error : ComputeError)

/-- How a request fails: an `HTTPException`, or an exception that nobody catches. -/
inductive Failure (α : Type) where
  | http (status : ℕ) (detail : Detail α)
  | escaped (error : ComputeError)

/-! ## The endpoint -/

section Endpoint
variable {α : Type} [DecidableEq α] (interp : Interpreter α) (settings : EvalSettings)
  (timings : Timings) (request : EvaluateRequest)

/-- `_parse`. -/
def parse (side : Side) : Except (Failure α) (Eval.Tree α) :=
  match parseValue interp.label request.labelKey request.childrenKey (request.document side) with
  | .error e => .error (.http 422 (.tree side e))
  | .ok parsed =>
    if parsed.size > settings.evalMaxNodes then
      .error (.http 413 (.nodes side parsed.size settings.evalMaxNodes))
    else .ok parsed

/-- `_compute`, with the number of cells the tree edit distance writes.  Texts and boxes are
scored first, so an exception there costs none. -/
def compute (predictedTree truthTree : Eval.Tree α) (tedWork : ℕ) :
    Except ComputeError EvaluateResponse × ℕ :=
  let (predictedText, predictedBoxes) := request.collected .predicted
  let (truthText, truthBoxes) := request.collected .truth
  match cerScore interp.ucd truthText predictedText request.cerUnit.name with
  | .error e => (.error (.text e), 0)
  | .ok cer =>
    let wer := werScore interp.ucd truthText predictedText
    match scoreValues interp.parseFloat predictedBoxes truthBoxes request.iouThreshold with
    | .error e => (.error (.box e), 0)
    | .ok boxReport =>
      let (distance, cells) := chargedDistance predictedTree truthTree
      (.ok {
        text := ⟨cer.rate, wer.rate, cer.errors, cer.length, wer.errors, wer.length, cer.unit⟩
        boxes := ⟨boxReport.meanIou, boxReport.meanMatchedIou, boxReport.precision,
          boxReport.recall, boxReport.f1, boxReport.truePositives, boxReport.falsePositives,
          boxReport.falseNegatives, predictedBoxes.length, truthBoxes.length,
          boxReport.threshold⟩
        structure_ := ⟨distance,
          (TreeScore.mk distance truthTree.size predictedTree.size).normalised,
          predictedTree.size, truthTree.size, predictedTree.depth, truthTree.depth, tedWork⟩
        timings := timings }, cells)

/-- `except ValueError` around the computation: such an exception is refused with 422, any other
escapes. -/
def caught : Except ComputeError EvaluateResponse → Except (Failure α) EvaluateResponse
  | .ok response => .ok response
  | .error e => .error (if e.isValueError then .http 422 (.payload e) else .escaped e)

/-- A run of `evaluate`: its outcome, and the number of cells written. -/
def evaluateRun : Except (Failure α) EvaluateResponse × ℕ :=
  match parse interp settings request .predicted with
  | .error failure => (.error failure, 0)
  | .ok predictedTree =>
    match parse interp settings request .truth with
    | .error failure => (.error failure, 0)
    | .ok truthTree =>
      let tedWork := predictedTree.keyrootWeight * truthTree.keyrootWeight
      if tedWork > settings.evalMaxTedWork then
        (.error (.http 413 (.work tedWork settings.evalMaxTedWork settings.evalTedBudgetMs
          predictedTree.size predictedTree.depth)), 0)
      else
        let (result, cells) := compute interp timings request predictedTree truthTree tedWork
        (caught result, cells)

/-- `evaluate`. -/
def evaluate : Except (Failure α) EvaluateResponse :=
  (evaluateRun interp settings timings request).1

/-! ## What a run does -/

/-- A refusal with one of the two statuses. -/
def Refused (outcome : Except (Failure α) EvaluateResponse) : Prop :=
  ∃ status detail, (status = 413 ∨ status = 422) ∧ outcome = .error (.http status detail)

variable {interp settings timings request}

omit [DecidableEq α] in
variable (interp settings request) in
/-- `_parse` refuses, or returns what `parse_tree` returned. -/
theorem parse_cases (side : Side) :
    (∃ status detail, (status = 413 ∨ status = 422) ∧
        parse interp settings request side = .error (.http status detail)) ∨
      ∃ t, parse interp settings request side = .ok t ∧
        parseValue interp.label request.labelKey request.childrenKey (request.document side) =
          .ok t := by
  rw [parse]
  cases hparse : parseValue interp.label request.labelKey request.childrenKey
      (request.document side) with
  | error e => exact Or.inl ⟨422, _, Or.inr rfl, rfl⟩
  | ok t =>
    by_cases hsize : t.size > settings.evalMaxNodes
    · exact Or.inl ⟨413, _, Or.inl rfl, if_pos hsize⟩
    · exact Or.inr ⟨t, if_neg hsize, rfl⟩

omit [DecidableEq α] in
theorem parse_of_parseValue {side : Side} {t : Eval.Tree α}
    (h : parseValue interp.label request.labelKey request.childrenKey (request.document side) =
      .ok t) (hsize : t.size ≤ settings.evalMaxNodes) :
    parse interp settings request side = .ok t := by
  simp [parse, h, hsize]

variable (interp settings timings request) in
/-- A run is refused before anything is computed, or reaches the computation with two parsed
trees and a bounded cost. -/
theorem evaluateRun_cases :
    (Refused (evaluateRun interp settings timings request).1 ∧
        (evaluateRun interp settings timings request).2 = 0) ∨
      ∃ a b, parseValue interp.label request.labelKey request.childrenKey
          (request.document .predicted) = .ok a ∧
        parseValue interp.label request.labelKey request.childrenKey
          (request.document .truth) = .ok b ∧
        a.keyrootWeight * b.keyrootWeight ≤ settings.evalMaxTedWork ∧
        evaluateRun interp settings timings request =
          (caught (compute interp timings request a b (a.keyrootWeight * b.keyrootWeight)).1,
            (compute interp timings request a b (a.keyrootWeight * b.keyrootWeight)).2) := by
  rw [evaluateRun]
  obtain ⟨status, detail, hstatus, hpredicted⟩ | ⟨a, hpredicted, ha⟩ :=
    parse_cases interp settings request .predicted
  · rw [hpredicted]
    exact Or.inl ⟨⟨status, detail, hstatus, rfl⟩, rfl⟩
  · obtain ⟨status, detail, hstatus, htruth⟩ | ⟨b, htruth, hb⟩ :=
      parse_cases interp settings request .truth
    · rw [hpredicted, htruth]
      exact Or.inl ⟨⟨status, detail, hstatus, rfl⟩, rfl⟩
    · rw [hpredicted, htruth]
      by_cases hwork : a.keyrootWeight * b.keyrootWeight > settings.evalMaxTedWork
      · simp only [hwork, if_true]
        exact Or.inl ⟨⟨413, _, Or.inl rfl, rfl⟩, trivial⟩
      · simp only [hwork, if_false]
        exact Or.inr ⟨a, b, ha, hb, not_lt.1 hwork, rfl⟩

/-! ## What the computation returns -/

theorem rate_eq_top_iff (score : TextScore) :
    score.rate = ⊤ ↔ score.length = 0 ∧ score.errors ≠ 0 := by
  rw [TextScore.rate]
  by_cases hlength : score.length = 0
  · by_cases herrors : score.errors = 0 <;> simp [hlength, herrors]
  · simp [hlength]

/-- Against nothing the edit distance counts what is there. -/
theorem levenshtein_pair_iff {β : Type} [DecidableEq β] (r h : List β) :
    (r.length = 0 ∧ levenshtein r h ≠ 0) ↔ r = [] ∧ h ≠ [] := by
  rw [List.length_eq_zero_iff, levenshtein_eq]
  constructor
  · rintro ⟨rfl, hne⟩
    exact ⟨rfl, by simpa using hne⟩
  · rintro ⟨rfl, hne⟩
    exact ⟨rfl, by simpa using hne⟩

theorem units_eq_nil_iff {ucd : UnicodeData} {text : Str} {unit : String} {us : List Str}
    (h : units ucd text unit = .ok us) : us = [] ↔ text = [] := by
  constructor
  · rintro rfl
    exact (units_flatten h).symm
  · rintro rfl
    unfold units at h
    split at h
    · exact (Except.ok.inj h).symm
    · split at h
      · exact (Except.ok.inj h).symm
      · cases h

/-- With either unit there is a score, and its rate is infinite exactly for some text against
none. -/
theorem cerScore_rate (ucd : UnicodeData) (reference hypothesis : Str) (unit : CerUnit) :
    ∃ score, cerScore ucd reference hypothesis unit.name = .ok score ∧
      (score.rate = ⊤ ↔ reference = [] ∧ hypothesis ≠ []) := by
  have hknown : unit.name = "grapheme" ∨ unit.name = "codepoint" := by
    cases unit
    · exact Or.inl rfl
    · exact Or.inr rfl
  obtain ⟨refUnits, href⟩ := units_of_known ucd reference hknown
  obtain ⟨hypUnits, hhyp⟩ := units_of_known ucd hypothesis hknown
  refine ⟨⟨levenshtein refUnits hypUnits, refUnits.length, unit.name⟩, ?_, ?_⟩
  · simp only [cerScore, href, hhyp]
    rfl
  · rw [rate_eq_top_iff, levenshtein_pair_iff, units_eq_nil_iff href, ne_eq,
      units_eq_nil_iff hhyp]

theorem werScore_rate (ucd : UnicodeData) (reference hypothesis : Str) :
    (werScore ucd reference hypothesis).rate = ⊤ ↔
      words ucd reference = [] ∧ words ucd hypothesis ≠ [] := by
  rw [rate_eq_top_iff]
  exact levenshtein_pair_iff _ _

/-- What a response says about the texts of its request, and that nothing else in it is
infinite. -/
structure Sound (interp : Interpreter α) (request : EvaluateRequest) (r : EvaluateResponse) :
    Prop where
  others : ∀ x ∈ r.otherNumbers, x ≠ ⊤
  cer : r.text.cer = ⊤ ↔
    (request.collected .truth).1 = [] ∧ (request.collected .predicted).1 ≠ []
  wer : r.text.wer = ⊤ ↔
    words interp.ucd (request.collected .truth).1 = [] ∧
      words interp.ucd (request.collected .predicted).1 ≠ []

variable (interp timings request) in
/-- The computation raises what the first unacceptable box raises, before any cell is written;
otherwise it returns. -/
theorem compute_cases (a b : Eval.Tree α) (tedWork : ℕ) :
    (∃ e, firstRefusal interp.parseFloat ((request.collected .predicted).2 ++
          (request.collected .truth).2) = some e ∧
        compute interp timings request a b tedWork = (.error (.box e), 0)) ∨
      ∃ r, compute interp timings request a b tedWork = (.ok r, (chargedDistance a b).2) ∧
        firstRefusal interp.parseFloat ((request.collected .predicted).2 ++
          (request.collected .truth).2) = none ∧
        r.structure_.tedWork = tedWork ∧ Sound interp request r := by
  obtain ⟨cer, hcer, hrate⟩ := cerScore_rate interp.ucd (request.collected .truth).1
    (request.collected .predicted).1 request.cerUnit
  rw [compute]
  simp only [hcer]
  obtain ⟨ps, ts, hscore, hnone⟩ | ⟨e, hscore, hsome⟩ := scoreValues_cases interp.parseFloat
    (request.collected .predicted).2 (request.collected .truth).2 request.iouThreshold
  · rw [hscore]
    refine Or.inr ⟨_, rfl, hnone, rfl, ?_, hrate, werScore_rate _ _ _⟩
    intro x hx
    simp only [EvaluateResponse.otherNumbers, List.mem_append, List.mem_singleton,
      List.mem_map] at hx
    rcases hx with (rfl | ⟨q, -, rfl⟩) | ⟨n, -, rfl⟩
    · exact Matching.meanIou_ne_top _ _
    · exact WithTop.coe_ne_top
    · exact WithTop.coe_ne_top
  · rw [hscore]
    exact Or.inl ⟨e, hsome, rfl⟩

/-- With two parsed trees and a bounded cost the outcome is that of the computation. -/
theorem evaluate_of_parse {a b : Eval.Tree α}
    (ha : parse interp settings request .predicted = .ok a)
    (hb : parse interp settings request .truth = .ok b)
    (hwork : a.keyrootWeight * b.keyrootWeight ≤ settings.evalMaxTedWork) :
    evaluate interp settings timings request =
      caught (compute interp timings request a b (a.keyrootWeight * b.keyrootWeight)).1 := by
  simp only [evaluate, evaluateRun, ha, hb, not_lt.2 hwork, if_false]

/-! ## Totality -/

/-- Refused with one of the two statuses, or answered with finite numbers only. -/
def Answered (outcome : Except (Failure α) EvaluateResponse) : Prop :=
  Refused outcome ∨ ∃ r, outcome = .ok r ∧ ∀ x ∈ r.numbers, x ≠ ⊤

variable (interp settings timings request) in
/-- **`/evaluate` is total, up to its infinite rates.**  Whatever the two documents hold, as
long as the first box that cannot be coerced, if any, is refused with a `ValueError`: the
request is refused with 413 or 422, or answered.  In an answer every number is finite, except
that the character error rate is infinite exactly for a predicted text against an empty true
one, and the word error rate exactly for predicted words against a true text without words. -/
theorem evaluate_sound
    (hbox : ∀ e, firstRefusal interp.parseFloat ((request.collected .predicted).2 ++
      (request.collected .truth).2) = some e → e.isValueError = true) :
    Refused (evaluate interp settings timings request) ∨
      ∃ r, evaluate interp settings timings request = .ok r ∧
        (∀ x ∈ r.otherNumbers, x ≠ ⊤) ∧
        (r.text.cer = ⊤ ↔
          (request.collected .truth).1 = [] ∧ (request.collected .predicted).1 ≠ []) ∧
        (r.text.wer = ⊤ ↔
          words interp.ucd (request.collected .truth).1 = [] ∧
            words interp.ucd (request.collected .predicted).1 ≠ []) := by
  rw [evaluate]
  obtain ⟨hrefused, -⟩ | ⟨a, b, -, -, -, hrun⟩ := evaluateRun_cases interp settings timings
    request
  · exact Or.inl hrefused
  · rw [hrun]
    obtain ⟨e, he, hcompute⟩ | ⟨r, hcompute, -, -, hsound⟩ := compute_cases interp timings
      request a b (a.keyrootWeight * b.keyrootWeight)
    · rw [hcompute]
      refine Or.inl ⟨422, .payload (.box e), Or.inr rfl, ?_⟩
      simp [caught, ComputeError.isValueError, hbox e he]
    · rw [hcompute]
      exact Or.inr ⟨r, rfl, hsound.others, hsound.cer, hsound.wer⟩

/-! ## The cost guard -/

omit [DecidableEq α] in
theorem exists_flattenRoot {labelKey childrenKey : Str} {label : Value → α} {root : Value}
    {t : Eval.Tree α} (h : parseValue label labelKey childrenKey root = .ok t) :
    ∃ s, t = flattenRoot s := by
  cases root with
  | null => exact ⟨none, (Except.ok.inj h).symm⟩
  | _ =>
    simp only [parseValue] at h
    obtain ⟨s, -, hs⟩ := exists_standsFor_of_parseTree h
    exact ⟨s, hs⟩

/-- **The cost guard is exact.**  For two parsed trees the innermost loop of
`tree_edit_distance` runs once for each unit of the product of the weights, and not at all if
one of the trees is empty.  So no request makes more cell updates than the cap, and the
`ted_work` of a response is the number of updates made. -/
theorem guard_exact :
    (∀ (labelKey childrenKey labelKey' childrenKey' : String) (a b : Option (Node α))
        (s t : Eval.Tree α),
      parseTree labelKey childrenKey a = .ok s → parseTree labelKey' childrenKey' b = .ok t →
        (chargedDistance s t).1 = treeEditDistance s t ∧
        (chargedDistance s t).2 = s.keyrootWeight * t.keyrootWeight ∧
        (s.size = 0 ∨ t.size = 0 → (chargedDistance s t).2 = 0)) ∧
      ∀ (interp : Interpreter α) (settings : EvalSettings) (timings : Timings)
        (request : EvaluateRequest),
        (evaluateRun interp settings timings request).2 ≤ settings.evalMaxTedWork ∧
        ∀ r, (evaluateRun interp settings timings request).1 = .ok r →
          r.structure_.tedWork = (evaluateRun interp settings timings request).2 := by
  constructor
  · intro labelKey childrenKey labelKey' childrenKey' a b s t hs ht
    obtain ⟨s, -, rfl⟩ := exists_standsFor_of_parseTree hs
    obtain ⟨t, -, rfl⟩ := exists_standsFor_of_parseTree ht
    refine ⟨chargedDistance_fst _ _, chargedDistance_flattenRoot s t, ?_⟩
    rintro (hsize | hsize)
    · simp [chargedDistance, hsize]
    · rw [chargedDistance, if_pos hsize]
      split <;> rfl
  · intro interp settings timings request
    obtain ⟨⟨status, detail, -, hrefused⟩, hzero⟩ | ⟨a, b, ha, hb, hwork, hrun⟩ :=
      evaluateRun_cases interp settings timings request
    · rw [hrefused, hzero]
      exact ⟨Nat.zero_le _, fun r hr => by cases hr⟩
    · obtain ⟨s, rfl⟩ := exists_flattenRoot ha
      obtain ⟨t, rfl⟩ := exists_flattenRoot hb
      rw [hrun]
      obtain ⟨e, -, hcompute⟩ | ⟨r, hcompute, -, hted, -⟩ := compute_cases interp
        timings request (flattenRoot s) (flattenRoot t)
        ((flattenRoot s).keyrootWeight * (flattenRoot t).keyrootWeight)
      · rw [hcompute]
        exact ⟨Nat.zero_le _, fun r hr => by cases hr⟩
      · rw [hcompute, chargedDistance_flattenRoot]
        refine ⟨hwork, fun r' hr' => ?_⟩
        obtain rfl : r = r' := Except.ok.inj hr'
        exact hted

end Endpoint

/-- A page with two children against itself: 1 + 3 on either side, so 16 cells. -/
theorem guard_exact_page :
    parseTree "type" "children" (some (.mapping (some "page") [.value "title", .value "text"])) =
        .ok (OrderedTree.node "page" [.node "title" [], .node "text" []]).flatten ∧
      (chargedDistance (OrderedTree.node "page" [.node "title" [], .node "text" []]).flatten
        (OrderedTree.node "page" [.node "title" [], .node "text" []]).flatten).2 = 16 := by
  have hparse : parseTree "type" "children"
      (some (.mapping (some "page") [.value "title", .value "text"])) =
        .ok (OrderedTree.node "page" [.node "title" [], .node "text" []]).flatten :=
    parseTree_of_toTree _ _ rfl
  refine ⟨hparse, ?_⟩
  rw [((guard_exact (α := String)).1 "type" "children" "type" "children" _ _ _ _ hparse hparse).2.1]
  decide +kernel

/-- An interpreter for plain texts: letters, blanks and line ends, and no numbers in strings. -/
def plainInterpreter : Interpreter (Option Str) where
  ucd := ⟨fun _ => .Ll, fun _ => 0, fun c => c = 32 || c = 10⟩
  parseFloat _ := none
  label
    | .str s => some s
    | _ => none

/-- A request with default settings. -/
def plainRequest (predicted truth : Option (List (Str × Value))) : EvaluateRequest where
  predicted := predicted
  truth := truth
  threshold_mem := by norm_num [defaultThreshold]
  key_length := by decide +kernel

/-- A page with a text and, under `bbox`, the given value. -/
def onePage (bbox : Value) : List (Str × Value) :=
  [(ofLiteral "type", .str (ofLiteral "page")), (ofLiteral "text", .str (ofLiteral "x")),
    (ofLiteral "bbox", bbox)]

theorem collected_onePage (bbox : Value) (hbbox : bbox ≠ .null) :
    (plainRequest (some (onePage bbox)) none).collected .predicted = (ofLiteral "x", [bbox]) ∧
      (plainRequest (some (onePage bbox)) none).collected .truth = ([], []) := by
  refine ⟨(collect_eq _ _ _ _).trans ?_, rfl⟩
  rw [visited_eq]
  cases bbox with
  | null => exact absurd rfl hbbox
  | _ => rfl

theorem parse_onePage (bbox : Value) :
    parse plainInterpreter {} (plainRequest (some (onePage bbox)) none) .predicted =
        .ok (OrderedTree.node (some (ofLiteral "page")) []).flatten ∧
      parse plainInterpreter {} (plainRequest (some (onePage bbox)) none) .truth =
        .ok ⟨[none], [0], [], 0⟩ := by
  have htree : parseValue plainInterpreter.label (ofLiteral "type") (ofLiteral "children")
      (.dict (onePage bbox)) = .ok (OrderedTree.node (some (ofLiteral "page")) []).flatten :=
    parseTree_of_toTree _ _ rfl
  exact ⟨parse_of_parseValue htree (by decide), parse_of_parseValue rfl (by decide)⟩

theorem evaluate_onePage (bbox : Value) (timings : Timings) :
    evaluate plainInterpreter {} timings (plainRequest (some (onePage bbox)) none) =
      caught (compute plainInterpreter timings (plainRequest (some (onePage bbox)) none)
        (OrderedTree.node (some (ofLiteral "page")) []).flatten ⟨[none], [0], [], 0⟩ 0).1 :=
  evaluate_of_parse (parse_onePage bbox).1 (parse_onePage bbox).2 (Nat.zero_le _)

/-- A page with a well-formed box against no document: no box is refused. -/
theorem evaluate_sound_page :
    firstRefusal plainInterpreter.parseFloat [.list [.int 0, .int 0, .int 4, .int 1]] = none ∧
      (Refused (evaluate plainInterpreter {} ⟨0, 0, 0, 0⟩
          (plainRequest (some (onePage (.list [.int 0, .int 0, .int 4, .int 1]))) none)) ∨
        ∃ r, evaluate plainInterpreter {} ⟨0, 0, 0, 0⟩
            (plainRequest (some (onePage (.list [.int 0, .int 0, .int 4, .int 1]))) none) = .ok r ∧
          ∀ x ∈ r.otherNumbers, x ≠ ⊤) := by
  have hnone : firstRefusal plainInterpreter.parseFloat
      [.list [.int 0, .int 0, .int 4, .int 1]] = none := by decide +kernel
  obtain ⟨hpredicted, htruth⟩ := collected_onePage (.list [.int 0, .int 0, .int 4, .int 1])
    (by simp)
  refine ⟨hnone, ?_⟩
  obtain hrefused | ⟨r, hr, hothers, -⟩ := evaluate_sound plainInterpreter {} ⟨0, 0, 0, 0⟩
    (plainRequest (some (onePage (.list [.int 0, .int 0, .int 4, .int 1]))) none)
    (by simp [hpredicted, htruth, hnone])
  · exact Or.inl hrefused
  · exact Or.inr ⟨r, hr, hothers⟩

/-- A text against no document has an infinite error rate; and a box that is a number raises a
`TypeError`, which the endpoint does not catch. -/
theorem not_answered :
    ¬ Answered (evaluate plainInterpreter {} ⟨0, 0, 0, 0⟩
        (plainRequest (some (onePage (.list [.int 0, .int 0, .int 4, .int 1]))) none)) ∧
      ¬ Answered (evaluate plainInterpreter {} ⟨0, 0, 0, 0⟩
        (plainRequest (some (onePage (.int 5))) none)) := by
  constructor
  · obtain ⟨hpredicted, htruth⟩ := collected_onePage (.list [.int 0, .int 0, .int 4, .int 1])
      (by simp)
    have hnone : firstRefusal plainInterpreter.parseFloat
        [.list [.int 0, .int 0, .int 4, .int 1]] = none := by decide +kernel
    rw [evaluate_onePage]
    obtain ⟨e, he, -⟩ | ⟨r, hr, -, -, hsound⟩ := compute_cases plainInterpreter ⟨0, 0, 0, 0⟩
      (plainRequest (some (onePage (.list [.int 0, .int 0, .int 4, .int 1]))) none)
      (OrderedTree.node (some (ofLiteral "page")) []).flatten ⟨[none], [0], [], 0⟩ 0
    · simp [hpredicted, htruth, hnone] at he
    · have htop : r.text.cer = ⊤ := hsound.cer.2 (by
        rw [hpredicted, htruth]
        exact ⟨rfl, by decide +kernel⟩)
      rw [hr]
      rintro (⟨status, detail, -, hrefused⟩ | ⟨r', hr', hfinite⟩)
      · cases hrefused
      · obtain rfl : r = r' := Except.ok.inj hr'
        exact hfinite _ (List.mem_cons_self ..) htop
  · obtain ⟨hpredicted, htruth⟩ := collected_onePage (.int 5) (by simp)
    have hsome : firstRefusal plainInterpreter.parseFloat [.int 5] =
        some (.uninterpretable "int") := by decide +kernel
    rw [evaluate_onePage]
    obtain ⟨e, he, hcompute⟩ | ⟨r, -, hnone, -⟩ := compute_cases plainInterpreter ⟨0, 0, 0, 0⟩
      (plainRequest (some (onePage (.int 5))) none)
      (OrderedTree.node (some (ofLiteral "page")) []).flatten ⟨[none], [0], [], 0⟩ 0
    · obtain rfl : BboxError.uninterpretable "int" = e := by
        simpa [hpredicted, htruth, hsome] using he
      rw [hcompute]
      rintro (⟨status, detail, -, hrefused⟩ | ⟨r, hr, -⟩)
      · cases hrefused
      · cases hr
    · simp [hpredicted, htruth, hsome] at hnone

end Evaluate
end OcrOrchestrator
