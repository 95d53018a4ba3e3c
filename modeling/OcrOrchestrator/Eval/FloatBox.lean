import OcrOrchestrator.Eval.Document
import OcrOrchestrator.Eval.Iou

/-!
# Boxes out of a document

`as_box` and `score_boxes` on the values that `_collect` gathers.  A coordinate goes through
`float()`, which accepts a number of any size and a string that spells one, so it may be
infinite or not a number; and which raises three kinds of exception.

`float()` of a string is the interpreter's: it is a parameter, and `none` is its
`ValueError`.

## Main definitions

* `BboxError`, `floatOf`, `asBoxValue` — the coercion and everything it can raise.
* `FloatBox.iou`, `FloatBox.score` — the overlap, which is a number or not one, but never
  infinite.
* `scoreValues` — `score_boxes`; `scoreValues_ofBox` says that on finite coordinates it is
  `scoreBoxes`.
-/

namespace OcrOrchestrator
namespace Eval

open Lib

/-- A box whose coordinates went through `float()`. -/
structure FloatBox where
  x : ExtRat
  y : ExtRat
  w : ExtRat
  h : ExtRat
deriving DecidableEq

/-- What `as_box` raises, with the message and, after it, the type.
"box mapping is missing {key!r}: {obj!r}", "box sequence must have 4 elements, got {n}", "could
not convert string to float: {text!r}" and "box has negative extent {box!r}; …" are
`ValueError`s; "cannot interpret {type} as a box: {obj!r}" and "float() argument must be a string
or a real number, not {type!r}" are `TypeError`s; "int too large to convert to float" is an
`OverflowError`. -/
inductive BboxError where
  | missing (key : String)
  | elements (n : ℕ)
  | notANumber (text : Str)
  | negativeExtent (box : FloatBox)
  | uninterpretable (typeName : String)
  | notConvertible (typeName : String)
  | tooLarge
deriving DecidableEq

/-- `isinstance(exc, ValueError)`. -/
def BboxError.isValueError : BboxError → Bool
  | missing _ => true
  | elements _ => true
  | notANumber _ => true
  | negativeExtent _ => true
  | uninterpretable _ => false
  | notConvertible _ => false
  | tooLarge => false

section Coercion
variable (parseFloat : Str → Option ExtRat)

/-- `float(value)`.  An integer that would round to 2 ^ 1024 or more is too large. -/
def floatOf : Value → Except BboxError ExtRat
  | .null => .error (.notConvertible "NoneType")
  | .bool b => .ok (.fin (if b then 1 else 0))
  | .int n => if n.natAbs < 2 ^ 1024 - 2 ^ 970 then .ok (.fin n) else .error .tooLarge
  | .float x => .ok x
  | .str s => (parseFloat s).elim (.error (.notANumber s)) .ok
  | .list _ => .error (.notConvertible "list")
  | .dict _ => .error (.notConvertible "dict")

/-- `float(obj[key])`. -/
def floatField (members : List (Str × Value)) (key : String) : Except BboxError ExtRat :=
  (members.lookup (ofLiteral key)).elim (.error (.missing key)) (floatOf parseFloat)

/-- The first half of `as_box`: read the four numbers. -/
def coerceValue : Value → Except BboxError FloatBox
  | .dict members => do
    let x ← floatField parseFloat members "x"
    let y ← floatField parseFloat members "y"
    let w ← floatField parseFloat members "w"
    let h ← floatField parseFloat members "h"
    return ⟨x, y, w, h⟩
  | .list [x, y, w, h] => do
    let x ← floatOf parseFloat x
    let y ← floatOf parseFloat y
    let w ← floatOf parseFloat w
    let h ← floatOf parseFloat h
    return ⟨x, y, w, h⟩
  | .list values => .error (.elements values.length)
  | v => .error (.uninterpretable v.typeName)

/-- `as_box`.  An extent that is not a number is not negative. -/
def asBoxValue (v : Value) : Except BboxError FloatBox := do
  let box ← coerceValue parseFloat v
  if box.w.lt (.fin 0) || box.h.lt (.fin 0) then .error (.negativeExtent box) else .ok box

/-- The exception that `as_boxes` raises, if any: that of the first value it cannot coerce. -/
def firstRefusal : List Value → Option BboxError
  | [] => none
  | v :: vs =>
    match asBoxValue parseFloat v with
    | .error e => some e
    | .ok _ => firstRefusal vs

end Coercion

/-! ## Overlap -/

namespace FloatBox

def area (b : FloatBox) : ExtRat := b.w.mul b.h

def x2 (b : FloatBox) : ExtRat := b.x.add b.w

def y2 (b : FloatBox) : ExtRat := b.y.add b.h

/-- `iou`, on coerced boxes. -/
def iou (a b : FloatBox) : ExtRat :=
  let overlapW := ExtRat.pyMax (.fin 0) ((ExtRat.pyMin a.x2 b.x2).sub (ExtRat.pyMax a.x b.x))
  let overlapH := ExtRat.pyMax (.fin 0) ((ExtRat.pyMin a.y2 b.y2).sub (ExtRat.pyMax a.y b.y))
  let intersection := overlapW.mul overlapH
  let union := (a.area.add b.area).sub intersection
  if union.le (.fin 0) then .fin 0 else intersection.div union

/-- The overlap is finite or not a number: an infinite intersection leaves no union to divide
by. -/
theorem iou_cases (a b : FloatBox) : (∃ q, a.iou b = .fin q) ∨ a.iou b = .nan := by
  unfold iou
  extract_lets overlapW overlapH intersection union
  split
  · exact Or.inl ⟨0, rfl⟩
  · rename_i hunion
    exact ExtRat.div_sub_cases intersection _ (by simpa using hunion)

/-- The overlap where it is a number.  One that is not is never greater than 0, and so makes
no candidate. -/
def score (a b : FloatBox) : Option ℚ :=
  match a.iou b with
  | .fin q => some q
  | _ => none

/-- A box with rational coordinates. -/
def ofBox (b : Box) : FloatBox := ⟨.fin b.x, .fin b.y, .fin b.w, .fin b.h⟩

/-- On finite coordinates the overlap is that of the rational boxes. -/
theorem iou_ofBox (a b : Box) : (ofBox a).iou (ofBox b) = .fin (a.iou b) := by
  simp only [iou, ofBox, area, x2, y2, ExtRat.add, ExtRat.mul, ExtRat.pyMin_fin,
    ExtRat.pyMax_fin, ExtRat.sub_fin, ExtRat.le, ExtRat.div, decide_eq_true_eq, Box.iou]
  rw [apply_ite ExtRat.fin]
  rfl

theorem score_ofBox (a b : Box) : (ofBox a).score (ofBox b) = some (a.iou b) := by
  simp [score, iou_ofBox]

end FloatBox

/-! ## Matching and scoring -/

/-- The pairs that overlap, row by row. -/
def floatCandidates (predictedBoxes truthBoxes : List FloatBox) : List Match :=
  predictedBoxes.zipIdx.flatMap fun (predictedBox, i) =>
    truthBoxes.zipIdx.filterMap fun (truthBox, j) =>
      (predictedBox.score truthBox).bind fun score =>
        if score > 0 then some ⟨i, j, score⟩ else none

/-- `match_boxes`, on coerced boxes. -/
def floatMatching (predictedBoxes truthBoxes : List FloatBox) : Matching :=
  let walk := claim (floatCandidates predictedBoxes truthBoxes)
  { matched := walk.chosen
    unmatchedPredicted := (List.range predictedBoxes.length).filter fun i => i ∉ walk.left
    unmatchedTruth := (List.range truthBoxes.length).filter fun j => j ∉ walk.right }

/-- The second half of `score_boxes`: classify a matching at `threshold`. -/
def Matching.report (matching : Matching) (threshold : ℚ) : BoxReport :=
  let truePositives := matching.matched.countP fun m => threshold ≤ m.iou
  let weak := matching.matched.length - truePositives
  { truePositives := truePositives
    falsePositives := matching.unmatchedPredicted.length + weak
    falseNegatives := matching.unmatchedTruth.length + weak
    iouSum := matching.iouSum
    matchedCount := matching.matched.length
    truthCount := matching.matched.length + matching.unmatchedTruth.length
    threshold := threshold }

section Score
variable (parseFloat : Str → Option ExtRat)

/-- `score_boxes`: the predicted boxes are coerced first. -/
def scoreValues (predicted truth : List Value) (threshold : ℚ) : Except BboxError BoxReport := do
  let predictedBoxes ← predicted.mapM (asBoxValue parseFloat)
  let truthBoxes ← truth.mapM (asBoxValue parseFloat)
  return (floatMatching predictedBoxes truthBoxes).report threshold

theorem mapM_asBoxValue (vs : List Value) :
    (∃ bs, vs.mapM (asBoxValue parseFloat) = .ok bs ∧ firstRefusal parseFloat vs = none) ∨
      ∃ e, vs.mapM (asBoxValue parseFloat) = .error e ∧ firstRefusal parseFloat vs = some e := by
  induction vs with
  | nil => exact Or.inl ⟨[], rfl, rfl⟩
  | cons v vs ih =>
    rw [List.mapM_cons, firstRefusal]
    cases hv : asBoxValue parseFloat v with
    | error e => exact Or.inr ⟨e, rfl, rfl⟩
    | ok b =>
      obtain ⟨bs, hbs, hnone⟩ | ⟨e, he, hsome⟩ := ih
      · exact Or.inl ⟨b :: bs, by rw [hbs]; rfl, hnone⟩
      · exact Or.inr ⟨e, by rw [he]; rfl, hsome⟩

theorem firstRefusal_append (us vs : List Value) :
    firstRefusal parseFloat (us ++ vs) =
      (firstRefusal parseFloat us).or (firstRefusal parseFloat vs) := by
  induction us with
  | nil => rfl
  | cons u us ih =>
    rw [List.cons_append, firstRefusal, firstRefusal, ih]
    cases asBoxValue parseFloat u <;> rfl

/-- Either every box is accepted and there is a report, or the first refusal is raised. -/
theorem scoreValues_cases (predicted truth : List Value) (threshold : ℚ) :
    (∃ ps ts, scoreValues parseFloat predicted truth threshold =
        .ok ((floatMatching ps ts).report threshold) ∧
        firstRefusal parseFloat (predicted ++ truth) = none) ∨
      ∃ e, scoreValues parseFloat predicted truth threshold = .error e ∧
        firstRefusal parseFloat (predicted ++ truth) = some e := by
  rw [scoreValues, firstRefusal_append]
  obtain ⟨ps, hps, hnone⟩ | ⟨e, he, hsome⟩ := mapM_asBoxValue parseFloat predicted
  · obtain ⟨ts, hts, hnone'⟩ | ⟨e, he, hsome⟩ := mapM_asBoxValue parseFloat truth
    · exact Or.inl ⟨ps, ts, by rw [hps, hts]; rfl, by rw [hnone, hnone']; rfl⟩
    · exact Or.inr ⟨e, by rw [hps, he]; rfl, by rw [hnone, hsome]; rfl⟩
  · exact Or.inr ⟨e, by rw [he]; rfl, by rw [hsome]; rfl⟩

theorem floatCandidates_ofBox (ps ts : List Box) :
    floatCandidates (ps.map FloatBox.ofBox) (ts.map FloatBox.ofBox) = candidates ps ts := by
  simp [floatCandidates, candidates, candidatesBy, List.zipIdx_map, List.flatMap_map, List.filterMap_map,
    FloatBox.score_ofBox]

/-- On finite coordinates the report is that of the rational boxes. -/
theorem scoreValues_ofBox {predicted truth : List Value} {ps ts : List Box}
    (hp : predicted.mapM (asBoxValue parseFloat) = .ok (ps.map FloatBox.ofBox))
    (ht : truth.mapM (asBoxValue parseFloat) = .ok (ts.map FloatBox.ofBox)) (threshold : ℚ) :
    scoreValues parseFloat predicted truth threshold = .ok (reportOf ps ts threshold) := by
  have hmatching : floatMatching (ps.map FloatBox.ofBox) (ts.map FloatBox.ofBox) =
      matchingOf ps ts := by
    simp only [floatMatching, floatCandidates_ofBox, List.length_map]
    rfl
  rw [scoreValues, hp, ht]
  simp only [bind, Except.bind, hmatching]
  rfl

end Score

/-- Without a true box there is no match, and so no overlap to be divided by 0. -/
theorem Matching.meanIou_ne_top (matching : Matching) (threshold : ℚ) :
    (matching.report threshold).meanIou ≠ ⊤ := by
  rw [BoxReport.meanIou]
  split
  · rename_i hcount
    have hsum : matching.matched.length + matching.unmatchedTruth.length = 0 := hcount
    have hnil : matching.matched = [] := List.length_eq_zero_iff.1 (by omega)
    have hzero : (matching.report threshold).iouSum = 0 := by
      simp [Matching.report, Matching.iouSum, hnil]
    rw [if_pos hzero]
    exact WithTop.zero_ne_top
  · exact WithTop.coe_ne_top

end Eval
end OcrOrchestrator
