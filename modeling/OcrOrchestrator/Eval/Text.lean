import OcrOrchestrator.Lib.EditDistance
import OcrOrchestrator.Lib.Fold
import Mathlib.Data.List.Induction
import Mathlib.Algebra.Ring.Rat
import Mathlib.Algebra.Order.Monoid.Unbundled.WithTop
import Mathlib.Algebra.Order.Ring.Unbundled.Rat

/-!
# Character and word error rates

`app/eval/text.py`: how a text is cut into units, and how the edit distance of two sequences
of units is computed with two rows of a table.

A text is a sequence of code points.  What the segmentation asks of a code point comes from
the Unicode tables of the interpreter; here it is a parameter, and nothing below depends on
what it says.  Rates are rational, with `⊤` for the infinite one.

## Main definitions

* `graphemes`, `words`, `units` — segmentation.
* `levenshtein` — the two-row table; `levenshtein_eq` says it computes `editDist`.
* `cerScore`, `werScore` — the scores of one pair of texts.
-/

namespace OcrOrchestrator
namespace Eval

open Lib

/-! ## Segmentation -/

/-- A code point of a Python string, surrogates included. -/
abbrev CodePoint := Fin 0x110000

/-- A Python string.  Its elements, taken one by one, are strings of length 1. -/
abbrev Str := List CodePoint

/-- The general categories of Unicode. -/
inductive Category where
  | Lu | Ll | Lt | Lm | Lo | Mn | Mc | Me | Nd | Nl | No | Pc | Pd | Ps | Pe | Pi | Pf | Po
  | Sm | Sc | Sk | So | Zs | Zl | Zp | Cc | Cf | Cs | Co | Cn
deriving DecidableEq, Repr

/-- What the interpreter knows about code points: `unicodedata.category`,
`unicodedata.combining` and `str.isspace`. -/
structure UnicodeData where
  category : CodePoint → Category
  combining : CodePoint → ℕ
  isspace : CodePoint → Bool

/-- `_MARK_CATEGORIES`. -/
def markCategories : List Category := [.Mn, .Mc, .Me]

/-- `_ZWJ`, the zero width joiner. -/
def zwj : CodePoint := 0x200d

/-- `_ZWNJ`, the zero width non-joiner. -/
def zwnj : CodePoint := 0x200c

/-- `_VIRAMA_COMBINING_CLASS`. -/
def viramaCombiningClass : ℕ := 9

/-- `_joins_following`: does this code point force the next one into the same cluster? -/
def joinsFollowing (ucd : UnicodeData) (ch : CodePoint) : Bool :=
  ch = zwj || ucd.combining ch = viramaCombiningClass

/-- One code point of `graphemes`: it extends the last cluster or starts a new one. -/
def clusterStep (ucd : UnicodeData) (state : List Str × Bool) (ch : CodePoint) :
    List Str × Bool :=
  let (clusters, joinNext) := state
  let extend := !clusters.isEmpty &&
    (joinNext || ch = zwj || ch = zwnj || markCategories.contains (ucd.category ch))
  let clusters :=
    if extend then clusters.dropLast ++ [clusters.getLastD [] ++ [ch]] else clusters ++ [[ch]]
  (clusters, joinsFollowing ucd ch)

/-- `graphemes`: split into user-perceived characters. -/
def graphemes (ucd : UnicodeData) (text : Str) : List Str :=
  (text.foldl (clusterStep ucd) ([], false)).1

/-- `words`: whitespace tokenisation. -/
def words (ucd : UnicodeData) (text : Str) : List Str :=
  (text.splitOnP ucd.isspace).filter fun word => !word.isEmpty

/-- The `ValueError`s of the module: "unit must be 'grapheme' or 'codepoint', got {unit!r}"
and "cannot aggregate mixed units: {sorted(units)}". -/
inductive TextError where
  | unknownUnit (unit : String)
  | mixedUnits (units : List String)
deriving DecidableEq, Repr

/-- `_units`. -/
def units (ucd : UnicodeData) (text : Str) (unit : String) : Except TextError (List Str) :=
  if unit = "grapheme" then .ok (graphemes ucd text)
  else if unit = "codepoint" then .ok (text.map fun ch => [ch])
  else .error (.unknownUnit unit)

/-! ## The table -/

section Table
variable {α : Type} [DecidableEq α]

/-- One cell: `j` counts from 1, and `current` ends with the cell before it. -/
def rowStep (previous : List ℕ) (refUnit : α) (current : List ℕ) (cell : α × ℕ) : List ℕ :=
  let (hypUnit, j) := cell
  current ++ [min (previous.getD j 0 + 1) (min (current.getD (j - 1) 0 + 1)
    (previous.getD (j - 1) 0 + if refUnit ≠ hypUnit then 1 else 0))]

/-- One row, from the row before it. -/
def nextRow (hypothesis : List α) (previous : List ℕ) (row : α × ℕ) : List ℕ :=
  (hypothesis.zipIdx 1).foldl (rowStep previous row.1) [row.2]

/-- `levenshtein`: edit distance with unit costs.  The shorter side indexes the row. -/
def levenshtein (reference hypothesis : List α) : ℕ :=
  let (reference, hypothesis) :=
    if reference.length < hypothesis.length then (hypothesis, reference)
    else (reference, hypothesis)
  if hypothesis.isEmpty then reference.length
  else
    ((reference.zipIdx 1).foldl (nextRow hypothesis)
      (List.range (hypothesis.length + 1))).getLastD 0

end Table

/-! ## Scoring -/

/-- A rate kept as a fraction. -/
structure TextScore where
  errors : ℕ
  length : ℕ
  unit : String
deriving DecidableEq, Repr

/-- Errors per reference unit. -/
def TextScore.rate (score : TextScore) : WithTop ℚ :=
  if score.length = 0 then if score.errors = 0 then 0 else ⊤
  else ((score.errors / score.length : ℚ) : WithTop ℚ)

/-- `cer_score`: the character error rate of one pair. -/
def cerScore (ucd : UnicodeData) (reference hypothesis : Str) (unit : String) :
    Except TextError TextScore := do
  let refUnits ← units ucd reference unit
  let hypUnits ← units ucd hypothesis unit
  let distance := levenshtein refUnits hypUnits
  return ⟨distance, refUnits.length, unit⟩

/-- `wer_score`: the word error rate of one pair. -/
def werScore (ucd : UnicodeData) (reference hypothesis : Str) : TextScore :=
  let refWords := words ucd reference
  let hypWords := words ucd hypothesis
  let distance := levenshtein refWords hypWords
  ⟨distance, refWords.length, "word"⟩

/-! ## The rows -/

section Rows
variable {α : Type}

/-- One element more: its index counts from 1. -/
theorem zipIdx_concat (h : List α) (y : α) :
    (h ++ [y]).zipIdx 1 = h.zipIdx 1 ++ [(y, h.length + 1)] := by
  rw [List.zipIdx_append]
  simp [Nat.add_comm]

variable [DecidableEq α]

/-- What a row holds: the distances of `r` and the prefixes of `h`. -/
def distRow (r h : List α) : List ℕ :=
  (List.range (h.length + 1)).map fun j => editDist r (h.take j)

theorem distRow_getD {r h : List α} {j : ℕ} (hj : j ≤ h.length) :
    (distRow r h).getD j 0 = editDist r (h.take j) := by
  simp [distRow, Nat.lt_succ_of_le hj]

theorem distRow_concat (r h : List α) (y : α) :
    distRow r (h ++ [y]) = distRow r h ++ [editDist r (h ++ [y])] := by
  have hprefix : ∀ j ∈ List.range (h.length + 1),
      editDist r ((h ++ [y]).take j) = editDist r (h.take j) := by
    intro j hj
    rw [List.take_append_of_le_length (by simpa [Nat.lt_succ_iff] using hj)]
  rw [distRow, List.length_append, List.length_singleton, List.range_succ, List.map_append,
    List.map_congr_left hprefix]
  simp [distRow, List.take_of_length_le]

theorem distRow_getLastD (r h : List α) : (distRow r h).getLastD 0 = editDist r h := by
  simp [distRow, List.range_succ]

/-- The inner loop, after the cells of a prefix of the hypothesis. -/
theorem rowStep_foldl (r h rest : List α) (x : α) :
    (h.zipIdx 1).foldl (rowStep (distRow r (h ++ rest)) x) [r.length + 1] =
      distRow (r ++ [x]) h := by
  induction h using List.reverseRecOn generalizing rest with
  | nil => simp [distRow]
  | append_singleton h y ih =>
    have hrow := ih (y :: rest)
    rw [zipIdx_concat, List.foldl_append, List.append_assoc, List.singleton_append, hrow,
      List.foldl_cons, List.foldl_nil, distRow_concat, editDist_concat]
    -- the four cells the code reads, all of them written before
    have habove : (distRow r (h ++ y :: rest)).getD (h.length + 1) 0 = editDist r (h ++ [y]) := by
      rw [distRow_getD (by simp)]
      simp [List.take_append, List.take_of_length_le]
    have hdiag : (distRow r (h ++ y :: rest)).getD h.length 0 = editDist r h := by
      rw [distRow_getD (by simp)]
      simp
    have hleft : (distRow (r ++ [x]) h).getD h.length 0 = editDist (r ++ [x]) h := by
      rw [distRow_getD le_rfl, List.take_length]
    simp only [rowStep, Nat.add_sub_cancel, habove, hdiag, hleft]
    by_cases hxy : x = y <;> simp [hxy]

/-- A row follows from the row before it. -/
theorem nextRow_distRow (r h : List α) (x : α) :
    nextRow h (distRow r h) (x, r.length + 1) = distRow (r ++ [x]) h := by
  simpa [nextRow] using rowStep_foldl r h [] x

/-- The outer loop. -/
theorem nextRow_foldl (r h : List α) :
    (r.zipIdx 1).foldl (nextRow h) (List.range (h.length + 1)) = distRow r h := by
  induction r using List.reverseRecOn with
  | nil =>
    have hrow : distRow [] h = List.range (h.length + 1) := by
      refine (List.map_congr_left fun j hj => ?_).trans (List.map_id _)
      rw [List.mem_range] at hj
      simp
      omega
    simpa using hrow.symm
  | append_singleton r x ih =>
    rw [zipIdx_concat, List.foldl_append, ih, List.foldl_cons, List.foldl_nil, nextRow_distRow]

/-- The two rows compute the recurrence, whichever side is shorter. -/
theorem levenshtein_eq (reference hypothesis : List α) :
    levenshtein reference hypothesis = editDist reference hypothesis := by
  have hrows : ∀ r h : List α, (if h.isEmpty then r.length else
      ((r.zipIdx 1).foldl (nextRow h) (List.range (h.length + 1))).getLastD 0) =
        editDist r h := by
    intro r h
    cases h with
    | nil => simp
    | cons y h =>
      rw [nextRow_foldl, distRow_getLastD]
      rfl
  rw [levenshtein]
  by_cases hlt : reference.length < hypothesis.length
  · simp only [hlt, if_true]
    rw [hrows, editDist_comm]
  · simp only [hlt, if_false]
    exact hrows reference hypothesis

end Rows

/-! ## Segmentation loses nothing -/

/-- A code point goes into the last cluster or into one of its own. -/
theorem clusterStep_flatten (ucd : UnicodeData) (state : List Str × Bool) (ch : CodePoint) :
    (clusterStep ucd state ch).1.flatten = state.1.flatten ++ [ch] := by
  obtain ⟨clusters, joinNext⟩ := state
  simp only [clusterStep]
  split
  · rename_i hextend
    have hne : clusters ≠ [] := by
      rintro rfl
      simp at hextend
    have hsplit := List.dropLast_append_getLast hne
    have hlast : clusters.getLastD [] = clusters.getLast hne := by
      simp [List.getLastD_eq_getLast?, List.getLast?_eq_getLast_of_ne_nil hne]
    rw [hlast, List.flatten_append, List.flatten_singleton, ← List.append_assoc]
    conv_rhs => rw [← hsplit, List.flatten_append, List.flatten_singleton]
  · simp

/-- The clusters, one after the other, are the text. -/
theorem graphemes_flatten (ucd : UnicodeData) (text : Str) :
    (graphemes ucd text).flatten = text := by
  have hfold : ∀ (text : Str) (state : List Str × Bool),
      (text.foldl (clusterStep ucd) state).1.flatten = state.1.flatten ++ text := by
    intro text
    induction text with
    | nil => simp
    | cons ch text ih =>
      intro state
      rw [List.foldl_cons, ih, clusterStep_flatten]
      simp
  simpa [graphemes] using hfold text ([], false)

/-- Either segmentation can be undone. -/
theorem units_flatten {ucd : UnicodeData} {text : Str} {unit : String} {us : List Str}
    (h : units ucd text unit = .ok us) : us.flatten = text := by
  unfold units at h
  split at h
  · obtain rfl : graphemes ucd text = us := by simpa using h
    exact graphemes_flatten ucd text
  · split at h
    · obtain rfl : (text.map fun ch => [ch]) = us := by simpa using h
      induction text with
      | nil => rfl
      | cons ch text ih => simp [ih]
    · cases h

theorem units_of_known (ucd : UnicodeData) (text : Str) {unit : String}
    (h : unit = "grapheme" ∨ unit = "codepoint") : ∃ us, units ucd text unit = .ok us := by
  rcases h with rfl | rfl
  · exact ⟨_, rfl⟩
  · exact ⟨_, rfl⟩

/-- With a known unit there is a score, and it counts no error exactly for equal texts. -/
theorem cerScore_errors_eq_zero_iff (ucd : UnicodeData) (reference hypothesis : Str)
    {unit : String} (h : unit = "grapheme" ∨ unit = "codepoint") :
    ∃ score, cerScore ucd reference hypothesis unit = .ok score ∧
      (score.errors = 0 ↔ reference = hypothesis) := by
  obtain ⟨refUnits, href⟩ := units_of_known ucd reference h
  obtain ⟨hypUnits, hhyp⟩ := units_of_known ucd hypothesis h
  refine ⟨⟨levenshtein refUnits hypUnits, refUnits.length, unit⟩, ?_, ?_⟩
  · simp only [cerScore, href, hhyp]
    rfl
  · rw [levenshtein_eq, editDist_eq_zero_iff]
    constructor
    · intro hunits
      rw [← units_flatten href, ← units_flatten hhyp, hunits]
    · rintro rfl
      exact Except.ok.inj (href.symm.trans hhyp)

/-- **`levenshtein` is the edit distance.**  For all sequences over a type with decidable
equality the value is the least number of single-element insertions, deletions and
substitutions that turn the one into the other; it is symmetric, satisfies the triangle
inequality and lies between the difference of the lengths and the larger length.  And for
both units of `cer_score`, whatever the Unicode tables say, the error count is 0 exactly for
equal texts. -/
theorem levenshtein_isLeast {α : Type} [DecidableEq α] (r h : List α) :
    IsLeast {n | Edits n r h} (levenshtein r h) ∧
      levenshtein r h = levenshtein h r ∧
      (∀ s, levenshtein r h ≤ levenshtein r s + levenshtein s h) ∧
      h.length ≤ r.length + levenshtein r h ∧ r.length ≤ h.length + levenshtein r h ∧
      levenshtein r h ≤ max r.length h.length ∧
      ∀ (ucd : UnicodeData) (reference hypothesis : Str) (unit : String),
        unit ∈ ["grapheme", "codepoint"] →
          ∃ score, cerScore ucd reference hypothesis unit = .ok score ∧
            (score.errors = 0 ↔ reference = hypothesis) := by
  simp only [levenshtein_eq]
  have hlength := length_le_add_editDist r h
  refine ⟨isLeast_editDist r h, editDist_comm r h, fun s => editDist_triangle r s h, hlength.1,
    hlength.2, editDist_le_max r h, fun ucd reference hypothesis unit hunit => ?_⟩
  exact cerScore_errors_eq_zero_iff ucd reference hypothesis (by simpa using hunit)

/-- Two substitutions and an insertion; and a letter with a combining mark, which is one
grapheme. -/
theorem levenshtein_isLeast_kitten :
    levenshtein "kitten".toList "sitting".toList = 3 ∧
      IsLeast {n | Edits n "kitten".toList "sitting".toList}
        (levenshtein "kitten".toList "sitting".toList) ∧
      graphemes ⟨fun ch => if ch = 0x301 then .Mn else .Ll, fun _ => 0, fun _ => false⟩
        [0x65, 0x301, 0x66] = [[0x65, 0x301], [0x66]] ∧
      ∃ score, cerScore ⟨fun ch => if ch = 0x301 then .Mn else .Ll, fun _ => 0, fun _ => false⟩
          [0x65, 0x301, 0x66] [0x65, 0x66] "grapheme" = .ok score ∧
        (score.errors = 0 ↔ ([0x65, 0x301, 0x66] : Str) = [0x65, 0x66]) :=
  ⟨by decide +kernel, (levenshtein_isLeast _ _).1, by decide +kernel,
    (levenshtein_isLeast ([] : List ℕ) []).2.2.2.2.2.2 _ _ _ _ (by simp)⟩

end Eval
end OcrOrchestrator
