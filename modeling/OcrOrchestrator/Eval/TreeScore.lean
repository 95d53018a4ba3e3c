import OcrOrchestrator.Eval.Metric
import OcrOrchestrator.Eval.Overlap
import Mathlib.Data.Rat.Defs
import Mathlib.Tactic.NormNum
import Mathlib.Tactic.Positivity

/-!
# Tree scores

`TreeScore` of `app/eval/ted.py` keeps a distance beside the sizes of the two trees, and
divides by the larger one.  The docstring argues that the distance never exceeds the larger
size because "any node can be relabelled instead of both deleted and inserted".  A node can
be relabelled only into one that stands in the same place, so two trees of different shape
may have too few such pairs.  The quotient stays in `[0, 1]` when the shapes and the labels
have enough in common, and does not when they have too little.

Rates are rational here where the code uses floats.

## Main definitions

* `TreeScore`, `treeScore`, `TreeScore.aggregate` — the scores and their sums.
* `Overlap`, `Reachable` — enough in common, and not too little, page by page.
-/

namespace OcrOrchestrator
namespace Eval

open Lib

/-- The distance of two trees, with their sizes. -/
structure TreeScore where
  distance : ℕ
  truthNodes : ℕ
  predictedNodes : ℕ
deriving DecidableEq, Repr

namespace TreeScore

/-- Distance per node of the larger tree. -/
def normalised (score : TreeScore) : ℚ :=
  let scale := max score.truthNodes score.predictedNodes
  if scale = 0 then 0 else score.distance / scale

/-- `aggregate`: sum distances, sum sizes. -/
def aggregate (scores : List TreeScore) : TreeScore :=
  if scores.isEmpty then ⟨0, 0, 0⟩
  else
    { distance := (scores.map distance).sum
      truthNodes := (scores.map truthNodes).sum
      predictedNodes := (scores.map predictedNodes).sum }

/-- The sums of no scores are the empty score, so the first branch is one with the second. -/
theorem aggregate_eq (scores : List TreeScore) :
    aggregate scores = ⟨(scores.map distance).sum, (scores.map truthNodes).sum,
      (scores.map predictedNodes).sum⟩ := by
  cases scores <;> rfl

theorem normalised_nonneg (score : TreeScore) : 0 ≤ score.normalised := by
  simp only [normalised]
  split <;> positivity

/-- The quotient is a fraction exactly when the distance is within the larger size, or both
trees are empty. -/
theorem normalised_mem_iff (score : TreeScore) :
    0 ≤ score.normalised ∧ score.normalised ≤ 1 ↔
      max score.truthNodes score.predictedNodes = 0 ∨
        score.distance ≤ max score.truthNodes score.predictedNodes := by
  by_cases hscale : max score.truthNodes score.predictedNodes = 0
  · simp [normalised, hscale]
  · have hpos : (0 : ℚ) < (max score.truthNodes score.predictedNodes : ℕ) := by
      exact_mod_cast Nat.pos_of_ne_zero hscale
    have hnonneg : (0 : ℚ) ≤ score.distance / (max score.truthNodes score.predictedNodes : ℕ) := by
      positivity
    simp only [normalised, hscale, if_false, false_or]
    rw [div_le_one hpos, Nat.cast_le]
    exact ⟨fun h => h.2, fun h => ⟨hnonneg, h⟩⟩

end TreeScore

section Score
variable {α : Type} [DecidableEq α]

/-- `tree_score`: parse both trees and score them. -/
def treeScore (labelKey childrenKey : String) (predicted truth : Option (Node α)) :
    Except (TreeError α) TreeScore := do
  let treePredicted ← parseTree labelKey childrenKey predicted
  let treeTruth ← parseTree labelKey childrenKey truth
  return { distance := treeEditDistance treePredicted treeTruth
           truthNodes := treeTruth.size
           predictedNodes := treePredicted.size }

/-- The score of two trees, the predicted one first. -/
def scoreOf (p : Option (OrderedTree α) × Option (OrderedTree α)) : TreeScore where
  distance := treeEditDistance (flattenRoot p.1) (flattenRoot p.2)
  truthNodes := (flattenRoot p.2).size
  predictedNodes := (flattenRoot p.1).size

theorem treeScore_of_standsFor (labelKey childrenKey : String)
    {d : Option (Node α) × Option (Node α)} {p : Option (OrderedTree α) × Option (OrderedTree α)}
    (h₁ : StandsFor d.1 p.1) (h₂ : StandsFor d.2 p.2) :
    treeScore labelKey childrenKey d.1 d.2 = .ok (scoreOf p) := by
  simp only [treeScore, parseTree_of_standsFor labelKey childrenKey h₁,
    parseTree_of_standsFor labelKey childrenKey h₂]
  rfl

/-! ## What the trees have in common -/

/-- The number of nodes of the smaller side. -/
def smallerSize (pairs : List (Option (OrderedTree α) × Option (OrderedTree α))) : ℕ :=
  min (pairs.map fun p => (treeNodes p.1).card).sum (pairs.map fun p => (treeNodes p.2).card).sum

/-- The trees of these pages share at least as much as the smaller side has nodes. -/
def Overlap (pairs : List (Option (OrderedTree α) × Option (OrderedTree α))) : Prop :=
  smallerSize pairs ≤ (pairs.map shared).sum

/-- They may have as much in common as the smaller side has nodes. -/
def Reachable (pairs : List (Option (OrderedTree α) × Option (OrderedTree α))) : Prop :=
  smallerSize pairs ≤ (pairs.map reach).sum

instance (pairs : List (Option (OrderedTree α) × Option (OrderedTree α))) :
    Decidable (Overlap pairs) := inferInstanceAs (Decidable (_ ≤ _))

instance (pairs : List (Option (OrderedTree α) × Option (OrderedTree α))) :
    Decidable (Reachable pairs) := inferInstanceAs (Decidable (_ ≤ _))

/-- A mapping that gains `g` costs what is left of both trees, and the distance is no more. -/
theorem Gain.distance_add_le {p : Option (OrderedTree α) × Option (OrderedTree α)} {g : ℕ}
    (h : Gain p g) :
    (scoreOf p).distance + g ≤ (scoreOf p).truthNodes + (scoreOf p).predictedNodes := by
  obtain ⟨M, hM, htai, rfl⟩ := h
  have hle := (isLeast_editCosts p.1 p.2).2 ⟨M, hM, htai, rfl⟩
  have hsum := editCost_add_saving (fun x y => x.2 = y.2) hM htai
  simp only [card_treeNodes] at hsum
  simp only [scoreOf]
  omega

/-- Some mapping costs the distance. -/
theorem exists_gain_distance (p : Option (OrderedTree α) × Option (OrderedTree α)) :
    ∃ g, Gain p g ∧
      (scoreOf p).distance + g = (scoreOf p).truthNodes + (scoreOf p).predictedNodes := by
  obtain ⟨M, hM, htai, hcost⟩ := (isLeast_editCosts p.1 p.2).1
  refine ⟨_, ⟨M, hM, htai, rfl⟩, ?_⟩
  have hsum := editCost_add_saving (fun x y => x.2 = y.2) hM htai
  simp only [card_treeNodes] at hsum
  simp only [scoreOf]
  omega

/-- The distance lies between what the trees may and what they do have in common. -/
theorem distance_bounds (p : Option (OrderedTree α) × Option (OrderedTree α)) :
    (scoreOf p).distance + shared p ≤ (scoreOf p).truthNodes + (scoreOf p).predictedNodes ∧
      (scoreOf p).truthNodes + (scoreOf p).predictedNodes ≤ (scoreOf p).distance + reach p := by
  obtain ⟨g, hg, hshared⟩ := exists_gain_shared p
  obtain ⟨g', hg', hdistance⟩ := exists_gain_distance p
  have := hg.distance_add_le
  have := hg'.le_reach
  omega

theorem sum_distance_bounds (pairs : List (Option (OrderedTree α) × Option (OrderedTree α))) :
    ((pairs.map scoreOf).map TreeScore.distance).sum + (pairs.map shared).sum ≤
        ((pairs.map scoreOf).map TreeScore.truthNodes).sum +
          ((pairs.map scoreOf).map TreeScore.predictedNodes).sum ∧
      ((pairs.map scoreOf).map TreeScore.truthNodes).sum +
          ((pairs.map scoreOf).map TreeScore.predictedNodes).sum ≤
        ((pairs.map scoreOf).map TreeScore.distance).sum + (pairs.map reach).sum := by
  induction pairs with
  | nil => simp
  | cons p pairs ih =>
    have := distance_bounds p
    simp only [List.map_cons, List.sum_cons]
    omega

/-- The summed distance is within the larger summed size if the trees share enough, and only if
they may have enough in common. -/
theorem aggregate_distance_bounds
    (pairs : List (Option (OrderedTree α) × Option (OrderedTree α))) :
    (Overlap pairs → (TreeScore.aggregate (pairs.map scoreOf)).distance ≤
        max (TreeScore.aggregate (pairs.map scoreOf)).truthNodes
          (TreeScore.aggregate (pairs.map scoreOf)).predictedNodes) ∧
      ((TreeScore.aggregate (pairs.map scoreOf)).distance ≤
        max (TreeScore.aggregate (pairs.map scoreOf)).truthNodes
          (TreeScore.aggregate (pairs.map scoreOf)).predictedNodes → Reachable pairs) := by
  have htruth : (pairs.map fun p => (treeNodes p.2).card) =
      (pairs.map scoreOf).map TreeScore.truthNodes := by
    simp [scoreOf, card_treeNodes]
  have hpredicted : (pairs.map fun p => (treeNodes p.1).card) =
      (pairs.map scoreOf).map TreeScore.predictedNodes := by
    simp [scoreOf, card_treeNodes]
  have hbounds := sum_distance_bounds pairs
  simp only [Overlap, Reachable, smallerSize, TreeScore.aggregate_eq, htruth, hpredicted]
  constructor <;> intro h <;> omega

/-- So is the quotient of the sums a fraction. -/
theorem normalised_aggregate_bounds
    (pairs : List (Option (OrderedTree α) × Option (OrderedTree α))) :
    (Overlap pairs → 0 ≤ (TreeScore.aggregate (pairs.map scoreOf)).normalised ∧
        (TreeScore.aggregate (pairs.map scoreOf)).normalised ≤ 1) ∧
      ((TreeScore.aggregate (pairs.map scoreOf)).normalised ≤ 1 → Reachable pairs) := by
  obtain ⟨hoverlap, hreachable⟩ := aggregate_distance_bounds pairs
  refine ⟨fun h => (TreeScore.normalised_mem_iff _).2 (Or.inr (hoverlap h)), fun h => ?_⟩
  have hmem := (TreeScore.normalised_mem_iff _).1
    ⟨TreeScore.normalised_nonneg (TreeScore.aggregate (pairs.map scoreOf)), h⟩
  rcases hmem with hempty | hle
  · -- nothing to share among empty trees
    have hbounds := sum_distance_bounds pairs
    refine hreachable ?_
    simp only [TreeScore.aggregate_eq] at hempty ⊢
    omega
  · exact hreachable hle

/-- One page is a list of pages. -/
theorem aggregate_singleton (score : TreeScore) : TreeScore.aggregate [score] = score := by
  simp [TreeScore.aggregate_eq]

theorem mapM_treeScore (labelKey childrenKey : String)
    {docs : List (Option (Node α) × Option (Node α))}
    {pairs : List (Option (OrderedTree α) × Option (OrderedTree α))}
    (h : List.Forall₂ (fun d p => StandsFor d.1 p.1 ∧ StandsFor d.2 p.2) docs pairs) :
    docs.mapM (fun d => treeScore labelKey childrenKey d.1 d.2) = .ok (pairs.map scoreOf) := by
  induction h with
  | nil => rfl
  | cons hd _ ih =>
    rw [List.mapM_cons, ih, treeScore_of_standsFor labelKey childrenKey hd.1 hd.2]
    rfl

/-- **When the normalised distance is a fraction.**  For every list of pages whose documents
stand for trees, the scores exist.  The distance of a page is within its larger tree, and its
quotient in `[0, 1]`, if its trees share as much as the smaller one has nodes, and the quotient
of the summed scores is if the pages together do.  Where the trees cannot have that much in
common, neither holds. -/
theorem normalised_fraction_of_overlap (labelKey childrenKey : String)
    (docs : List (Option (Node α) × Option (Node α)))
    (pairs : List (Option (OrderedTree α) × Option (OrderedTree α)))
    (h : List.Forall₂ (fun d p => StandsFor d.1 p.1 ∧ StandsFor d.2 p.2) docs pairs) :
    ∃ scores, docs.mapM (fun d => treeScore labelKey childrenKey d.1 d.2) = .ok scores ∧
      List.Forall₂ (fun score p =>
        (Overlap [p] → score.distance ≤ max score.truthNodes score.predictedNodes ∧
          0 ≤ score.normalised ∧ score.normalised ≤ 1) ∧
        (score.distance ≤ max score.truthNodes score.predictedNodes ∨ score.normalised ≤ 1 →
          Reachable [p])) scores pairs ∧
      (Overlap pairs → 0 ≤ (TreeScore.aggregate scores).normalised ∧
        (TreeScore.aggregate scores).normalised ≤ 1) ∧
      ((TreeScore.aggregate scores).normalised ≤ 1 → Reachable pairs) := by
  refine ⟨_, mapM_treeScore labelKey childrenKey h, ?_, normalised_aggregate_bounds pairs⟩
  rw [List.forall₂_map_left_iff, List.forall₂_same]
  intro p _
  have hdistance := aggregate_distance_bounds [p]
  have hnormalised := normalised_aggregate_bounds [p]
  rw [List.map_cons, List.map_nil, aggregate_singleton] at hdistance hnormalised
  exact ⟨fun hp => ⟨hdistance.1 hp, hnormalised.1 hp⟩, fun hp => hp.elim hdistance.2 hnormalised.2⟩

/-- Where one tree is a chain and no label occurs in both, nothing lies between the two bounds. -/
theorem overlap_iff_reachable_of_chain {s t : Option (OrderedTree α)}
    (hchain : (leaves s).card ≤ 1) (hlabels : treeLabels s ∩ treeLabels t = 0) :
    Overlap [(s, t)] ↔ Reachable [(s, t)] := by
  have hshared : min (treeHeight s) (treeHeight t) ≤ shared (s, t) :=
    (le_max_left _ _).trans (le_max_right _ _)
  have hreach : reach (s, t) ≤ min (treeHeight s) (treeHeight t) := by
    have hleaves : min (leaves s).card (leaves t).card ≤ 1 := (min_le_left _ _).trans hchain
    simpa [reach, hlabels] using Nat.mul_le_mul_left (min (treeHeight s) (treeHeight t)) hleaves
  obtain ⟨g, hg, hle⟩ := exists_gain_shared (s, t)
  have hbetween := hle.trans hg.le_reach
  simp only [Overlap, Reachable, List.map_cons, List.map_nil, List.sum_cons, List.sum_nil]
  omega

end Score

/-- A page whose table has moved before the title, and a page whose title is not predicted. -/
def movedTable : List (Option (Node String) × Option (Node String)) :=
  [(some (.mapping (some "page") [.value "title", .mapping (some "table") [.value "row"]]),
      some (.mapping (some "page") [.mapping (some "table") [.value "row"], .value "title"])),
    (some (.mapping (some "page") []), some (.mapping (some "page") [.value "title"]))]

/-- On the first page three of four positions are in both trees, and one of them has the same
label. -/
theorem normalised_fraction_of_overlap_movedTable :
    ∃ scores, movedTable.mapM (fun d => treeScore "type" "children" d.1 d.2) = .ok scores ∧
      (TreeScore.aggregate scores).normalised ≤ 1 := by
  have hpages : List.Forall₂ (fun d p => StandsFor d.1 p.1 ∧ StandsFor d.2 p.2) movedTable
      [(some (.node "page" [.node "title" [], .node "table" [.node "row" []]]),
          some (.node "page" [.node "table" [.node "row" []], .node "title" []])),
        (some (.node "page" []), some (.node "page" [.node "title" []]))] :=
    .cons ⟨.some rfl, .some rfl⟩ (.cons ⟨.some rfl, .some rfl⟩ .nil)
  obtain ⟨scores, hscores, -, hfraction, -⟩ :=
    normalised_fraction_of_overlap "type" "children" _ _ hpages
  exact ⟨scores, hscores, (hfraction (by decide +kernel)).2⟩

/-- A root with two children against a path of three nodes, no label in common: at most two
nodes can be relabelled, so the distance is 4.  And two pages, each of which is a fraction by
itself: a tree where none was, and none where a tree was. -/
theorem normalised_not_fraction :
    treeScore "type" "children"
        (some (.mapping (some "page") [.value "title", .value "text"]))
        (some (.mapping (some "table") [.mapping (some "row") [.value "cell"]])) =
          .ok ⟨4, 3, 3⟩ ∧
      ¬ (TreeScore.mk 4 3 3).distance ≤ max 3 3 ∧ ¬ (TreeScore.mk 4 3 3).normalised ≤ 1 ∧
      [(none, some (.value "page")), (some (.value "page"), none)].mapM
          (fun d => treeScore "type" "children" d.1 d.2) = .ok [⟨1, 1, 0⟩, ⟨1, 0, 1⟩] ∧
      ¬ (TreeScore.aggregate [⟨1, 1, 0⟩, ⟨1, 0, 1⟩]).normalised ≤ 1 := by
  refine ⟨?_, by decide, ?_, ?_, ?_⟩
  · exact treeScore_of_standsFor "type" "children" (d := (_, _))
      (p := (some (.node "page" [.node "title" [], .node "text" []]),
        some (.node "table" [.node "row" [.node "cell" []]]))) (.some rfl) (.some rfl)
  · norm_num [TreeScore.normalised]
  · have hpages : List.Forall₂ (fun d p => StandsFor d.1 p.1 ∧ StandsFor d.2 p.2)
        [(none, some (.value "page")), (some (.value "page"), none)]
        [(none, some (.node "page" [])), (some (.node "page" []), none)] :=
      .cons ⟨.none, .some rfl⟩ (.cons ⟨.some rfl, .none⟩ .nil)
    exact mapM_treeScore "type" "children" hpages
  · norm_num [TreeScore.normalised, TreeScore.aggregate]

end Eval
end OcrOrchestrator
