import OcrOrchestrator.Lib.JsonValue
import OcrOrchestrator.Lib.TextFormat
import OcrOrchestrator.Metrics.Fleet

/-!
# The text of a scrape

`render` of `common/metrics.py`, with the escapes and the samples it is made of, and what a scraper
reads in it.  The values are finite.  How floats are written is a parameter, of which it is assumed
that a scraper reads back the number that was written.

## Main definitions

* `FloatText` — `repr` of floats, and how a scraper reads numbers.
* `render` — the text of some families.
* `MetricFamily.Legal` — families with names of the grammar of the format.

## Main results

* `readValues_render` — a scraper reads the families that were rendered.
* `exists_workerFamilies` — the families of the workers are legal when the fields are.
* `fleet_scrape` — the text of the scrape of a fleet is read as it was meant.
-/

namespace OcrOrchestrator
namespace Metrics

open Lib TextFormat

/-! ## Rendering -/

/-- `str.replace` of one character. -/
def replace (s : Text) (c : Char) (new : Text) : Text :=
  s.flatMap fun d => if d = c then new else [d]

/-- `_escape_help`. -/
def escapeHelp (text : String) : Text :=
  replace (replace text.toList '\\' ['\\', '\\']) '\n' ['\\', 'n']

/-- `_escape_label`. -/
def escapeLabel (value : String) : Text :=
  replace (replace (replace value.toList '\\' ['\\', '\\']) '"' ['\\', '"']) '\n' ['\\', 'n']

/-- `repr` of floats, and what a scraper makes of a token.  The texts of `repr` are tokens, and the
scraper reads the number back, as it reads integers. -/
structure FloatText where
  repr : ℚ → Text
  parse : Text → Option ℚ
  isToken_repr : ∀ q, Line.IsToken (repr q)
  parse_repr : ∀ q, parse (repr q) = some q
  parse_int : ∀ n : ℤ, |n| < 10 ^ 15 → parse (toString n).toList = some (n : ℚ)

variable (num : FloatText)

/-- `_format_value`, of a finite number. -/
def formatNumber (q : ℚ) : Text :=
  if q.den = 1 ∧ |q| < 10 ^ 15 then (toString q.num).toList else num.repr q

/-- `str.join`. -/
def join (separator : Char) : List Text → Text
  | [] => []
  | [line] => line
  | line :: lines => line ++ separator :: join separator lines

/-- `_render_sample`. -/
def renderSample (s : Sample) : Text :=
  if s.labels ≠ [] then
    let rendered := join ',' ((sortLabels s.labels).map fun l =>
      (ofLex l).1.toList ++ ['=', '"'] ++ escapeLabel (ofLex l).2 ++ ['"'])
    s.name.toList ++ ['{'] ++ rendered ++ ['}', ' '] ++ formatNumber num s.value
  else s.name.toList ++ [' '] ++ formatNumber num s.value

/-- The name of a kind. -/
def Kind.text : Kind → Text
  | counter => ['c', 'o', 'u', 'n', 't', 'e', 'r']
  | gauge => ['g', 'a', 'u', 'g', 'e']
  | histogram => ['h', 'i', 's', 't', 'o', 'g', 'r', 'a', 'm']

/-- The lines of one family. -/
def familyLines (f : MetricFamily) : List Text :=
  let metadata := [
    ['#', ' ', 'H', 'E', 'L', 'P', ' '] ++ f.name.toList ++ [' '] ++ escapeHelp f.help,
    ['#', ' ', 'T', 'Y', 'P', 'E', ' '] ++ f.name.toList ++ [' '] ++ f.kind.text]
  if f.samples = [] then metadata else metadata ++ f.samples.map (renderSample num)

/-- `render`. -/
def render (families : List MetricFamily) : Text :=
  join '\n' (families.flatMap (familyLines num)) ++ ['\n']

/-! ## What there is to read -/

/-- A sample as a line. -/
def Sample.line (s : Sample) : Line ℚ :=
  .sample s.name.toList
    ((sortLabels s.labels).map fun l => ((ofLex l).1.toList, (ofLex l).2.toList)) s.value none

/-- A family as lines: its help and its type, once, and then its samples. -/
def MetricFamily.lines (f : MetricFamily) : List (Line ℚ) :=
  .help f.name.toList f.help.toList :: .type f.name.toList f.kind.text :: f.samples.map Sample.line

/-- Labels with names of the grammar of the format. -/
def LegalLabels (labels : Labels) : Prop :=
  ∀ l ∈ labels, isName isLabelChar (ofLex l).1.toList = true

def LegalName (name : String) : Prop := isName isMetricChar name.toList = true

def Sample.Legal (s : Sample) : Prop := LegalName s.name ∧ LegalLabels s.labels

/-- Its names are of the grammar of the format, and its help does not begin with a blank. -/
def MetricFamily.Legal (f : MetricFamily) : Prop :=
  LegalName f.name ∧ skip f.help.toList = f.help.toList ∧
    ∀ s ∈ f.samples, s.Legal

/-! ## Escapes -/

/-- Two replacements in a row are one pass over the text. -/
theorem escapeHelp_eq (text : String) :
    escapeHelp text = text.toList.flatMap TextFormat.escapeHelp := by
  rw [escapeHelp, replace, replace, List.flatMap_assoc]
  refine List.flatMap_congr fun c _ => ?_
  rw [TextFormat.escapeHelp]
  by_cases hslash : c = '\\'
  · subst hslash
    decide
  by_cases hfeed : c = '\n'
  · subst hfeed
    decide
  simp [hslash, hfeed]

/-- So are three; backslashes go first, or the others would be escaped again. -/
theorem escapeLabel_eq (value : String) :
    escapeLabel value = value.toList.flatMap escapeQuoted := by
  rw [escapeLabel, replace, replace, replace, List.flatMap_assoc, List.flatMap_assoc]
  refine List.flatMap_congr fun c _ => ?_
  rw [escapeQuoted, TextFormat.escapeHelp]
  by_cases hquote : c = '"'
  · subst hquote
    decide
  by_cases hslash : c = '\\'
  · subst hslash
    decide
  by_cases hfeed : c = '\n'
  · subst hfeed
    decide
  simp [hquote, hslash, hfeed]

/-! ## Numbers -/

/-- The characters of a number. -/
def isNumeral (c : Char) : Bool := c.isDigit || c ∈ ['-', '.', '/']

theorem isToken_of_isNumeral {s : Text} (hne : s ≠ []) (hs : ∀ c ∈ s, isNumeral c = true) :
    Line.IsToken s := by
  refine ⟨hne, fun c hc => ?_⟩
  have hnumeral := hs c hc
  refine ⟨?_, ?_, ?_⟩
  · by_contra hblank
    rcases Bool.or_eq_true_iff.mp (Bool.not_eq_false _ ▸ hblank) with h | h <;>
      obtain rfl := of_decide_eq_true h <;> exact absurd hnumeral (by decide)
  · rintro rfl
    exact absurd hnumeral (by decide)
  · rintro rfl
    exact absurd hnumeral (by decide)

theorem isNumeral_toDigits (n : ℕ) : ∀ c ∈ Nat.toDigits 10 n, isNumeral c = true := by
  intro c hc
  simp [isNumeral, JsonText.isDigit_toDigits n c hc]

theorem toList_toString_int (n : ℤ) : (toString n).toList = JsonText.intText n := by
  rw [Int.toString_eq_repr, Int.repr_eq_if, JsonText.intText]
  rcases le_or_gt 0 n with hpos | hneg
  · have habs : n.toNat = n.natAbs := by omega
    rw [if_pos hpos, if_neg (not_lt.mpr hpos), Nat.toList_repr, habs]
  · have habs : (-n).toNat = n.natAbs := by omega
    rw [if_neg (not_le.mpr hneg), if_pos hneg, String.toList_append, Nat.toList_repr, habs]
    rfl

theorem isToken_int (n : ℤ) : Line.IsToken (toString n).toList := by
  rw [toList_toString_int, JsonText.intText]
  split
  · refine isToken_of_isNumeral (List.cons_ne_nil _ _) fun c hc => ?_
    rcases List.mem_cons.mp hc with rfl | hc
    · decide
    · exact isNumeral_toDigits _ c hc
  · exact isToken_of_isNumeral Nat.toDigits_ne_nil (isNumeral_toDigits _)

variable {num}

/-- A value is one token. -/
theorem isToken_formatNumber (q : ℚ) : Line.IsToken (formatNumber num q) := by
  rw [formatNumber]
  split
  · exact isToken_int _
  · exact num.isToken_repr q

/-- Which reads as the value. -/
theorem parse_formatNumber (q : ℚ) : num.parse (formatNumber num q) = some q := by
  rw [formatNumber]
  split
  · rename_i h
    have hq : (q.num : ℚ) = q := Rat.den_eq_one_iff q |>.mp h.1
    have hsmall : |q.num| < 10 ^ 15 := by
      have := h.2
      rw [← hq] at this
      exact_mod_cast this
    rw [num.parse_int _ hsmall, hq]
  · exact num.parse_repr q

/-- The numbers of a scrape. -/
def FloatText.numbers (num : FloatText) : Numbers ℚ where
  write := formatNumber num
  read := num.parse
  isToken := isToken_formatNumber
  read_write := parse_formatNumber

/-! ## Lines -/

/-- Lines with a line feed between them and one at the end. -/
theorem join_append (c : Char) {lines : List Text} (h : lines ≠ []) :
    join c lines ++ [c] = lines.flatMap fun line => line ++ [c] := by
  fun_induction join c lines with
  | case1 => exact absurd rfl h
  | case2 line => simp
  | case3 line lines hne ih =>
    rw [List.append_assoc, List.cons_append, ih hne, List.flatMap_cons, List.append_assoc]
    rfl

theorem join_writeLabel (labels : List (Text × Text)) :
    join ',' (labels.map writeLabel) = writeLabels labels := by
  fun_induction writeLabels labels with
  | case1 => rfl
  | case2 label => rfl
  | case3 label labels hne ih =>
    rw [List.map_cons, join.eq_3 _ _ _ (by simpa using hne), ih]

/-- What is rendered is the line that is meant. -/
theorem write_line (s : Sample) : (s.line.written num.numbers).write = renderSample num s := by
  have hlabels : ((sortLabels s.labels).map fun l =>
      (ofLex l).1.toList ++ ['=', '"'] ++ escapeLabel (ofLex l).2 ++ ['"']) =
      ((sortLabels s.labels).map fun l =>
        ((ofLex l).1.toList, (ofLex l).2.toList)).map writeLabel := by
    rw [List.map_map]
    refine List.map_congr_left fun l _ => ?_
    simp [writeLabel, escapeLabel_eq]
  have hnil : sortLabels s.labels = [] ↔ s.labels = [] := by
    rw [← List.length_eq_zero_iff, ← List.length_eq_zero_iff, sortLabels, List.length_insertionSort]
  have hnumber : num.numbers.write s.value = formatNumber num s.value := rfl
  rw [renderSample, Sample.line, Line.written, Line.write, hlabels, join_writeLabel, hnumber]
  by_cases h : s.labels = []
  · rw [hnil.mpr h]
    simp [h]
  · simp [h, hnil]

theorem familyLines_eq (f : MetricFamily) :
    familyLines num f = f.lines.map fun l => (l.written num.numbers).write := by
  have hsamples : f.samples.map (renderSample num) =
      (f.samples.map Sample.line).map fun l => (l.written num.numbers).write := by
    rw [List.map_map]
    exact List.map_congr_left fun s _ => (write_line s).symm
  rw [familyLines, MetricFamily.lines, List.map_cons, List.map_cons, Line.written, Line.written,
    Line.write, Line.write, ← hsamples, escapeHelp_eq]
  split
  · rename_i h
    simp [h]
  · simp

theorem wellFormed_lines {f : MetricFamily} (h : f.Legal) :
    ∀ l ∈ f.lines, (l.written num.numbers).WellFormed := by
  obtain ⟨hname, hhelp, hsamples⟩ := h
  intro l hl
  rcases List.mem_cons.mp hl with rfl | hl
  · exact ⟨hname, hhelp⟩
  rcases List.mem_cons.mp hl with rfl | hl
  · refine ⟨hname, ?_⟩
    cases f.kind <;> simp [Line.IsToken, Kind.text, isBlank]
  obtain ⟨s, hs, rfl⟩ := List.mem_map.mp hl
  obtain ⟨hmetric, hlabels⟩ := hsamples s hs
  refine ⟨hmetric, fun l hl => ?_, isToken_formatNumber s.value, fun t ht => by cases ht⟩
  obtain ⟨l, hmem, rfl⟩ := List.mem_map.mp hl
  exact hlabels l ((List.mem_insertionSort _).mp hmem)

/-- A scraper reads what was rendered: of every family its help and its type once, and then its
samples. -/
theorem readValues_render {families : List MetricFamily} (h : ∀ f ∈ families, f.Legal) :
    readValues num.parse (render num families) = some (families.flatMap MetricFamily.lines) := by
  have hlines : families.flatMap (familyLines num) =
      (families.flatMap MetricFamily.lines).map fun l => (l.written num.numbers).write := by
    rw [List.map_flatMap]
    exact List.flatMap_congr fun f _ => familyLines_eq f
  have hlegal : ∀ l ∈ families.flatMap MetricFamily.lines,
      (l.written num.numbers).WellFormed := by
    intro l hl
    obtain ⟨f, hf, hl⟩ := List.mem_flatMap.mp hl
    exact wellFormed_lines (h f hf) l hl
  cases families with
  | nil => rfl
  | cons f families =>
    rw [render, join_append '\n' (by simp [familyLines_eq, MetricFamily.lines]), hlines,
      List.flatMap_map]
    exact readValues_write hlegal

/-! ## The families of the workers -/

/-- An item with names of the grammar. -/
def Decoded.Legal (e : Decoded) : Prop := LegalName e.1.1 ∧ LegalLabels e.1.2

/-- A suffix of a name. -/
theorem isName_append {p : Char → Bool} {s t : Text} (hs : isName p s = true)
    (ht : t.all p = true) : isName p (s ++ t) = true := by
  rw [isName, Bool.and_eq_true] at hs ⊢
  cases s with
  | nil => exact absurd hs.2 (by simp)
  | cons c s => exact ⟨by rw [List.all_append, hs.1, ht]; rfl, by simpa using hs.2⟩

theorem skip_help {helps : Dict String String} (name default : String)
    (h : ∀ e ∈ helps, skip e.2.toList = e.2.toList)
    (hdefault : skip default.toList = default.toList) :
    skip ((helps.get name).getD default).toList = ((helps.get name).getD default).toList := by
  cases hget : helps.get name with
  | none => exact hdefault
  | some help =>
    obtain ⟨e, he, rfl⟩ := Option.map_eq_some_iff.mp hget
    exact h e (List.mem_of_find?_eq_some he)

/-- The characters of a literal are read off it, and not off its bytes. -/
theorem toList_literal (s : String) {cs : Text} (h : s = String.ofList cs) : s.toList = cs := by
  rw [h, String.toList_ofList]

theorem skip_literal {s : String} {c : Char} {cs : Text} (hs : s = String.ofList (c :: cs))
    (hc : isBlank c = false) : skip s.toList = s.toList := by
  rw [toList_literal s hs, skip, List.dropWhile_cons_of_neg (by simp [hc])]

theorem skip_literal_append {s : String} {c : Char} {cs : Text} (t : String)
    (hs : s = String.ofList (c :: cs)) (hc : isBlank c = false) :
    skip (s ++ t).toList = (s ++ t).toList := by
  rw [String.toList_append, toList_literal s hs, List.cons_append, skip,
    List.dropWhile_cons_of_neg (by simp [hc])]

theorem skip_workerCounterHelp : ∀ e ∈ workerCounterHelp, skip e.2.toList = e.2.toList := by
  simp only [workerCounterHelp, List.forall_mem_cons, List.not_mem_nil, false_imp_iff,
    implies_true, and_true]
  and_intros
  -- the two texts that go over a line
  · exact skip_literal_append _ rfl rfl
  · exact skip_literal_append _ rfl rfl
  all_goals exact skip_literal rfl rfl

theorem skip_workerGaugeHelp : ∀ e ∈ workerGaugeHelp, skip e.2.toList = e.2.toList := by
  simp only [workerGaugeHelp, List.forall_mem_cons, List.not_mem_nil, false_imp_iff,
    implies_true, and_true]
  exact ⟨skip_literal rfl rfl, skip_literal rfl rfl⟩

theorem skip_workerHistograms : ∀ e ∈ workerHistograms, skip e.2.toList = e.2.toList := by
  simp only [workerHistograms, List.forall_mem_cons, List.not_mem_nil, false_imp_iff,
    implies_true, and_true]
  exact ⟨skip_literal rfl rfl, skip_literal rfl rfl⟩

theorem legal_counterFamilies {items : List Decoded} (h : ∀ e ∈ items, e.Legal) :
    ∀ f ∈ counterFamilies items, f.Legal := by
  have hgroups := Dict.forall_foldl_update
    (P := fun g : String × List Sample => LegalName g.1 ∧ ∀ s ∈ g.2, s.Legal) (d := [])
    (fun e : Decoded => e.1.1) (fun e o => o.getD [] ++ [⟨e.1.1, e.1.2, e.2⟩])
    (fun g hg => absurd hg List.not_mem_nil)
    (fun e he => ⟨(h e he).1, fun s hs => by
      obtain rfl : s = ⟨e.1.1, e.1.2, e.2⟩ := by simpa using hs
      exact h e he⟩)
    (fun e he v hv => ⟨hv.1, fun s hs => (List.mem_append.mp hs).elim (hv.2 s)
      fun hs => List.mem_singleton.mp hs ▸ h e he⟩)
  intro f hf
  obtain ⟨g, hg, rfl⟩ := List.mem_map.mp hf
  obtain ⟨hname, hsamples⟩ := hgroups g (Dict.mem_sortedItems.mp hg)
  exact ⟨hname, skip_help _ _ skip_workerCounterHelp (skip_literal rfl rfl),
    fun s hs => hsamples s ((List.mem_insertionSort _).mp hs)⟩

theorem legal_sortLabels {labels : Labels} (h : LegalLabels labels) :
    LegalLabels (sortLabels labels) := fun l hl => h l ((List.mem_insertionSort _).mp hl)

/-- An inner dictionary of labels, after one update. -/
theorem legal_update {V : Type} {d : Dict Labels V} {key : Labels} {f : Option V → V}
    (h : ∀ e ∈ d, LegalLabels e.1) (hkey : LegalLabels key) :
    ∀ e ∈ d.update key f, LegalLabels e.1 := Dict.forall_update h hkey fun _ _ => hkey

theorem legal_gaugeFamilies {items : List Decoded} (h : ∀ e ∈ items, e.Legal) :
    ∀ f ∈ gaugeFamilies items, f.Legal := by
  have hgroups := Dict.forall_foldl_update
    (P := fun g : String × Dict Labels ℚ => LegalName g.1 ∧ ∀ e ∈ g.2, LegalLabels e.1) (d := [])
    (fun e : Decoded => e.1.1)
    (fun e o => (o.getD []).update (sortLabels e.1.2) fun v => v.getD 0 + e.2)
    (fun g hg => absurd hg List.not_mem_nil)
    (fun e he => ⟨(h e he).1, legal_update (by simp) (legal_sortLabels (h e he).2)⟩)
    (fun e he v hv => ⟨hv.1, legal_update hv.2 (legal_sortLabels (h e he).2)⟩)
  intro f hf
  obtain ⟨g, hg, rfl⟩ := List.mem_map.mp hf
  obtain ⟨hname, hlabels⟩ := hgroups g (Dict.mem_sortedItems.mp hg)
  refine ⟨hname, skip_help _ _ skip_workerGaugeHelp (skip_literal rfl rfl), fun s hs => ?_⟩
  obtain ⟨e, he, rfl⟩ := List.mem_map.mp hs
  exact ⟨hname, hlabels e (Dict.mem_sortedItems.mp he)⟩

theorem legal_withLe {labels : Labels} (h : LegalLabels labels) (bound : String) :
    LegalLabels (withLe labels bound) := by
  intro l hl
  rcases List.mem_append.mp hl with hl | hl
  · exact h l hl
  · obtain rfl := List.mem_singleton.mp hl
    have hle : isName isLabelChar "le".toList = true := by
      rw [toList_literal "le" rfl]
      rfl
    exact hle

theorem legal_histogramSamples {name : String} {counts : Dict Labels (Bucket → ℚ)}
    {sums : Dict Labels ℚ} (hname : LegalName name) (h : ∀ key ∈ counts.keys, LegalLabels key) :
    ∀ s ∈ histogramSamples name counts sums, s.Legal := by
  have hsuffix : ∀ suffix : String, suffix.toList.all isMetricChar = true →
      LegalName (name ++ suffix) := by
    intro suffix hsuffix
    rw [LegalName, String.toList_append]
    exact isName_append hname hsuffix
  intro s hs
  obtain ⟨key, hkey, hs⟩ := List.mem_flatMap.mp hs
  have hlabels := h key (Dict.mem_sortedKeys.mp hkey)
  rcases List.mem_append.mp hs with hs | hs
  · rw [bucketSamples_eq] at hs
    obtain ⟨i, -, rfl⟩ := List.mem_map.mp hs
    exact ⟨hsuffix _ (by rw [toList_literal "_bucket" rfl]; rfl), legal_withLe hlabels _⟩
  · rcases List.mem_cons.mp hs with rfl | hs
    · exact ⟨hsuffix _ (by rw [toList_literal "_sum" rfl]; rfl), hlabels⟩
    · obtain rfl := List.mem_singleton.mp hs
      exact ⟨hsuffix _ (by rw [toList_literal "_count" rfl]; rfl), hlabels⟩

theorem legal_histogramFamilies {buckets : List Decoded} (h : ∀ e ∈ buckets, e.Legal)
    (sums : List Decoded) : ∀ f ∈ histogramFamilies buckets sums, f.Legal := by
  have hgroups : ∀ g ∈ buckets.foldl addBucket [], LegalName g.1 ∧ ∀ e ∈ g.2, LegalLabels e.1 := by
    refine List.foldlRecOn (motive := fun d : PerMetric =>
      ∀ g ∈ d, LegalName g.1 ∧ ∀ e ∈ g.2, LegalLabels e.1) _ _ (by simp) fun d hd e he => ?_
    obtain ⟨hname, hlabels⟩ := h e he
    have hkey : LegalLabels (sortLabels (popLe e.1.2).2) :=
      legal_sortLabels fun l hl => hlabels l (List.mem_filter.mp hl).1
    rw [addBucket]
    split
    · exact hd
    · exact Dict.forall_update hd ⟨hname, legal_update (by simp) hkey⟩
        fun v hv => ⟨hname, legal_update hv.2 hkey⟩
  intro f hf
  obtain ⟨g, hg, rfl⟩ := List.mem_map.mp hf
  obtain ⟨hname, hlabels⟩ := hgroups g (Dict.mem_sortedItems.mp hg)
  refine ⟨hname, skip_help _ _ skip_workerHistograms (skip_literal rfl rfl),
    legal_histogramSamples hname fun key hkey => ?_⟩
  rw [countsOf, Dict.keys_mapValues] at hkey
  obtain ⟨e, he, rfl⟩ := List.mem_map.mp hkey
  exact hlabels e he

/-- A field that decodes, to names of the grammar. -/
def LegalField (field : Field) : Prop :=
  ∃ d, decodeField field = some d ∧ LegalName d.1 ∧ LegalLabels d.2

def Raw.Legal (raw : Raw) : Prop := ∀ e ∈ raw, LegalField e.1

/-- A loop that goes well on every element goes well. -/
theorem exists_mapM {α β : Type} {f : α → Option β} {P : β → Prop} {xs : List α}
    (h : ∀ x ∈ xs, ∃ y, f x = some y ∧ P y) : ∃ ys, xs.mapM f = some ys ∧ ∀ y ∈ ys, P y := by
  induction xs with
  | nil => exact ⟨[], rfl, by simp⟩
  | cons x xs ih =>
    obtain ⟨y, hy, hP⟩ := h x List.mem_cons_self
    obtain ⟨ys, hys, hall⟩ := ih fun z hz => h z (List.mem_cons_of_mem _ hz)
    exact ⟨y :: ys, by simp [hy, hys], by simpa using ⟨hP, hall⟩⟩

theorem exists_decodeAll {raw : Raw} (h : raw.Legal) :
    ∃ items, decodeAll raw = some items ∧ ∀ e ∈ items, Decoded.Legal e := by
  refine exists_mapM fun e he => ?_
  obtain ⟨d, hd, hlegal⟩ := h e he
  exact ⟨(d, e.2), by rw [hd, Option.map_some], hlegal⟩

/-- From legal replies come legal families. -/
theorem exists_workerFamilies {countersRaw bucketRaw sumRaw : Raw} {gaugesRaw : List Raw}
    (hcounters : countersRaw.Legal) (hbucket : bucketRaw.Legal) (hsum : sumRaw.Legal)
    (hgauges : ∀ raw ∈ gaugesRaw, raw.Legal) :
    ∃ families, workerFamilies countersRaw bucketRaw sumRaw gaugesRaw = some families ∧
      ∀ f ∈ families, f.Legal := by
  obtain ⟨counters, hc, hcounters⟩ := exists_decodeAll hcounters
  obtain ⟨buckets, hb, hbuckets⟩ := exists_decodeAll hbucket
  obtain ⟨sums, hs, -⟩ := exists_decodeAll hsum
  obtain ⟨gauges, hg, hgauges⟩ := exists_mapM fun raw hraw => exists_decodeAll (hgauges raw hraw)
  have hfamilies : workerFamilies countersRaw bucketRaw sumRaw gaugesRaw =
      some (counterFamilies counters ++ gaugeFamilies gauges.flatten ++
        histogramFamilies buckets sums) := by
    simp only [workerFamilies, hc, hg, hb, hs, Option.bind_eq_bind, Option.bind_some]
    rfl
  refine ⟨_, hfamilies, fun f hf => ?_⟩
  rcases List.mem_append.mp hf with hf | hf
  · rcases List.mem_append.mp hf with hf | hf
    · exact legal_counterFamilies hcounters f hf
    · refine legal_gaugeFamilies (fun e he => ?_) f hf
      obtain ⟨items, hitems, he⟩ := List.mem_flatten.mp he
      exact hgauges items hitems e he
  · exact legal_histogramFamilies hbuckets sums f hf

/-! ## The scrape of a fleet -/

variable {n : ℕ}

/-- What is recorded has names of the grammar. -/
def Event.Legal : Event n → Prop
  | .inc _ s _ => LegalName s.1.name ∧ LegalLabels s.2.labels
  | .observe _ s _ => LegalName s.1.name ∧ LegalLabels s.2.labels
  | .flush _ => True

theorem legal_plainField {s : Series} (h : LegalName s.1.name ∧ LegalLabels s.2.labels) :
    LegalField (encodeField s.1 s.2.labels) :=
  ⟨_, decodeField_encodeField .., h.1, legal_sortLabels h.2⟩

theorem legal_bucketField {s : Series} (h : LegalName s.1.name ∧ LegalLabels s.2.labels)
    (i : Bucket) : LegalField (bucketCell s i).2 :=
  ⟨_, decodeField_encodeField .., h.1, legal_sortLabels (legal_withLe h.2 _)⟩

theorem legal_posts {e : Event n} (h : e.Legal) : ∀ x ∈ e.posts, LegalField x.1.2 := by
  intro x hx
  cases e with
  | inc w s amount =>
    obtain rfl := List.mem_singleton.mp hx
    exact legal_plainField h
  | observe w s value =>
    rcases List.mem_cons.mp hx with rfl | hx
    · exact legal_bucketField h _
    · obtain rfl := List.mem_singleton.mp hx
      exact legal_plainField h
  | flush w => exact absurd hx List.not_mem_nil

/-- The hashes have no field that was not recorded. -/
theorem legal_hash {events : List (Event n)} (h : ∀ e ∈ events, e.Legal) {key : HashKey} {raw : Raw}
    (hraw : raw.Perm ((Fleet.run events).store.hash key)) : raw.Legal := by
  intro e he
  have hstored : (key, e.1) ∈ (Fleet.run events).store.keys :=
    mem_keys_hash.mp (List.mem_map_of_mem (hraw.mem_iff.mp he))
  obtain ⟨x, hx, hcell⟩ := List.mem_map.mp ((ledger_run events).stored _ hstored)
  obtain ⟨event, hevent, hx⟩ := List.mem_flatMap.mp hx
  have hlegal := legal_posts (h event hevent) x hx
  rw [hcell] at hlegal
  exact hlegal

/-- **The text of a scrape says what the hashes do.**  At any time of any run of a fleet the
families of the workers can be rebuilt, and a scraper reads in their text each family's help and
type, once and before its samples, and every sample with its labels and value, whatever the values
of the labels. -/
theorem fleet_scrape (num : FloatText) (events : List (Event n)) (h : ∀ e ∈ events, e.Legal)
    (countersRaw bucketsRaw sumsRaw : Raw) (gaugesRaw : List Raw)
    (hcounters : countersRaw.Perm ((Fleet.run events).store.hash .counters))
    (hbuckets : bucketsRaw.Perm ((Fleet.run events).store.hash .histCounts))
    (hsums : sumsRaw.Perm ((Fleet.run events).store.hash .histSums))
    (hgauges : ∀ raw ∈ gaugesRaw, raw.Legal) :
    ∃ families, workerFamilies countersRaw bucketsRaw sumsRaw gaugesRaw = some families ∧
      readValues num.parse (render num families) = some (families.flatMap MetricFamily.lines) := by
  obtain ⟨families, hfamilies, hlegal⟩ := exists_workerFamilies (legal_hash h hcounters)
    (legal_hash h hbuckets) (legal_hash h hsums) hgauges
  exact ⟨families, hfamilies, readValues_render hlegal⟩

/-! ### A scrape with numbers written out -/

/-- Tenths as decimals, other numbers as fractions. -/
def unsignedText (q : ℚ) : Text :=
  if (q * 10).den = 1 then
    Nat.toDigits 10 ((q * 10).num.natAbs / 10) ++
      '.' :: Nat.toDigits 10 ((q * 10).num.natAbs % 10)
  else Nat.toDigits 10 q.num.natAbs ++ '/' :: Nat.toDigits 10 q.den

def signedText (q : ℚ) : Text := if q < 0 then '-' :: unsignedText (-q) else unsignedText q

/-- An integer, a decimal or a fraction. -/
def readUnsigned (cs : Text) : Option ℚ :=
  (JsonText.readNat cs).bind fun whole =>
    if whole.2 = [] then some whole.1
    else (JsonText.readNat whole.2.tail).map fun part =>
      if whole.2.head? = some '/' then whole.1 / part.1
      else whole.1 + part.1 / 10 ^ whole.2.tail.length

def readSigned (cs : Text) : Option ℚ :=
  if cs.head? = some '-' then (readUnsigned cs.tail).map (-·) else readUnsigned cs

theorem readNat_toDigits_nil (n : ℕ) : JsonText.readNat (Nat.toDigits 10 n) = some (n, []) := by
  simpa using JsonText.readNat_toDigits n [] (by simp)

theorem readUnsigned_unsignedText {q : ℚ} (hq : 0 ≤ q) : readUnsigned (unsignedText q) = some q := by
  unfold unsignedText
  split
  · rename_i hden
    have hnum : ((q * 10).num.natAbs : ℚ) = q * 10 := by
      have hpos : 0 ≤ (q * 10).num := Rat.num_nonneg.mpr (by linarith)
      have hint : ((q * 10).num : ℚ) = q * 10 := (Rat.den_eq_one_iff _).mp hden
      rw [← Int.cast_natCast, Int.natAbs_of_nonneg hpos, hint]
    generalize (q * 10).num.natAbs = m at hnum
    have hdigit : (Nat.toDigits 10 (m % 10)).length = 1 := by
      rw [Nat.toDigits_of_lt_base (Nat.mod_lt _ (by decide))]
      rfl
    have hsplit : ((10 * (m / 10) + m % 10 : ℕ) : ℚ) = m := by rw [Nat.div_add_mod]
    push_cast at hsplit
    rw [readUnsigned, JsonText.readNat_toDigits _ _ (by simp)]
    simp only [Option.bind_some, List.tail_cons, readNat_toDigits_nil, Option.map_some, hdigit,
      List.head?_cons, reduceCtorEq, if_false]
    simp
    linarith
  · have hnum : (q.num.natAbs : ℚ) / q.den = q := by
      rw [← Int.cast_natCast, Int.natAbs_of_nonneg (Rat.num_nonneg.mpr hq), Rat.num_div_den]
    rw [readUnsigned, JsonText.readNat_toDigits _ _ (by simp)]
    simp only [Option.bind_some, List.tail_cons, readNat_toDigits_nil, Option.map_some,
      List.head?_cons, reduceCtorEq, if_false, if_true, hnum]

theorem head?_toDigits (n : ℕ) (rest : Text) : (Nat.toDigits 10 n ++ rest).head? ≠ some '-' := by
  intro h
  cases hd : Nat.toDigits 10 n with
  | nil => exact Nat.toDigits_ne_nil hd
  | cons c cs =>
    rw [hd, List.cons_append, List.head?_cons, Option.some.injEq] at h
    have hdigit := JsonText.isDigit_toDigits n c (by simp [hd])
    rw [h] at hdigit
    exact absurd hdigit (by decide)

theorem isNumeral_unsignedText (q : ℚ) : ∀ c ∈ unsignedText q, isNumeral c = true := by
  have hbetween : ∀ (n m : ℕ) (d : Char), isNumeral d = true →
      ∀ c ∈ Nat.toDigits 10 n ++ d :: Nat.toDigits 10 m, isNumeral c = true := by
    intro n m d hd c hc
    rcases List.mem_append.mp hc with hc | hc
    · exact isNumeral_toDigits n c hc
    · rcases List.mem_cons.mp hc with rfl | hc
      · exact hd
      · exact isNumeral_toDigits m c hc
  unfold unsignedText
  split
  · exact hbetween _ _ _ (by decide)
  · exact hbetween _ _ _ (by decide)

/-- Numbers as in `unsignedText`. -/
def floatText : FloatText where
  repr := signedText
  parse := readSigned
  isToken_repr q := by
    have hne : ∀ q, unsignedText q ≠ [] := by
      intro q
      unfold unsignedText
      split <;> simp
    unfold signedText
    split
    · refine isToken_of_isNumeral (List.cons_ne_nil _ _) fun c hc => ?_
      rcases List.mem_cons.mp hc with rfl | hc
      · decide
      · exact isNumeral_unsignedText _ c hc
    · exact isToken_of_isNumeral (hne q) (isNumeral_unsignedText q)
  parse_repr q := by
    unfold signedText readSigned
    split
    · rw [List.head?_cons, if_pos rfl, List.tail_cons, readUnsigned_unsignedText (by linarith)]
      simp
    · rename_i hq
      have hhead : (unsignedText q).head? ≠ some '-' := by
        unfold unsignedText
        split
        · exact head?_toDigits _ _
        · exact head?_toDigits _ _
      rw [if_neg hhead, readUnsigned_unsignedText (not_lt.mp hq)]
  parse_int n _ := by
    have hread : ∀ m : ℕ, readUnsigned (Nat.toDigits 10 m) = some (m : ℚ) := by
      intro m
      rw [readUnsigned, readNat_toDigits_nil]
      rfl
    rw [toList_toString_int, JsonText.intText, readSigned]
    split
    · have habs : (n.natAbs : ℤ) = -n := by omega
      rw [List.head?_cons, if_pos rfl, List.tail_cons, hread, Option.map_some, ← Int.cast_natCast,
        habs, Int.cast_neg, neg_neg]
    · have hhead := head?_toDigits n.natAbs []
      have habs : (n.natAbs : ℤ) = n := by omega
      rw [List.append_nil] at hhead
      rw [if_neg hhead, hread, ← Int.cast_natCast, habs]

example : floatText.repr (-7 / 10) = ['-', '0', '.', '7'] := by decide +kernel

/-- A label with all that is escaped. -/
def quotedSeries : Series :=
  (⟨"orch_requeues_total", by decide⟩, ⟨[toLex ("reason", "a \"b\"\\\nc")], by simp, by simp⟩)

/-- One worker counts, another times a page; only the second flushes before the scrape. -/
def halfFlushed : List (Event 2) :=
  let first : Fin 2 := ⟨0, Nat.two_pos⟩
  let second : Fin 2 := ⟨1, Nat.one_lt_two⟩
  [.inc first quotedSeries 1, .observe second pageDuration (7 / 10), .flush second,
    .inc second quotedSeries 2, .flush second]

theorem fleet_scrape_halfFlushed :
    (∀ e ∈ halfFlushed, e.Legal) ∧
    ∃ families, workerFamilies ((Fleet.run halfFlushed).store.hash .counters)
        ((Fleet.run halfFlushed).store.hash .histCounts)
        ((Fleet.run halfFlushed).store.hash .histSums) [] = some families ∧
      readValues floatText.parse (render floatText families) =
        some (families.flatMap MetricFamily.lines) := by
  have hquoted : LegalName quotedSeries.1.name ∧ LegalLabels quotedSeries.2.labels :=
    ⟨by rw [LegalName, toList_literal quotedSeries.1.name rfl]; rfl, by
      unfold LegalLabels; decide +kernel⟩
  have hduration : LegalName pageDuration.1.name ∧ LegalLabels pageDuration.2.labels :=
    ⟨by rw [LegalName, toList_literal pageDuration.1.name rfl]; rfl, by
      simp [LegalLabels, pageDuration]⟩
  have hlegal : ∀ e ∈ halfFlushed, e.Legal := by
    simp only [halfFlushed, List.forall_mem_cons, List.not_mem_nil, false_imp_iff, implies_true,
      and_true]
    exact ⟨hquoted, hduration, trivial, hquoted, trivial⟩
  exact ⟨hlegal, fleet_scrape floatText halfFlushed hlegal _ _ _ [] (.refl _) (.refl _) (.refl _) (by simp)⟩

end Metrics
end OcrOrchestrator
