import Mathlib.Data.List.Basic
import Mathlib.Data.List.DropRight
import Mathlib.Data.Nat.Notation

/-!
# The text format of metrics

A text of lines, each of them a comment, the help of a metric, its type, or a sample of it.  Blanks
separate tokens.  The value of a label is quoted and the text of a help ends with its line; both
have escape sequences, so they can be any text.

How numbers are written is a parameter: `readText` keeps them as they are written, and `readValues`
reads them.

## Main definitions

* `Line`, `readText` — the lines of a text, and how they are read.
* `Line.write` — a line as it is written.
* `Numbers`, `readValues` — a way to write numbers, and how lines are read with them.

## Main results

* `readText_write`, `readValues_write` — what was written is read.
-/

namespace OcrOrchestrator.Lib.TextFormat

abbrev Text := List Char

inductive Line (N : Type) where
  | help (metric text : Text)
  | type (metric kind : Text)
  | sample (metric : Text) (labels : List (Text × Text)) (value : N) (timestamp : Option Text)
  | comment

/-! ## Reading -/

def isBlank (c : Char) : Bool := c = ' ' || c = '\t'

def skip (cs : Text) : Text := cs.dropWhile isBlank

/-- A character of the name of a label. -/
def isLabelChar (c : Char) : Bool := c.isAlphanum || c = '_'

/-- A character of the name of a metric. -/
def isMetricChar (c : Char) : Bool := isLabelChar c || c = ':'

/-- A name begins with no digit. -/
def isName (p : Char → Bool) (s : Text) : Bool :=
  s.all p && s.head?.any fun c => !c.isDigit

/-- A name, and what comes after it. -/
def readName (p : Char → Bool) (cs : Text) : Option (Text × Text) :=
  if isName p (cs.takeWhile p) then some (cs.takeWhile p, cs.dropWhile p) else none

/-- The rest of a line, with its escape sequences. -/
def readHelp : Text → Option Text
  | [] => some []
  | '\\' :: '\\' :: cs => (readHelp cs).map ('\\' :: ·)
  | '\\' :: 'n' :: cs => (readHelp cs).map ('\n' :: ·)
  | c :: cs => if c = '\\' then none else (readHelp cs).map (c :: ·)

/-- The value of a label up to its closing quote, and what comes after. -/
def readQuoted : Text → Option (Text × Text)
  | [] => none
  | '"' :: cs => some ([], cs)
  | '\\' :: '\\' :: cs => (readQuoted cs).map fun r => ('\\' :: r.1, r.2)
  | '\\' :: 'n' :: cs => (readQuoted cs).map fun r => ('\n' :: r.1, r.2)
  | '\\' :: '"' :: cs => (readQuoted cs).map fun r => ('"' :: r.1, r.2)
  | c :: cs => if c = '\\' then none else (readQuoted cs).map fun r => (c :: r.1, r.2)

/-- A name, `=` and a quoted value, and what comes after. -/
def readLabel (cs : Text) : Option ((Text × Text) × Text) :=
  (readName isLabelChar cs).bind fun name =>
    match skip name.2 with
    | '=' :: cs =>
      match skip cs with
      | '"' :: cs => (readQuoted cs).map fun value => ((name.1, value.1), value.2)
      | _ => none
    | _ => none

/-- Labels up to the closing brace; `fuel` bounds how many there are. -/
def readLabels : ℕ → Text → Option (List (Text × Text) × Text)
  | 0, _ => none
  | fuel + 1, cs =>
    match skip cs with
    | '}' :: cs => some ([], cs)
    | cs =>
      (readLabel cs).bind fun label =>
        match skip label.2 with
        | '}' :: cs => some ([label.1], cs)
        | ',' :: cs => (readLabels fuel cs).map fun r => (label.1 :: r.1, r.2)
        | _ => none

/-- The value and the timestamp of a sample. -/
def readNumbers (cs : Text) : Option (Text × Option Text) :=
  let cs := skip cs
  let value := cs.takeWhile fun c => !isBlank c
  let rest := skip (cs.dropWhile fun c => !isBlank c)
  let timestamp := rest.takeWhile fun c => !isBlank c
  if value = [] then none
  else if rest = [] then some (value, none)
  else if skip (rest.dropWhile fun c => !isBlank c) = [] then some (value, some timestamp)
  else none

/-- What comes after a hash. -/
def readComment (cs : Text) : Option (Line Text) :=
  match skip cs with
  | 'H' :: 'E' :: 'L' :: 'P' :: ' ' :: cs =>
    (readName isMetricChar (skip cs)).bind fun metric =>
      (readHelp (skip metric.2)).map fun text => .help metric.1 text
  | 'T' :: 'Y' :: 'P' :: 'E' :: ' ' :: cs =>
    (readName isMetricChar (skip cs)).map fun metric => .type metric.1 (skip metric.2)
  | _ => some .comment

def readSample (cs : Text) : Option (Line Text) :=
  (readName isMetricChar cs).bind fun metric =>
    match skip metric.2 with
    | '{' :: cs =>
      (readLabels cs.length cs).bind fun labels =>
        (readNumbers labels.2).map fun n => .sample metric.1 labels.1 n.1 n.2
    | cs => (readNumbers cs).map fun n => .sample metric.1 [] n.1 n.2

def readLine (cs : Text) : Option (Line Text) :=
  match skip cs with
  | '#' :: cs => readComment cs
  | cs => readSample cs

/-- The lines of a text, which ends with a line feed; `line` is what has come of the first. -/
def lines (line : Text) : Text → Option (List Text)
  | [] => if line = [] then some [] else none
  | c :: cs => if c = '\n' then (lines [] cs).map (line :: ·) else lines (line ++ [c]) cs

/-- A text.  Empty lines say nothing. -/
def readText (cs : Text) : Option (List (Line Text)) :=
  (lines [] cs).bind fun ls => (ls.filter fun l => skip l ≠ []).mapM readLine

/-! ## Writing -/

def escapeHelp (c : Char) : Text :=
  if c = '\\' then ['\\', '\\'] else if c = '\n' then ['\\', 'n'] else [c]

def escapeQuoted (c : Char) : Text := if c = '"' then ['\\', '"'] else escapeHelp c

def writeLabel (label : Text × Text) : Text :=
  label.1 ++ '=' :: '"' :: (label.2.flatMap escapeQuoted ++ ['"'])

/-- Labels with commas between them. -/
def writeLabels : List (Text × Text) → Text
  | [] => []
  | [label] => writeLabel label
  | label :: labels => writeLabel label ++ ',' :: writeLabels labels

namespace Line

def write : Line Text → Text
  | help metric text =>
    ['#', ' ', 'H', 'E', 'L', 'P', ' '] ++ metric ++ ' ' :: text.flatMap escapeHelp
  | type metric kind => ['#', ' ', 'T', 'Y', 'P', 'E', ' '] ++ metric ++ ' ' :: kind
  | sample metric labels value timestamp =>
    metric ++ (if labels = [] then [] else '{' :: (writeLabels labels ++ ['}'])) ++ ' ' :: value ++
      (timestamp.map (' ' :: ·)).getD []
  | comment => ['#']

/-- A number, for the purpose of the format: one token, which does not open labels. -/
def IsToken (s : Text) : Prop := s ≠ [] ∧ ∀ c ∈ s, isBlank c = false ∧ c ≠ '\n' ∧ c ≠ '{'

/-- A line that can be written: its names are names and its numbers tokens, and a help does not
begin with a blank. -/
def WellFormed : Line Text → Prop
  | help metric text => isName isMetricChar metric = true ∧ skip text = text
  | type metric kind => isName isMetricChar metric = true ∧ IsToken kind
  | sample metric labels value timestamp => isName isMetricChar metric = true ∧
      (∀ l ∈ labels, isName isLabelChar l.1 = true) ∧ IsToken value ∧ ∀ t ∈ timestamp, IsToken t
  | comment => True

end Line

/-! ## The round trip -/

section
variable {p : Char → Bool} {s rest : Text}

theorem skip_of_head (h : ∀ c ∈ s.head?, isBlank c = false) : skip s = s := by
  cases s with
  | nil => rfl
  | cons c s => simp [skip, h c rfl]

theorem skip_blank (h : skip s = s) : skip (' ' :: s) = s := by
  rw [skip, List.dropWhile_cons_of_pos (by decide)]
  exact h

/-- A token up to what it cannot go on with. -/
theorem span_append (rest : Text) (hs : s.all p = true) (hrest : ∀ c ∈ rest.head?, p c = false) :
    (s ++ rest).takeWhile p = s ∧ (s ++ rest).dropWhile p = rest := by
  have hall : ∀ c ∈ s, p c = true := List.all_eq_true.mp hs
  rw [List.takeWhile_append_of_pos hall, List.dropWhile_append_of_pos hall]
  cases rest with
  | nil => simp
  | cons c rest => simp [hrest c rfl]

theorem readName_append (rest : Text) (hs : isName p s = true)
    (hrest : ∀ c ∈ rest.head?, p c = false) :
    readName p (s ++ rest) = some (s, rest) := by
  obtain ⟨htake, hdrop⟩ := span_append rest (Bool.and_eq_true_iff.mp hs).1 hrest
  rw [readName, htake, hdrop, if_pos hs]

/-- What a name does not contain. -/
theorem not_mem_of_isName {c : Char} (hs : isName p s = true) (hc : p c = false) : c ∉ s := by
  intro hmem
  have hp := List.all_eq_true.mp (Bool.and_eq_true_iff.mp hs).1 c hmem
  rw [hc] at hp
  cases hp

/-- What a name does not begin with. -/
theorem head_of_isName (hs : isName p s = true) (hblank : ∀ c, p c = true → isBlank c = false)
    (rest : Text) : skip (s ++ rest) = s ++ rest := by
  cases s with
  | nil => cases hs
  | cons c s =>
    refine skip_of_head fun c' hc' => ?_
    obtain rfl := Option.some.inj hc'
    exact hblank _ (List.all_eq_true.mp (Bool.and_eq_true_iff.mp hs).1 _ List.mem_cons_self)

theorem isBlank_of_label {c : Char} (h : isLabelChar c = true) : isBlank c = false := by
  rw [isBlank, Bool.or_eq_false_iff, decide_eq_false_iff_not, decide_eq_false_iff_not]
  constructor <;> rintro rfl <;> exact absurd h (by decide)

theorem isBlank_of_metric {c : Char} (h : isMetricChar c = true) : isBlank c = false := by
  rcases Bool.or_eq_true_iff.mp h with h | h
  · exact isBlank_of_label h
  · obtain rfl := of_decide_eq_true h
    decide

/-- Escape sequences are read back. -/
theorem readHelp_escape (text : Text) : readHelp (text.flatMap escapeHelp) = some text := by
  induction text with
  | nil => rfl
  | cons c text ih =>
    rw [List.flatMap_cons]
    by_cases hslash : c = '\\'
    · subst hslash
      simp [escapeHelp, readHelp, ih]
    by_cases hfeed : c = '\n'
    · subst hfeed
      simp [escapeHelp, readHelp, ih]
    simp [escapeHelp, readHelp, hslash, hfeed, ih]

theorem readQuoted_escape (value rest : Text) :
    readQuoted (value.flatMap escapeQuoted ++ '"' :: rest) = some (value, rest) := by
  induction value with
  | nil => rfl
  | cons c value ih =>
    rw [List.flatMap_cons, List.append_assoc]
    by_cases hquote : c = '"'
    · subst hquote
      simp [escapeQuoted, readQuoted, ih]
    by_cases hslash : c = '\\'
    · subst hslash
      simp [escapeQuoted, escapeHelp, readQuoted, ih]
    by_cases hfeed : c = '\n'
    · subst hfeed
      simp [escapeQuoted, escapeHelp, readQuoted, ih]
    simp [escapeQuoted, escapeHelp, readQuoted, hquote, hslash, hfeed, ih]

theorem readLabel_write {label : Text × Text} (h : isName isLabelChar label.1 = true)
    (rest : Text) : readLabel (writeLabel label ++ rest) = some (label, rest) := by
  have hname : readName isLabelChar (label.1 ++ '=' :: '"' ::
      (label.2.flatMap escapeQuoted ++ '"' :: rest)) =
        some (label.1, '=' :: '"' :: (label.2.flatMap escapeQuoted ++ '"' :: rest)) := by
    refine readName_append _ h fun c hc => ?_
    obtain rfl := Option.some.inj hc
    decide
  have hquoted : skip ('"' :: (label.2.flatMap escapeQuoted ++ '"' :: rest)) =
      '"' :: (label.2.flatMap escapeQuoted ++ '"' :: rest) := skip_of_head (by simp [isBlank])
  have hequals : skip ('=' :: '"' :: (label.2.flatMap escapeQuoted ++ '"' :: rest)) =
      '=' :: '"' :: (label.2.flatMap escapeQuoted ++ '"' :: rest) :=
    skip_of_head (by simp [isBlank])
  rw [writeLabel, readLabel]
  simp only [List.append_assoc, List.cons_append, List.nil_append, hname, Option.bind_some, hequals,
    hquoted, readQuoted_escape, Option.map_some]

/-- A written label begins with neither a blank nor a brace. -/
theorem readLabels_label {label : Text × Text} (h : isName isLabelChar label.1 = true)
    (fuel : ℕ) (rest : Text) :
    readLabels (fuel + 1) (writeLabel label ++ rest) =
      match skip rest with
      | '}' :: cs => some ([label], cs)
      | ',' :: cs => (readLabels fuel cs).map fun r => (label :: r.1, r.2)
      | _ => none := by
  have hskip : skip (writeLabel label ++ rest) = writeLabel label ++ rest := by
    rw [writeLabel, List.append_assoc]
    exact head_of_isName h (fun c hc => isBlank_of_label hc) _
  have hbrace : ∀ cs, writeLabel label ++ rest ≠ '}' :: cs := by
    intro cs heq
    obtain ⟨c, name, hc⟩ : ∃ c name, label.1 = c :: name := by
      cases hl : label.1 with
      | nil => rw [hl] at h; cases h
      | cons c name => exact ⟨c, name, rfl⟩
    have hmem : '}' ∉ label.1 := not_mem_of_isName h (by decide)
    rw [writeLabel, hc] at heq
    rw [hc, (List.cons.inj heq).1] at hmem
    exact hmem List.mem_cons_self
  rw [readLabels, hskip]
  split
  · exact absurd ‹_› (hbrace _)
  · rw [readLabel_write h, Option.bind_some]

theorem readLabels_write {labels : List (Text × Text)} (hne : labels ≠ [])
    (h : ∀ l ∈ labels, isName isLabelChar l.1 = true) {fuel : ℕ} (hfuel : labels.length ≤ fuel)
    (rest : Text) : readLabels fuel (writeLabels labels ++ '}' :: rest) = some (labels, rest) := by
  induction labels generalizing fuel with
  | nil => exact absurd rfl hne
  | cons label labels ih =>
    obtain ⟨fuel, rfl⟩ := Nat.exists_eq_succ_of_ne_zero (n := fuel) (by grind)
    have hlabel := h label List.mem_cons_self
    cases labels with
    | nil =>
      rw [writeLabels, readLabels_label hlabel, skip_of_head (by simp [isBlank])]
      rfl
    | cons next labels =>
      have hrest := ih (List.cons_ne_nil _ _) (fun l hl => h l (List.mem_cons_of_mem _ hl))
        (Nat.le_of_succ_le_succ hfuel)
      rw [writeLabels.eq_3 _ _ (List.cons_ne_nil _ _), List.append_assoc, List.cons_append,
        readLabels_label hlabel, skip_of_head (by simp [isBlank])]
      simp only [hrest, Option.map_some]

theorem skip_token (h : Line.IsToken s) (rest : Text) : skip (s ++ rest) = s ++ rest := by
  obtain ⟨hne, hs⟩ := h
  cases s with
  | nil => exact absurd rfl hne
  | cons c s =>
    refine skip_of_head fun c' hc' => ?_
    obtain rfl := Option.some.inj hc'
    exact (hs _ List.mem_cons_self).1

theorem token_all (h : Line.IsToken s) : (s.all fun c => !isBlank c) = true :=
  List.all_eq_true.mpr fun c hc => by simp [(h.2 c hc).1]

theorem readNumbers_write {value : Text} {timestamp : Option Text} (hvalue : Line.IsToken value)
    (htimestamp : ∀ t ∈ timestamp, Line.IsToken t) :
    readNumbers (' ' :: value ++ (timestamp.map (' ' :: ·)).getD []) = some (value, timestamp) := by
  obtain ⟨htake, hdrop⟩ := span_append ((timestamp.map (' ' :: ·)).getD [])
    (token_all hvalue) (by cases timestamp <;> simp [isBlank])
  have hskip := skip_blank (skip_token hvalue ((timestamp.map (' ' :: ·)).getD []))
  cases timestamp with
  | none =>
    simp only [readNumbers, Option.map_none, Option.getD_none, List.append_nil]
      at hskip htake hdrop ⊢
    simp only [hskip, htake, hdrop, if_neg hvalue.1]
    rfl
  | some t =>
    have ht := htimestamp t rfl
    have hskip' := skip_blank (skip_token ht [])
    obtain ⟨htake', hdrop'⟩ := span_append [] (token_all ht) (by simp)
    rw [List.append_nil] at hskip' htake' hdrop'
    simp only [readNumbers, Option.map_some, Option.getD_some, List.cons_append]
      at hskip htake hdrop ⊢
    simp only [hskip, htake, hdrop, hskip', htake', hdrop', if_neg hvalue.1, if_neg ht.1]
    rfl

theorem readNumbers_skip (cs : Text) : readNumbers (skip cs) = readNumbers cs := by
  have hskip : skip (skip cs) = skip cs := List.dropWhile_idempotent _ _
  rw [readNumbers, readNumbers, hskip]

theorem skip_escapeHelp {text : Text} (h : skip text = text) :
    skip (text.flatMap escapeHelp) = text.flatMap escapeHelp := by
  cases text with
  | nil => rfl
  | cons c text =>
    have hc : isBlank c = false := by
      by_contra hblank
      have hlen := congrArg List.length h
      rw [skip, List.dropWhile_cons_of_pos (by simpa using hblank)] at hlen
      have := (List.dropWhile_sublist isBlank (l := text)).length_le
      simp only [List.length_cons] at hlen
      omega
    refine skip_of_head fun c' hc' => ?_
    rw [List.flatMap_cons, escapeHelp] at hc'
    split at hc'
    · obtain rfl := Option.some.inj hc'
      decide
    split at hc'
    · obtain rfl := Option.some.inj hc'
      decide
    obtain rfl := Option.some.inj hc'
    exact hc

theorem length_writeLabels (labels : List (Text × Text)) :
    labels.length ≤ (writeLabels labels).length := by
  fun_induction writeLabels labels with
  | case1 => rfl
  | case2 label =>
    simp only [writeLabel, List.length_append, List.length_cons, List.length_nil]
    omega
  | case3 label labels hne ih =>
    simp only [List.length_append, List.length_cons]
    omega

theorem readSample_write {metric : Text} {labels : List (Text × Text)} {value : Text}
    {timestamp : Option Text} (h : (Line.sample metric labels value timestamp).WellFormed) :
    readSample (Line.sample metric labels value timestamp).write =
      some (.sample metric labels value timestamp) := by
  obtain ⟨hmetric, hlabels, hvalue, htimestamp⟩ := h
  have hnumbers := readNumbers_write hvalue htimestamp
  by_cases hnil : labels = []
  · subst hnil
    have hname := readName_append (' ' :: value ++ (timestamp.map (' ' :: ·)).getD [])
      hmetric (fun c hc => by obtain rfl := Option.some.inj hc; decide)
    have hbrace : ∀ cs, skip (' ' :: value ++ (timestamp.map (' ' :: ·)).getD []) ≠ '{' :: cs := by
      intro cs heq
      rw [List.cons_append, skip_blank (skip_token hvalue _)] at heq
      obtain ⟨hne, hs⟩ := hvalue
      cases value with
      | nil => exact hne rfl
      | cons c value => exact (hs c List.mem_cons_self).2.2 (List.cons.inj heq).1
    rw [Line.write, if_pos rfl, List.append_nil, List.append_assoc, readSample, hname,
      Option.bind_some]
    split
    · exact absurd ‹_› (hbrace _)
    · rw [readNumbers_skip, hnumbers]
      rfl
  · have hname := readName_append ('{' :: (writeLabels labels ++ '}' ::
      (' ' :: value ++ (timestamp.map (' ' :: ·)).getD []))) hmetric
      (fun c hc => by obtain rfl := Option.some.inj hc; decide)
    have hread := readLabels_write hnil hlabels ((length_writeLabels labels).trans
      (List.sublist_append_left (writeLabels labels) ('}' ::
        (' ' :: value ++ (timestamp.map (' ' :: ·)).getD []))).length_le)
      (' ' :: value ++ (timestamp.map (' ' :: ·)).getD [])
    rw [Line.write, if_neg hnil]
    simp only [List.append_assoc, List.cons_append, List.nil_append] at hname hread hnumbers ⊢
    rw [readSample, hname, Option.bind_some, skip_of_head (by simp [isBlank])]
    simp only [hread, Option.bind_some, hnumbers, Option.map_some]

/-- A line that was written is read. -/
theorem readLine_write {l : Line Text} (h : l.WellFormed) : readLine l.write = some l := by
  cases l with
  | help metric text =>
    obtain ⟨hmetric, htext⟩ := h
    have hskip := head_of_isName hmetric (fun c hc => isBlank_of_metric hc)
      (' ' :: text.flatMap escapeHelp)
    have hname := readName_append (' ' :: text.flatMap escapeHelp) hmetric
      (fun c hc => by obtain rfl := Option.some.inj hc; decide)
    have hcomment : readLine (Line.help metric text).write =
        (readName isMetricChar (skip (metric ++ ' ' :: text.flatMap escapeHelp))).bind fun metric =>
          (readHelp (skip metric.2)).map fun text => .help metric.1 text := rfl
    rw [hcomment, hskip, hname, Option.bind_some, skip_blank (skip_escapeHelp htext),
      readHelp_escape, Option.map_some]
  | type metric kind =>
    obtain ⟨hmetric, hkind⟩ := h
    have hskip := head_of_isName hmetric (fun c hc => isBlank_of_metric hc) (' ' :: kind)
    have hname := readName_append (' ' :: kind) hmetric
      (fun c hc => by obtain rfl := Option.some.inj hc; decide)
    have hcomment : readLine (Line.type metric kind).write =
        (readName isMetricChar (skip (metric ++ ' ' :: kind))).map fun metric =>
          .type metric.1 (skip metric.2) := rfl
    have hkind' := skip_token hkind []
    rw [List.append_nil] at hkind'
    rw [hcomment, hskip, hname, Option.map_some, skip_blank hkind']
  | sample metric labels value timestamp =>
    obtain ⟨rest, hrest⟩ : ∃ rest, (Line.sample metric labels value timestamp).write =
        metric ++ rest := ⟨_, by rw [Line.write, List.append_assoc, List.append_assoc]⟩
    have hskip := head_of_isName h.1 (fun c hc => isBlank_of_metric hc) rest
    rw [← hrest] at hskip
    have hhash : ∀ cs, (Line.sample metric labels value timestamp).write ≠ '#' :: cs := by
      intro cs heq
      have hmem : '#' ∉ metric := not_mem_of_isName h.1 (by decide)
      rw [hrest] at heq
      cases metric with
      | nil => exact absurd h.1 (by decide)
      | cons c metric => exact hmem ((List.cons.inj heq).1 ▸ List.mem_cons_self)
    rw [readLine, hskip]
    split
    · exact absurd ‹_› (hhash _)
    · exact readSample_write h
  | comment => rfl

theorem not_mem_escapeHelp (c : Char) : '\n' ∉ escapeHelp c := by
  rw [escapeHelp]
  split
  · decide
  split
  · decide
  simpa [eq_comm] using ‹c ≠ '\n'›

theorem not_mem_escapeQuoted (c : Char) : '\n' ∉ escapeQuoted c := by
  rw [escapeQuoted]
  split
  · decide
  · exact not_mem_escapeHelp c

theorem not_mem_writeLabels {labels : List (Text × Text)}
    (h : ∀ l ∈ labels, isName isLabelChar l.1 = true) : '\n' ∉ writeLabels labels := by
  have hlabel : ∀ l ∈ labels, '\n' ∉ writeLabel l := by
    intro l hl
    have hname : '\n' ∉ l.1 := not_mem_of_isName (h l hl) (by decide)
    have hvalue : '\n' ∉ l.2.flatMap escapeQuoted := by
      simp [List.mem_flatMap, not_mem_escapeQuoted]
    simp [writeLabel, hname, hvalue]
  fun_induction writeLabels labels with
  | case1 => exact List.not_mem_nil
  | case2 label => exact hlabel label List.mem_cons_self
  | case3 label labels hne ih =>
    have hrest := ih (fun l hl => h l (List.mem_cons_of_mem _ hl))
      (fun l hl => hlabel l (List.mem_cons_of_mem _ hl))
    simp [hlabel label List.mem_cons_self, hrest]

/-- A line has no line feed in it. -/
theorem not_mem_write {l : Line Text} (h : l.WellFormed) : '\n' ∉ l.write := by
  cases l with
  | help metric text =>
    have hname : '\n' ∉ metric := not_mem_of_isName h.1 (by decide)
    have htext : '\n' ∉ text.flatMap escapeHelp := by simp [List.mem_flatMap, not_mem_escapeHelp]
    simp [Line.write, hname, htext]
  | type metric kind =>
    have hname : '\n' ∉ metric := not_mem_of_isName h.1 (by decide)
    have hkind : '\n' ∉ kind := fun hmem => (h.2.2 _ hmem).2.1 rfl
    simp [Line.write, hname, hkind]
  | sample metric labels value timestamp =>
    obtain ⟨hmetric, hlabels, hvalue, htimestamp⟩ := h
    have hname : '\n' ∉ metric := not_mem_of_isName hmetric (by decide)
    have hfeed : '\n' ∉ value := fun hmem => (hvalue.2 _ hmem).2.1 rfl
    have hstamp : '\n' ∉ (timestamp.map (' ' :: ·)).getD [] := by
      cases timestamp with
      | none => exact List.not_mem_nil
      | some t =>
        have ht : '\n' ∉ t := fun hmem => ((htimestamp t rfl).2 _ hmem).2.1 rfl
        simp [ht]
    have hwritten := not_mem_writeLabels hlabels
    rw [Line.write]
    split <;> simp [hname, hfeed, hstamp, hwritten]
  | comment => decide

theorem write_ne_blank {l : Line Text} (h : l.WellFormed) : skip l.write ≠ [] := by
  intro hnil
  have hread := readLine_write h
  rw [readLine, hnil] at hread
  cases hread

theorem lines_append {s : Text} (h : '\n' ∉ s) (line cs : Text) :
    lines line (s ++ '\n' :: cs) = (lines [] cs).map ((line ++ s) :: ·) := by
  induction s generalizing line with
  | nil => simp [lines]
  | cons c s ih =>
    have hc : c ≠ '\n' := fun heq => h (heq ▸ List.mem_cons_self)
    have hs : '\n' ∉ s := fun hmem => h (List.mem_cons_of_mem _ hmem)
    rw [List.cons_append, lines, if_neg hc, ih hs, List.append_assoc]
    rfl

/-- What was written is read. -/
theorem readText_write {ls : List (Line Text)} (h : ∀ l ∈ ls, l.WellFormed) :
    readText (ls.flatMap fun l => l.write ++ ['\n']) = some ls := by
  have hlines : lines [] (ls.flatMap fun l => l.write ++ ['\n']) = some (ls.map Line.write) := by
    induction ls with
    | nil => rfl
    | cons l ls ih =>
      rw [List.flatMap_cons, List.append_assoc, List.cons_append, List.nil_append,
        lines_append (not_mem_write (h l List.mem_cons_self)),
        ih fun l hl => h l (List.mem_cons_of_mem _ hl)]
      rfl
  have hfilter : (ls.map Line.write).filter (fun l => skip l ≠ []) = ls.map Line.write := by
    refine List.filter_eq_self.mpr fun s hs => ?_
    obtain ⟨l, hl, rfl⟩ := List.mem_map.mp hs
    exact decide_eq_true (write_ne_blank (h l hl))
  have hread : (ls.map Line.write).mapM readLine = some ls := by
    clear hlines hfilter
    induction ls with
    | nil => rfl
    | cons l ls ih =>
      rw [List.map_cons, List.mapM_cons, readLine_write (h l List.mem_cons_self),
        ih fun l hl => h l (List.mem_cons_of_mem _ hl)]
      rfl
  rw [readText, hlines, Option.bind_some, hfilter, hread]

end

/-! ## Numbers -/

/-- A way to write numbers. -/
structure Numbers (N : Type) where
  write : N → Text
  read : Text → Option N
  isToken : ∀ n, Line.IsToken (write n)
  read_write : ∀ n, read (write n) = some n

section
variable {N : Type}

/-- A line with its number read. -/
def Line.valued (read : Text → Option N) : Line Text → Option (Line N)
  | .help metric text => some (.help metric text)
  | .type metric kind => some (.type metric kind)
  | .sample metric labels value timestamp =>
    (read value).map fun n => .sample metric labels n timestamp
  | .comment => some .comment

/-- A text, with its numbers read. -/
def readValues (read : Text → Option N) (cs : Text) : Option (List (Line N)) :=
  (readText cs).bind fun ls => ls.mapM (Line.valued read)

variable (num : Numbers N)

/-- A line with its number written. -/
def Line.written : Line N → Line Text
  | .help metric text => .help metric text
  | .type metric kind => .type metric kind
  | .sample metric labels n timestamp => .sample metric labels (num.write n) timestamp
  | .comment => .comment

variable {num}

theorem valued_written (l : Line N) : (l.written num).valued num.read = some l := by
  cases l with
  | help metric text => rfl
  | type metric kind => rfl
  | sample metric labels n timestamp =>
    rw [Line.written, Line.valued, num.read_write, Option.map_some]
  | comment => rfl

/-- **What was written is read**, and its numbers are. -/
theorem readValues_write {ls : List (Line N)} (h : ∀ l ∈ ls, (l.written num).WellFormed) :
    readValues num.read (ls.flatMap fun l => (l.written num).write ++ ['\n']) = some ls := by
  have htext : readText ((ls.map (Line.written num)).flatMap fun l => l.write ++ ['\n']) =
      some (ls.map (Line.written num)) := by
    refine readText_write fun l hl => ?_
    obtain ⟨l, hmem, rfl⟩ := List.mem_map.mp hl
    exact h l hmem
  have hvalues : (ls.map (Line.written num)).mapM (Line.valued num.read) = some ls := by
    clear htext h
    induction ls with
    | nil => rfl
    | cons l ls ih =>
      rw [List.map_cons, List.mapM_cons, valued_written, ih]
      rfl
  rw [List.flatMap_map] at htext
  rw [readValues, htext, Option.bind_some, hvalues]

end

end OcrOrchestrator.Lib.TextFormat
