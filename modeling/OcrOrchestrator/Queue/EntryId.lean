import OcrOrchestrator.Queue.Streams
import OcrOrchestrator.Eval.Document
import Mathlib.Data.List.DropRight

/-!
# Resume cursors as texts

`parse_entry_id` and `id_tuple` of `app/queue/results.py`: what a client may send as a cursor,
and how two ids are compared.  An accepted cursor goes to `XRANGE` and `XREAD` as it is, so
the texts accepted have to be ids that Redis reads.

The pattern `\A\d+-\d+\Z` asks the interpreter what a digit is, and so does `int`; Redis knows
the ten ASCII digits, and 64 bits.  What the interpreter knows of other code points is a
parameter here.

## Main definitions

* `parseEntryId`, `idTuple` — the two functions.
* `EntryId` — the ids of Redis, as texts.
* `SoundCursor` — what is wanted of a cursor a client sends.
* `Plain` — ASCII digits only, and numbers of 64 bits.

## Main results

* `soundCursor_iff` — a cursor is sound just when it is plain, if it has the shape of an id.
-/

namespace OcrOrchestrator
namespace Cursor

open Eval

/-! ## Texts -/

/-- `-`. -/
def hyphen : CodePoint := 45

/-- `+`. -/
def plus : CodePoint := 43

/-- `_`. -/
def underscore : CodePoint := 95

/-- What the interpreter knows about code points: the value of a decimal digit of any script, and
`str.isspace`.  On ASCII it is fixed. -/
structure Digits where
  decimal : CodePoint → Option ℕ
  isspace : CodePoint → Bool
  decimal_ascii : ∀ c, c.val < 128 →
    decimal c = if 48 ≤ c.val ∧ c.val ≤ 57 then some (c.val - 48) else none
  isspace_ascii : ∀ c, c.val < 128 →
    isspace c = decide ((9 ≤ c.val ∧ c.val ≤ 13) ∨ (28 ≤ c.val ∧ c.val ≤ 32))

/-- The number written with these digits. -/
def value (ds : List ℕ) : ℕ := ds.foldl (fun n d => 10 * n + d) 0

/-- `s.strip()`, for the given notion of a blank. -/
def strip (blank : CodePoint → Bool) (s : Str) : Str := (s.dropWhile blank).rdropWhile blank

variable (u : Digits)

/-- `\d`. -/
def Digits.isDigit (c : CodePoint) : Bool := (u.decimal c).isSome

/-- `_ID.match`: digits, a hyphen, and digits to the end. -/
def matchesId (s : Str) : Bool :=
  match s.dropWhile u.isDigit with
  | [] => false
  | c :: seq => c = hyphen && !(s.takeWhile u.isDigit).isEmpty && !seq.isEmpty && seq.all u.isDigit

/-- `parse_entry_id`. -/
def parseEntryId : Option Str → Option Str
  | none => none
  | some raw =>
    if raw.isEmpty then none
    else
      let raw := strip u.isspace raw
      if matchesId u raw then some raw else none

/-- The two `ValueError`s of `int`: "invalid literal for int() with base 10: {text!r}" and
"Exceeds the limit (4300 digits) for integer string conversion: value has {digits} digits; use
sys.set_int_max_str_digits() to increase the limit". -/
inductive IntError
  | invalidLiteral (text : Str)
  | tooManyDigits (digits : ℕ)

/-- The digits of a literal.  Single underscores may stand between them. -/
def literalDigits : Str → Option (List ℕ)
  | [] => none
  | [c] => (u.decimal c).map fun d => [d]
  | c :: c' :: rest =>
    match u.decimal c with
    | none => none
    | some d =>
      if c' = underscore then (literalDigits rest).map (d :: ·)
      else (literalDigits (c' :: rest)).map (d :: ·)

/-- The blanks that `int` strips.  Of ASCII these are fewer than `str.isspace` has. -/
def Digits.isBlank (c : CodePoint) : Bool :=
  if c.val < 128 then decide ((9 ≤ c.val ∧ c.val ≤ 13) ∨ c.val = 32) else u.isspace c

/-- `int(text)`. -/
def pyInt (text : Str) : Except IntError ℤ :=
  let body := strip u.isBlank text
  let negative := body.head? = some hyphen
  let literal := if negative ∨ body.head? = some plus then body.tail else body
  match literalDigits u literal with
  | none => .error (.invalidLiteral text)
  | some ds =>
    if 4300 < ds.length then .error (.tooManyDigits ds.length)
    else .ok (if negative then -(value ds : ℤ) else value ds)

/-- `int(text or 0)`. -/
def intOrZero (text : Str) : Except IntError ℤ :=
  if text.isEmpty then .ok 0 else pyInt u text

/-- `id_tuple`. -/
def idTuple (entryId : Str) : Except IntError (ℤ × ℤ) := do
  let ms ← pyInt u (entryId.takeWhile (· ≠ hyphen))
  let seq ← intOrZero u (entryId.dropWhile (· ≠ hyphen)).tail
  .ok (ms, seq)

/-- `p < q`, for tuples. -/
def tupleLt (p q : ℤ × ℤ) : Bool := p.1 < q.1 || (p.1 = q.1 && p.2 < q.2)

/-! ## The ids of Redis -/

/-- An ASCII decimal numeral of 64 bits. -/
structure Numeral (s : Str) (n : ℕ) : Prop where
  nonempty : s ≠ []
  ascii : ∀ c ∈ s, 48 ≤ c.val ∧ c.val ≤ 57
  value_eq : value (s.map fun c => c.val - 48) = n
  lt : n < 2 ^ 64

/-- The text `<ms>-<seq>` of a stream id. -/
def EntryId (s : Str) (id : StreamId) : Prop :=
  ∃ ms seq, s = ms ++ hyphen :: seq ∧ Numeral ms id.ms ∧ Numeral seq id.seq

/-- What is wanted of a cursor: if it is accepted, Redis reads it; if it is an id, it is accepted
as it is; and accepted ids compare as Redis compares them. -/
structure SoundCursor (s : Str) : Prop where
  valid : ∀ t, parseEntryId u (some s) = some t → ∃ id, EntryId t id
  accepted : ∀ id, EntryId s id → parseEntryId u (some s) = some s
  ordered : ∀ t id, parseEntryId u (some s) = some t → EntryId t id →
    ∃ p, idTuple u t = .ok p ∧ ∀ s' t' id' p', parseEntryId u (some s') = some t' →
      EntryId t' id' → idTuple u t' = .ok p' →
        tupleLt p p' = id.before id' ∧ tupleLt p' p = id'.before id

/-- Where the text between the blanks has the shape of an id, its digits are ASCII, no more than
`int` converts, and make numbers of 64 bits. -/
def Plain (s : Str) : Prop :=
  ∀ ms seq, strip u.isspace s = ms ++ hyphen :: seq → ms ≠ [] → seq ≠ [] →
    (∀ c ∈ ms ++ seq, u.isDigit c = true) →
      (∀ c ∈ ms ++ seq, c.val < 128) ∧ (ms.length ≤ 4300 ∧ seq.length ≤ 4300) ∧
        value (ms.filterMap u.decimal) < 2 ^ 64 ∧ value (seq.filterMap u.decimal) < 2 ^ 64

/-! ## The shape of an id -/

/-- A text that the pattern matches, cut at its hyphen. -/
structure Shape (s ms seq : Str) : Prop where
  eq : s = ms ++ hyphen :: seq
  ms_ne : ms ≠ []
  seq_ne : seq ≠ []
  digits : ∀ c ∈ ms ++ seq, u.isDigit c = true

variable {u} {s t ms seq : Str} {c : CodePoint} {id : StreamId}

theorem Digits.isDigit_hyphen : u.isDigit hyphen = false := by
  have h := u.decimal_ascii hyphen (by decide)
  rw [Digits.isDigit, h]
  rfl

theorem Digits.decimal_of_ascii (hc : 48 ≤ c.val ∧ c.val ≤ 57) :
    u.decimal c = some (c.val - 48) := by
  rw [u.decimal_ascii c (by omega), if_pos hc]

theorem Digits.isDigit_of_ascii (hc : 48 ≤ c.val ∧ c.val ≤ 57) : u.isDigit c = true := by
  rw [Digits.isDigit, Digits.decimal_of_ascii hc]
  rfl

/-- A digit below 128 is one of the ten. -/
theorem Digits.ascii_of_isDigit (hc : u.isDigit c = true) (hlt : c.val < 128) :
    48 ≤ c.val ∧ c.val ≤ 57 := by
  rw [Digits.isDigit, u.decimal_ascii c hlt] at hc
  by_contra hnot
  simp [hnot] at hc

namespace Shape

theorem ms_digits (h : Shape u s ms seq) : ∀ c ∈ ms, u.isDigit c = true :=
  fun c hc => h.digits c (List.mem_append_left _ hc)

theorem seq_digits (h : Shape u s ms seq) : ∀ c ∈ seq, u.isDigit c = true :=
  fun c hc => h.digits c (List.mem_append_right _ hc)

theorem hyphen_notMem (h : Shape u s ms seq) : hyphen ∉ ms ++ seq := by
  intro hmem
  have hdigit := h.digits _ hmem
  rw [Digits.isDigit_hyphen] at hdigit
  cases hdigit

/-- There is one way to cut it. -/
theorem unique {ms' seq' : Str} (h : Shape u s ms seq) (h' : Shape u s ms' seq') :
    ms = ms' ∧ seq = seq' := by
  have hmem := h.hyphen_notMem
  rw [List.mem_append, not_or] at hmem
  have hcut := (List.append_cons_inj_of_notMem hmem.1 hmem.2).1 (h.eq.symm.trans h'.eq)
  exact ⟨hcut.1, hcut.2.2⟩

end Shape

theorem matchesId_iff : matchesId u s = true ↔ ∃ ms seq, Shape u s ms seq := by
  constructor
  · intro h
    have hcut := List.takeWhile_append_dropWhile (p := u.isDigit) (l := s)
    rw [matchesId] at h
    split at h
    · cases h
    · rename_i c seq hdrop
      simp only [Bool.and_eq_true, decide_eq_true_eq, Bool.not_eq_true', List.isEmpty_eq_false_iff,
        List.all_eq_true] at h
      obtain ⟨⟨⟨rfl, hms⟩, hseq⟩, hall⟩ := h
      rw [hdrop] at hcut
      refine ⟨_, seq, hcut.symm, hms, hseq, fun c hc => ?_⟩
      rcases List.mem_append.1 hc with hc | hc
      · exact List.mem_takeWhile_imp hc
      · exact hall c hc
  · rintro ⟨ms, seq, h⟩
    have hdrop : s.dropWhile u.isDigit = hyphen :: seq := by
      rw [h.eq, List.dropWhile_append_of_pos h.ms_digits]
      simp [Digits.isDigit_hyphen]
    have htake : s.takeWhile u.isDigit = ms := by
      rw [h.eq, List.takeWhile_append_of_pos h.ms_digits]
      simp [Digits.isDigit_hyphen]
    rw [matchesId, hdrop, htake]
    simpa [h.ms_ne, h.seq_ne] using h.seq_digits

/-- What is accepted is what is left of the input without blanks, and has the shape of an id. -/
theorem parseEntryId_eq_some_iff :
    parseEntryId u (some s) = some t ↔ strip u.isspace s = t ∧ ∃ ms seq, Shape u t ms seq := by
  rw [← matchesId_iff, parseEntryId]
  cases s with
  | nil =>
    refine iff_of_false (by simp) ?_
    rintro ⟨rfl, h⟩
    simp [strip, matchesId] at h
  | cons c s =>
    simp only [List.isEmpty_cons, Bool.false_eq_true, if_false]
    split <;> aesop

theorem strip_eq_self {blank : CodePoint → Bool} (hfirst : ∀ c ∈ s.head?, blank c = false)
    (hlast : ∀ c ∈ s.getLast?, blank c = false) : strip blank s = s := by
  have hdrop : s.dropWhile blank = s := by
    cases s with
    | nil => rfl
    | cons c s => simp [hfirst c rfl]
  rw [strip, hdrop, List.rdropWhile_eq_self_iff]
  intro hne
  simp [hlast _ (List.getLast?_eq_getLast_of_ne_nil hne)]

/-! ## Ids of Redis -/

theorem Numeral.isDigit {n : ℕ} (h : Numeral s n) (hc : c ∈ s) : u.isDigit c = true :=
  Digits.isDigit_of_ascii (h.ascii c hc)

theorem Digits.filterMap_decimal (h : ∀ c ∈ s, 48 ≤ c.val ∧ c.val ≤ 57) :
    s.filterMap u.decimal = s.map fun c => c.val - 48 := by
  induction s with
  | nil => rfl
  | cons c s ih =>
    simp only [List.mem_cons, forall_eq_or_imp] at h
    simp [Digits.decimal_of_ascii h.1, ih h.2]

/-- The digits of a numeral are those of the literal. -/
theorem literalDigits_of_ascii (hne : s ≠ []) (h : ∀ c ∈ s, 48 ≤ c.val ∧ c.val ≤ 57) :
    literalDigits u s = some (s.map fun c => c.val - 48) := by
  induction s with
  | nil => exact absurd rfl hne
  | cons c s ih =>
    simp only [List.mem_cons, forall_eq_or_imp] at h
    cases s with
    | nil => simp [literalDigits, Digits.decimal_of_ascii h.1]
    | cons c' s =>
      have hc' : c' ≠ underscore := by
        rintro rfl
        have := h.2 underscore List.mem_cons_self
        exact absurd this (by decide)
      simp [literalDigits, Digits.decimal_of_ascii h.1, hc', ih (by simp) h.2]

/-- `int` of ASCII digits. -/
theorem pyInt_of_ascii (hne : s ≠ []) (h : ∀ c ∈ s, 48 ≤ c.val ∧ c.val ≤ 57) :
    pyInt u s = if 4300 < s.length then .error (.tooManyDigits s.length)
      else .ok (value (s.map fun c => c.val - 48) : ℤ) := by
  have hblank : ∀ c ∈ s, u.isBlank c = false := by
    intro c hc
    have hascii := h c hc
    have hlt : c.val < 128 := by omega
    simp only [Digits.isBlank, hlt, if_true, decide_eq_false_iff_not]
    omega
  have hstrip : strip u.isBlank s = s := strip_eq_self
    (fun c hc => hblank c (List.mem_of_mem_head? hc))
    fun c hc => hblank c (List.mem_of_mem_getLast? hc)
  have hsign : ∀ sign : CodePoint, ¬ 48 ≤ sign.val → s.head? ≠ some sign := by
    intro sign hsign hhead
    exact hsign (h sign (List.mem_of_mem_head? hhead)).1
  simp [pyInt, hstrip, hsign hyphen (by decide), hsign plus (by decide),
    literalDigits_of_ascii hne h]

/-- An id of Redis has the shape that is looked for. -/
theorem EntryId.shape (h : EntryId s id) :
    ∃ ms seq, Shape u s ms seq ∧ Numeral ms id.ms ∧ Numeral seq id.seq := by
  obtain ⟨ms, seq, heq, hms, hseq⟩ := h
  refine ⟨ms, seq, ⟨heq, hms.nonempty, hseq.nonempty, fun c hc => ?_⟩, hms, hseq⟩
  rcases List.mem_append.1 hc with hc | hc
  · exact hms.isDigit hc
  · exact hseq.isDigit hc

/-- An id of Redis is accepted as it is. -/
theorem EntryId.accepted (h : EntryId s id) : parseEntryId u (some s) = some s := by
  obtain ⟨ms, seq, hshape, hms, hseq⟩ := h.shape (u := u)
  have hblank : ∀ c : CodePoint, 48 ≤ c.val ∧ c.val ≤ 57 → u.isspace c = false := by
    intro c hc
    rw [u.isspace_ascii c (by omega), decide_eq_false_iff_not]
    omega
  refine parseEntryId_eq_some_iff.2 ⟨strip_eq_self ?_ ?_, ms, seq, hshape⟩
  · intro c hc
    rw [hshape.eq, List.head?_append_of_ne_nil _ hms.nonempty] at hc
    exact hblank c (hms.ascii c (List.mem_of_mem_head? hc))
  · intro c hc
    rw [hshape.eq, List.append_cons, List.getLast?_append_of_ne_nil _ hseq.nonempty] at hc
    exact hblank c (hseq.ascii c (List.mem_of_mem_getLast? hc))

/-- The numbers of an id of Redis, unless it is padded with thousands of zeros. -/
theorem Shape.idTuple_eq_ok_iff (hshape : Shape u s ms seq) (hms : Numeral ms id.ms)
    (hseq : Numeral seq id.seq) {p : ℤ × ℤ} :
    idTuple u s = .ok p ↔ (ms.length ≤ 4300 ∧ seq.length ≤ 4300) ∧ (↑id.ms, ↑id.seq) = p := by
  have hmem := hshape.hyphen_notMem
  rw [List.mem_append, not_or] at hmem
  have hbefore : ∀ c ∈ ms, (decide (c ≠ hyphen)) = true := by
    intro c hc
    simp only [decide_eq_true_eq]
    rintro rfl
    exact hmem.1 hc
  have htake : s.takeWhile (· ≠ hyphen) = ms := by
    rw [hshape.eq, List.takeWhile_append_of_pos hbefore]
    simp
  have hdrop : (s.dropWhile (· ≠ hyphen)).tail = seq := by
    rw [hshape.eq, List.dropWhile_append_of_pos hbefore]
    simp
  have hne : seq.isEmpty = false := by simpa using hseq.nonempty
  rw [idTuple, htake, hdrop, intOrZero, hne, if_neg Bool.false_ne_true,
    pyInt_of_ascii hms.nonempty hms.ascii, hms.value_eq, pyInt_of_ascii hseq.nonempty hseq.ascii,
    hseq.value_eq]
  by_cases hlong : 4300 < ms.length
  · simp [hlong, bind, Except.bind, Nat.not_le.2 hlong]
  · by_cases hlong' : 4300 < seq.length
    · simp [hlong, hlong', bind, Except.bind, Nat.not_le.2 hlong']
    · simp [hlong, hlong', bind, Except.bind, Nat.le_of_not_lt]

/-! ## Cursors -/

theorem tupleLt_natCast (a b : StreamId) :
    tupleLt (↑a.ms, ↑a.seq) (↑b.ms, ↑b.seq) = a.before b := by
  simp [tupleLt, StreamId.before]

/-- The shape of a plain cursor is that of an id. -/
theorem Plain.numerals (h : Plain u s) (hshape : Shape u (strip u.isspace s) ms seq) :
    ∃ id : StreamId, (Numeral ms id.ms ∧ Numeral seq id.seq) ∧
      ms.length ≤ 4300 ∧ seq.length ≤ 4300 := by
  obtain ⟨hascii, hlength, hms, hseq⟩ := h ms seq hshape.eq hshape.ms_ne hshape.seq_ne hshape.digits
  have hdigits : ∀ c ∈ ms ++ seq, 48 ≤ c.val ∧ c.val ≤ 57 :=
    fun c hc => Digits.ascii_of_isDigit (hshape.digits c hc) (hascii c hc)
  have hmsd := fun c hc => hdigits c (List.mem_append_left seq hc)
  have hseqd := fun c hc => hdigits c (List.mem_append_right ms hc)
  rw [Digits.filterMap_decimal hmsd] at hms
  rw [Digits.filterMap_decimal hseqd] at hseq
  exact ⟨⟨_, _⟩, ⟨⟨hshape.ms_ne, hmsd, rfl, hms⟩, ⟨hshape.seq_ne, hseqd, rfl, hseq⟩⟩, hlength⟩

/-- **Which cursors are sound.**  A cursor that a client sends is sound, which means that Redis
reads it if it is accepted, that it is accepted if it is an id, and that ids compare as Redis
compares them, just when it is plain. -/
theorem soundCursor_iff (u : Digits) (s : Str) : SoundCursor u s ↔ Plain u s := by
  constructor
  · intro h ms seq heq hms_ne hseq_ne hdigits
    have hshape : Shape u (strip u.isspace s) ms seq := ⟨heq, hms_ne, hseq_ne, hdigits⟩
    have hparse := parseEntryId_eq_some_iff.2 ⟨rfl, ms, seq, hshape⟩
    obtain ⟨id, hid⟩ := h.valid _ hparse
    obtain ⟨ms', seq', hshape', hms, hseq⟩ := hid.shape (u := u)
    obtain ⟨rfl, rfl⟩ := hshape.unique hshape'
    obtain ⟨p, hp, -⟩ := h.ordered _ id hparse hid
    have hlength := ((hshape.idTuple_eq_ok_iff hms hseq).1 hp).1
    refine ⟨fun c hc => ?_, hlength, ?_, ?_⟩
    · rcases List.mem_append.1 hc with hc | hc
      · have := hms.ascii c hc
        omega
      · have := hseq.ascii c hc
        omega
    · rw [Digits.filterMap_decimal hms.ascii, hms.value_eq]
      exact hms.lt
    · rw [Digits.filterMap_decimal hseq.ascii, hseq.value_eq]
      exact hseq.lt
  · intro h
    refine ⟨fun t ht => ?_, fun id hid => hid.accepted, fun t id ht hid => ?_⟩
    · obtain ⟨rfl, ms, seq, hshape⟩ := parseEntryId_eq_some_iff.1 ht
      obtain ⟨id, ⟨hms, hseq⟩, -⟩ := h.numerals hshape
      exact ⟨id, ms, seq, hshape.eq, hms, hseq⟩
    · obtain ⟨rfl, -⟩ := parseEntryId_eq_some_iff.1 ht
      obtain ⟨ms, seq, hshape, hms, hseq⟩ := hid.shape (u := u)
      obtain ⟨-, -, hlength⟩ := h.numerals hshape
      refine ⟨_, (hshape.idTuple_eq_ok_iff hms hseq).2 ⟨hlength, rfl⟩, ?_⟩
      intro s' t' id' p' _ hid' hp'
      obtain ⟨ms', seq', hshape', hms', hseq'⟩ := hid'.shape (u := u)
      obtain ⟨-, rfl⟩ := (hshape'.idTuple_eq_ok_iff hms' hseq').1 hp'
      exact ⟨tupleLt_natCast id id', tupleLt_natCast id' id⟩

/-- An interpreter that knows the digits of two scripts. -/
def arabicIndic : Digits where
  decimal c :=
    if 48 ≤ c.val ∧ c.val ≤ 57 then some (c.val - 48)
    else if 0x660 ≤ c.val ∧ c.val ≤ 0x669 then some (c.val - 0x660)
    else none
  isspace c := decide ((9 ≤ c.val ∧ c.val ≤ 13) ∨ (28 ≤ c.val ∧ c.val ≤ 32))
  decimal_ascii c hc := by
    have hlow : ¬ (0x660 ≤ c.val ∧ c.val ≤ 0x669) := by omega
    simp [hlow]
  isspace_ascii c _ := rfl

/-- A number of more than 64 bits, and the id `3-0` in Arabic-Indic digits: both are accepted, and
Redis reads neither. -/
theorem soundCursor_fails :
    ¬ SoundCursor arabicIndic (ofLiteral "99999999999999999999-0") ∧
      ¬ SoundCursor arabicIndic [0x663, hyphen, 0x660] := by
  constructor
  · intro h
    have hshape : Shape arabicIndic (ofLiteral "99999999999999999999-0")
        (ofLiteral "99999999999999999999") (ofLiteral "0") :=
      ⟨rfl, by decide, by decide, List.all_eq_true.1 (by decide)⟩
    obtain ⟨id, hid⟩ := h.valid _ (parseEntryId_eq_some_iff.2 ⟨by decide, _, _, hshape⟩)
    obtain ⟨ms, seq, hshape', hms, -⟩ := hid.shape (u := arabicIndic)
    obtain ⟨rfl, -⟩ := hshape.unique hshape'
    have hlt := hms.value_eq ▸ hms.lt
    exact absurd hlt (by decide)
  · intro h
    have hshape : Shape arabicIndic [0x663, hyphen, 0x660] [0x663] [0x660] :=
      ⟨rfl, by decide, by decide, List.all_eq_true.1 (by decide)⟩
    obtain ⟨id, hid⟩ := h.valid _ (parseEntryId_eq_some_iff.2 ⟨by decide, _, _, hshape⟩)
    obtain ⟨ms, seq, hshape', hms, -⟩ := hid.shape (u := arabicIndic)
    obtain ⟨rfl, -⟩ := hshape.unique hshape'
    exact absurd (hms.ascii _ List.mem_cons_self) (by decide)

end Cursor
end OcrOrchestrator
