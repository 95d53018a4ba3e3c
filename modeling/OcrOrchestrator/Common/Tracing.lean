import OcrOrchestrator.Lib.Dict
import Mathlib.Data.List.DropRight

/-!
# Trace context

`common/tracing.py` and the part of `common/middleware.py` that binds a context to a request.  A
trace crosses from one process to the next in a `traceparent` header: the caller formats it, the
callee parses it, and whatever does not parse gets a trace of its own.

Header values are bytes, decoded as Latin-1, so `strip` and `lower` are those of Latin-1.

## Main definitions

* `formatTraceparent`, `parseTraceparent` — the header.
* `bindRequest` — the context that the middleware sets.
* `parse_format` — the header is read back.
* `isId_bindRequest` — what is bound is an id, whatever has been sent.
-/

namespace OcrOrchestrator
namespace Tracing

open Lib

/-- `[0-9a-f]`. -/
def isHex (c : Char) : Bool :=
  (48 ≤ c.toNat && c.toNat ≤ 57) || (97 ≤ c.toNat && c.toNat ≤ 102)

/-- Is it so many hexadecimal digits? -/
def IsId (n : ℕ) (s : List Char) : Prop := s.length = n ∧ s.all isHex = true

instance (n : ℕ) (s : List Char) : Decidable (IsId n s) :=
  inferInstanceAs (Decidable (s.length = n ∧ s.all isHex = true))

/-- What `new_trace_id` and `new_span_id` draw. -/
structure Fresh where
  traceId : List Char
  spanId : List Char
  traceId_isId : IsId 32 traceId
  spanId_isId : IsId 16 spanId

/-- `_trace_id` and `_span_id`. -/
structure Context where
  traceId : List Char
  spanId : List Char

/-- `x or y`. -/
def orElse (x y : List Char) : List Char := if x = [] then y else x

/-- `set_trace_context`. -/
def setTraceContext (traceId spanId : List Char) (fresh : Fresh) : Context :=
  ⟨traceId, orElse spanId fresh.spanId⟩

/-- `format_traceparent`. -/
def formatTraceparent (ctx : Context) (fresh : Fresh) : List Char :=
  ['0', '0', '-'] ++ orElse ctx.traceId fresh.traceId ++ ['-'] ++ orElse ctx.spanId fresh.spanId ++
    ['-', '0', '1']

/-! ## Parsing -/

/-- `str.isspace`, in Latin-1. -/
def isSpace (c : Char) : Bool :=
  (9 ≤ c.toNat && c.toNat ≤ 13) || (28 ≤ c.toNat && c.toNat ≤ 32) || c.toNat = 133 || c.toNat = 160

/-- `str.strip`. -/
def strip (s : List Char) : List Char := (s.dropWhile isSpace).rdropWhile isSpace

/-- `str.lower` of a character, in Latin-1. -/
def lower (c : Char) : Char :=
  if (65 ≤ c.toNat ∧ c.toNat ≤ 90) ∨ (192 ≤ c.toNat ∧ c.toNat ≤ 222 ∧ c.toNat ≠ 215) then
    Char.ofNat (c.toNat + 32)
  else c

/-- `_TRACEPARENT_RE.match`, with its groups.  `$` also matches before a last line feed. -/
def matchTraceparent (s : List Char) : Option (List Char × List Char) :=
  let traceId := (s.drop 3).take 32
  let spanId := (s.drop 36).take 16
  if s.take 3 = ['0', '0', '-'] ∧ IsId 32 traceId ∧ (s.drop 35).take 1 = ['-'] ∧
      IsId 16 spanId ∧ (s.drop 52).take 1 = ['-'] ∧ IsId 2 ((s.drop 53).take 2) ∧
      (s.drop 55 = [] ∨ s.drop 55 = ['\n']) then
    some (traceId, spanId)
  else none

/-- `parse_traceparent`. -/
def parseTraceparent (header : Option (List Char)) : Option (List Char × List Char) :=
  header.bind fun header =>
    if header = [] then none else matchTraceparent ((strip header).map lower)

/-! ## The middleware -/

abbrev Headers := List (String × List UInt8)

/-- `bytes.decode("latin-1")`. -/
def decodeLatin1 (bytes : List UInt8) : List Char := bytes.map fun b => Char.ofNat b.toNat

/-- A header value as it is sent. -/
def encodeHeader (s : List Char) : List UInt8 := s.map fun c => UInt8.ofNat c.toNat

/-- What the headers of a request say: of two with one name the last counts. -/
def incoming (headers : Headers) : Option (List Char × List Char) :=
  let raw : Dict String (List UInt8) := headers.foldl (fun d e => d.update e.1 fun _ => e.2) []
  parseTraceparent (((raw.get "traceparent").filter (· ≠ [])).map decodeLatin1)

/-- `__call__`, up to the call of the app.  The trace id is also the `x-trace-id` of the answer. -/
def bindRequest (headers : Headers) (fresh : Fresh) : Context :=
  match incoming headers with
  | some (traceId, _) => setTraceContext traceId fresh.spanId fresh
  | none => setTraceContext fresh.traceId [] fresh

/-! ## What is accepted -/

/-- A part of a list, and what comes after it. -/
theorem cut {s a b : List Char} {i n : ℕ} (h : s.drop i = a ++ b) (ha : a.length = n) :
    (s.drop i).take n = a ∧ s.drop (i + n) = b := by
  constructor
  · rw [h]
    exact List.take_left' ha
  · rw [← List.drop_drop, h]
    exact List.drop_left' ha

/-- The expression, spelled out. -/
theorem matchTraceparent_eq_some_iff {s traceId spanId : List Char} :
    matchTraceparent s = some (traceId, spanId) ↔
      IsId 32 traceId ∧ IsId 16 spanId ∧ ∃ flags, IsId 2 flags ∧ ∃ rest,
        (rest = [] ∨ rest = ['\n']) ∧
          s = ['0', '0', '-'] ++ traceId ++ ['-'] ++ spanId ++ ['-'] ++ flags ++ rest := by
  constructor
  · intro h
    simp only [matchTraceparent] at h
    split at h
    next hall =>
      obtain ⟨hversion, htrace, hdash, hspan, hdash', hflags, hrest⟩ := hall
      obtain ⟨rfl, rfl⟩ := Prod.mk.inj (Option.some.inj h)
      refine ⟨htrace, hspan, _, hflags, _, hrest, ?_⟩
      calc s = s.take 3 ++ (s.drop 3).take 32 ++ (s.drop 35).take 1 ++ (s.drop 36).take 16 ++
            (s.drop 52).take 1 ++ (s.drop 53).take 2 ++ s.drop 55 := by
            have hcut : ∀ i n, (s.drop i).take n ++ s.drop (i + n) = s.drop i := by
              intro i n
              rw [← List.drop_drop]
              exact List.take_append_drop n (s.drop i)
            simp only [List.append_assoc]
            rw [hcut 53 2, hcut 52 1, hcut 36 16, hcut 35 1, hcut 3 32, List.take_append_drop]
        _ = _ := by rw [hversion, hdash, hdash']
    next => cases h
  · rintro ⟨htrace, hspan, flags, hflags, rest, hrest, hs⟩
    simp only [List.append_assoc] at hs
    obtain ⟨hversion, h3⟩ := cut (i := 0) hs rfl
    obtain ⟨htrace', h35⟩ := cut h3 htrace.1
    obtain ⟨hdash, h36⟩ := cut h35 rfl
    obtain ⟨hspan', h52⟩ := cut h36 hspan.1
    obtain ⟨hdash', h53⟩ := cut h52 rfl
    obtain ⟨hflags', h55⟩ := cut h53 hflags.1
    simp only [List.drop_zero, zero_add, Nat.reduceAdd, List.length_cons, List.length_nil] at *
    rw [matchTraceparent]
    simp only [htrace', hspan', hflags', hversion, hdash, hdash', h55, htrace, hspan, hflags, hrest,
      and_self, if_true]

/-- **What is accepted is well formed.** -/
theorem isId_of_parse {header : Option (List Char)} {traceId spanId : List Char}
    (h : parseTraceparent header = some (traceId, spanId)) : IsId 32 traceId ∧ IsId 16 spanId := by
  obtain ⟨text, -, htext⟩ := Option.bind_eq_some_iff.mp h
  split at htext
  · cases htext
  · obtain ⟨htrace, hspan, -⟩ := matchTraceparent_eq_some_iff.mp htext
    exact ⟨htrace, hspan⟩

/-- Whatever has been sent, what is bound is an id. -/
theorem isId_bindRequest (headers : Headers) (fresh : Fresh) :
    IsId 32 (bindRequest headers fresh).traceId ∧ IsId 16 (bindRequest headers fresh).spanId := by
  have hspan : IsId 16 (orElse fresh.spanId fresh.spanId) := by
    unfold orElse
    split <;> exact fresh.spanId_isId
  unfold bindRequest
  split
  next traceId spanId h => exact ⟨(isId_of_parse h).1, hspan⟩
  next => exact ⟨fresh.traceId_isId, fresh.spanId_isId⟩

/-! ## What is sent is read back -/

/-- A character of a formatted header. -/
def Plain (c : Char) : Prop := isHex c = true ∨ c = '-'

instance (c : Char) : Decidable (Plain c) := inferInstanceAs (Decidable (_ ∨ _))

theorem Plain.lower {c : Char} (h : Plain c) : lower c = c := by
  rcases h with h | rfl
  · simp only [isHex, Bool.or_eq_true, Bool.and_eq_true, decide_eq_true_eq] at h
    rw [Tracing.lower, if_neg (by omega)]
  · decide

theorem Plain.isSpace {c : Char} (h : Plain c) : isSpace c = false := by
  rcases h with h | rfl
  · simp only [isHex, Bool.or_eq_true, Bool.and_eq_true, decide_eq_true_eq] at h
    simp only [Tracing.isSpace, Bool.or_eq_false_iff, Bool.and_eq_false_iff, decide_eq_false_iff_not]
    omega
  · decide

theorem Plain.decode {c : Char} (h : Plain c) :
    Char.ofNat (UInt8.ofNat c.toNat).toNat = c := by
  have hlt : c.toNat < 256 := by
    rcases h with h | rfl
    · simp only [isHex, Bool.or_eq_true, Bool.and_eq_true, decide_eq_true_eq] at h
      omega
    · decide
  rw [UInt8.toNat_ofNat_of_lt' hlt]
  exact Char.ofNat_toNat c

theorem strip_plain {s : List Char} (h : ∀ c ∈ s, Plain c) : strip s = s := by
  have hdrop : s.dropWhile isSpace = s := by
    rw [List.dropWhile_eq_self_iff]
    intro hpos
    rw [(h _ (List.getElem_mem hpos)).isSpace]
    exact Bool.false_ne_true
  rw [strip, hdrop, List.rdropWhile_eq_self_iff]
  intro hne
  rw [(h _ (List.getLast_mem hne)).isSpace]
  exact Bool.false_ne_true

theorem plain_format {ctx : Context} {fresh : Fresh}
    (htrace : IsId 32 (orElse ctx.traceId fresh.traceId))
    (hspan : IsId 16 (orElse ctx.spanId fresh.spanId)) :
    ∀ c ∈ formatTraceparent ctx fresh, Plain c := by
  intro c hc
  have hhex : ∀ s : List Char, s.all isHex = true → c ∈ s → Plain c := fun s hs hmem =>
    .inl (List.all_eq_true.mp hs c hmem)
  simp only [formatTraceparent, List.mem_append] at hc
  rcases hc with (((hc | hc) | hc) | hc) | hc
  · exact (List.forall_iff_forall_mem (p := Plain)).mp (by decide) c hc
  · exact hhex _ htrace.2 hc
  · exact (List.forall_iff_forall_mem (p := Plain)).mp (by decide) c hc
  · exact hhex _ hspan.2 hc
  · exact (List.forall_iff_forall_mem (p := Plain)).mp (by decide) c hc

/-- **A header is read back** as what it was made from. -/
theorem parse_format {ctx : Context} {fresh : Fresh}
    (htrace : IsId 32 (orElse ctx.traceId fresh.traceId))
    (hspan : IsId 16 (orElse ctx.spanId fresh.spanId)) :
    parseTraceparent (some (decodeLatin1 (encodeHeader (formatTraceparent ctx fresh)))) =
      some (orElse ctx.traceId fresh.traceId, orElse ctx.spanId fresh.spanId) := by
  have hplain := plain_format htrace hspan
  have hdecode : decodeLatin1 (encodeHeader (formatTraceparent ctx fresh)) =
      formatTraceparent ctx fresh := by
    rw [decodeLatin1, encodeHeader, List.map_map]
    exact (List.map_congr_left fun c hc => (hplain c hc).decode).trans (List.map_id _)
  have hlower : (formatTraceparent ctx fresh).map lower = formatTraceparent ctx fresh :=
    (List.map_congr_left fun c hc => (hplain c hc).lower).trans (List.map_id _)
  rw [hdecode, parseTraceparent, Option.bind_some, strip_plain hplain, hlower,
    if_neg (by simp [formatTraceparent]), matchTraceparent_eq_some_iff]
  exact ⟨htrace, hspan, ['0', '1'], by decide, [], .inl rfl, by simp [formatTraceparent]⟩

/-- The next process binds the trace of the one that calls it. -/
theorem bindRequest_format {ctx : Context} {fresh fresh' : Fresh}
    (htrace : IsId 32 (orElse ctx.traceId fresh.traceId))
    (hspan : IsId 16 (orElse ctx.spanId fresh.spanId)) :
    (bindRequest [("traceparent", encodeHeader (formatTraceparent ctx fresh))] fresh').traceId =
      orElse ctx.traceId fresh.traceId := by
  have hincoming : incoming [("traceparent", encodeHeader (formatTraceparent ctx fresh))] =
      some (orElse ctx.traceId fresh.traceId, orElse ctx.spanId fresh.spanId) := by
    rw [← parse_format htrace hspan]
    simp [incoming, Dict.get, Dict.update, encodeHeader, formatTraceparent, Option.filter]
  rw [bindRequest, hincoming]
  rfl

end Tracing
end OcrOrchestrator
