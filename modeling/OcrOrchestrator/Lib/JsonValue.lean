import OcrOrchestrator.Lib.JsonText
import Mathlib.Data.Int.Notation

/-!
# JSON values as text

A value of any shape, written without blanks and in ASCII, and read back.  Strings are those of
flat objects.  How a number is written is left open: all that is asked of it is that its
characters are those of a numeral, and that it is read back whenever none of these follows.

Objects are lists of members, in the order in which they are written.

## Main definitions

* `Numerals` — a way to write numbers.
* `Value`, `Value.dumps`, `loadsValue` — values, as text and back.
* `loadsValue_dumps` — the round trip.
* `plain_dumps` — a text has printable ASCII characters only.
-/

namespace OcrOrchestrator.Lib.JsonText

/-- A character of the printable ASCII range. -/
def Plain (c : Char) : Prop := 32 ≤ c.toNat ∧ c.toNat ≤ 126

instance (c : Char) : Decidable (Plain c) := inferInstanceAs (Decidable (_ ∧ _))

/-- The characters of a JSON numeral. -/
def numeralChar (c : Char) : Bool := c.isDigit || c ∈ ['-', '+', '.', 'e', 'E']

/-- A way to write numbers. -/
structure Numerals (N : Type) where
  write : N → List Char
  read : List Char → Option (N × List Char)
  chars : ∀ n, ∀ c ∈ write n, numeralChar c = true
  write_ne_nil : ∀ n, write n ≠ []
  read_write : ∀ n rest, (∀ c ∈ rest.head?, numeralChar c = false) →
    read (write n ++ rest) = some (n, rest)

inductive Value (N : Type) where
  | null
  | bool (b : Bool)
  | num (n : N)
  | str (s : String)
  | arr (items : List (Value N))
  | obj (members : List (String × Value N))

section
variable {N : Type} (num : Numerals N)

/-! ## Writing -/

mutual

/-- `json.dumps` with `separators=(",", ":")`. -/
def Value.dumps : Value N → List Char
  | .null => ['n', 'u', 'l', 'l']
  | .bool true => ['t', 'r', 'u', 'e']
  | .bool false => ['f', 'a', 'l', 's', 'e']
  | .num n => num.write n
  | .str s => dumpsString s
  | .arr [] => ['[', ']']
  | .arr (v :: vs) => '[' :: (v.dumps ++ dumpsItems vs)
  | .obj [] => ['{', '}']
  | .obj ((k, v) :: ms) => '{' :: (dumpsString k ++ ':' :: (v.dumps ++ dumpsRest ms))

/-- The items after the first, and the closing bracket. -/
def dumpsItems : List (Value N) → List Char
  | [] => [']']
  | v :: vs => ',' :: (v.dumps ++ dumpsItems vs)

/-- The members after the first, and the closing brace. -/
def dumpsRest : List (String × Value N) → List Char
  | [] => ['}']
  | (k, v) :: ms => ',' :: (dumpsString k ++ ':' :: (v.dumps ++ dumpsRest ms))

end

/-! ## Reading -/

mutual

/-- A value at the beginning of a text, and what comes after it.  `fuel` bounds the nesting and
the lengths together. -/
def loadsValue : ℕ → List Char → Option (Value N × List Char)
  | 0, _ => none
  | fuel + 1, cs =>
    match cs with
    | 'n' :: 'u' :: 'l' :: 'l' :: rest => some (.null, rest)
    | 't' :: 'r' :: 'u' :: 'e' :: rest => some (.bool true, rest)
    | 'f' :: 'a' :: 'l' :: 's' :: 'e' :: rest => some (.bool false, rest)
    | '"' :: rest => (loadsString ('"' :: rest)).map fun p => (.str p.1, p.2)
    | '[' :: ']' :: rest => some (.arr [], rest)
    | '[' :: rest =>
      (loadsValue fuel rest).bind fun v => (loadsItems fuel v.2).map fun p => (.arr (v.1 :: p.1), p.2)
    | '{' :: '}' :: rest => some (.obj [], rest)
    | '{' :: rest =>
      (loadsPair fuel rest).bind fun m => (loadsRest fuel m.2).map fun p => (.obj (m.1 :: p.1), p.2)
    | rest => (num.read rest).map fun p => (.num p.1, p.2)

def loadsItems : ℕ → List Char → Option (List (Value N) × List Char)
  | 0, _ => none
  | fuel + 1, cs =>
    match cs with
    | ']' :: rest => some ([], rest)
    | ',' :: rest =>
      (loadsValue fuel rest).bind fun v => (loadsItems fuel v.2).map fun p => (v.1 :: p.1, p.2)
    | _ => none

def loadsPair : ℕ → List Char → Option ((String × Value N) × List Char)
  | 0, _ => none
  | fuel + 1, cs =>
    (loadsString cs).bind fun k =>
      match k.2 with
      | ':' :: rest => (loadsValue fuel rest).map fun v => ((k.1, v.1), v.2)
      | _ => none

def loadsRest : ℕ → List Char → Option (List (String × Value N) × List Char)
  | 0, _ => none
  | fuel + 1, cs =>
    match cs with
    | '}' :: rest => some ([], rest)
    | ',' :: rest =>
      (loadsPair fuel rest).bind fun m => (loadsRest fuel m.2).map fun p => (m.1 :: p.1, p.2)
    | _ => none

end

/-- `json.loads`, of a text without blanks. -/
def loadsJson (text : List Char) : Option (Value N) :=
  (loadsValue num (text.length + 1) text).bind fun p => if p.2 = [] then some p.1 else none

/-! ## The round trip -/

theorem not_numeralChar {c : Char} (h : c ∈ ['n', 't', 'f', '"', '[', ']', '{', '}', ',', ':']) :
    numeralChar c = false :=
  (List.forall_iff_forall_mem (p := fun c => numeralChar c = false)).mp (by decide) c h

/-- No value begins like the end of a list. -/
theorem head_dumps (v : Value N) : ∃ c rest, v.dumps num = c :: rest ∧ c ≠ ']' := by
  match v with
  | .null => exact ⟨_, _, by rw [Value.dumps], by decide⟩
  | .bool true => exact ⟨_, _, by rw [Value.dumps], by decide⟩
  | .bool false => exact ⟨_, _, by rw [Value.dumps], by decide⟩
  | .num n =>
    rw [Value.dumps]
    cases hn : num.write n with
    | nil => exact absurd hn (num.write_ne_nil n)
    | cons c rest =>
      refine ⟨c, rest, rfl, ?_⟩
      rintro rfl
      have hc := num.chars n ']' (by simp [hn])
      rw [not_numeralChar (by simp)] at hc
      cases hc
  | .str s => exact ⟨_, _, by rw [Value.dumps, dumpsString], by decide⟩
  | .arr [] => exact ⟨_, _, by rw [Value.dumps], by decide⟩
  | .arr (v :: vs) => exact ⟨_, _, by rw [Value.dumps], by decide⟩
  | .obj [] => exact ⟨_, _, by rw [Value.dumps], by decide⟩
  | .obj ((k, v) :: ms) => exact ⟨_, _, by rw [Value.dumps], by decide⟩

/-- A text that begins with a numeral is read as a number. -/
theorem loadsValue_numeral {c : Char} (hc : numeralChar c = true) (fuel : ℕ) (cs : List Char) :
    loadsValue num (fuel + 1) (c :: cs) = (num.read (c :: cs)).map fun p => (.num p.1, p.2) := by
  rw [loadsValue]
  all_goals
    intros
    rename_i heq
    obtain ⟨rfl, -⟩ := List.cons.inj heq
    rw [not_numeralChar (by simp)] at hc
    cases hc

theorem head_dumpsItems (vs : List (Value N)) (rest : List Char) :
    ∀ c ∈ (dumpsItems num vs ++ rest).head?, numeralChar c = false := by
  cases vs <;> simp only [dumpsItems, List.cons_append, List.head?_cons, Option.mem_some_iff] <;>
    rintro c rfl <;> exact not_numeralChar (by simp)

theorem head_dumpsRest (ms : List (String × Value N)) (rest : List Char) :
    ∀ c ∈ (dumpsRest num ms ++ rest).head?, numeralChar c = false := by
  cases ms <;> simp only [dumpsRest, List.cons_append, List.head?_cons, Option.mem_some_iff] <;>
    rintro c rfl <;> exact not_numeralChar (by simp)

theorem loadsString_cons (s : String) (rest : List Char) :
    ∃ cs, dumpsString s ++ rest = '"' :: cs ∧ loadsString ('"' :: cs) = some (s, rest) :=
  ⟨_, rfl, loadsString_dumpsString s rest⟩

mutual

/-- **Reading what was written gives the value back**, and what follows it. -/
theorem loadsValue_dumps (v : Value N) (fuel : ℕ) (rest : List Char)
    (hfuel : (v.dumps num).length < fuel) (hrest : ∀ c ∈ rest.head?, numeralChar c = false) :
    loadsValue num fuel (v.dumps num ++ rest) = some (v, rest) := by
  obtain ⟨fuel, rfl⟩ : ∃ n, fuel = n + 1 := ⟨fuel - 1, by omega⟩
  match v with
  | .null => simp [Value.dumps, loadsValue]
  | .bool true => simp [Value.dumps, loadsValue]
  | .bool false => simp [Value.dumps, loadsValue]
  | .num n =>
    rw [Value.dumps]
    cases hn : num.write n with
    | nil => exact absurd hn (num.write_ne_nil n)
    | cons c cs =>
      have hc := num.chars n c (by simp [hn])
      rw [List.cons_append, loadsValue_numeral num hc, ← List.cons_append, ← hn,
        num.read_write n rest hrest]
      rfl
  | .str s =>
    obtain ⟨cs, hcs, hload⟩ := loadsString_cons s rest
    rw [Value.dumps, hcs]
    simp [loadsValue, hload]
  | .arr [] => simp [Value.dumps, loadsValue]
  | .arr (v :: vs) =>
    simp only [Value.dumps, List.length_cons, List.length_append] at hfuel
    have hv := loadsValue_dumps v fuel (dumpsItems num vs ++ rest) (by omega)
      (head_dumpsItems num vs rest)
    have hvs := loadsItems_dumps vs fuel rest (by omega)
    obtain ⟨c, cs, hc, hne⟩ := head_dumps num v
    rw [hc] at hv
    simp only [List.cons_append] at hv
    simp only [Value.dumps, List.cons_append, List.append_assoc, hc]
    rw [loadsValue]
    · simp [hv, hvs]
    · intro r hr
      exact hne (List.cons.inj hr).1
  | .obj [] => simp [Value.dumps, loadsValue]
  | .obj ((k, v) :: ms) =>
    simp only [Value.dumps, List.length_cons, List.length_append] at hfuel
    have hm := loadsPair_dumps k v fuel (dumpsRest num ms ++ rest) (by simp; omega)
      (head_dumpsRest num ms rest)
    have hms := loadsRest_dumps ms fuel rest (by omega)
    obtain ⟨cs, hcs, -⟩ := loadsString_cons k (':' :: (v.dumps num ++ (dumpsRest num ms ++ rest)))
    have htext : (Value.obj ((k, v) :: ms)).dumps num ++ rest = '{' :: '"' :: cs := by
      simp only [Value.dumps, List.cons_append, List.append_assoc, hcs]
    rw [hcs] at hm
    rw [htext, loadsValue]
    · simp [hm, hms]
    · intro r hr
      exact absurd (List.cons.inj hr).1 (by decide)
termination_by fuel

theorem loadsItems_dumps (vs : List (Value N)) (fuel : ℕ) (rest : List Char)
    (hfuel : (dumpsItems num vs).length < fuel) :
    loadsItems num fuel (dumpsItems num vs ++ rest) = some (vs, rest) := by
  obtain ⟨fuel, rfl⟩ : ∃ n, fuel = n + 1 := ⟨fuel - 1, by omega⟩
  match vs with
  | [] => simp [dumpsItems, loadsItems]
  | v :: vs =>
    simp only [dumpsItems, List.length_cons, List.length_append] at hfuel
    have hv := loadsValue_dumps v fuel (dumpsItems num vs ++ rest) (by omega)
      (head_dumpsItems num vs rest)
    have hvs := loadsItems_dumps vs fuel rest (by omega)
    simp [dumpsItems, loadsItems, hv, hvs]
termination_by fuel

theorem loadsPair_dumps (k : String) (v : Value N) (fuel : ℕ) (rest : List Char)
    (hfuel : (dumpsString k ++ ':' :: v.dumps num).length < fuel)
    (hrest : ∀ c ∈ rest.head?, numeralChar c = false) :
    loadsPair num fuel (dumpsString k ++ ':' :: (v.dumps num ++ rest)) = some ((k, v), rest) := by
  obtain ⟨fuel, rfl⟩ : ∃ n, fuel = n + 1 := ⟨fuel - 1, by omega⟩
  simp only [List.length_append, List.length_cons] at hfuel
  have hv := loadsValue_dumps v fuel rest (by omega) hrest
  simp [loadsPair, loadsString_dumpsString, hv]
termination_by fuel

theorem loadsRest_dumps (ms : List (String × Value N)) (fuel : ℕ) (rest : List Char)
    (hfuel : (dumpsRest num ms).length < fuel) :
    loadsRest num fuel (dumpsRest num ms ++ rest) = some (ms, rest) := by
  obtain ⟨fuel, rfl⟩ : ∃ n, fuel = n + 1 := ⟨fuel - 1, by omega⟩
  match ms with
  | [] => simp [dumpsRest, loadsRest]
  | (k, v) :: ms =>
    simp only [dumpsRest, List.length_cons, List.length_append] at hfuel
    have hm := loadsPair_dumps k v fuel (dumpsRest num ms ++ rest) (by simp; omega)
      (head_dumpsRest num ms rest)
    have hms := loadsRest_dumps ms fuel rest (by omega)
    simp [dumpsRest, loadsRest, hm, hms]
termination_by fuel

end

/-- **The round trip.** -/
theorem loadsJson_dumps (v : Value N) : loadsJson num (v.dumps num) = some v := by
  have h := loadsValue_dumps num v ((v.dumps num).length + 1) [] (by omega) (by simp)
  rw [List.append_nil] at h
  simp [loadsJson, h]

/-! ## Printable ASCII -/

theorem plain_hexDigit {d : ℕ} (h : d < 16) : Plain (hexDigit d) := by
  revert d
  decide

theorem plain_escapeUnit (n : ℕ) : ∀ c ∈ escapeUnit n, Plain c := by
  have hlt : ∀ m : ℕ, m % 16 < 16 := fun m => Nat.mod_lt m (by omega)
  intro c hc
  simp only [escapeUnit, List.mem_cons, List.not_mem_nil, or_false] at hc
  rcases hc with rfl | rfl | rfl | rfl | rfl | rfl
  · decide
  · decide
  all_goals exact plain_hexDigit (hlt _)

theorem plain_escapeChar (x : Char) : ∀ c ∈ escapeChar x, Plain c := by
  unfold escapeChar
  split
  next e he =>
    have hmem : ∀ e ∈ shortEscapes, Plain e.1 := by decide
    intro c hc
    simp only [List.mem_cons, List.not_mem_nil, or_false] at hc
    rcases hc with rfl | rfl
    · decide
    · exact hmem e (List.mem_of_find?_eq_some he)
  next =>
    split
    next hplain =>
      intro c hc
      obtain rfl := List.mem_singleton.mp hc
      exact hplain
    next =>
      intro c hc
      obtain ⟨n, -, hn⟩ := List.mem_flatMap.mp hc
      exact plain_escapeUnit n c hn

theorem plain_dumpsString (s : String) : ∀ c ∈ dumpsString s, Plain c := by
  intro c hc
  simp only [dumpsString, List.mem_cons, List.mem_append, List.mem_flatMap, List.not_mem_nil,
    or_false] at hc
  rcases hc with rfl | ⟨x, -, hx⟩ | rfl
  · decide
  · exact plain_escapeChar x c hx
  · decide

theorem plain_of_numeralChar {c : Char} (h : numeralChar c = true) : Plain c := by
  simp only [numeralChar, Bool.or_eq_true, decide_eq_true_eq] at h
  rcases h with hdigit | hmem
  · simp only [Char.isDigit, Bool.and_eq_true, decide_eq_true_eq] at hdigit
    have hlow : 48 ≤ c.toNat := hdigit.1
    have hhigh : c.toNat ≤ 57 := hdigit.2
    exact ⟨by omega, by omega⟩
  · exact (List.forall_iff_forall_mem (p := Plain)).mp (by decide) c hmem

/-- Characters that are appended one after the other. -/
theorem plain_append {cs ds : List Char} (hcs : ∀ c ∈ cs, Plain c) (hds : ∀ c ∈ ds, Plain c) :
    ∀ c ∈ cs ++ ds, Plain c := by
  intro c hc
  exact (List.mem_append.mp hc).elim (hcs c) (hds c)

theorem plain_cons {x : Char} {cs : List Char} (hx : Plain x) (hcs : ∀ c ∈ cs, Plain c) :
    ∀ c ∈ x :: cs, Plain c := by
  intro c hc
  rcases List.mem_cons.mp hc with rfl | hc
  · exact hx
  · exact hcs c hc

mutual

/-- **A text has printable ASCII characters only.** -/
theorem plain_dumps (v : Value N) : ∀ c ∈ v.dumps num, Plain c := by
  match v with
  | .null => rw [Value.dumps]; exact List.forall_iff_forall_mem.mp (by decide)
  | .bool true => rw [Value.dumps]; exact List.forall_iff_forall_mem.mp (by decide)
  | .bool false => rw [Value.dumps]; exact List.forall_iff_forall_mem.mp (by decide)
  | .num n =>
    rw [Value.dumps]
    exact fun c hc => plain_of_numeralChar (num.chars n c hc)
  | .str s =>
    rw [Value.dumps]
    exact plain_dumpsString s
  | .arr [] => rw [Value.dumps]; exact List.forall_iff_forall_mem.mp (by decide)
  | .arr (v :: vs) =>
    rw [Value.dumps]
    exact plain_cons (by decide) (plain_append (plain_dumps v) (plain_dumpsItems vs))
  | .obj [] => rw [Value.dumps]; exact List.forall_iff_forall_mem.mp (by decide)
  | .obj ((k, v) :: ms) =>
    rw [Value.dumps]
    exact plain_cons (by decide) (plain_append (plain_dumpsString k)
      (plain_cons (by decide) (plain_append (plain_dumps v) (plain_dumpsRest ms))))

theorem plain_dumpsItems (vs : List (Value N)) : ∀ c ∈ dumpsItems num vs, Plain c := by
  match vs with
  | [] => rw [dumpsItems]; exact List.forall_iff_forall_mem.mp (by decide)
  | v :: vs =>
    rw [dumpsItems]
    exact plain_cons (by decide) (plain_append (plain_dumps v) (plain_dumpsItems vs))

theorem plain_dumpsRest (ms : List (String × Value N)) : ∀ c ∈ dumpsRest num ms, Plain c := by
  match ms with
  | [] => rw [dumpsRest]; exact List.forall_iff_forall_mem.mp (by decide)
  | (k, v) :: ms =>
    rw [dumpsRest]
    exact plain_cons (by decide) (plain_append (plain_dumpsString k)
      (plain_cons (by decide) (plain_append (plain_dumps v) (plain_dumpsRest ms))))

end

end

/-! ## Integers -/

/-- `str` of an integer. -/
def intText (z : ℤ) : List Char :=
  if z < 0 then '-' :: Nat.toDigits 10 z.natAbs else Nat.toDigits 10 z.natAbs

/-- The digits at the beginning of a text. -/
def readNat (cs : List Char) : Option (ℕ × List Char) :=
  let digits := cs.takeWhile Char.isDigit
  if digits = [] then none else some (Nat.ofDigitChars 10 digits 0, cs.dropWhile Char.isDigit)

def readInt : List Char → Option (ℤ × List Char)
  | '-' :: rest => (readNat rest).map fun p => (-(p.1 : ℤ), p.2)
  | rest => (readNat rest).map fun p => ((p.1 : ℤ), p.2)

theorem isDigit_toDigits (n : ℕ) : ∀ c ∈ Nat.toDigits 10 n, c.isDigit = true := fun _ hc =>
  Nat.isDigit_of_mem_toDigits (by decide) (by decide) hc

theorem readNat_toDigits (n : ℕ) (rest : List Char) (hrest : ∀ c ∈ rest.head?, c.isDigit = false) :
    readNat (Nat.toDigits 10 n ++ rest) = some (n, rest) := by
  have htake : (Nat.toDigits 10 n ++ rest).takeWhile Char.isDigit = Nat.toDigits 10 n := by
    rw [List.takeWhile_append_of_pos (isDigit_toDigits n)]
    cases rest with
    | nil => simp
    | cons c rest => simp [hrest c (by simp)]
  have hdrop : (Nat.toDigits 10 n ++ rest).dropWhile Char.isDigit = rest := by
    rw [List.dropWhile_append_of_pos (isDigit_toDigits n)]
    cases rest with
    | nil => simp
    | cons c rest => simp [hrest c (by simp)]
  rw [readNat, htake, hdrop, if_neg Nat.toDigits_ne_nil, Nat.ofDigitChars_toDigits (by decide) (by decide)]

/-- Integers, as Python writes them. -/
def Numerals.int : Numerals ℤ where
  write := intText
  read := readInt
  chars z c hc := by
    unfold intText at hc
    split at hc
    next =>
      rcases List.mem_cons.mp hc with rfl | hc
      · decide
      · simp [numeralChar, isDigit_toDigits _ c hc]
    next => simp [numeralChar, isDigit_toDigits _ c hc]
  write_ne_nil z := by
    unfold intText
    split
    · simp
    · exact Nat.toDigits_ne_nil
  read_write z rest hrest := by
    have hdigit : ∀ c ∈ rest.head?, c.isDigit = false := fun c hc => by
      have hnum := hrest c hc
      simp only [numeralChar, Bool.or_eq_false_iff] at hnum
      exact hnum.1
    unfold intText
    split
    next hneg =>
      rw [List.cons_append, readInt, readNat_toDigits _ _ hdigit]
      simp only [Option.map_some, Option.some.injEq, Prod.mk.injEq, and_true]
      omega
    next hpos =>
      rw [readInt, readNat_toDigits _ _ hdigit]
      · simp only [Option.map_some, Option.some.injEq, Prod.mk.injEq, and_true]
        omega
      · intro r hr
        have hmem : '-' ∈ Nat.toDigits 10 z.natAbs := by
          cases hd : Nat.toDigits 10 z.natAbs with
          | nil => exact absurd hd Nat.toDigits_ne_nil
          | cons c cs =>
            rw [hd, List.cons_append] at hr
            rw [(List.cons.inj hr).1]
            simp
        exact absurd (isDigit_toDigits _ _ hmem) (by decide)

end OcrOrchestrator.Lib.JsonText
