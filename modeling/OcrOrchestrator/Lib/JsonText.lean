import Mathlib.Data.List.Basic
import Mathlib.Data.Option.Basic
import Mathlib.Data.Nat.Notation

/-!
# Flat JSON objects as text

An object whose members are strings, written without blanks and in ASCII, and read back.  A
character outside the printable ASCII range is written as the hexadecimal number of its UTF-16
code unit, or of two of them; reading collects the code units first and joins pairs after.

## Main definitions

* `dumps`, `loads` — an object as text and back.
* `loads_dumps` — the round trip.
-/

namespace OcrOrchestrator.Lib.JsonText

/-! ## Writing -/

/-- A digit below 16. -/
def hexDigit (d : ℕ) : Char := if d < 10 then Char.ofNat (48 + d) else Char.ofNat (87 + d)

/-- A code unit as an escape sequence. -/
def escapeUnit (n : ℕ) : List Char :=
  ['\\', 'u', hexDigit (n / 4096 % 16), hexDigit (n / 256 % 16), hexDigit (n / 16 % 16),
    hexDigit (n % 16)]

/-- The UTF-16 code units of a character. -/
def unitsOf (c : Char) : List ℕ :=
  if c.toNat < 0x10000 then [c.toNat]
  else [0xD800 + (c.toNat - 0x10000) / 1024, 0xDC00 + (c.toNat - 0x10000) % 1024]

/-- The characters that have an escape sequence of their own, with its last letter. -/
def shortEscapes : List (Char × Char) :=
  [('"', '"'), ('\\', '\\'), ('n', '\n'), ('r', '\r'), ('t', '\t'), ('b', '\x08'), ('f', '\x0c')]

/-- A character inside a string. -/
def escapeChar (c : Char) : List Char :=
  match shortEscapes.find? fun e => e.2 = c with
  | some e => ['\\', e.1]
  | none =>
    if 32 ≤ c.toNat ∧ c.toNat ≤ 126 then [c] else (unitsOf c).flatMap escapeUnit

def dumpsString (s : String) : List Char := '"' :: (s.toList.flatMap escapeChar ++ ['"'])

def dumpsMember (m : String × String) : List Char := dumpsString m.1 ++ ':' :: dumpsString m.2

/-- The members, each but the last followed by a comma, and the closing brace. -/
def dumpsMembers : List (String × String) → List Char
  | [] => ['}']
  | [m] => dumpsMember m ++ ['}']
  | m :: ms => dumpsMember m ++ ',' :: dumpsMembers ms

/-- `json.dumps`, of a mapping from strings to strings. -/
def dumps (members : List (String × String)) : List Char := '{' :: dumpsMembers members

/-! ## Reading -/

def hexValue (c : Char) : Option ℕ :=
  if '0' ≤ c ∧ c ≤ '9' then some (c.toNat - 48)
  else if 'a' ≤ c ∧ c ≤ 'f' then some (c.toNat - 87)
  else if 'A' ≤ c ∧ c ≤ 'F' then some (c.toNat - 55)
  else none

/-- Four hexadecimal digits. -/
def unitValue (a b c d : Char) : Option ℕ :=
  (hexValue a).bind fun a => (hexValue b).bind fun b => (hexValue c).bind fun c =>
    (hexValue d).map fun d => a * 4096 + b * 256 + c * 16 + d

/-- The character a one-letter escape sequence stands for. -/
def shortValue (letter : Char) : Option ℕ :=
  if letter = '/' then some 47
  else (shortEscapes.find? fun e => e.1 = letter).map fun e => e.2.toNat

/-- The code units up to the closing quote, and what comes after it. -/
@[grind =] def scanUnits : List Char → Option (List ℕ × List Char)
  | [] => none
  | '"' :: rest => some ([], rest)
  | '\\' :: 'u' :: a :: b :: c :: d :: rest =>
    (unitValue a b c d).bind fun n => (scanUnits rest).map fun p => (n :: p.1, p.2)
  | '\\' :: letter :: rest =>
    (shortValue letter).bind fun n => (scanUnits rest).map fun p => (n :: p.1, p.2)
  | c :: rest =>
    if c = '\\' ∨ c.toNat < 32 then none
    else (scanUnits rest).map fun p => (c.toNat :: p.1, p.2)

/-- The characters of a sequence of code units.  A lone surrogate is no character; `dumps` never
writes one. -/
def joinUnits : List ℕ → List Char
  | [] => []
  | [n] => [Char.ofNat n]
  | high :: low :: rest =>
    if (0xD800 ≤ high ∧ high < 0xDC00) ∧ 0xDC00 ≤ low ∧ low < 0xE000 then
      Char.ofNat (0x10000 + (high - 0xD800) * 1024 + (low - 0xDC00)) :: joinUnits rest
    else Char.ofNat high :: joinUnits (low :: rest)

def loadsString : List Char → Option (String × List Char)
  | '"' :: rest => (scanUnits rest).map fun p => (String.ofList (joinUnits p.1), p.2)
  | _ => none

def loadsMember (cs : List Char) : Option ((String × String) × List Char) :=
  (loadsString cs).bind fun k =>
    match k.2 with
    | ':' :: rest => (loadsString rest).map fun v => ((k.1, v.1), v.2)
    | _ => none

/-- The members up to the closing brace; `fuel` bounds how many there are. -/
def loadsMembers : ℕ → List Char → Option (List (String × String))
  | 0, _ => none
  | fuel + 1, cs =>
    (loadsMember cs).bind fun m =>
      match m.2 with
      | ['}'] => some [m.1]
      | ',' :: rest => (loadsMembers fuel rest).map (m.1 :: ·)
      | _ => none

/-- `json.loads`, of a text without blanks that holds a mapping from strings to strings. -/
def loads : List Char → Option (List (String × String))
  | ['{', '}'] => some []
  | '{' :: rest => loadsMembers rest.length rest
  | _ => none

/-! ## The round trip -/

theorem hexValue_hexDigit {d : ℕ} (h : d < 16) : hexValue (hexDigit d) = some d := by
  revert d
  decide

theorem unitValue_escapeUnit {n : ℕ} (h : n < 0x10000) :
    unitValue (hexDigit (n / 4096 % 16)) (hexDigit (n / 256 % 16)) (hexDigit (n / 16 % 16))
      (hexDigit (n % 16)) = some n := by
  have hlt : ∀ m : ℕ, m % 16 < 16 := fun m => Nat.mod_lt m (by omega)
  simp only [unitValue, hexValue_hexDigit (hlt _), Option.bind_some, Option.map_some]
  congr 1
  omega

/-- Scanning escape sequences reads their code units. -/
theorem scanUnits_escapeUnit {n : ℕ} (h : n < 0x10000) (rest : List Char) :
    scanUnits (escapeUnit n ++ rest) = (scanUnits rest).map fun p => (n :: p.1, p.2) := by
  simp only [escapeUnit, List.cons_append, List.nil_append, scanUnits, unitValue_escapeUnit h,
    Option.bind_some]

theorem unitsOf_lt (c : Char) : ∀ n ∈ unitsOf c, n < 0x10000 := by
  intro n hn
  have hvalid : c.toNat < 0x110000 := by
    have := c.valid
    rcases this with h | ⟨-, h⟩
    · exact Nat.lt_trans h (by decide)
    · exact h
  unfold unitsOf at hn
  split at hn
  · simp only [List.mem_singleton] at hn
    omega
  · simp only [List.mem_cons, List.not_mem_nil, or_false] at hn
    omega

theorem scanUnits_escapeUnits {ns : List ℕ} (h : ∀ n ∈ ns, n < 0x10000) (rest : List Char) :
    scanUnits (ns.flatMap escapeUnit ++ rest) =
      (scanUnits rest).map fun p => (ns ++ p.1, p.2) := by
  induction ns with
  | nil => simp
  | cons n ns ih =>
    rw [List.flatMap_cons, List.append_assoc, scanUnits_escapeUnit (h n (by simp)),
      ih fun m hm => h m (by simp [hm])]
    cases scanUnits rest <;> rfl

/-- Scanning a printable character that needs no escape. -/
theorem scanUnits_plain {c : Char} (hq : c ≠ '"') (hb : c ≠ '\\') (hp : 32 ≤ c.toNat)
    (rest : List Char) :
    scanUnits (c :: rest) = (scanUnits rest).map fun p => (c.toNat :: p.1, p.2) := by
  rw [scanUnits]
  · simp [hb, hp]
  · exact hq
  · exact fun _ _ _ _ _ h => absurd h hb
  · exact fun _ _ h => absurd h hb

/-- Scanning an escaped character reads its code units. -/
theorem scanUnits_escapeChar (c : Char) (rest : List Char) :
    scanUnits (escapeChar c ++ rest) =
      (scanUnits rest).map fun p => (unitsOf c ++ p.1, p.2) := by
  unfold escapeChar
  split
  · rename_i e he
    have hmem := List.mem_of_find?_eq_some he
    have hc : e.2 = c := by simpa using List.find?_some he
    subst hc
    simp only [shortEscapes, List.mem_cons, List.not_mem_nil, or_false] at hmem
    rcases hmem with rfl | rfl | rfl | rfl | rfl | rfl | rfl <;>
      simp [scanUnits, shortValue, shortEscapes, unitsOf]
  · rename_i hnone
    have hne : ∀ e ∈ shortEscapes, e.2 ≠ c := by simpa using hnone
    split
    · rename_i hprint
      have hunits : unitsOf c = [c.toNat] := if_pos (by omega)
      rw [List.singleton_append, hunits,
        scanUnits_plain (hne ('"', '"') (by simp [shortEscapes])).symm
          (hne ('\\', '\\') (by simp [shortEscapes])).symm hprint.1]
      rfl
    · exact scanUnits_escapeUnits (unitsOf_lt c) rest

theorem scanUnits_flatMap (s rest : List Char) :
    scanUnits (s.flatMap escapeChar ++ '"' :: rest) = some (s.flatMap unitsOf, rest) := by
  induction s with
  | nil => simp [scanUnits]
  | cons c s ih =>
    rw [List.flatMap_cons, List.append_assoc, scanUnits_escapeChar, ih]
    simp

/-- The code units of a character are joined to the character. -/
theorem joinUnits_unitsOf (c : Char) (ns : List ℕ) :
    joinUnits (unitsOf c ++ ns) = c :: joinUnits ns := by
  have hof : Char.ofNat c.toNat = c := Char.ofNat_toNat c
  have hvalid : c.toNat < 0xD800 ∨ 0xDFFF < c.toNat ∧ c.toNat < 0x110000 := c.valid
  unfold unitsOf
  split
  · rename_i hbmp
    cases ns with
    | nil => simp [joinUnits, hof]
    | cons n ns =>
      have hno : ¬ ((0xD800 ≤ c.toNat ∧ c.toNat < 0xDC00) ∧ 0xDC00 ≤ n ∧ n < 0xE000) := by omega
      simp only [List.singleton_append, joinUnits, hno, if_false, hof]
  · rename_i hastral
    have hpair : (0xD800 ≤ 0xD800 + (c.toNat - 0x10000) / 1024 ∧
        0xD800 + (c.toNat - 0x10000) / 1024 < 0xDC00) ∧
        0xDC00 ≤ 0xDC00 + (c.toNat - 0x10000) % 1024 ∧
        0xDC00 + (c.toNat - 0x10000) % 1024 < 0xE000 := by omega
    have hsum : 0x10000 + (0xD800 + (c.toNat - 0x10000) / 1024 - 0xD800) * 1024 +
        (0xDC00 + (c.toNat - 0x10000) % 1024 - 0xDC00) = c.toNat := by omega
    rw [List.cons_append, List.cons_append, List.nil_append, joinUnits, if_pos hpair, hsum, hof]

theorem joinUnits_flatMap (s : List Char) : joinUnits (s.flatMap unitsOf) = s := by
  induction s with
  | nil => rfl
  | cons c s ih => rw [List.flatMap_cons, joinUnits_unitsOf, ih]

theorem loadsString_dumpsString (s : String) (rest : List Char) :
    loadsString (dumpsString s ++ rest) = some (s, rest) := by
  simp [dumpsString, loadsString, scanUnits_flatMap, joinUnits_flatMap]

theorem loadsMember_dumpsMember (m : String × String) (rest : List Char) :
    loadsMember (dumpsMember m ++ rest) = some (m, rest) := by
  simp [dumpsMember, loadsMember, loadsString_dumpsString]

theorem loadsMembers_dumpsMembers {members : List (String × String)} (hne : members ≠ [])
    {fuel : ℕ} (hfuel : members.length ≤ fuel) :
    loadsMembers fuel (dumpsMembers members) = some members := by
  induction members generalizing fuel with
  | nil => exact absurd rfl hne
  | cons m ms ih =>
    obtain ⟨fuel, rfl⟩ : ∃ n, fuel = n + 1 := ⟨fuel - 1, by simp at hfuel; omega⟩
    cases ms with
    | nil => simp [dumpsMembers, loadsMembers, loadsMember_dumpsMember]
    | cons m' ms =>
      have hrest : loadsMembers fuel (dumpsMembers (m' :: ms)) = some (m' :: ms) :=
        ih (by simp) (by simpa using hfuel)
      simp [dumpsMembers, loadsMembers, loadsMember_dumpsMember, hrest]

theorem length_le_dumpsMembers (members : List (String × String)) :
    members.length ≤ (dumpsMembers members).length := by
  induction members with
  | nil => simp
  | cons m ms ih =>
    cases ms with
    | nil => simp [dumpsMembers]
    | cons m' ms =>
      simp only [dumpsMembers, List.length_append, List.length_cons] at ih ⊢
      omega

/-- **Reading what was written gives the members back.** -/
theorem loads_dumps (members : List (String × String)) : loads (dumps members) = some members := by
  cases members with
  | nil => rfl
  | cons m ms =>
    rw [dumps, loads]
    · exact loadsMembers_dumpsMembers (by simp) (length_le_dumpsMembers _)
    · intro h
      have hread : loadsMembers (m :: ms).length (dumpsMembers (m :: ms)) = some (m :: ms) :=
        loadsMembers_dumpsMembers (by simp) (Nat.le_refl _)
      simp [h, loadsMembers, loadsMember, loadsString] at hread

end OcrOrchestrator.Lib.JsonText
