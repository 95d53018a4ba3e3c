import Mathlib.Data.List.Basic
import Mathlib.Data.Nat.Notation

/-!
# Event streams

The text of a `text/event-stream`, and what a client makes of it.  A line names a field and gives
its value; an empty line dispatches what has been collected.  The id of the last event with an id
sticks, and is what the client comes back with.

A connection can be cut anywhere.  A line that has not ended and an event that has not been
dispatched are dropped then, so a client has got whole blocks only.

## Main definitions

* `lines`, `Reader`, `interpret` — how a text is read.
* `Block`, `Block.text` — what a server writes.
* `interpret_flatMap` — what was written is read as what it says.
* `interpret_prefix` — a prefix of what was written is read as some of its blocks.
-/

namespace OcrOrchestrator.Lib.EventStream

abbrev Text := List Char

/-! ## Reading -/

/-- A line feed or a carriage return. -/
def isBreak (c : Char) : Bool := c = '\n' || c = '\r'

/-- The lines that have ended; `line` is what has come of the current one. -/
def lines (line : Text) : Text → List Text
  | [] => []
  | '\r' :: '\n' :: rest => line :: lines [] rest
  | c :: rest => if isBreak c then line :: lines [] rest else lines (line ++ [c]) rest

/-- An event, as a client is told of it. -/
structure Message where
  event : Text
  data : Text
  lastEventId : Text

/-- What a client has collected. -/
structure Reader where
  data : Text
  event : Text
  idBuffer : Text
  lastEventId : Text
  retry : Option ℕ

namespace Reader

/-- A client between two blocks. -/
def rest (lastEventId : Text) (retry : Option ℕ) : Reader :=
  ⟨[], [], lastEventId, lastEventId, retry⟩

def field (r : Reader) (name value : Text) : Reader :=
  if name = ['e', 'v', 'e', 'n', 't'] then { r with event := value }
  else if name = ['d', 'a', 't', 'a'] then { r with data := r.data ++ value ++ ['\n'] }
  else if name = ['i', 'd'] then
    if '\x00' ∈ value then r else { r with idBuffer := value }
  else if name = ['r', 'e', 't', 'r', 'y'] then
    if value ≠ [] ∧ value.all Char.isDigit then
      { r with retry := some (Nat.ofDigitChars 10 value 0) }
    else r
  else r

/-- The end of a block.  Without data there is no event. -/
def dispatch (r : Reader) : Reader × List Message :=
  (rest r.idBuffer r.retry,
    if r.data = [] then []
    else [⟨if r.event = [] then ['m', 'e', 's', 's', 'a', 'g', 'e'] else r.event, r.data.dropLast,
      r.idBuffer⟩])

/-- What comes after the colon; one blank is not part of it. -/
def valueOf : Text → Text
  | ':' :: ' ' :: value => value
  | ':' :: value => value
  | _ => []

/-- One line.  A line that begins with a colon is a comment. -/
def line (r : Reader) (l : Text) : Reader × List Message :=
  if l = [] then r.dispatch
  else if l.head? = some ':' then (r, [])
  else (r.field (l.takeWhile fun c => c ≠ ':') (valueOf (l.dropWhile fun c => c ≠ ':')), [])

/-- Some lines, one after the other. -/
def read (r : Reader) : List Text → Reader × List Message
  | [] => (r, [])
  | l :: ls =>
    let first := r.line l
    let others := first.1.read ls
    (others.1, first.2 ++ others.2)

end Reader

/-- What a client makes of a text. -/
def interpret (r : Reader) (text : Text) : Reader × List Message := r.read (lines [] text)

/-! ## Writing -/

/-- Lines, each ended by a line feed. -/
def writeLines (ls : List Text) : Text := ls.flatMap fun l => l ++ ['\n']

/-- What a server sends at a time. -/
inductive Block where
  | message (id : Option Text) (event data : Text)
  | comment (text : Text)
  | retry (ms : ℕ)

namespace Block

def lines : Block → List Text
  | message id event data =>
    (id.map fun i => 'i' :: 'd' :: ':' :: ' ' :: i).toList ++
      ['e' :: 'v' :: 'e' :: 'n' :: 't' :: ':' :: ' ' :: event,
        'd' :: 'a' :: 't' :: 'a' :: ':' :: ' ' :: data]
  | comment text => [':' :: text]
  | retry ms => ['r' :: 'e' :: 't' :: 'r' :: 'y' :: ':' :: ' ' :: Nat.toDigits 10 ms]

def text (b : Block) : Text := writeLines b.lines ++ ['\n']

/-- A text of one line. -/
def OneLine (t : Text) : Prop := ∀ c ∈ t, isBreak c = false

/-- Everything is written on one line, an event has a name and data, and no id holds a NUL. -/
def Clean : Block → Prop
  | message id event data => (∀ i ∈ id, OneLine i ∧ '\x00' ∉ i) ∧ OneLine event ∧ event ≠ [] ∧
      OneLine data
  | comment text => OneLine text
  | retry _ => True

/-- The id a client has after the block. -/
def lastId (i : Text) : Block → Text
  | message id _ _ => id.getD i
  | _ => i

/-- The event of a block. -/
def messages (i : Text) : Block → List Message
  | message id event data => [⟨event, data, id.getD i⟩]
  | _ => []

end Block

/-- The id a client has after some blocks. -/
def lastId (i : Text) (bs : List Block) : Text := bs.foldl Block.lastId i

/-- The events of some blocks. -/
def messages (i : Text) : List Block → List Message
  | [] => []
  | b :: bs => b.messages i ++ messages (b.lastId i) bs

/-! ## Lines -/

theorem lines_append_break {l : Text} (hl : Block.OneLine l) (line rest : Text) :
    lines line (l ++ '\n' :: rest) = (line ++ l) :: lines [] rest := by
  induction l generalizing line with
  | nil =>
    rw [List.nil_append, lines]
    · simp [isBreak]
    · intro r hr
      exact absurd hr (by decide)
  | cons c l ih =>
    have hc : isBreak c = false := hl c (by simp)
    rw [List.cons_append, lines]
    · rw [hc, if_neg (by simp), ih fun x hx => hl x (by simp [hx])]
      simp
    · intro r hr
      rw [hr] at hc
      cases hc

theorem lines_writeLines {ls : List Text} (hls : ∀ l ∈ ls, Block.OneLine l) (rest : Text) :
    lines [] (writeLines ls ++ rest) = ls ++ lines [] rest := by
  induction ls with
  | nil => rfl
  | cons l ls ih =>
    have hcons : writeLines (l :: ls) ++ rest = l ++ '\n' :: (writeLines ls ++ rest) := by
      simp [writeLines]
    rw [hcons, lines_append_break (hls l (by simp)), ih fun x hx => hls x (by simp [hx])]
    rfl

/-- The lines of a block, and the empty one that ends it. -/
theorem lines_text {b : Block} (hb : ∀ l ∈ b.lines, Block.OneLine l) (rest : Text) :
    lines [] (b.text ++ rest) = b.lines ++ [] :: lines [] rest := by
  rw [Block.text, List.append_assoc, lines_writeLines hb]
  exact congrArg _ (lines_append_break (l := []) (by simp [Block.OneLine]) [] rest)

/-- A text that goes on has the lines it had. -/
theorem lines_prefix (line p q : Text) : lines line p <+: lines line (p ++ q) := by
  fun_induction lines line p with
  | case1 line => exact List.nil_prefix
  | case2 line rest ih =>
    rw [List.cons_append, List.cons_append, lines]
    exact (List.prefix_cons_inj line).mpr ih
  | case3 line c rest hcr hc ih =>
    by_cases hnext : c = '\r' ∧ ∃ q', rest ++ q = '\n' :: q'
    · obtain ⟨rfl, q', hq⟩ := hnext
      cases rest with
      | nil =>
        rw [List.cons_append, hq, lines]
        exact ⟨lines [] q', by simp [lines]⟩
      | cons x rest =>
        obtain ⟨rfl, -⟩ := List.cons.inj hq
        exact absurd rfl (hcr rest rfl)
    · rw [List.cons_append, lines, if_pos hc]
      · exact (List.prefix_cons_inj line).mpr ih
      · intro r hr hrest
        exact hnext ⟨hr, r, hrest⟩
  | case4 line c rest hcr hc ih =>
    rw [List.cons_append, lines, if_neg hc]
    · exact ih
    · rintro r rfl
      exact absurd rfl hc

/-! ## Blocks -/

section Blocks
variable {b : Block} {bs : List Block} {i : Text} {k : Option ℕ} {r : Reader}

theorem Reader.read_append (ls ls' : List Text) :
    r.read (ls ++ ls') =
      (((r.read ls).1.read ls').1, (r.read ls).2 ++ ((r.read ls).1.read ls').2) := by
  induction ls generalizing r with
  | nil => rfl
  | cons l ls ih => simp [Reader.read, ih]

/-- Lines that are not empty tell the client nothing yet. -/
theorem Reader.read_open {ls : List Text} (hls : ∀ l ∈ ls, l ≠ []) :
    (r.read ls).2 = [] ∧ (r.read ls).1.lastEventId = r.lastEventId := by
  induction ls generalizing r with
  | nil => exact ⟨rfl, rfl⟩
  | cons l ls ih =>
    have hline : (r.line l).2 = [] ∧ (r.line l).1.lastEventId = r.lastEventId := by
      rw [Reader.line, if_neg (hls l (by simp))]
      split
      · exact ⟨rfl, rfl⟩
      · refine ⟨rfl, ?_⟩
        simp only [Reader.field]
        split_ifs <;> rfl
    obtain ⟨hmessages, hid⟩ := ih (r := (r.line l).1) fun x hx => hls x (by simp [hx])
    exact ⟨by simp [Reader.read, hline.1, hmessages], hid.trans hline.2⟩

theorem Block.lines_ne_nil (b : Block) : ∀ l ∈ b.lines, l ≠ [] := by
  cases b with
  | message id event data => cases id <;> simp [Block.lines]
  | comment text => simp [Block.lines]
  | retry ms => simp [Block.lines]

theorem Block.OneLine.cons {c : Char} {t : Text} (hc : isBreak c = false) (ht : Block.OneLine t) :
    Block.OneLine (c :: t) := by
  intro x hx
  rcases List.mem_cons.mp hx with rfl | hx
  · exact hc
  · exact ht x hx

theorem oneLine_toDigits (n : ℕ) : Block.OneLine (Nat.toDigits 10 n) := by
  intro c hc
  have hdigit := Nat.isDigit_of_mem_toDigits (b := 10) (by decide) (by decide) hc
  by_contra hbreak
  simp only [isBreak, Bool.not_eq_false, Bool.or_eq_true, decide_eq_true_eq] at hbreak
  rcases hbreak with rfl | rfl
  · exact absurd hdigit (by decide)
  · exact absurd hdigit (by decide)

theorem Block.Clean.oneLine (h : b.Clean) : ∀ l ∈ b.lines, Block.OneLine l := by
  cases b with
  | message id event data =>
    obtain ⟨hid, hevent, -, hdata⟩ := h
    intro l hl
    simp only [Block.lines, List.mem_append, List.mem_cons, List.not_mem_nil, or_false,
      Option.mem_toList, Option.map_eq_some_iff] at hl
    rcases hl with ⟨j, hj, rfl⟩ | rfl | rfl
    · exact .cons rfl (.cons rfl (.cons rfl (.cons rfl (hid j hj).1)))
    · exact .cons rfl (.cons rfl (.cons rfl (.cons rfl (.cons rfl (.cons rfl (.cons rfl hevent))))))
    · exact .cons rfl (.cons rfl (.cons rfl (.cons rfl (.cons rfl (.cons rfl hdata)))))
  | comment text =>
    intro l hl
    obtain rfl := List.mem_singleton.mp hl
    exact .cons rfl h
  | retry ms =>
    intro l hl
    obtain rfl := List.mem_singleton.mp hl
    exact .cons rfl (.cons rfl (.cons rfl (.cons rfl (.cons rfl (.cons rfl (.cons rfl
      (oneLine_toDigits ms)))))))

/-- The reconnection time a client has after the block. -/
def Block.retryAfter (k : Option ℕ) : Block → Option ℕ
  | retry ms => some ms
  | _ => k

/-- **One block** is read as what it says. -/
theorem read_block (h : b.Clean) : (Reader.rest i k).read (b.lines ++ [[]]) =
    (.rest (b.lastId i) (b.retryAfter k), b.messages i) := by
  cases b with
  | message id event data =>
    obtain ⟨hid, -, hevent, -⟩ := h
    cases id with
    | none =>
      simp [Block.lines, Reader.read, Reader.line, Reader.field, Reader.valueOf, Reader.rest,
        Reader.dispatch, Block.lastId, Block.messages, Block.retryAfter, hevent]
    | some j =>
      simp [Block.lines, Reader.read, Reader.line, Reader.field, Reader.valueOf, Reader.rest,
        Reader.dispatch, Block.lastId, Block.messages, Block.retryAfter, hevent, (hid j rfl).2]
  | comment text =>
    simp [Block.lines, Reader.read, Reader.line, Reader.rest, Reader.dispatch, Block.lastId,
      Block.messages, Block.retryAfter]
  | retry ms =>
    have hdigits : (Nat.toDigits 10 ms).all Char.isDigit = true := List.all_eq_true.mpr fun c hc =>
      Nat.isDigit_of_mem_toDigits (by decide) (by decide) hc
    simp [Block.lines, Reader.read, Reader.line, Reader.field, Reader.valueOf, Reader.rest,
      Reader.dispatch, Block.lastId, Block.messages, Block.retryAfter, Nat.toDigits_ne_nil, hdigits]

/-- Whole blocks are read one after the other. -/
theorem interpret_append (h : b.Clean) (rest : Text) :
    interpret (.rest i k) (b.text ++ rest) =
      ((interpret (.rest (b.lastId i) (b.retryAfter k)) rest).1,
        b.messages i ++ (interpret (.rest (b.lastId i) (b.retryAfter k)) rest).2) := by
  have hlines : b.lines ++ [] :: lines [] rest = (b.lines ++ [[]]) ++ lines [] rest := by simp
  rw [interpret, lines_text h.oneLine, hlines, Reader.read_append, read_block h]
  rfl

/-- **Blocks that are all there** are read as what they say. -/
theorem interpret_flatMap (hbs : ∀ b ∈ bs, b.Clean) :
    (interpret (.rest i k) (bs.flatMap Block.text)).2 = messages i bs ∧
      (interpret (.rest i k) (bs.flatMap Block.text)).1.lastEventId = lastId i bs := by
  induction bs generalizing i k with
  | nil => exact ⟨rfl, rfl⟩
  | cons b bs ih =>
    obtain ⟨hmessages, hid⟩ := ih (i := b.lastId i) (k := b.retryAfter k)
      fun x hx => hbs x (by simp [hx])
    rw [List.flatMap_cons, interpret_append (hbs b (by simp))]
    exact ⟨congrArg _ hmessages, hid⟩

/-- A block that is not there to its end is not there. -/
theorem interpret_cut (h : b.Clean) {p : Text} (hp : p <+: b.text) (hne : p ≠ b.text) :
    (interpret (.rest i k) p).2 = [] ∧ (interpret (.rest i k) p).1.lastEventId = i := by
  have hlines : lines [] p <+: b.lines := by
    have hshort : p <+: writeLines b.lines := by
      rw [Block.text, List.prefix_concat_iff] at hp
      exact hp.resolve_left hne
    obtain ⟨q, hq⟩ := hshort
    have hall := lines_writeLines h.oneLine []
    rw [List.append_nil, ← hq] at hall
    rw [show lines [] [] = [] from rfl, List.append_nil] at hall
    rw [← hall]
    exact lines_prefix [] p q
  exact Reader.read_open fun l hl => b.lines_ne_nil l (hlines.subset hl)

/-- **Wherever the connection is cut**, the client has got some of the blocks, from the first on,
and comes back with the id of the last of them that has one. -/
theorem interpret_prefix (hbs : ∀ b ∈ bs, b.Clean) {p : Text}
    (hp : p <+: bs.flatMap Block.text) :
    ∃ n, (interpret (.rest i k) p).2 = messages i (bs.take n) ∧
      (interpret (.rest i k) p).1.lastEventId = lastId i (bs.take n) := by
  induction bs generalizing i k p with
  | nil =>
    obtain rfl := List.prefix_nil.mp hp
    exact ⟨0, rfl, rfl⟩
  | cons b bs ih =>
    have hb := hbs b (by simp)
    rw [List.flatMap_cons] at hp
    by_cases hwhole : b.text <+: p
    · obtain ⟨q, rfl⟩ := hwhole
      rw [List.prefix_append_right_inj] at hp
      obtain ⟨n, hmessages, hid⟩ := ih (i := b.lastId i) (k := b.retryAfter k)
        (fun x hx => hbs x (by simp [hx])) hp
      rw [interpret_append hb]
      exact ⟨n + 1, congrArg _ hmessages, hid⟩
    · have hshort := (List.prefix_or_prefix_of_prefix hp (List.prefix_append _ _)).resolve_right hwhole
      have hne : p ≠ b.text := by
        rintro rfl
        exact hwhole (List.prefix_refl _)
      exact ⟨0, interpret_cut hb hshort hne⟩

end Blocks

end OcrOrchestrator.Lib.EventStream
