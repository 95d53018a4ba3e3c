import OcrOrchestrator.Lib.Protocol
import OcrOrchestrator.Queue.Streams
import Mathlib.Algebra.GroupWithZero.Nat

/-!
# Reading the two lanes

`PageQueue.read` is up to three `XREADGROUP` calls: a probe of the lead lane, a probe of the
main lane, and, if both were empty, one blocking read that watches both.  Each call is a
command of its own, so entries may arrive between any two of them.  Redis applies `COUNT` to
each stream of a call separately, so a call over two streams answers with up to twice as
many entries.

A blocking call is modelled at the instant it returns; it answers with nothing if it timed
out.

## Main definitions

* `TaskStream.readNew`, `TaskStream.readPending` — what one stream of a call hands out.
* `readLanes`, `flatten`, `read`, `readOwnPending` — the programs.
* `WithinCount` — an answer respects `COUNT`, and does not take the last room from both lanes.
-/

namespace OcrOrchestrator

open Lib

namespace TaskStream

/-- `XREADGROUP ... COUNT count STREAMS key >` on one stream: up to `count` entries that the
group has not seen, oldest first. -/
def readNew (consumer : Consumer) (now : ℕ) : ℕ → TaskStream → List Entry × TaskStream
  | 0, s => ([], s)
  | count + 1, s =>
    match s.deliverNext consumer now with
    | none => ([], s)
    | some (e, s') => (e :: (readNew consumer now count s').1, (readNew consumer now count s').2)

/-- The fields of an entry that has been deleted while it was pending. -/
def noFields : RawTask := ⟨none, none, none, none, none, none⟩

/-- `XREADGROUP ... COUNT count STREAMS key 0` on one stream: up to `count` entries that are
pending under the consumer; their idle clocks restart. -/
def readPending (consumer : Consumer) (now count : ℕ) (s : TaskStream) :
    List Entry × TaskStream :=
  let own := (s.pel.filter fun p => decide (p.consumer = consumer)).take count
  (own.map fun p => (s.stored? p.id).getD ⟨p.id, noFields⟩,
    { s with pel := s.pel.map fun p =>
        if own.any (fun q => decide (q.id = p.id)) then { p with deliveredAt := now } else p })

/-- Does the group have something to deliver? -/
def hasNew (s : TaskStream) : Bool := s.entries.any fun e => s.lastDelivered.before e.id

theorem length_readNew_le (consumer : Consumer) (now count : ℕ) (s : TaskStream) :
    (readNew consumer now count s).1.length ≤ count := by
  induction count generalizing s with
  | zero => exact le_refl _
  | succ count ih =>
    cases hnext : s.deliverNext consumer now with
    | none => simp [readNew, hnext]
    | some out =>
      simp only [readNew, hnext, List.length_cons]
      exact Nat.succ_le_succ (ih out.2)

theorem length_readPending_le (consumer : Consumer) (now count : ℕ) (s : TaskStream) :
    (readPending consumer now count s).1.length ≤ count := by
  simp only [readPending, List.length_map, List.length_take]
  omega

/-- A stream with nothing to deliver delivers nothing. -/
theorem readNew_of_not_hasNew (consumer : Consumer) (now count : ℕ) {s : TaskStream}
    (h : s.hasNew = false) : (readNew consumer now count s).1 = [] := by
  cases count with
  | zero => rfl
  | succ count =>
    have hnone : s.deliverNext consumer now = none := by
      rw [deliverNext, Option.map_eq_none_iff, List.find?_eq_none]
      intro e he hlater
      rw [hasNew, List.any_eq_false] at h
      exact h e he hlater
    simp [readNew, hnone]

end TaskStream

/-- What `XREADGROUP` reads from: `>` or `0`. -/
inductive ReadFrom where
  | newMessages
  | ownPending
  deriving DecidableEq

/-- What the read path raises. -/
inductive ReadExn where
  /-- A `ResponseError` that names `NOGROUP`. -/
  | noGroup
  /-- The client refuses a count below one. -/
  | dataError
  | other (exn : Exn)

/-- What the read path awaits. -/
inductive QueueCmd where
  | xreadgroup (lanes : List Lane) (source : ReadFrom) (count : ℕ) (blockMs : Option ℕ)
  /-- The pipeline that copies an entry to the quarantine stream and counts it. -/
  | quarantineCopy (lane : Lane) (id : StreamId)
  | xack (lane : Lane) (id : StreamId)
  | xdel (lane : Lane) (id : StreamId)
  | ensureGroup

/-- Streams with the entries that were read from them. -/
abbrev Response := List (Lane × List Entry)

abbrev QueueRet : QueueCmd → Type
  | .xreadgroup _ _ _ _ => Response
  | _ => Unit

/-- Coroutines of the read path. -/
abbrev Reader (α : Type) := Prog QueueCmd QueueRet ReadExn α

namespace Response

/-- How many entries there are. -/
def total (r : Response) : ℕ := (r.map fun s => s.2.length).sum

@[simp] theorem total_nil : total [] = 0 := rfl

@[simp] theorem total_cons (lane : Lane) (es : List Entry) (r : Response) :
    total ((lane, es) :: r) = es.length + total r := by
  simp [total]

@[simp] theorem total_append (r r' : Response) :
    total (r ++ r' : Response) = total r + total r' := by
  simp [total]

end Response

/-- The two task streams. -/
abbrev Lanes := Lane → TaskStream

/-- One stream of an `XREADGROUP` call. -/
def readOne (consumer : Consumer) (now : ℕ) (source : ReadFrom) (count : ℕ) (s : TaskStream) :
    List Entry × TaskStream :=
  match source with
  | .newMessages => s.readNew consumer now count
  | .ownPending => s.readPending consumer now count

/-- The streams of an `XREADGROUP` call in the order given.  A stream without new entries is
left out of the response. -/
def readEach (consumer : Consumer) (now : ℕ) (source : ReadFrom) (count : ℕ) :
    List Lane → Lanes → Response × Lanes
  | [], s => ([], s)
  | lane :: rest, s =>
    let out := readOne consumer now source count (s lane)
    let more := readEach consumer now source count rest (Function.update s lane out.2)
    (if out.1.isEmpty && decide (source = .newMessages) then more.1
      else (lane, out.1) :: more.1, more.2)

/-- One command on the streams. -/
def QueueCmd.exec (consumer : Consumer) (now : ℕ) :
    (c : QueueCmd) → Lanes → Except ReadExn (QueueRet c) × Lanes
  | .xreadgroup lanes source count _, s =>
    if count = 0 then (.error .dataError, s)
    else
      let out := readEach consumer now source count lanes s
      (.ok out.1, out.2)
  | .quarantineCopy _ _, s => (.ok (), s)
  | .xack lane id, s => (.ok (), Function.update s lane ((s lane).xack id))
  | .xdel lane id, s => (.ok (), Function.update s lane ((s lane).xdel id))
  | .ensureGroup, s => (.ok (), s)

/-! ## The programs -/

/-- Await one command. -/
def ask (c : QueueCmd) : Reader (QueueRet c) := Prog.perform c

/-- `XREADGROUP`. -/
def xreadgroup (lanes : List Lane) (source : ReadFrom) (count : ℕ) (blockMs : Option ℕ) :
    Reader Response :=
  ask (.xreadgroup lanes source count blockMs)

/-- The non-blocking probe of the lead lane, left out if the lane has no budget. -/
def probeLead (leadCount : ℕ) : Reader Response :=
  if 0 < leadCount then xreadgroup [.lead] .newMessages leadCount none else pure []

/-- In shared mode, what the lead lane has left of the budget. -/
def mainBudget (mainCount : ℕ) (totalCap : Option ℕ) (lead : Response) : ℕ :=
  match totalCap with
  | some cap => min mainCount (cap - lead.total)
  | none => mainCount

/-- `_read_lanes`. -/
def readLanes (leadCount mainCount blockMs : ℕ) (totalCap : Option ℕ) (leadBlockMs : ℕ) :
    Reader Response := do
  let lead ← probeLead leadCount
  if mainBudget mainCount totalCap lead = 0 then
    if !lead.isEmpty || decide (leadBlockMs = 0) then
      return lead
    else
      xreadgroup [.lead] .newMessages leadCount (some leadBlockMs)
  else do
    let main ← xreadgroup [.main] .newMessages (mainBudget mainCount totalCap lead) none
    if !lead.isEmpty || !main.isEmpty || decide (blockMs = 0) then
      return lead ++ main
    else
      -- the budget is halved because it applies to each stream, but never below one
      xreadgroup [.lead, .main] .newMessages (max 1 (mainBudget mainCount totalCap lead / 2))
        (some blockMs)

/-- `_quarantine`: the copy may fail, the entry is settled all the same. -/
def quarantine (lane : Lane) (id : StreamId) : Reader Unit := do
  (ask (.quarantineCopy lane id)).tryCatch fun _ => pure ()
  ask (.xack lane id)
  ask (.xdel lane id)

/-- `_flatten`, over the entries of one stream: a malformed entry is quarantined. -/
def flattenStream (lane : Lane) : List Entry → Reader (List PageTask)
  | [] => pure []
  | e :: es =>
    match parse lane e.id e.fields with
    | .ok task => do
      let tasks ← flattenStream lane es
      return task :: tasks
    | .error _ => do
      quarantine lane e.id
      flattenStream lane es

/-- `_flatten`. -/
def flatten : Response → Reader (List PageTask)
  | [] => pure []
  | (lane, es) :: rest => do
    let tasks ← flattenStream lane es
    let more ← flatten rest
    return tasks ++ more

/-- A missing group is recreated, and nothing was read; everything else surfaces. -/
def recreateGroup : ReadExn → Reader Response
  | .noGroup => do
    ask .ensureGroup
    return []
  | e => .raise e

/-- `read` with a budget for each lane. -/
def readBudgets (leadCount mainCount blockMs leadBlockMs : ℕ) : Reader (List PageTask) := do
  let response ← (readLanes leadCount mainCount blockMs none leadBlockMs).tryCatch recreateGroup
  flatten response

/-- `read` with one count for both lanes. -/
def readCount (count blockMs leadBlockMs : ℕ) : Reader (List PageTask) := do
  let response ← (readLanes count count blockMs (some count) leadBlockMs).tryCatch recreateGroup
  flatten response

/-- What is left of the count is read from the main lane. -/
def ownPendingMain (count taken : ℕ) : Reader Response :=
  if taken < count then xreadgroup [.main] .ownPending (count - taken) none else pure []

/-- `read_own_pending`. -/
def readOwnPending (count : ℕ) : Reader (List PageTask) := do
  let lead ← xreadgroup [.lead] .ownPending count none
  let main ← ownPendingMain count lead.total
  let tasks ← flatten (lead ++ main)
  return tasks.map fun task => { task with recovered := true }

/-! ## How much a read returns -/

section Bounds
variable {consumer : Consumer} {now : ℕ} {source : ReadFrom} {s : Lanes}

theorem length_readOne_le (consumer : Consumer) (now : ℕ) (source : ReadFrom) (count : ℕ)
    (s : TaskStream) : (readOne consumer now source count s).1.length ≤ count := by
  cases source with
  | newMessages => exact TaskStream.length_readNew_le consumer now count s
  | ownPending => exact TaskStream.length_readPending_le consumer now count s

theorem total_readEach_cons (lane : Lane) (rest : List Lane) (count : ℕ) :
    (readEach consumer now source count (lane :: rest) s).1.total =
      (readOne consumer now source count (s lane)).1.length +
        (readEach consumer now source count rest (Function.update s lane
          (readOne consumer now source count (s lane)).2)).1.total := by
  simp only [readEach]
  split
  next hempty =>
    simp only [Bool.and_eq_true, List.isEmpty_iff] at hempty
    rw [hempty.1, List.length_nil, Nat.zero_add]
  next => exact Response.total_cons _ _ _

/-- `COUNT` bounds what each stream of a call hands out. -/
theorem total_readEach_le (count : ℕ) (lanes : List Lane) (s : Lanes) :
    (readEach consumer now source count lanes s).1.total ≤ lanes.length * count := by
  induction lanes generalizing s with
  | nil => exact Nat.zero_le _
  | cons lane rest ih =>
    have hone := length_readOne_le consumer now source count (s lane)
    have hrest := ih (Function.update s lane (readOne consumer now source count (s lane)).2)
    rw [total_readEach_cons, List.length_cons, Nat.succ_mul]
    omega

/-- A call over both lanes hands out `COUNT` entries if one of the lanes has none. -/
theorem total_readEach_both_le {count : ℕ}
    (h : ((s .lead).hasNew && (s .main).hasNew) = false) :
    (readEach consumer now .newMessages count [.lead, .main] s).1.total ≤ count := by
  rw [total_readEach_cons, total_readEach_cons]
  simp only [readEach, Response.total_nil, Nat.add_zero]
  rw [Function.update_of_ne (by decide)]
  rcases Bool.and_eq_false_iff.mp h with hlead | hmain
  · have hnone := TaskStream.readNew_of_not_hasNew consumer now count hlead
    have hmain := length_readOne_le consumer now .newMessages count (s .main)
    rw [readOne, hnone, List.length_nil]
    omega
  · have hnone := TaskStream.readNew_of_not_hasNew consumer now count hmain
    have hlead := length_readOne_le consumer now .newMessages count (s .lead)
    rw [readOne.eq_def _ _ _ _ (s .main), hnone, List.length_nil]
    omega

/-- An answer respects `COUNT`; and if there is room for one task only, a read over both
lanes does not find something in each. -/
def WithinCount (room : ℕ) : (c : QueueCmd) → Except ReadExn (QueueRet c) → Prop
  | .xreadgroup lanes source count _, .ok r =>
    Response.total r ≤ lanes.length * count ∧
      (lanes = [.lead, .main] → source = .newMessages → room = 1 → Response.total r ≤ count)
  | _, _ => True

/-- The call is the read over both lanes, there is room for one task only, and both lanes
have something to deliver. -/
def QueueCmd.takesTwoForOne (room : ℕ) (s : Lanes) : QueueCmd → Bool
  | .xreadgroup lanes source _ _ =>
    decide (room = 1) && decide (lanes = [.lead, .main]) && decide (source = .newMessages) &&
      (s .lead).hasNew && (s .main).hasNew
  | _ => false

theorem withinCount_exec {room : ℕ} {c : QueueCmd} (h : c.takesTwoForOne room s = false) :
    WithinCount room c (c.exec consumer now s).1 := by
  cases c with
  | xreadgroup lanes source count blockMs =>
    by_cases hcount : count = 0
    · simp only [QueueCmd.exec, hcount, if_true]
      trivial
    · simp only [QueueCmd.exec, hcount, if_false]
      refine ⟨total_readEach_le count lanes s, ?_⟩
      intro hlanes hsource hroom
      subst hlanes hsource hroom
      apply total_readEach_both_le
      simpa [QueueCmd.takesTwoForOne] using h
  | _ => trivial

end Bounds

section Yields
variable {may : (c : QueueCmd) → Except ReadExn (QueueRet c) → Prop}

theorem yields_quarantine (lane : Lane) (id : StreamId) :
    (quarantine lane id).Yields may fun _ => True := by
  unfold quarantine
  apply Prog.Yields.bind (m := fun _ => True)
  · apply Prog.Yields.tryCatch
    · exact Prog.Yields.perform fun _ _ => trivial
    · exact fun _ => trivial
  · intro _ _
    apply Prog.Yields.bind (m := fun _ => True) (Prog.Yields.perform fun _ _ => trivial)
    intro _ _
    exact Prog.Yields.perform fun _ _ => trivial

theorem yields_flattenStream (lane : Lane) (es : List Entry) :
    (flattenStream lane es).Yields may fun tasks => tasks.length ≤ es.length := by
  induction es with
  | nil => exact le_refl _
  | cons e es ih =>
    unfold flattenStream
    split
    next task _ =>
      apply Prog.Yields.bind ih
      intro tasks htasks
      exact Nat.succ_le_succ htasks
    next =>
      apply Prog.Yields.bind (yields_quarantine lane e.id)
      intro _ _
      exact ih.mono fun tasks htasks => Nat.le_succ_of_le htasks

/-- Flattening drops entries and adds none. -/
theorem yields_flatten (r : Response) :
    (flatten r).Yields may fun tasks => tasks.length ≤ r.total := by
  induction r with
  | nil => exact le_refl _
  | cons stream rest ih =>
    obtain ⟨lane, es⟩ := stream
    unfold flatten
    apply Prog.Yields.bind (yields_flattenStream lane es)
    intro tasks htasks
    apply Prog.Yields.bind ih
    intro more hmore
    have hlen : (tasks ++ more).length ≤ es.length + Response.total rest := by
      rw [List.length_append]
      omega
    rw [Response.total_cons]
    exact hlen

end Yields

section Room
variable {room : ℕ}

theorem yields_xreadgroup (lane : Lane) (source : ReadFrom) (count : ℕ) (blockMs : Option ℕ) :
    (xreadgroup [lane] source count blockMs).Yields (WithinCount room) fun r =>
      r.total ≤ count := by
  apply Prog.Yields.perform
  intro r hr
  have hle : Response.total r ≤ 1 * count := hr.1
  omega

theorem yields_probeLead (leadCount : ℕ) :
    (probeLead leadCount).Yields (WithinCount room) fun r => r.total ≤ leadCount := by
  unfold probeLead
  split
  · exact yields_xreadgroup _ _ _ _
  · exact Nat.zero_le _

/-- The blocking read over both lanes stays within the budget it was made with. -/
theorem yields_xreadgroup_both {budget : ℕ} (hpos : budget ≠ 0) (hroom : budget ≤ room)
    (blockMs : Option ℕ) :
    (xreadgroup [.lead, .main] .newMessages (max 1 (budget / 2)) blockMs).Yields
      (WithinCount room) fun r => r.total ≤ room := by
  apply Prog.Yields.perform
  intro r hr
  have hle : Response.total r ≤ 2 * max 1 (budget / 2) := hr.1
  have hone : room = 1 → Response.total r ≤ max 1 (budget / 2) := hr.2 rfl rfl
  omega

/-- **`_read_lanes` stays within the room** that its budgets leave. -/
theorem yields_readLanes {leadCount mainCount blockMs leadBlockMs : ℕ} {totalCap : Option ℕ}
    (hlead : leadCount ≤ room)
    (hbudget : ∀ lead : Response, lead.total ≤ leadCount →
      lead.total + mainBudget mainCount totalCap lead ≤ room) :
    (readLanes leadCount mainCount blockMs totalCap leadBlockMs).Yields (WithinCount room)
      fun r => r.total ≤ room := by
  unfold readLanes
  apply Prog.Yields.bind (yields_probeLead leadCount)
  intro lead hle
  have hsum := hbudget lead hle
  split
  next hzero =>
    split
    · exact le_trans hle hlead
    · exact (yields_xreadgroup _ _ _ _).mono fun r hr => le_trans hr hlead
  next hpos =>
    apply Prog.Yields.bind (yields_xreadgroup _ _ _ _)
    intro main hmain
    split
    · have hboth : Response.total (lead ++ main : Response) ≤ room := by
        rw [Response.total_append]
        omega
      exact hboth
    · exact yields_xreadgroup_both hpos (by omega) _

theorem yields_recreateGroup (e : ReadExn) :
    (recreateGroup e).Yields (WithinCount room) fun r => r.total ≤ room := by
  cases e with
  | noGroup =>
    apply Prog.Yields.bind (m := fun _ => True) (Prog.Yields.perform fun _ _ => trivial)
    exact fun _ _ => Nat.zero_le _
  | dataError => trivial
  | other exn => trivial

/-- `read` with one count returns at most that many tasks. -/
theorem yields_readCount (count blockMs leadBlockMs : ℕ) :
    (readCount count blockMs leadBlockMs).Yields (WithinCount count) fun tasks =>
      tasks.length ≤ count := by
  have hlanes : (readLanes count count blockMs (some count) leadBlockMs).Yields
      (WithinCount count) fun r => r.total ≤ count := by
    apply yields_readLanes (le_refl _)
    intro lead hle
    simp only [mainBudget]
    omega
  apply Prog.Yields.bind (hlanes.tryCatch yields_recreateGroup)
  intro r hr
  exact (yields_flatten r).mono fun tasks htasks => le_trans htasks hr

/-- `read` with a budget for each lane returns at most their sum, or what there is room for. -/
theorem yields_readBudgets {leadCount mainCount : ℕ} (h : leadCount + mainCount ≤ room)
    (blockMs leadBlockMs : ℕ) :
    (readBudgets leadCount mainCount blockMs leadBlockMs).Yields (WithinCount room) fun tasks =>
      tasks.length ≤ room := by
  have hlanes : (readLanes leadCount mainCount blockMs none leadBlockMs).Yields
      (WithinCount room) fun r => r.total ≤ room := by
    apply yields_readLanes (by omega)
    intro lead hle
    simp only [mainBudget]
    omega
  apply Prog.Yields.bind (hlanes.tryCatch yields_recreateGroup)
  intro r hr
  exact (yields_flatten r).mono fun tasks htasks => le_trans htasks hr

/-- `read_own_pending` returns at most its count. -/
theorem yields_readOwnPending (count : ℕ) :
    (readOwnPending count).Yields (WithinCount room) fun tasks => tasks.length ≤ count := by
  unfold readOwnPending
  apply Prog.Yields.bind (yields_xreadgroup _ _ _ _)
  intro lead hlead
  have hmain : (ownPendingMain count lead.total).Yields (WithinCount room) fun r =>
      lead.total + r.total ≤ count := by
    unfold ownPendingMain
    split
    · exact (yields_xreadgroup _ _ _ _).mono fun r hr => by omega
    · exact hlead
  apply Prog.Yields.bind hmain
  intro main hsum
  apply Prog.Yields.bind (yields_flatten (lead ++ main))
  intro tasks htasks
  rw [Response.total_append] at htasks
  have hlen : (tasks.map fun task => { task with recovered := true }).length ≤ count := by
    rw [List.length_map]
    omega
  exact hlen

end Room

end OcrOrchestrator
