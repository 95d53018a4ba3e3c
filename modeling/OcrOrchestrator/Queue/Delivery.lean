import OcrOrchestrator.Lib.System
import OcrOrchestrator.Queue.Read

/-!
# What becomes of the entries a read takes

An `XREADGROUP` that answers has moved its entries into the Pending Entries List of the
consumer, whatever the caller then does with the answer.  `PageQueue.read` makes up to three
such calls.  Here a read keeps a record of what its calls have handed out and of what it has
settled, other processes append entries between its commands, and any of its `XREADGROUP`
calls may raise `NOGROUP`.

What the read does with its answers does not depend on the streams, so the record is followed
through the program once (`follows_read`); what the record says about the Pending Entries
Lists is an invariant of the steps (`ReadRun.Tallies`).

## Main definitions

* `read` — `PageQueue.read`.
* `Haul`, `Haul.advance` — the record.
* `ReadRun`, `ReadRun.system` — a read with its surroundings.
* `ReadRun.KeepsAll` — nothing that was handed out is left behind.
-/

namespace OcrOrchestrator

open Lib

/-- `PageQueue.read`. -/
def read (blockMs : ℕ) (count : Option ℕ) (leadCount mainCount leadBlockMs : ℕ) :
    Reader (List PageTask) :=
  match count with
  | some n => readCount n blockMs leadBlockMs
  | none => readBudgets leadCount mainCount blockMs leadBlockMs

/-- Lane and id of the entries of a response. -/
def Response.ids (r : Response) : List (Lane × StreamId) :=
  r.flatMap fun s => s.2.map fun e => (s.1, e.id)

@[simp] theorem Response.ids_nil : Response.ids [] = [] := rfl

@[simp] theorem Response.ids_cons (lane : Lane) (es : List Entry) (r : Response) :
    Response.ids ((lane, es) :: r) = es.map (fun e => (lane, e.id)) ++ Response.ids r := by
  simp [Response.ids]

@[simp] theorem Response.ids_append (r r' : Response) :
    Response.ids (r ++ r' : Response) = Response.ids r ++ Response.ids r' := by
  simp [Response.ids]

/-! ## What a call adds to the pending lists -/

section Pending
variable {consumer : Consumer} {now : ℕ}

theorem TaskStream.pel_readNew (count : ℕ) (s : TaskStream) :
    (s.readNew consumer now count).2.pel =
      s.pel ++ (s.readNew consumer now count).1.map fun e => ⟨e.id, consumer, now⟩ := by
  induction count generalizing s with
  | zero => simp [readNew]
  | succ count ih =>
    cases hnext : s.deliverNext consumer now with
    | none => simp [readNew, hnext]
    | some out =>
      obtain ⟨e, s'⟩ := out
      have hpel := (deliverNext_spec hnext).2.2.2.2.2
      simp only [readNew, hnext, ih, hpel, List.map_cons, List.append_assoc,
        List.singleton_append]

/-- A call adds to each lane what it hands out from it, and nothing else. -/
theorem mem_pel_readEach {count : ℕ} {lanes : List Lane} {s : Lanes} {lane : Lane} {p : Pending} :
    p ∈ ((readEach consumer now .newMessages count lanes s).2 lane).pel ↔
      p ∈ (s lane).pel ∨ (lane, p.id) ∈ (readEach consumer now .newMessages count lanes s).1.ids ∧
        p.consumer = consumer ∧ p.deliveredAt = now := by
  induction lanes generalizing s with
  | nil => simp [readEach]
  | cons first rest ih =>
    have hids : (readEach consumer now .newMessages count (first :: rest) s).1.ids =
        ((s first).readNew consumer now count).1.map (fun e => (first, e.id)) ++
          (readEach consumer now .newMessages count rest
            (Function.update s first ((s first).readNew consumer now count).2)).1.ids := by
      simp only [readEach, readOne]
      split
      next hempty =>
        simp only [Bool.and_eq_true, List.isEmpty_iff] at hempty
        simp [hempty.1]
      next => simp
    have hlanes : (readEach consumer now .newMessages count (first :: rest) s).2 =
        (readEach consumer now .newMessages count rest
          (Function.update s first ((s first).readNew consumer now count).2)).2 := rfl
    rw [hids, hlanes, ih, List.mem_append]
    by_cases hlane : lane = first
    · subst hlane
      rw [Function.update_self, TaskStream.pel_readNew, List.mem_append]
      have hnew : p ∈ ((s lane).readNew consumer now count).1.map
            (fun e => (⟨e.id, consumer, now⟩ : Pending)) ↔
          (lane, p.id) ∈ ((s lane).readNew consumer now count).1.map (fun e => (lane, e.id)) ∧
            p.consumer = consumer ∧ p.deliveredAt = now := by
        obtain ⟨id, c, at'⟩ := p
        simp only [List.mem_map, Pending.mk.injEq, Prod.mk.injEq, true_and]
        constructor
        · rintro ⟨e, he, rfl, rfl, rfl⟩
          exact ⟨⟨e, he, rfl⟩, rfl, rfl⟩
        · rintro ⟨⟨e, he, rfl⟩, rfl, rfl⟩
          exact ⟨e, he, rfl, rfl, rfl⟩
      rw [hnew]
      tauto
    · have hother : (lane, p.id) ∉
          ((s first).readNew consumer now count).1.map (fun e => (first, e.id)) := by
        simp only [List.mem_map, Prod.mk.injEq, not_exists, not_and]
        exact fun e _ h => absurd h.symm hlane
      rw [Function.update_of_ne hlane]
      tauto

end Pending

/-! ## The record -/

/-- What the commands of a read have done: the entries handed out to it, those it has
acknowledged and those it has deleted; and whether a call has raised after an earlier one had
handed out something. -/
structure Haul where
  taken : List (Lane × StreamId)
  acked : List (Lane × StreamId)
  deleted : List (Lane × StreamId)
  lost : Bool

namespace Haul

/-- One command and its answer. -/
def advance (h : Haul) : (c : QueueCmd) → Except ReadExn (QueueRet c) → Haul
  | .xreadgroup _ _ _ _, .ok r => { h with taken := h.taken ++ Response.ids r }
  | .xreadgroup _ _ _ _, .error _ => { h with lost := h.lost || !h.taken.isEmpty }
  | .xack lane id, .ok _ => { h with acked := h.acked ++ [(lane, id)] }
  | .xdel lane id, .ok _ => { h with deleted := h.deleted ++ [(lane, id)] }
  | _, _ => h

/-- The record follows the commands.  A read takes new entries only, and only before it
settles any; nothing but an `XREADGROUP` raises, with `NOGROUP` or because its count is 0. -/
def protocol : Protocol QueueCmd QueueRet ReadExn Haul where
  may c r :=
    match c, r with
    | _, .ok _ => True
    | .xreadgroup _ _ count _, .error e => e = .noGroup ∨ (e = .dataError ∧ count = 0)
    | _, .error _ => False
  move h c r h' :=
    h' = h.advance c r ∧
      match c with
      | .xreadgroup _ source _ _ => source = .newMessages ∧ h.acked = []
      | _ => True

/-- An entry is among the tasks, or it has been acknowledged and deleted. -/
def Accounted (tasks : List PageTask) (h : Haul) (x : Lane × StreamId) : Prop :=
  (∃ task ∈ tasks, (task.stream, task.entryId) = x) ∨ (x ∈ h.acked ∧ x ∈ h.deleted)

/-- Settling entries, with nothing taken and nothing unsettled. -/
structure Settles (h h' : Haul) : Prop where
  taken : h'.taken = h.taken
  lost : h'.lost = h.lost
  acked : ∀ x ∈ h.acked, x ∈ h'.acked
  deleted : ∀ x ∈ h.deleted, x ∈ h'.deleted

theorem Settles.refl (h : Haul) : h.Settles h := ⟨rfl, rfl, fun _ => id, fun _ => id⟩

theorem Settles.trans {h h' h'' : Haul} (h₁ : h.Settles h') (h₂ : h'.Settles h'') :
    h.Settles h'' :=
  ⟨h₂.taken.trans h₁.taken, h₂.lost.trans h₁.lost, fun x hx => h₂.acked x (h₁.acked x hx),
    fun x hx => h₂.deleted x (h₁.deleted x hx)⟩

theorem Settles.accounted {h h' : Haul} (hs : h.Settles h') {tasks : List PageTask}
    {x : Lane × StreamId} (hx : Accounted tasks h x) : Accounted tasks h' x :=
  hx.imp_right fun ⟨ha, hd⟩ => ⟨hs.acked x ha, hs.deleted x hd⟩

theorem Accounted.mono {tasks tasks' : List PageTask} {h : Haul} {x : Lane × StreamId}
    (hx : Accounted tasks h x) (hsub : tasks ⊆ tasks') : Accounted tasks' h x :=
  hx.imp_left fun ⟨task, hmem, heq⟩ => ⟨task, hsub hmem, heq⟩

end Haul

/-! ## The programs follow the record -/

section Follows
variable {h : Haul}

theorem follows_quarantine (lane : Lane) (id : StreamId) (h : Haul) :
    (quarantine lane id).Follows Haul.protocol (fun r h' => r = .ok () ∧ h.Settles h' ∧
      (lane, id) ∈ h'.acked ∧ (lane, id) ∈ h'.deleted) h := by
  unfold quarantine
  apply Prog.Follows.bind (m := fun r h' => r = .ok () ∧ h' = h)
  · apply Prog.Follows.tryCatch (m := fun r h' => r = .ok () ∧ h' = h)
    · refine Prog.Follows.perform fun r hr => ⟨h, ⟨?_, trivial⟩, ?_⟩
      · cases r <;> rfl
      · cases r with
        | ok a => exact ⟨rfl, rfl⟩
        | error e => exact hr.elim
    · exact fun a h' hm => hm
    · intro e h' hm
      cases hm.1
  · intro _ h' hm
    rw [hm.2]
    apply Prog.Follows.bind (m := fun r h' => r = .ok () ∧
      h' = { h with acked := h.acked ++ [(lane, id)] })
    · refine Prog.Follows.perform fun r hr => ⟨_, ⟨rfl, trivial⟩, ?_⟩
      cases r with
      | ok a => exact ⟨rfl, rfl⟩
      | error e => exact hr.elim
    · rintro _ _ ⟨-, rfl⟩
      refine Prog.Follows.perform fun r hr => ⟨_, ⟨rfl, trivial⟩, ?_⟩
      cases r with
      | ok a =>
        refine ⟨rfl, ⟨rfl, rfl, fun x hx => ?_, fun x hx => ?_⟩, ?_, ?_⟩ <;>
          simp_all [Haul.advance]
      | error e => exact hr.elim
    · rintro e h' ⟨hm, -⟩
      cases hm
  · rintro e h' ⟨hm, -⟩
    cases hm

/-- Flattening accounts for every entry it is given. -/
theorem follows_flattenStream (lane : Lane) (es : List Entry) (h : Haul) :
    (flattenStream lane es).Follows Haul.protocol (fun r h' => ∃ tasks, r = .ok tasks ∧
      h.Settles h' ∧ ∀ e ∈ es, Haul.Accounted tasks h' (lane, e.id)) h := by
  induction es generalizing h with
  | nil => exact ⟨[], rfl, .refl h, by simp⟩
  | cons e es ih =>
    unfold flattenStream
    split
    next task htask =>
      apply Prog.Follows.bind (ih h)
      · rintro tasks h' ⟨tasks', hok, hsettles, hacc⟩
        obtain rfl := Except.ok.inj hok
        refine ⟨task :: tasks, rfl, hsettles, fun e' he' => ?_⟩
        rcases List.mem_cons.1 he' with rfl | he'
        · have hspec := parse_spec htask
          exact Or.inl ⟨task, by simp, by rw [hspec.1, hspec.2.1]⟩
        · exact (hacc e' he').mono (List.subset_cons_self _ _)
      · rintro err h' ⟨tasks, hok, -⟩
        cases hok
    next =>
      apply Prog.Follows.bind (follows_quarantine lane e.id h)
      · rintro _ h' ⟨-, hsettles, hacked, hdeleted⟩
        refine (ih h').mono ?_
        rintro r h'' ⟨tasks, hok, hsettles', hacc⟩
        refine ⟨tasks, hok, hsettles.trans hsettles', fun e' he' => ?_⟩
        rcases List.mem_cons.1 he' with rfl | he'
        · exact Or.inr ⟨hsettles'.acked _ hacked, hsettles'.deleted _ hdeleted⟩
        · exact hacc e' he'
      · rintro err h' ⟨hok, -⟩
        cases hok

theorem follows_flatten (resp : Response) (h : Haul) :
    (flatten resp).Follows Haul.protocol (fun r h' => ∃ tasks, r = .ok tasks ∧
      h.Settles h' ∧ ∀ x ∈ resp.ids, Haul.Accounted tasks h' x) h := by
  induction resp generalizing h with
  | nil => exact ⟨[], rfl, .refl h, by simp⟩
  | cons stream rest ih =>
    obtain ⟨lane, es⟩ := stream
    unfold flatten
    apply Prog.Follows.bind (follows_flattenStream lane es h)
    · rintro tasks h' ⟨tasks', hok, hsettles, hacc⟩
      obtain rfl := Except.ok.inj hok
      apply Prog.Follows.bind (ih h')
      · rintro more h'' ⟨more', hok', hsettles', hacc'⟩
        obtain rfl := Except.ok.inj hok'
        refine ⟨tasks ++ more, rfl, hsettles.trans hsettles', fun x hx => ?_⟩
        rw [Response.ids_cons, List.mem_append] at hx
        rcases hx with hx | hx
        · obtain ⟨e, he, rfl⟩ := List.mem_map.1 hx
          exact (hsettles'.accounted (hacc e he)).mono (List.subset_append_left _ _)
        · exact (hacc' x hx).mono (List.subset_append_right _ _)
      · rintro err h'' ⟨tasks, hok', -⟩
        cases hok'
    · rintro err h' ⟨tasks, hok, -⟩
      cases hok

/-- Nothing settled so far, and no call raised: just these entries were handed out. -/
def Haul.of (ids : List (Lane × StreamId)) : Haul := ⟨ids, [], [], false⟩

/-- How `_read_lanes` ends: it returns all that its calls handed out; or a call raised
`NOGROUP`, and what was handed out before is lost; or the client refused to make the first
call. -/
def LanesEnd (r : Except ReadExn Response) (h : Haul) : Prop :=
  match r with
  | .ok resp => h = Haul.of resp.ids
  | .error .noGroup => ∃ ids, h = { Haul.of ids with lost := !ids.isEmpty }
  | .error .dataError => h = Haul.of []
  | .error (.other _) => False

/-- How one call ends, after others that handed out `ids`. -/
def CallEnd (ids : List (Lane × StreamId)) (r : Except ReadExn Response) (h : Haul) : Prop :=
  match r with
  | .ok resp => h = Haul.of (ids ++ resp.ids)
  | .error .noGroup => h = { Haul.of ids with lost := !ids.isEmpty }
  | .error .dataError => h = Haul.of [] ∧ ids = []
  | .error (.other _) => False

theorem CallEnd.error {ids : List (Lane × StreamId)} {e : ReadExn}
    (hend : CallEnd ids (.error e) h) : LanesEnd (.error e) h := by
  cases e with
  | noGroup => exact ⟨ids, hend⟩
  | dataError => exact hend.1
  | other exn => exact hend

/-- A call with nothing handed out before it. -/
theorem CallEnd.first {r : Except ReadExn Response} (hend : CallEnd [] r h) : LanesEnd r h := by
  cases r with
  | ok resp => exact hend
  | error e => exact hend.error

theorem follows_xreadgroup (lanes : List Lane) (count : ℕ) (blockMs : Option ℕ)
    (ids : List (Lane × StreamId)) (hcount : count = 0 → ids = []) :
    (xreadgroup lanes .newMessages count blockMs).Follows Haul.protocol (CallEnd ids)
      (Haul.of ids) := by
  refine Prog.Follows.perform fun r hr => ⟨_, ⟨rfl, rfl, rfl⟩, ?_⟩
  cases r with
  | ok resp => rfl
  | error e =>
    rcases hr with rfl | ⟨rfl, hzero⟩
    · rfl
    · obtain rfl := hcount hzero
      exact ⟨rfl, rfl⟩

/-- The first call that is made, or none. -/
theorem follows_first (lanes : List Lane) (count : ℕ) (blockMs : Option ℕ) :
    (xreadgroup lanes .newMessages count blockMs).Follows Haul.protocol LanesEnd (Haul.of []) :=
  (follows_xreadgroup lanes count blockMs [] fun _ => rfl).mono fun _ _ => CallEnd.first

theorem follows_probeLead (leadCount : ℕ) :
    (probeLead leadCount).Follows Haul.protocol LanesEnd (Haul.of []) := by
  unfold probeLead
  split
  · exact follows_first _ _ _
  · exact rfl

theorem follows_readLanes (leadCount mainCount blockMs : ℕ) (totalCap : Option ℕ)
    (leadBlockMs : ℕ) :
    (readLanes leadCount mainCount blockMs totalCap leadBlockMs).Follows Haul.protocol LanesEnd
      (Haul.of []) := by
  unfold readLanes
  apply Prog.Follows.bind (follows_probeLead leadCount)
  · intro lead h' hlead
    obtain rfl : h' = Haul.of lead.ids := hlead
    split
    next =>
      split
      next => exact rfl
      next hempty =>
        -- the blocking read of the lead lane, after an empty probe
        obtain ⟨rfl, -⟩ : lead = [] ∧ leadBlockMs ≠ 0 := by simpa using hempty
        exact follows_first _ _ _
    next hbudget =>
      apply Prog.Follows.bind
        (follows_xreadgroup [.main] _ none lead.ids fun hzero => absurd hzero hbudget)
      · intro main h' hmain
        obtain rfl : h' = Haul.of (lead.ids ++ main.ids) := hmain
        split
        next => exact congrArg Haul.of (Response.ids_append lead main).symm
        next hempty =>
          -- the blocking read of both lanes, after two empty probes
          obtain ⟨⟨rfl, rfl⟩, -⟩ : (lead = [] ∧ main = []) ∧ blockMs ≠ 0 := by
            simpa using hempty
          exact follows_first _ _ _
      · exact fun e h' hend => hend.error
  · exact fun e h' hend => hend

/-- How `read` ends.  Unless something was lost it accounts for all that was handed out; if
something was lost it returns nothing and has settled nothing. -/
def ReadEnd (r : Except ReadExn (List PageTask)) (h : Haul) : Prop :=
  match r with
  | .ok tasks =>
    if h.lost then tasks = [] ∧ h.taken ≠ [] ∧ h.acked = []
    else ∀ x ∈ h.taken, Haul.Accounted tasks h x
  | .error _ => h.taken = [] ∧ h.lost = false

theorem follows_flatten_lanes (lanes : Reader Response)
    (h : lanes.Follows Haul.protocol LanesEnd (Haul.of [])) :
    (lanes.tryCatch recreateGroup >>= flatten).Follows Haul.protocol ReadEnd (Haul.of []) := by
  -- after the handler: a response, or nothing because of `NOGROUP`
  have hguard : (lanes.tryCatch recreateGroup).Follows Haul.protocol (fun r h' =>
      match r with
      | .ok resp => h' = Haul.of resp.ids ∨ (resp = [] ∧ ∃ ids, ids ≠ [] ∧
          h' = { Haul.of ids with lost := true })
      | .error _ => h' = Haul.of []) (Haul.of []) := by
    apply Prog.Follows.tryCatch h
    · exact fun resp h' hend => Or.inl hend
    · intro e h' hend
      cases e with
      | noGroup =>
        obtain ⟨ids, rfl⟩ := hend
        refine Prog.Follows.bind (m := fun r h' => r = .ok () ∧
          h' = { Haul.of ids with lost := !ids.isEmpty }) ?_ ?_ ?_
        · refine Prog.Follows.perform fun r hr => ⟨_, ⟨rfl, trivial⟩, ?_⟩
          cases r with
          | ok a => exact ⟨rfl, rfl⟩
          | error e => exact hr.elim
        · intro _ h' hm
          rw [hm.2]
          cases ids with
          | nil => exact Or.inl rfl
          | cons x ids => exact Or.inr ⟨rfl, x :: ids, by simp, rfl⟩
        · intro e h' hm
          cases hm.1
      | dataError => exact hend
      | other exn => exact hend.elim
  apply Prog.Follows.bind hguard
  · rintro resp h' (rfl | ⟨rfl, ids, hne, rfl⟩)
    · refine (follows_flatten resp (Haul.of resp.ids)).mono ?_
      rintro r h'' ⟨tasks, rfl, hsettles, hacc⟩
      have hlost : h''.lost = false := hsettles.lost
      have htaken : h''.taken = resp.ids := hsettles.taken
      simp only [ReadEnd, hlost, htaken]
      exact hacc
    · exact ⟨rfl, hne, rfl⟩
  · intro e h' hend
    rw [hend]
    exact ⟨rfl, rfl⟩

theorem follows_read (blockMs : ℕ) (count : Option ℕ) (leadCount mainCount leadBlockMs : ℕ) :
    (read blockMs count leadCount mainCount leadBlockMs).Follows Haul.protocol ReadEnd
      (Haul.of []) := by
  unfold read
  cases count with
  | some n => exact follows_flatten_lanes _ (follows_readLanes _ _ _ _ _)
  | none => exact follows_flatten_lanes _ (follows_readLanes _ _ _ _ _)

end Follows

/-! ## A read with its surroundings -/

/-- A read that is going on, the streams, and the record of what it has done. -/
structure ReadRun where
  lanes : Lanes
  prog : Reader (List PageTask)
  haul : Haul

inductive ReadLabel where
  /-- Another process appends an entry. -/
  | arrive (lane : Lane) (now : ℕ) (fields : RawTask)
  /-- The next command is executed. -/
  | answer (now : ℕ)
  /-- The next command is an `XREADGROUP`, and raises `NOGROUP`. -/
  | noGroup

namespace ReadRun

def step (consumer : Consumer) (r : ReadRun) : ReadLabel → Option ReadRun
  | .arrive lane now fields =>
    some { r with lanes := Function.update r.lanes lane ((r.lanes lane).xadd now fields).2 }
  | .answer now =>
    match r.prog with
    | .call c k =>
      let out := c.exec consumer now r.lanes
      some ⟨out.2, k out.1, r.haul.advance c out.1⟩
    | _ => none
  | .noGroup =>
    match r.prog with
    | .call (.xreadgroup lanes source count blockMs) k =>
      some ⟨r.lanes, k (.error .noGroup),
        r.haul.advance (.xreadgroup lanes source count blockMs) (.error .noGroup)⟩
    | _ => none

def system (consumer : Consumer) (lanes : Lanes) (blockMs : ℕ) (count : Option ℕ)
    (leadCount mainCount leadBlockMs : ℕ) : System ReadRun ReadLabel :=
  ⟨⟨lanes, read blockMs count leadCount mainCount leadBlockMs, Haul.of []⟩, step consumer⟩

/-- What the read has returned, if it has ended; nothing if it raised. -/
def ended (r : ReadRun) : Option (List PageTask) :=
  match r.prog with
  | .ret tasks => some tasks
  | .raise _ => some []
  | .call _ _ => none

/-- Nothing that was handed out is left behind: each entry is among the tasks, or has been
acknowledged and deleted and is no longer pending; and if there are no tasks, nothing is
pending under the consumer that was not before. -/
structure KeepsAll (consumer : Consumer) (lanes : Lanes) (r : ReadRun) (tasks : List PageTask) :
    Prop where
  accounted : ∀ x ∈ r.haul.taken, (∃ task ∈ tasks, (task.stream, task.entryId) = x) ∨
    (x ∈ r.haul.acked ∧ x ∈ r.haul.deleted ∧ ∀ p ∈ (r.lanes x.1).pel, p.id ≠ x.2)
  nothing_new : tasks = [] → ∀ lane, ∀ p ∈ (r.lanes lane).pel, p.consumer = consumer →
    p ∈ (lanes lane).pel

/-- The record and the Pending Entries Lists agree. -/
structure Tallies (consumer : Consumer) (lanes : Lanes) (r : ReadRun) : Prop where
  follows : r.prog.Follows Haul.protocol ReadEnd r.haul
  added : ∀ lane, ∀ p ∈ (r.lanes lane).pel, p ∈ (lanes lane).pel ∨ (lane, p.id) ∈ r.haul.taken
  held : ∀ x ∈ r.haul.taken, x ∉ r.haul.acked →
    ∃ p ∈ (r.lanes x.1).pel, p.id = x.2 ∧ p.consumer = consumer
  released : ∀ x ∈ r.haul.acked, ∀ p ∈ (r.lanes x.1).pel, p.id ≠ x.2

section Tallies
variable {consumer : Consumer} {lanes : Lanes} {r : ReadRun}

/-- Commands that change neither the pending lists nor the entries taken or acknowledged. -/
theorem Tallies.congr {r' : ReadRun} (h : r.Tallies consumer lanes)
    (hfollows : r'.prog.Follows Haul.protocol ReadEnd r'.haul)
    (hpel : ∀ lane, (r'.lanes lane).pel = (r.lanes lane).pel)
    (htaken : r'.haul.taken = r.haul.taken) (hacked : r'.haul.acked = r.haul.acked) :
    r'.Tallies consumer lanes := by
  refine ⟨hfollows, ?_, ?_, ?_⟩
  · intro lane p hp
    rw [hpel] at hp
    rw [htaken]
    exact h.added lane p hp
  · intro x hx hna
    rw [htaken] at hx
    rw [hacked] at hna
    rw [hpel]
    exact h.held x hx hna
  · intro x hx p hp
    rw [hacked] at hx
    rw [hpel] at hp
    exact h.released x hx p hp

/-- A call that hands out entries. -/
theorem Tallies.readgroup {lanes' : List Lane} {count now : ℕ}
    {k : Except ReadExn Response → Reader (List PageTask)} (h : r.Tallies consumer lanes)
    (hacked : r.haul.acked = [])
    (hfollows : ∀ resp, (k (.ok resp)).Follows Haul.protocol ReadEnd
      { r.haul with taken := r.haul.taken ++ Response.ids resp }) :
    Tallies consumer lanes
      ⟨(readEach consumer now .newMessages count lanes' r.lanes).2,
        k (.ok (readEach consumer now .newMessages count lanes' r.lanes).1),
        { r.haul with taken := r.haul.taken ++
            (readEach consumer now .newMessages count lanes' r.lanes).1.ids }⟩ := by
  refine ⟨hfollows _, ?_, ?_, ?_⟩
  · intro lane p hp
    simp only [mem_pel_readEach] at hp
    simp only [List.mem_append]
    rcases hp with hp | hp
    · exact (h.added lane p hp).imp_right Or.inl
    · exact Or.inr (Or.inr hp.1)
  · intro x hx hna
    rcases List.mem_append.1 hx with hx | hx
    · obtain ⟨p, hp, hid⟩ := h.held x hx hna
      exact ⟨p, mem_pel_readEach.2 (Or.inl hp), hid⟩
    · exact ⟨⟨x.2, consumer, now⟩, mem_pel_readEach.2 (Or.inr ⟨hx, rfl, rfl⟩), rfl, rfl⟩
  · intro x hx
    simp [hacked] at hx

/-- `XACK`. -/
theorem Tallies.ack {lane : Lane} {id : StreamId}
    {k : Except ReadExn Unit → Reader (List PageTask)} (h : r.Tallies consumer lanes)
    (hfollows : (k (.ok ())).Follows Haul.protocol ReadEnd
      { r.haul with acked := r.haul.acked ++ [(lane, id)] }) :
    Tallies consumer lanes
      ⟨Function.update r.lanes lane ((r.lanes lane).xack id), k (.ok ()),
        { r.haul with acked := r.haul.acked ++ [(lane, id)] }⟩ := by
  have hpel : ∀ lane' p, p ∈ ((Function.update r.lanes lane ((r.lanes lane).xack id)) lane').pel ↔
      p ∈ (r.lanes lane').pel ∧ ¬ (lane' = lane ∧ p.id = id) := by
    intro lane' p
    by_cases hlane : lane' = lane
    · subst hlane
      simp [TaskStream.xack]
    · simp [hlane]
  refine ⟨hfollows, ?_, ?_, ?_⟩
  · intro lane' p hp
    exact h.added lane' p ((hpel lane' p).1 hp).1
  · intro x hx hna
    simp only [List.mem_append, List.mem_singleton, not_or] at hna
    obtain ⟨p, hp, hid⟩ := h.held x hx hna.1
    refine ⟨p, (hpel _ p).2 ⟨hp, fun hsame => hna.2 ?_⟩, hid⟩
    exact Prod.ext hsame.1 (hid.1.symm.trans hsame.2)
  · intro x hx p hp hid
    obtain ⟨hp, hnot⟩ := (hpel _ p).1 hp
    rcases List.mem_append.1 hx with hx | hx
    · exact h.released x hx p hp hid
    · obtain rfl := List.mem_singleton.1 hx
      exact hnot ⟨rfl, hid⟩

theorem Tallies.step {r' : ReadRun} {l : ReadLabel} (h : r.Tallies consumer lanes)
    (hstep : r.step consumer l = some r') : r'.Tallies consumer lanes := by
  cases l with
  | arrive lane now fields =>
    obtain rfl := Option.some.inj hstep
    refine h.congr h.follows (fun lane' => ?_) rfl rfl
    by_cases hlane : lane' = lane
    · subst hlane
      simp [TaskStream.xadd]
    · simp [hlane]
  | answer now =>
    simp only [ReadRun.step] at hstep
    split at hstep
    next c k hprog =>
      obtain rfl := Option.some.inj hstep
      have hfollows := h.follows
      rw [hprog] at hfollows
      cases c with
      | xreadgroup lanes' source count blockMs =>
        by_cases hcount : count = 0
        · obtain ⟨h', ⟨rfl, -⟩, hk⟩ := hfollows (.error .dataError) (Or.inr ⟨rfl, hcount⟩)
          simp only [QueueCmd.exec, hcount, if_true] at hk ⊢
          exact h.congr hk (fun _ => rfl) rfl rfl
        · obtain ⟨-, ⟨-, rfl, hacked⟩, -⟩ := hfollows (.ok []) trivial
          simp only [QueueCmd.exec, hcount, if_false]
          refine h.readgroup hacked fun resp => ?_
          obtain ⟨h', ⟨rfl, -⟩, hk⟩ := hfollows (.ok resp) trivial
          exact hk
      | xack lane id =>
        obtain ⟨h', ⟨rfl, -⟩, hk⟩ := hfollows (.ok ()) trivial
        exact h.ack hk
      | xdel lane id =>
        obtain ⟨h', ⟨rfl, -⟩, hk⟩ := hfollows (.ok ()) trivial
        refine h.congr hk (fun lane' => ?_) rfl rfl
        by_cases hlane : lane' = lane
        · subst hlane
          simp [QueueCmd.exec, TaskStream.xdel]
        · simp [QueueCmd.exec, hlane]
      | quarantineCopy lane id =>
        obtain ⟨h', ⟨rfl, -⟩, hk⟩ := hfollows (.ok ()) trivial
        exact h.congr hk (fun _ => rfl) rfl rfl
      | ensureGroup =>
        obtain ⟨h', ⟨rfl, -⟩, hk⟩ := hfollows (.ok ()) trivial
        exact h.congr hk (fun _ => rfl) rfl rfl
    next => cases hstep
  | noGroup =>
    simp only [ReadRun.step] at hstep
    split at hstep
    next lanes' source count blockMs k hprog =>
      obtain rfl := Option.some.inj hstep
      have hfollows := h.follows
      rw [hprog] at hfollows
      obtain ⟨h', ⟨rfl, -⟩, hk⟩ := hfollows (.error .noGroup) (Or.inl rfl)
      exact h.congr hk (fun _ => rfl) rfl rfl
    next => cases hstep

theorem Tallies.of_reach {blockMs : ℕ} {count : Option ℕ} {leadCount mainCount leadBlockMs : ℕ}
    {allow : ReadRun → ReadLabel → Bool}
    (hr : (system consumer lanes blockMs count leadCount mainCount leadBlockMs).Reach allow r) :
    r.Tallies consumer lanes := by
  apply System.Reach.invariant _ _ hr
  · exact ⟨follows_read _ _ _ _ _, fun _ _ hp => Or.inl hp, by simp [system, Haul.of],
      by simp [system, Haul.of]⟩
  · exact fun r l r' h _ hstep => h.step hstep

/-- Where the record accounts for everything, so do the lists. -/
theorem Tallies.keepsAll {tasks : List PageTask} (h : r.Tallies consumer lanes)
    (hacc : ∀ x ∈ r.haul.taken, Haul.Accounted tasks r.haul x) :
    r.KeepsAll consumer lanes tasks := by
  refine ⟨fun x hx => ?_, fun htasks lane p hp _ => ?_⟩
  · exact (hacc x hx).imp_right fun ⟨ha, hd⟩ => ⟨ha, hd, h.released x ha⟩
  · refine (h.added lane p hp).resolve_right fun hx => ?_
    rcases hacc _ hx with ⟨task, hmem, -⟩ | ⟨ha, -⟩
    · rw [htasks] at hmem
      cases hmem
    · exact h.released _ ha p hp rfl

end Tallies

/-- **When a read keeps all it took.**  For every content of the lanes, whatever arrives
between the commands of the read, every budget, and whichever `XREADGROUP` call raises
`NOGROUP`: a read that has ended has returned or settled every entry its calls moved into the
pending list of the consumer, and left nothing new pending if it returned nothing, exactly if
no call raised after an earlier call of the same read had handed out entries. -/
theorem keepsAll_iff (consumer : Consumer) (lanes : Lanes) (blockMs : ℕ) (count : Option ℕ)
    (leadCount mainCount leadBlockMs : ℕ) (r : ReadRun) (tasks : List PageTask)
    (hr : (system consumer lanes blockMs count leadCount mainCount leadBlockMs).Reach
      System.anyStep r)
    (hend : r.ended = some tasks) :
    r.KeepsAll consumer lanes tasks ↔ r.haul.lost = false := by
  have h := Tallies.of_reach hr
  have hfollows := h.follows
  unfold ended at hend
  split at hend
  next result hprog =>
    have heq : result = tasks := Option.some.inj hend
    rw [hprog, heq] at hfollows
    have hread : ReadEnd (.ok tasks) r.haul := hfollows
    simp only [ReadEnd] at hread
    split at hread
    next hlost =>
      refine iff_of_false (fun hkeeps => ?_) (by simp [hlost])
      obtain ⟨rfl, htaken, hacked⟩ := hread
      obtain ⟨x, hx⟩ := List.exists_mem_of_ne_nil _ htaken
      rcases hkeeps.accounted x hx with ⟨task, hmem, -⟩ | ⟨ha, -⟩
      · cases hmem
      · rw [hacked] at ha
        cases ha
    next hlost => exact iff_of_true (h.keepsAll hread) (by simpa using hlost)
  next e hprog =>
    obtain rfl := Option.some.inj hend
    rw [hprog] at hfollows
    have hread : ReadEnd (.error e) r.haul := hfollows
    refine iff_of_true (h.keepsAll fun x hx => ?_) hread.2
    rw [hread.1] at hx
    cases hx
  next => cases hend

/-- Both lanes hold one page; the main one a second entry, without its fields. -/
def stocked : Lanes
  | .lead => (TaskStream.empty.xadd 1 (enqueueFields ⟨0, 0⟩ 1 "t")).2
  | .main => ((TaskStream.empty.xadd 1 (enqueueFields ⟨0, 1⟩ 1 "t")).2.xadd 1 TaskStream.noFields).2

/-- Two pages and a malformed entry are read; the entry is quarantined. -/
theorem keepsAll_iff_stocked :
    ∃ (r : ReadRun) (tasks : List PageTask),
      (system 1 stocked 2000 (some 5) 0 0 0).Reach System.anyStep r ∧ r.ended = some tasks ∧
        tasks.length = 2 ∧ r.haul.acked.length = 1 ∧
        (r.KeepsAll 1 stocked tasks ↔ r.haul.lost = false) := by
  obtain ⟨r, hr, hq⟩ := System.exists_of_runAll (system 1 stocked 2000 (some 5) 0 0 0)
    System.anyStep (fun r => r.ended.any (fun tasks => tasks.length = 2) &&
      decide (r.haul.acked.length = 1))
    [.answer 5, .answer 5, .answer 5, .answer 5, .answer 5] (by decide +kernel)
  rw [Bool.and_eq_true, Option.any_eq_true] at hq
  obtain ⟨⟨tasks, hend, hlength⟩, hacked⟩ := hq
  exact ⟨r, tasks, hr, hend, by simpa using hlength, by simpa using hacked,
    keepsAll_iff _ _ _ _ _ _ _ r tasks hr hend⟩

/-- The lead page is handed out, the probe of the main lane raises `NOGROUP`: the read returns
nothing, and the page stays pending. -/
theorem not_keepsAll_noGroup :
    ¬ ∀ (consumer : Consumer) (lanes : Lanes) (blockMs : ℕ) (count : Option ℕ)
      (leadCount mainCount leadBlockMs : ℕ) (r : ReadRun) (tasks : List PageTask),
      (system consumer lanes blockMs count leadCount mainCount leadBlockMs).Reach
        System.anyStep r → r.ended = some tasks → r.KeepsAll consumer lanes tasks := by
  intro hall
  obtain ⟨r, hr, hq⟩ := System.exists_of_runAll (system 1 stocked 2000 (some 5) 0 0 0)
    System.anyStep (fun r => r.ended.any List.isEmpty && r.haul.acked.isEmpty &&
      !r.haul.taken.isEmpty)
    [.answer 5, .noGroup, .answer 5] (by decide +kernel)
  simp only [Bool.and_eq_true, Option.any_eq_true, List.isEmpty_iff, Bool.not_eq_true'] at hq
  obtain ⟨⟨⟨tasks, hend, rfl⟩, hacked⟩, htaken⟩ := hq
  obtain ⟨x, hx⟩ := List.exists_mem_of_ne_nil r.haul.taken (by simpa using htaken)
  rcases (hall _ _ _ _ _ _ _ r [] hr hend).accounted x hx with ⟨task, hmem, -⟩ | ⟨ha, -⟩
  · cases hmem
  · rw [hacked] at ha
    cases ha

end ReadRun

end OcrOrchestrator
