import OcrOrchestrator.Queue.Expiry
import Mathlib.Data.Finset.Card

/-!
# The document of a job

An upload is written to disk while it arrives, before the job exists.  The open file has a buffer:
what has been written to it reaches the disk when the buffer is flushed, a part at any time and the
rest when the file is closed, and only then does the file's time change.  Three parties remove the
file again: the request, when it is refused; a worker that finds all pages of the job terminal;
and a sweep, which looks for files that have not been written to for `orphan_sweep_age_s` and
whose job hash is gone.  None of them holds a lock, and each of them decides first and removes
later.

The documents of two jobs have different names and the keys of two jobs are disjoint, so the
steps are those of one job, with its keys over time.  A worker may look at the progress of the
job at any time, and a sweep may run at any time; both only allow more than the code does.

What `pypdf` says about a file and what the admission controller says about a job is part of the
label.  A file that is gone cannot be counted.

## Main definitions

* `Upload`, `Custody`, `Custody.system` — a request, its document, and who may remove it.
* `Counted` — the progress of a job that expires.
* `Custody.attended` — no request stalls.
* `Custody.document_kept` — a document is there for as long as somebody may need it.
* `Custody.leftovers` — whose documents can be on disk.
-/

namespace OcrOrchestrator

open Lib

/-- The settings that bound an upload. -/
structure DocumentSettings where
  maxUploadMb : ℕ := 120
  maxPages : ℕ := 100
  orphanSweepAgeS : ℕ := 900

namespace DocumentSettings

def maxBytes (doc : DocumentSettings) : ℕ := doc.maxUploadMb * 1024 * 1024

def sweepAgeMs (doc : DocumentSettings) : ℕ := doc.orphanSweepAgeS * 1000

end DocumentSettings

/-- How far a request has come. -/
inductive Upload where
  | absent
  | receiving
  | landed
  | admitting (pages : ℕ)
  | initialising (pages : ℕ)
  | enqueuing
  | accepted
  /-- It was answered with an error and has taken its document back. -/
  | refused
  /-- Its process died, or an exception passed through that takes nothing back. -/
  | lost
  deriving DecidableEq

/-- The request is under way and its job does not exist yet. -/
def Upload.pending : Upload → Bool
  | receiving => true
  | landed => true
  | admitting _ => true
  | initialising _ => true
  | _ => false

/-- Its file is closed, with all that has arrived. -/
def Upload.stored : Upload → Bool
  | landed => true
  | admitting _ => true
  | initialising _ => true
  | enqueuing => true
  | accepted => true
  | _ => false

theorem Upload.stored_of_pending {u : Upload} (hpending : u.pending = true)
    (hclosed : u ≠ .receiving) : u.stored = true := by
  cases u with
  | receiving => exact absurd rfl hclosed
  | landed | admitting | initialising => rfl
  | absent | enqueuing | accepted | refused | lost => cases hpending

/-- A file, with `st_mtime`. -/
structure Document where
  content : List UInt8
  mtime : ℕ

structure Custody where
  keys : Timeline
  upload : Upload
  file : Option Document
  /-- The bytes that have arrived. -/
  received : List UInt8
  /-- Those that are not on disk: in the buffer of the open file, or lost with it. -/
  buffered : List UInt8
  /-- When the request opened the file or last flushed it. -/
  touched : ℕ
  /-- Sweeps that have listed the document and not asked for its job yet. -/
  listed : ℕ
  /-- Sweeps that were told that there is no job. -/
  orphaned : ℕ
  /-- Workers that were told that the job is done. -/
  settled : ℕ

namespace Custody

inductive Label where
  | open
  | chunk (bytes : List UInt8)
  | flush (n : ℕ)
  | close
  | abort
  | count (parsed : Option ℕ)
  | evaluate (admitted : Bool)
  | init
  | enqueued
  | die
  | settle
  | delete
  | list
  | check
  | sweep
  | keys (l : Timeline.Label)

def empty : Custody := ⟨.empty, .absent, none, [], [], 0, 0, 0, 0⟩

/-- The request is answered with an error, after `delete_document` or `unlink`. -/
def refuse (s : Custody) : Custody := { s with upload := .refused, file := none }

/-- The first bytes of the buffer reach the disk, if the file is still there. -/
def flush (s : Custody) (n : ℕ) : Custody :=
  { s with
    file := s.file.map fun f => ⟨f.content ++ s.buffered.take n, s.keys.clock⟩
    buffered := s.buffered.drop n
    touched := s.keys.clock }

/-- One step, `none` if the label is not enabled. -/
def step (cfg : Settings) (doc : DocumentSettings) (job : JobId) (s : Custody) :
    Label → Option Custody
  | .open =>
    match s.upload with
    | .absent => some { s with
        upload := .receiving, file := some ⟨[], s.keys.clock⟩, touched := s.keys.clock }
    | _ => none
  | .chunk bytes =>
    match s.upload with
    | .receiving =>
      if bytes = [] then some s
      -- Refused before the bytes reach the disk.
      else if doc.maxBytes < s.received.length + bytes.length then some s.refuse
      else some { s with received := s.received ++ bytes, buffered := s.buffered ++ bytes }
    | _ => none
  | .flush n =>
    match s.upload with
    | .receiving => if s.buffered.take n = [] then some s else some (s.flush n)
    | _ => none
  | .close =>
    match s.upload with
    | .receiving =>
      if s.buffered = [] then some { s with upload := .landed }
      else some { s.flush s.buffered.length with upload := .landed }
    | _ => none
  | .abort =>
    match s.upload with
    | .receiving => some s.refuse
    | _ => none
  | .count parsed =>
    match s.upload with
    | .landed =>
      match if s.file.isSome then parsed else none with
      | none => some s.refuse
      | some pages =>
        if pages < 1 ∨ doc.maxPages < pages then some s.refuse
        else some { s with upload := .admitting pages }
    | _ => none
  | .evaluate admitted =>
    match s.upload with
    | .admitting pages =>
      if admitted then some { s with upload := .initialising pages } else some s.refuse
    | _ => none
  | .init =>
    match s.upload with
    | .initialising pages =>
      (s.keys.step cfg job (.init pages)).map fun keys => { s with keys, upload := .enqueuing }
    | _ => none
  | .enqueued =>
    match s.upload with
    | .enqueuing => some { s with upload := .accepted }
    | _ => none
  | .die =>
    if s.upload.pending || s.upload = .enqueuing then some { s with upload := .lost } else none
  | .settle =>
    let progress := ((Cmd.hmgetProgress job).apply cfg (Timeline.oracle s.keys.clock) s.keys.redis).1
    if progress.2 ≠ 0 ∧ progress.2 ≤ progress.1 then some { s with settled := s.settled + 1 }
    else some s
  | .delete =>
    if s.settled = 0 then none else some { s with file := none, settled := s.settled - 1 }
  | .list =>
    if s.file.any fun f => f.mtime + doc.sweepAgeMs ≤ s.keys.clock then
      some { s with listed := s.listed + 1 }
    else some s
  | .check =>
    if s.listed = 0 then none
    else if (s.keys.redis.jobs job).isSome then some { s with listed := s.listed - 1 }
    else some { s with listed := s.listed - 1, orphaned := s.orphaned + 1 }
  | .sweep =>
    if s.orphaned = 0 then none else some { s with file := none, orphaned := s.orphaned - 1 }
  | .keys l =>
    match l with
    | .init _ => none
    | _ => (s.keys.step cfg job l).map fun keys => { s with keys }

def system (cfg : Settings) (doc : DocumentSettings) (job : JobId) : System Custody Label :=
  ⟨empty, step cfg doc job⟩

/-- **No request stalls**: less than `orphan_sweep_age_s` passes from one flush to the next, and
from the last one until the job exists. -/
def attended (doc : DocumentSettings) (s : Custody) : Label → Bool
  | .keys (.tick now) => !s.upload.pending || decide (now < s.touched + doc.sweepAgeMs)
  | _ => true

end Custody

/-! ## What a step does -/

namespace Custody
variable {cfg : Settings} {doc : DocumentSettings} {job : JobId} {s s' : Custody}

/-- What one step can do. -/
inductive Move (cfg : Settings) (doc : DocumentSettings) (job : JobId) (s : Custody) :
    Label → Custody → Prop where
  | stay {l : Label} : Move cfg doc job s l s
  | opened (hupload : s.upload = .absent) : Move cfg doc job s .open { s with
      upload := .receiving, file := some ⟨[], s.keys.clock⟩, touched := s.keys.clock }
  | chunk {bytes : List UInt8} (hupload : s.upload = .receiving)
      (hfits : s.received.length + bytes.length ≤ doc.maxBytes) :
      Move cfg doc job s (.chunk bytes)
        { s with received := s.received ++ bytes, buffered := s.buffered ++ bytes }
  | flush {n : ℕ} (hupload : s.upload = .receiving) : Move cfg doc job s (.flush n) (s.flush n)
  | closeEmpty (hupload : s.upload = .receiving) (hnil : s.buffered = []) :
      Move cfg doc job s .close { s with upload := .landed }
  | close (hupload : s.upload = .receiving) :
      Move cfg doc job s .close { s.flush s.buffered.length with upload := .landed }
  | refuse {l : Label} (hpending : s.upload.pending = true) : Move cfg doc job s l s.refuse
  | proceed {l : Label} {u : Upload} (hpending : s.upload.pending = true)
      (hstored : s.upload.stored = true) (hu : u.pending = true) :
      Move cfg doc job s l { s with upload := u }
  | finish {l : Label} {u : Upload} (hu : u ≠ .absent ∧ u ≠ .refused ∧ u.pending = false)
      (hstored : u.stored = true → s.upload.stored = true) :
      Move cfg doc job s l { s with upload := u }
  | init {pages : ℕ} {keys : Timeline} (hupload : s.upload = .initialising pages)
      (hkeys : s.keys.step cfg job (.init pages) = some keys) :
      Move cfg doc job s .init { s with keys, upload := .enqueuing }
  | settle {o : Oracle} (htotal : ((Cmd.hmgetProgress job).apply cfg o s.keys.redis).1.2 ≠ 0)
      (hdone : ((Cmd.hmgetProgress job).apply cfg o s.keys.redis).1.2 ≤
        ((Cmd.hmgetProgress job).apply cfg o s.keys.redis).1.1) :
      Move cfg doc job s .settle { s with settled := s.settled + 1 }
  | delete (hpos : 0 < s.settled) :
      Move cfg doc job s .delete { s with file := none, settled := s.settled - 1 }
  | list {f : Document} (hf : s.file = some f) (hold : f.mtime + doc.sweepAgeMs ≤ s.keys.clock) :
      Move cfg doc job s .list { s with listed := s.listed + 1 }
  | alive (hpos : 0 < s.listed) : Move cfg doc job s .check { s with listed := s.listed - 1 }
  | orphan (hpos : 0 < s.listed) (hgone : s.keys.redis.jobs job = none) :
      Move cfg doc job s .check { s with listed := s.listed - 1, orphaned := s.orphaned + 1 }
  | sweep (hpos : 0 < s.orphaned) :
      Move cfg doc job s .sweep { s with file := none, orphaned := s.orphaned - 1 }
  | keys {l : Timeline.Label} {keys : Timeline} (hl : ∀ n, l ≠ .init n)
      (hkeys : s.keys.step cfg job l = some keys) :
      Move cfg doc job s (.keys l) { s with keys }

theorem move_of_chunk {bytes : List UInt8} (hstep : s.step cfg doc job (.chunk bytes) = some s') :
    Move cfg doc job s (.chunk bytes) s' := by
  simp only [step] at hstep
  split at hstep
  next hupload =>
    split at hstep
    next =>
      obtain rfl := Option.some.inj hstep
      exact .stay
    next =>
      split at hstep
      next =>
        obtain rfl := Option.some.inj hstep
        exact .refuse (by rw [hupload]; rfl)
      next hfits =>
        obtain rfl := Option.some.inj hstep
        exact .chunk hupload (not_lt.mp hfits)
  next => cases hstep

theorem move_of_flush {n : ℕ} (hstep : s.step cfg doc job (.flush n) = some s') :
    Move cfg doc job s (.flush n) s' := by
  simp only [step] at hstep
  split at hstep
  next hupload =>
    split at hstep
    next =>
      obtain rfl := Option.some.inj hstep
      exact .stay
    next =>
      obtain rfl := Option.some.inj hstep
      exact .flush hupload
  next => cases hstep

theorem move_of_close (hstep : s.step cfg doc job .close = some s') :
    Move cfg doc job s .close s' := by
  simp only [step] at hstep
  split at hstep
  next hupload =>
    split at hstep
    next hnil =>
      obtain rfl := Option.some.inj hstep
      exact .closeEmpty hupload hnil
    next =>
      obtain rfl := Option.some.inj hstep
      exact .close hupload
  next => cases hstep

theorem move_of_count {parsed : Option ℕ}
    (hstep : s.step cfg doc job (.count parsed) = some s') :
    Move cfg doc job s (.count parsed) s' := by
  simp only [step] at hstep
  split at hstep
  next hupload =>
    have hpending : s.upload.pending = true := by
      rw [hupload]
      rfl
    split at hstep
    next =>
      obtain rfl := Option.some.inj hstep
      exact .refuse hpending
    next =>
      split at hstep
      next =>
        obtain rfl := Option.some.inj hstep
        exact .refuse hpending
      next =>
        obtain rfl := Option.some.inj hstep
        exact .proceed hpending (by rw [hupload]; rfl) rfl
  next => cases hstep

theorem move_of_evaluate {admitted : Bool}
    (hstep : s.step cfg doc job (.evaluate admitted) = some s') :
    Move cfg doc job s (.evaluate admitted) s' := by
  simp only [step] at hstep
  split at hstep
  next pages hupload =>
    have hpending : s.upload.pending = true := by
      rw [hupload]
      rfl
    split at hstep
    next =>
      obtain rfl := Option.some.inj hstep
      exact .proceed hpending (by rw [hupload]; rfl) rfl
    next =>
      obtain rfl := Option.some.inj hstep
      exact .refuse hpending
  next => cases hstep

theorem move_of_list (hstep : s.step cfg doc job .list = some s') :
    Move cfg doc job s .list s' := by
  simp only [step] at hstep
  split at hstep
  next hold =>
    obtain rfl := Option.some.inj hstep
    obtain ⟨f, hf, hage⟩ := (Option.any_eq_true _ _).mp hold
    exact .list hf (of_decide_eq_true hage)
  next =>
    obtain rfl := Option.some.inj hstep
    exact .stay

theorem move_of_check (hstep : s.step cfg doc job .check = some s') :
    Move cfg doc job s .check s' := by
  simp only [step] at hstep
  split at hstep
  next => cases hstep
  next hpos =>
    split at hstep
    next =>
      obtain rfl := Option.some.inj hstep
      exact .alive (Nat.pos_of_ne_zero hpos)
    next hgone =>
      obtain rfl := Option.some.inj hstep
      exact .orphan (Nat.pos_of_ne_zero hpos) (by simpa using hgone)

theorem move_of_keys {l : Timeline.Label} (hstep : s.step cfg doc job (.keys l) = some s') :
    Move cfg doc job s (.keys l) s' := by
  simp only [step] at hstep
  split at hstep
  next => cases hstep
  next hl =>
    obtain ⟨k, hkeys, rfl⟩ := Option.map_eq_some_iff.mp hstep
    exact .keys (fun n hn => hl n hn) hkeys

/-- **Every step** is one of the cases. -/
theorem move_of_step {l : Label} (hstep : s.step cfg doc job l = some s') :
    Move cfg doc job s l s' := by
  cases l with
  | chunk bytes => exact move_of_chunk hstep
  | flush n => exact move_of_flush hstep
  | close => exact move_of_close hstep
  | count parsed => exact move_of_count hstep
  | evaluate admitted => exact move_of_evaluate hstep
  | list => exact move_of_list hstep
  | check => exact move_of_check hstep
  | keys l => exact move_of_keys hstep
  | «open» =>
    simp only [step] at hstep
    split at hstep
    next hupload =>
      obtain rfl := Option.some.inj hstep
      exact .opened hupload
    next => cases hstep
  | abort =>
    simp only [step] at hstep
    split at hstep
    next hupload =>
      obtain rfl := Option.some.inj hstep
      exact .refuse (by rw [hupload]; rfl)
    next => cases hstep
  | init =>
    simp only [step] at hstep
    split at hstep
    next pages hupload =>
      obtain ⟨keys, hkeys, rfl⟩ := Option.map_eq_some_iff.mp hstep
      exact .init hupload hkeys
    next => cases hstep
  | enqueued =>
    simp only [step] at hstep
    split at hstep
    next hupload =>
      obtain rfl := Option.some.inj hstep
      exact .finish ⟨by simp, by simp, rfl⟩ fun _ => by rw [hupload]; rfl
    next => cases hstep
  | die =>
    simp only [step] at hstep
    split at hstep
    next =>
      obtain rfl := Option.some.inj hstep
      exact .finish ⟨by simp, by simp, rfl⟩ fun hstored => by cases hstored
    next => cases hstep
  | settle =>
    simp only [step] at hstep
    split at hstep
    next hdone =>
      obtain rfl := Option.some.inj hstep
      exact .settle hdone.1 hdone.2
    next =>
      obtain rfl := Option.some.inj hstep
      exact .stay
  | delete =>
    simp only [step] at hstep
    split at hstep
    next => cases hstep
    next hpos =>
      obtain rfl := Option.some.inj hstep
      exact .delete (Nat.pos_of_ne_zero hpos)
  | sweep =>
    simp only [step] at hstep
    split at hstep
    next => cases hstep
    next hpos =>
      obtain rfl := Option.some.inj hstep
      exact .sweep (Nat.pos_of_ne_zero hpos)

end Custody

/-! ## The progress of a job that expires -/

/-- How many of the first `n` pages have been terminal. -/
def Timeline.finishedCount (s : Timeline) (n : ℕ) : ℕ :=
  ((Finset.range n).filter fun i : ℕ => s.finished i = true).card

/-- A job hash with a total is the one `init_job` wrote, and its counter is the number of pages
that have been terminal; a page that is there is terminal if it has been. -/
structure Counted (job : JobId) (s : Timeline) : Prop where
  fresh : s.active = none → s.redis.jobs job = none ∧
    (∀ i, s.redis.pages ⟨job, i⟩ = none) ∧ ∀ i, s.finished i = false
  page : ∀ i p, s.redis.pages ⟨job, i⟩ = some p →
    Timeline.InRange s.total i ∧ s.finished i = p.state.terminal
  hash : ∀ h n, s.redis.jobs job = some h → h.totalPages = some n →
    n = s.total ∧ h.doneCount = some (s.finishedCount n)

namespace Counted
variable {cfg : Settings} {job : JobId} {s s' : Timeline}

theorem empty : Counted job Timeline.empty where
  fresh _ := ⟨rfl, fun _ => rfl, fun _ => rfl⟩
  page _ _ h := by cases h
  hash _ _ h := by cases h

theorem init (h : Counted job s) {n : ℕ} (hstep : s.step cfg job (.init n) = some s') :
    Counted job s' := by
  obtain ⟨hnew, rfl⟩ := Timeline.init_cases hstep
  obtain ⟨-, hpages, hfinished⟩ := h.fresh hnew
  refine ⟨by simp, ?_, ?_⟩
  · intro i p hp
    rw [Timeline.initJob_pages (hpages i)] at hp
    split at hp
    next hi =>
      obtain rfl := Option.some.inj hp
      exact ⟨hi, (hfinished i).trans (by rfl)⟩
    next => cases hp
  · intro hash m hh hm
    rw [Timeline.initJob_jobs] at hh
    obtain rfl := Option.some.inj hh
    obtain rfl := Option.some.inj hm
    exact ⟨rfl, by simp [Timeline.finishedCount, hfinished]⟩

/-- A script never gives a job hash a total that it did not have. -/
theorem total_of_script {newState : PageState} {now ttlMs : ℕ} {isTerminal : Bool}
    {allowed : List PageState} {extra : List (PageField × Json)} {page : Option PageHash}
    {j : Option JobHash} {j' : JobHash} {n : ℕ}
    (hj : (transitionScript newState now isTerminal ttlMs allowed extra page j).2.2 = some j')
    (hn : j'.totalPages = some n) : ∃ h, j = some h ∧ h.totalPages = some n := by
  cases page with
  | none => exact ⟨j', hj, hn⟩
  | some p =>
    by_cases hin : p.state ∈ allowed
    · cases j with
      | none =>
        -- A hash that the script creates has the marker or the counter, and nothing else.
        cases isTerminal <;> by_cases hdue : ttlMs < 2 * now <;>
          simp [transitionScript, hin, hdue, JobHash.empty] at hj <;> subst hj <;> cases hn
      | some h =>
        have hscript : ∃ j'', (transitionScript newState now isTerminal ttlMs allowed extra
            (some p) (some h)).2.2 = some j'' ∧ j''.totalPages = h.totalPages :=
          (transitionScript_job hin).imp fun _ hs => ⟨hs.1, hs.2.1⟩
        obtain ⟨j'', hj'', htotal⟩ := hscript
        obtain rfl := Option.some.inj (hj.symm.trans hj'')
        exact ⟨h, rfl, htotal ▸ hn⟩
    · rw [transitionScript_rejected hin] at hj
      exact ⟨j', hj, hn⟩

/-- One more page has been terminal. -/
theorem finishedCount_succ {i : ℤ} {n : ℕ} (hi : Timeline.InRange n i)
    (hopen : s.finished i = false)
    (h : s'.finished = Function.update s.finished i true) :
    s'.finishedCount n = s.finishedCount n + 1 := by
  have hindex : ((i.toNat : ℕ) : ℤ) = i := Int.toNat_of_nonneg hi.1
  have hset : (Finset.range n).filter (fun j : ℕ => s'.finished j = true) =
      insert i.toNat ((Finset.range n).filter fun j : ℕ => s.finished j = true) := by
    ext j
    by_cases hj : j = i.toNat
    · subst hj
      have hlow := hi.1
      have hhigh := hi.2
      simp only [Finset.mem_filter, Finset.mem_range, Finset.mem_insert, h, hindex,
        Function.update_self]
      simp only [and_true, hopen, Bool.false_eq_true, and_false, or_false, iff_true]
      omega
    · have hne : (j : ℤ) ≠ i := by omega
      simp [h, hj, hne]
  rw [Timeline.finishedCount, hset, Finset.card_insert_of_notMem (by simp [hindex, hopen])]
  rfl

theorem transition (h : Counted job s) {i : ℤ} {target : PageState} {allowed : List PageState}
    {extra : List (PageField × Json)}
    (hstep : s.step cfg job (.transition i target allowed extra) = some s') : Counted job s' := by
  simp only [Timeline.step] at hstep
  split at hstep
  next hlegal =>
    split at hstep
    next hok =>
      obtain rfl := Option.some.inj hstep
      obtain ⟨p, hp, hin⟩ := transitionScript_ok_iff.mp hok
      obtain ⟨hrange, hfinished⟩ := h.page i p hp
      have hopen : s.finished i = false := by
        rw [hfinished]
        exact terminal_eq_false_of_mem_predecessors (by simpa using List.all_eq_true.mp hlegal _ hin)
      have hpage : (s.script cfg ⟨job, i⟩ target allowed extra).2.1 =
          some (p.moved target s.clock (Timeline.ttl cfg) extra) := by
        rw [Timeline.script, hp]
        exact (transitionScript_applied hin).2
      refine ⟨?_, ?_, ?_⟩
      · intro hnone
        cases hnone
      · intro k q hq
        rw [Timeline.runScript_eq, hpage] at hq
        dsimp only at hq ⊢
        by_cases hk : k = i
        · subst hk
          rw [Function.update_self] at hq
          obtain rfl := Option.some.inj hq
          refine ⟨hrange, ?_⟩
          cases hterm : target.terminal
          · simp [hopen, PageHash.moved, hterm]
          · simp [PageHash.moved, hterm]
        · rw [Function.update_of_ne (by simpa using hk)] at hq
          obtain ⟨hk', hfin⟩ := h.page k q hq
          refine ⟨hk', ?_⟩
          split
          · rw [Function.update_of_ne hk, hfin]
          · exact hfin
      · intro j' n hj' hn
        rw [Timeline.runScript_eq] at hj'
        dsimp only at hj' ⊢
        rw [Function.update_self] at hj'
        obtain ⟨j, hj, htotal⟩ := total_of_script hj' hn
        obtain ⟨rfl, hdone⟩ := h.hash j n hj htotal
        refine ⟨rfl, ?_⟩
        rw [Timeline.script, hp, hj] at hj'
        have hscript : ∃ j'', (transitionScript target s.clock target.terminal (Timeline.ttl cfg)
            allowed extra (some p) (some j)).2.2 = some j'' ∧ j''.doneCount =
              (if target.terminal then some (j.doneCount.getD 0 + 1) else j.doneCount) :=
          (transitionScript_job hin).imp fun _ hs => ⟨hs.1, hs.2.2.1⟩
        obtain ⟨j'', hj'', hcount⟩ := hscript
        obtain rfl := Option.some.inj (hj'.symm.trans hj'')
        rw [hcount, hdone]
        cases hterm : target.terminal
        · rfl
        · simp only [if_true, Option.getD_some, Option.some.injEq]
          exact (finishedCount_succ hrange hopen rfl).symm
    next hok =>
      obtain rfl := Option.some.inj hstep
      rw [Timeline.runScript_of_rejected hok]
      exact h
  next => cases hstep

theorem step (h : Counted job s) {l : Timeline.Label} (hstep : s.step cfg job l = some s') :
    Counted job s' := by
  cases l with
  | init n => exact h.init hstep
  | transition i target allowed extra => exact h.transition hstep
  | sweep k =>
    obtain ⟨n, -, rfl⟩ := Option.map_eq_some_iff.mp hstep
    refine ⟨?_, ?_, h.hash⟩
    · intro hnone
      obtain ⟨hjob, hpages, hfinished⟩ := h.fresh hnone
      exact ⟨hjob, fun i => Timeline.pexpirePages_pages_none (hpages i), hfinished⟩
    · intro i p hp
      change (s.redis.pexpirePages job n _).pages _ = some p at hp
      rw [Timeline.pexpirePages_pages] at hp
      split at hp
      · obtain ⟨q, hq, rfl⟩ := Option.map_eq_some_iff.mp hp
        exact h.page i q hq
      · exact h.page i p hp
  | lose k =>
    obtain ⟨n, -, rfl⟩ := Option.map_eq_some_iff.mp hstep
    exact ⟨h.fresh, h.page, h.hash⟩
  | tick now =>
    obtain ⟨-, rfl⟩ := Timeline.tick_cases hstep
    refine ⟨?_, ?_, ?_⟩
    · intro hnone
      obtain ⟨hjob, hpages, hfinished⟩ := h.fresh hnone
      exact ⟨by simp [Redis.expire, hjob], fun i => by simp [Redis.expire, hpages], hfinished⟩
    · intro i p hp
      exact h.page i p (Timeline.expire_pages_eq_some.mp hp).1
    · intro j n hj hn
      exact h.hash j n (Timeline.expire_jobs_eq_some.mp hj).1 hn

/-- A step of the keys after `init_job`: no page becomes unfinished again, and a job hash with a
total was there before. -/
theorem keys_step (h : Counted job s) {l : Timeline.Label} (hl : ∀ n, l ≠ .init n)
    (hstep : s.step cfg job l = some s') :
    s'.active.isSome = s.active.isSome ∧ s'.total = s.total ∧
      (∀ i, s.finished i = true → s'.finished i = true) ∧
      ∀ j' n, s'.redis.jobs job = some j' → j'.totalPages = some n →
        ∃ j, s.redis.jobs job = some j ∧ j.totalPages = some n := by
  cases l with
  | init n => exact absurd rfl (hl n)
  | transition i target allowed extra =>
    simp only [Timeline.step] at hstep
    split at hstep
    next =>
      split at hstep
      next hok =>
        obtain rfl := Option.some.inj hstep
        obtain ⟨p, hp, -⟩ := transitionScript_ok_iff.mp hok
        refine ⟨?_, rfl, ?_, ?_⟩
        · cases hactive : s.active with
          | none =>
            rw [(h.fresh hactive).2.1] at hp
            cases hp
          | some a => rfl
        · intro k hk
          dsimp only
          split
          · by_cases hki : k = i
            · simp [hki]
            · simpa [hki] using hk
          · exact hk
        · intro j' n hj' hn
          rw [Timeline.runScript_eq] at hj'
          dsimp only at hj'
          rw [Function.update_self] at hj'
          exact total_of_script hj' hn
      next hok =>
        obtain rfl := Option.some.inj hstep
        rw [Timeline.runScript_of_rejected hok]
        exact ⟨rfl, rfl, fun _ hk => hk, fun j' n hj' hn => ⟨j', hj', hn⟩⟩
    next => cases hstep
  | sweep k =>
    obtain ⟨n, -, rfl⟩ := Option.map_eq_some_iff.mp hstep
    exact ⟨rfl, rfl, fun _ hk => hk, fun j' n hj' hn => ⟨j', hj', hn⟩⟩
  | lose k =>
    obtain ⟨n, -, rfl⟩ := Option.map_eq_some_iff.mp hstep
    exact ⟨rfl, rfl, fun _ hk => hk, fun j' n hj' hn => ⟨j', hj', hn⟩⟩
  | tick now =>
    obtain ⟨-, rfl⟩ := Timeline.tick_cases hstep
    exact ⟨rfl, rfl, fun _ hk => hk, fun j' n hj' hn =>
      ⟨j', (Timeline.expire_jobs_eq_some.mp hj').1, hn⟩⟩

/-- A worker that is told that the job is done is told so after all its pages were terminal. -/
theorem finished_of_progress (h : Counted job s) {o : Oracle}
    (htotal : ((Cmd.hmgetProgress job).apply cfg o s.redis).1.2 ≠ 0)
    (hdone : ((Cmd.hmgetProgress job).apply cfg o s.redis).1.2 ≤
      ((Cmd.hmgetProgress job).apply cfg o s.redis).1.1) :
    s.active.isSome = true ∧ ∀ i, Timeline.InRange s.total i → s.finished i = true := by
  simp only [Cmd.apply] at htotal hdone
  cases hj : s.redis.jobs job with
  | none => simp [hj] at htotal
  | some j =>
    cases hn : j.totalPages with
    | none => simp [hj, hn] at htotal
    | some n =>
      obtain ⟨rfl, hcount⟩ := h.hash j n hj hn
      simp only [hj, hn, hcount, Option.bind_some, Option.getD_some] at hdone
      refine ⟨?_, fun i hi => ?_⟩
      · cases hactive : s.active with
        | none =>
          rw [(h.fresh hactive).1] at hj
          cases hj
        | some a => rfl
      · have hall : (Finset.range s.total).filter (fun i : ℕ => s.finished i = true) =
            Finset.range s.total :=
          Finset.eq_of_subset_of_card_le (Finset.filter_subset _ _)
            (by simpa [Timeline.finishedCount] using hdone)
        have hindex : ((i.toNat : ℕ) : ℤ) = i := Int.toNat_of_nonneg hi.1
        have hlt : i.toNat ∈ Finset.range s.total := by
          have hhigh := hi.2
          rw [Finset.mem_range]
          omega
        rw [← hall, Finset.mem_filter, hindex] at hlt
        exact hlt.2

end Counted

/-! ## Nobody removes a document that is needed -/

namespace Custody
variable {cfg : Settings} {doc : DocumentSettings} {job : JobId} {s s' : Custody}

/-- The request may still admit the job, or the job exists and has a page that has not been
terminal. -/
def Needed (job : JobId) (s : Custody) : Prop :=
  s.upload.pending = true ∨ ∃ h n i, s.keys.redis.jobs job = some h ∧ h.totalPages = some n ∧
    Timeline.InRange n i ∧ s.keys.finished i = false

/-- The request has been answered or lost, or its job exists. -/
def Past (s : Custody) : Prop := s.upload ≠ .absent ∧ s.upload.pending = false

structure Kept (doc : DocumentSettings) (job : JobId) (s : Custody) : Prop where
  counted : Counted job s.keys
  content : ∀ f, s.file = some f → f.content ++ s.buffered = s.received ∧ f.mtime = s.touched
  whole : s.upload.stored = true ∨ s.keys.active.isSome = true → s.buffered = []
  bound : s.received.length ≤ doc.maxBytes
  unopened : s.upload = .absent → s.received = [] ∧ s.buffered = [] ∧ s.file = none
  unborn : ¬s.Past → s.keys.active = none
  recent : s.upload.pending = true → s.keys.clock < s.touched + doc.sweepAgeMs
  kept : s.Needed job → s.file.isSome = true
  listed : 0 < s.listed → s.Past
  orphaned : 0 < s.orphaned → s.Past ∧
    ∀ h, s.keys.redis.jobs job = some h → h.totalPages = none
  settled : 0 < s.settled → s.keys.active.isSome = true ∧
    ∀ i, Timeline.InRange s.keys.total i → s.keys.finished i = true

namespace Kept

theorem empty : Kept doc job Custody.empty where
  counted := .empty
  content _ h := by cases h
  whole _ := rfl
  bound := Nat.zero_le _
  unopened _ := ⟨rfl, rfl, rfl⟩
  unborn _ := rfl
  recent h := by cases h
  kept h := by
    rcases h with h | ⟨_, _, _, h, -⟩
    · cases h
    · cases h
  listed h := by cases h
  orphaned h := by cases h
  settled h := by cases h

/-- The document is taken back. -/
theorem refuse (h : Kept doc job s) (hpending : s.upload.pending = true) :
    Kept doc job s.refuse := by
  have hactive : s.keys.active = none := h.unborn fun hpast => by
    rw [hpast.2] at hpending
    cases hpending
  exact {
    counted := h.counted
    content := fun _ hf => by cases hf
    whole := fun hw => h.whole (hw.imp_left fun hstored => by cases hstored)
    bound := h.bound
    unopened := fun habsent => by cases habsent
    unborn := fun _ => hactive
    recent := fun hp => by cases hp
    kept := fun hneeded => by
      rcases hneeded with hp | ⟨j, n, i, hj, -⟩
      · cases hp
      · have hnone : s.keys.redis.jobs job = none := (h.counted.fresh hactive).1
        rw [show s.refuse.keys = s.keys from rfl, hnone] at hj
        cases hj
    listed := fun _ => ⟨by simp [Custody.refuse], rfl⟩
    orphaned := fun hpos => ⟨⟨by simp [Custody.refuse], rfl⟩, (h.orphaned hpos).2⟩
    settled := h.settled }

/-- The request goes on. -/
theorem proceed (h : Kept doc job s) {u : Upload} (hpending : s.upload.pending = true)
    (hwhole : s.buffered = []) (hu : u.pending = true) : Kept doc job { s with upload := u } := by
  have hnot : ¬s.Past := fun hpast => by
    rw [hpast.2] at hpending
    cases hpending
  exact {
    counted := h.counted
    content := h.content
    whole := fun _ => hwhole
    bound := h.bound
    unopened := fun habsent => by
      rw [show u = .absent from habsent] at hu
      cases hu
    unborn := fun _ => h.unborn hnot
    recent := fun _ => h.recent hpending
    kept := fun _ => h.kept (.inl hpending)
    listed := fun hpos => absurd (h.listed hpos) hnot
    orphaned := fun hpos => absurd (h.orphaned hpos).1 hnot
    settled := h.settled }

/-- The request is over, and its document stays. -/
theorem finish (h : Kept doc job s) {u : Upload} (hu : u ≠ .absent ∧ u.pending = false)
    (hstored : u.stored = true → s.upload.stored = true) :
    Kept doc job { s with upload := u } where
  counted := h.counted
  content := h.content
  whole hw := h.whole (hw.imp_left hstored)
  bound := h.bound
  unopened habsent := absurd habsent hu.1
  unborn hnot := absurd hu hnot
  recent hp := by
    rw [show u.pending = false from hu.2] at hp
    cases hp
  kept hneeded := by
    rcases hneeded with hp | hjob
    · rw [show u.pending = false from hu.2] at hp
      cases hp
    · exact h.kept (.inr hjob)
  listed _ := hu
  orphaned hpos := ⟨hu, (h.orphaned hpos).2⟩
  settled := h.settled

/-- Somebody removes a document that is not needed. -/
theorem remove (h : Kept doc job s) (hneeded : ¬s.Needed job) {orphaned settled : ℕ}
    (horphaned : orphaned ≤ s.orphaned) (hsettled : settled ≤ s.settled) :
    Kept doc job { s with file := none, orphaned, settled } where
  counted := h.counted
  content _ hf := by cases hf
  whole := h.whole
  bound := h.bound
  unopened habsent := ⟨(h.unopened habsent).1, (h.unopened habsent).2.1, rfl⟩
  unborn := h.unborn
  recent := h.recent
  kept hn := absurd hn hneeded
  listed := h.listed
  orphaned hpos := h.orphaned (Nat.lt_of_lt_of_le hpos horphaned)
  settled hpos := h.settled (Nat.lt_of_lt_of_le hpos hsettled)

/-- The request draws its id and opens the file. -/
theorem opened (h : Kept doc job s) (hage : 0 < doc.sweepAgeMs) (hupload : s.upload = .absent) :
    Kept doc job { s with
      upload := .receiving, file := some ⟨[], s.keys.clock⟩, touched := s.keys.clock } := by
  have hnot : ¬s.Past := fun hpast => hpast.1 hupload
  exact {
    counted := h.counted
    content := fun f hf => by
      obtain rfl := Option.some.inj hf
      obtain ⟨hreceived, hbuffered, -⟩ := h.unopened hupload
      exact ⟨by rw [hreceived, hbuffered]; rfl, rfl⟩
    whole := fun _ => (h.unopened hupload).2.1
    bound := h.bound
    unopened := fun habsent => by cases habsent
    unborn := fun _ => h.unborn hnot
    recent := fun _ => Nat.lt_add_of_pos_right hage
    kept := fun _ => rfl
    listed := fun hpos => absurd (h.listed hpos) hnot
    orphaned := fun hpos => absurd (h.orphaned hpos).1 hnot
    settled := h.settled }

/-- Bytes arrive that fit. -/
theorem chunk (h : Kept doc job s) {bytes : List UInt8} (hupload : s.upload = .receiving)
    (hfits : s.received.length + bytes.length ≤ doc.maxBytes) :
    Kept doc job
      { s with received := s.received ++ bytes, buffered := s.buffered ++ bytes } := by
  have hnot : ¬s.Past := fun hpast => by
    have hpending := hpast.2
    rw [hupload] at hpending
    cases hpending
  exact {
    counted := h.counted
    content := fun f hf => by
      obtain ⟨hcontent, hmtime⟩ := h.content f hf
      exact ⟨by rw [← List.append_assoc, hcontent], hmtime⟩
    whole := fun hw => by
      have hactive := h.unborn hnot
      rcases hw with hstored | hborn
      · rw [show s.upload = .receiving from hupload] at hstored
        cases hstored
      · rw [show s.keys.active = none from hactive] at hborn
        cases hborn
    bound := by rw [List.length_append]; exact hfits
    unopened := fun habsent => by
      rw [show s.upload = .absent from habsent] at hupload
      cases hupload
    unborn := h.unborn
    recent := h.recent
    kept := h.kept
    listed := h.listed
    orphaned := h.orphaned
    settled := h.settled }

/-- A part of the buffer reaches the disk. -/
theorem flush (h : Kept doc job s) (hage : 0 < doc.sweepAgeMs) (hupload : s.upload = .receiving)
    (n : ℕ) : Kept doc job (s.flush n) where
  counted := h.counted
  content f hf := by
    obtain ⟨g, hg, rfl⟩ := Option.map_eq_some_iff.mp hf
    refine ⟨?_, rfl⟩
    simp only [Custody.flush, List.append_assoc, List.take_append_drop]
    exact (h.content g hg).1
  whole hw := by
    simp only [Custody.flush, h.whole hw, List.drop_nil]
  bound := h.bound
  unopened habsent := by
    rw [show s.upload = .absent from habsent] at hupload
    cases hupload
  unborn := h.unborn
  recent _ := Nat.lt_add_of_pos_right hage
  kept hneeded := by
    rw [Custody.flush, Option.isSome_map]
    exact h.kept hneeded
  listed := h.listed
  orphaned := h.orphaned
  settled := h.settled

/-- The job is created. -/
theorem init (h : Kept doc job s) {pages : ℕ} {keys : Timeline}
    (hupload : s.upload = .initialising pages)
    (hkeys : s.keys.step cfg job (.init pages) = some keys) :
    Kept doc job { s with keys, upload := .enqueuing } := by
  have hpending : s.upload.pending = true := by
    rw [hupload]
    rfl
  have hnot : ¬s.Past := fun hpast => by
    rw [hpast.2] at hpending
    cases hpending
  have hsettled : s.settled = 0 := by
    by_contra hpos
    have hactive := (h.settled (Nat.pos_of_ne_zero hpos)).1
    rw [h.unborn hnot] at hactive
    cases hactive
  exact {
    counted := h.counted.init hkeys
    content := h.content
    whole := fun _ => h.whole (.inl (by rw [hupload]; rfl))
    bound := h.bound
    unopened := fun habsent => by cases habsent
    unborn := fun hpast => absurd ⟨by simp, rfl⟩ hpast
    recent := fun hp => by cases hp
    kept := fun _ => h.kept (.inl hpending)
    listed := fun hpos => absurd (h.listed hpos) hnot
    orphaned := fun hpos => absurd (h.orphaned hpos).1 hnot
    settled := fun hpos => by
      rw [show ({ s with keys, upload := .enqueuing } : Custody).settled = 0 from hsettled] at hpos
      cases hpos }

/-- The keys change, or time passes. -/
theorem keys (h : Kept doc job s) {l : Timeline.Label} {k : Timeline} (hl : ∀ n, l ≠ .init n)
    (hallow : s.attended doc (.keys l) = true) (hkeys : s.keys.step cfg job l = some k) :
    Kept doc job { s with keys := k } := by
  obtain ⟨hactive, htotal, hmono, hback⟩ := h.counted.keys_step hl hkeys
  have hclock : s.upload.pending = true → k.clock < s.touched + doc.sweepAgeMs := by
    intro hp
    cases l with
    | init n => exact absurd rfl (hl n)
    | tick now =>
      obtain ⟨-, rfl⟩ := Timeline.tick_cases hkeys
      simpa [attended, hp] using hallow
    | transition i target allowed extra =>
      rcases Timeline.transition_cases hkeys with rfl | ⟨⟨p, hpage⟩, -⟩
      · exact h.recent hp
      · have hnone : s.keys.active = none := h.unborn fun hpast => by
          rw [hpast.2] at hp
          cases hp
        rw [(h.counted.fresh hnone).2.1] at hpage
        cases hpage
    | sweep n =>
      obtain ⟨m, -, rfl⟩ := Option.map_eq_some_iff.mp hkeys
      exact h.recent hp
    | lose n =>
      obtain ⟨m, -, rfl⟩ := Option.map_eq_some_iff.mp hkeys
      exact h.recent hp
  exact {
    counted := h.counted.step hkeys
    content := h.content
    whole := fun hw => h.whole (hw.imp_right fun hborn => hactive ▸ hborn)
    bound := h.bound
    unopened := h.unopened
    unborn := fun hnot => by
      have hnone : s.keys.active = none := h.unborn hnot
      rw [hnone] at hactive
      exact Option.isNone_iff_eq_none.mp (by simpa using hactive)
    recent := hclock
    kept := fun hneeded => h.kept <| hneeded.imp_right fun ⟨j', n, i, hj', hn, hi, hopen⟩ => by
      obtain ⟨j, hj, hn'⟩ := hback j' n hj' hn
      refine ⟨j, n, i, hj, hn', hi, ?_⟩
      by_contra hdone
      rw [hmono i (by simpa using hdone)] at hopen
      cases hopen
    listed := h.listed
    orphaned := fun hpos => by
      refine ⟨(h.orphaned hpos).1, fun j' hj' => ?_⟩
      by_contra hsome
      obtain ⟨n, hn⟩ := Option.ne_none_iff_exists'.mp hsome
      obtain ⟨j, hj, hn'⟩ := hback j' n hj' hn
      rw [(h.orphaned hpos).2 j hj] at hn'
      cases hn'
    settled := fun hpos => by
      obtain ⟨ha, hall⟩ := h.settled hpos
      exact ⟨hactive.trans ha, fun i hi => hmono i (hall i (htotal ▸ hi))⟩ }

/-- **Every step** keeps the document for as long as it is needed. -/
theorem step (h : Kept doc job s) (hage : 0 < doc.sweepAgeMs) {l : Label}
    (hallow : s.attended doc l = true) (hstep : s.step cfg doc job l = some s') :
    Kept doc job s' := by
  cases move_of_step hstep with
  | stay => exact h
  | opened hupload => exact h.opened hage hupload
  | chunk hupload hfits => exact h.chunk hupload hfits
  | flush hupload => exact h.flush hage hupload _
  | closeEmpty hupload hnil => exact h.proceed (by rw [hupload]; rfl) hnil rfl
  | close hupload =>
    have hpending : (s.flush s.buffered.length).upload.pending = true := by
      rw [Custody.flush, hupload]
      rfl
    exact (h.flush hage hupload s.buffered.length).proceed hpending List.drop_length rfl
  | refuse hpending => exact h.refuse hpending
  | proceed hpending hstored hu => exact h.proceed hpending (h.whole (.inl hstored)) hu
  | finish hu hstored => exact h.finish ⟨hu.1, hu.2.2⟩ hstored
  | init hupload hkeys => exact h.init hupload hkeys
  | settle htotal hdone =>
    exact { h with settled := fun _ => h.counted.finished_of_progress htotal hdone }
  | delete hpos =>
    obtain ⟨hactive, hall⟩ := h.settled hpos
    refine h.remove ?_ le_rfl (Nat.sub_le _ _)
    rintro (hp | ⟨j, n, i, hj, hn, hi, hopen⟩)
    · have hnone := h.unborn fun hpast => by
        rw [hpast.2] at hp
        cases hp
      rw [hnone] at hactive
      cases hactive
    · obtain ⟨rfl, -⟩ := h.counted.hash j n hj hn
      rw [hall i hi] at hopen
      cases hopen
  | list hf hold =>
    have hpast : s.Past := by
      refine ⟨fun habsent => ?_, ?_⟩
      · rw [(h.unopened habsent).2.2] at hf
        cases hf
      · by_contra hp
        have hrecent := h.recent (by simpa using hp)
        rw [(h.content _ hf).2] at hold
        omega
    exact { h with listed := fun _ => hpast }
  | alive hpos => exact { h with listed := fun _ => h.listed hpos }
  | orphan hpos hgone =>
    have hpast := h.listed hpos
    refine { h with listed := fun _ => hpast, orphaned := fun _ => ⟨hpast, fun j hj => ?_⟩ }
    rw [show s.keys.redis.jobs job = some j from hj] at hgone
    cases hgone
  | sweep hpos =>
    obtain ⟨hpast, hgone⟩ := h.orphaned hpos
    refine h.remove ?_ (Nat.sub_le _ _) le_rfl
    rintro (hp | ⟨j, n, i, hj, hn, -⟩)
    · rw [hpast.2] at hp
      cases hp
    · rw [hgone j hj] at hn
      cases hn
  | keys hl hkeys => exact h.keys hl hallow hkeys

end Kept

/-- **A document is there for as long as somebody may need it**, if no request stalls: while its
request is under way, and while its job exists and has a page that has not been terminal.  What has
arrived is on disk or in the buffer of the file, and all on disk once the file is closed. -/
theorem document_kept (hage : 0 < doc.orphanSweepAgeS)
    (h : (system cfg doc job).Reach (fun s l => s.attended doc l) s)
    (hneeded : s.upload.pending = true ∨ ∃ hash n i, s.keys.redis.jobs job = some hash ∧
      hash.totalPages = some n ∧ Timeline.InRange n i ∧ s.keys.finished i = false) :
    ∃ f, s.file = some f ∧ f.content ++ s.buffered = s.received ∧
      s.received.length ≤ doc.maxBytes ∧ (s.upload ≠ .receiving → f.content = s.received) := by
  have hkept : Kept doc job s := h.invariant Kept.empty fun s l s' hs hallow hstep =>
    hs.step (Nat.mul_pos hage (by decide)) hallow hstep
  obtain ⟨f, hf⟩ := Option.isSome_iff_exists.mp (hkept.kept hneeded)
  have hcontent := (hkept.content f hf).1
  refine ⟨f, hf, hcontent, hkept.bound, fun hclosed => ?_⟩
  have hwhole : s.buffered = [] := by
    rcases hneeded with hpending | ⟨hash, n, i, hhash, -⟩
    · exact hkept.whole (.inl (Upload.stored_of_pending hpending hclosed))
    · refine hkept.whole (.inr ?_)
      cases ha : s.keys.active with
      | none =>
        rw [(hkept.counted.fresh ha).1] at hhash
        cases hhash
      | some a => rfl
  rw [hwhole, List.append_nil] at hcontent
  exact hcontent

/-- A document that trickles in, and then a page of the accepted job waits for an hour while sweeps
come by. -/
theorem document_kept_waiting : ∃ s : Custody, s.keys.clock = 3000000 ∧
    ∃ f, s.file = some f ∧ f.content ++ s.buffered = s.received ∧
      s.received.length ≤ ({} : DocumentSettings).maxBytes ∧
      (s.upload ≠ .receiving → f.content = s.received) := by
  obtain ⟨s, hs, hq⟩ := System.exists_of_runAll (system {} {} 0) (fun s l => s.attended {} l)
    (fun s => decide (s.keys.clock = 3000000) && decide (s.upload = .accepted) &&
      (s.keys.redis.jobs 0).any (fun h : JobHash => decide (h.totalPages = some 2)) &&
      !s.keys.finished 1)
    [.open, .chunk [1, 2], .list, .keys (.tick 800000), .chunk [3], .flush 1,
      .keys (.tick 1600000), .list, .close, .count (some 2), .evaluate true, .init, .enqueued,
      .keys (.tick 1700000), .list, .settle, .keys (.transition 0 .failed [.pending] []),
      .keys (.tick 2600000), .list, .settle, .keys (.tick 3000000), .check]
    (by decide +kernel)
  simp only [Bool.and_eq_true, decide_eq_true_eq, Bool.not_eq_true'] at hq
  obtain ⟨⟨⟨hclock, -⟩, hjob⟩, hopen⟩ := hq
  obtain ⟨hash, hhash, htotal⟩ := (Option.any_eq_true _ _).mp hjob
  exact ⟨s, hclock, document_kept (by decide) hs
    (.inr ⟨hash, 2, 1, hhash, of_decide_eq_true htotal, by decide, hopen⟩)⟩

/-! ## Whose documents are on disk -/

/-- What is on disk is what has arrived and is not buffered, within the limit, and a refused
request has nothing there. -/
structure Clean (doc : DocumentSettings) (s : Custody) : Prop where
  content : ∀ f, s.file = some f → f.content ++ s.buffered = s.received
  whole : s.upload.stored = true → s.buffered = []
  bound : s.received.length ≤ doc.maxBytes
  unopened : s.upload = .absent → s.received = [] ∧ s.buffered = []
  gone : s.upload = .absent ∨ s.upload = .refused → s.file = none

theorem Clean.refuse (h : Clean doc s) : Clean doc s.refuse where
  content _ hf := by cases hf
  whole hstored := by cases hstored
  bound := h.bound
  unopened habsent := by cases habsent
  gone _ := rfl

/-- The request goes on, and has been neither refused nor dropped before it began. -/
theorem Clean.proceed (h : Clean doc s) {u : Upload} (hu : u ≠ .absent ∧ u ≠ .refused)
    (hwhole : u.stored = true → s.buffered = []) (keys : Timeline) :
    Clean doc { s with upload := u, keys } where
  content := h.content
  whole := hwhole
  bound := h.bound
  unopened habsent := absurd habsent hu.1
  gone hgone := (hgone.elim hu.1 hu.2).elim

theorem Clean.flush (h : Clean doc s) (hupload : s.upload = .receiving) (n : ℕ) :
    Clean doc (s.flush n) where
  content f hf := by
    obtain ⟨g, hg, rfl⟩ := Option.map_eq_some_iff.mp hf
    simp only [Custody.flush, List.append_assoc, List.take_append_drop]
    exact h.content g hg
  whole hstored := by
    rw [show (s.flush n).upload = .receiving from hupload] at hstored
    cases hstored
  bound := h.bound
  unopened habsent := by
    rw [show s.upload = .absent from habsent] at hupload
    cases hupload
  gone hgone := by
    rcases hgone with hgone | hgone
    · rw [show s.upload = .absent from hgone] at hupload
      cases hupload
    · rw [show s.upload = .refused from hgone] at hupload
      cases hupload

theorem Clean.remove (h : Clean doc s) (orphaned settled : ℕ) :
    Clean doc { s with file := none, orphaned, settled } where
  content _ hf := by cases hf
  whole := h.whole
  bound := h.bound
  unopened := h.unopened
  gone _ := rfl

theorem Clean.step (h : Clean doc s) {l : Label} (hstep : s.step cfg doc job l = some s') :
    Clean doc s' := by
  cases move_of_step hstep with
  | opened hupload =>
    obtain ⟨hreceived, hbuffered⟩ := h.unopened hupload
    refine ⟨fun f hf => ?_, fun _ => hbuffered, h.bound, nofun, ?_⟩
    · obtain rfl := Option.some.inj hf
      rw [hreceived, hbuffered]
      rfl
    · rintro (habsent | hrefused)
      · cases habsent
      · cases hrefused
  | chunk hupload hfits =>
    refine ⟨fun f hf => ?_, fun hstored => ?_, ?_, fun habsent => ?_, h.gone⟩
    · rw [← List.append_assoc, h.content f hf]
    · rw [show s.upload = .receiving from hupload] at hstored
      cases hstored
    · rw [List.length_append]
      exact hfits
    · rw [show s.upload = .absent from habsent] at hupload
      cases hupload
  | flush hupload => exact h.flush hupload _
  | closeEmpty hupload hnil => exact h.proceed ⟨by simp, by simp⟩ (fun _ => hnil) s.keys
  | close hupload =>
    exact (h.flush hupload s.buffered.length).proceed ⟨by simp, by simp⟩
      (fun _ => List.drop_length) s.keys
  | refuse => exact h.refuse
  | proceed hpending hstored hu =>
    refine h.proceed ⟨fun ha => ?_, fun hr => ?_⟩ (fun _ => h.whole hstored) s.keys
    · rw [ha] at hu
      cases hu
    · rw [hr] at hu
      cases hu
  | finish hu hstored => exact h.proceed ⟨hu.1, hu.2.1⟩ (fun hs => h.whole (hstored hs)) s.keys
  | init hupload =>
    exact h.proceed ⟨by simp, by simp⟩ (fun _ => h.whole (by rw [hupload]; rfl)) _
  | delete => exact h.remove _ _
  | sweep => exact h.remove _ _
  | _ => exact ⟨h.content, h.whole, h.bound, h.unopened, h.gone⟩

/-- **Whatever anybody does and however long it takes**: what is on disk is a beginning of what has
arrived, all of it once the request has closed the file; it is no larger than the limit, and its
request was not refused. -/
theorem leftovers (s : Custody) (h : (system cfg doc job).Reach System.anyStep s) (f : Document)
    (hf : s.file = some f) : f.content <+: s.received ∧ f.content.length ≤ doc.maxBytes ∧
      (s.upload.stored = true → f.content = s.received) ∧
      s.upload ≠ .absent ∧ s.upload ≠ .refused := by
  have hclean : Clean doc s := h.invariant
    ⟨nofun, fun _ => rfl, Nat.zero_le _, fun _ => ⟨rfl, rfl⟩, fun _ => rfl⟩
    fun s l s' hs _ hstep => hs.step hstep
  have hcontent := hclean.content f hf
  have hbegins : f.content <+: s.received := ⟨s.buffered, hcontent⟩
  refine ⟨hbegins, hbegins.length_le.trans hclean.bound, fun hstored => ?_, fun habsent => ?_,
    fun hrefused => ?_⟩
  · rwa [hclean.whole hstored, List.append_nil] at hcontent
  · rw [hclean.gone (.inl habsent)] at hf
    cases hf
  · rw [hclean.gone (.inr hrefused)] at hf
    cases hf

/-- A process dies with one of two bytes on disk. -/
theorem leftovers_lost : ∃ (s : Custody) (f : Document), s.upload = .lost ∧ f.content = [1] ∧
    s.received = [1, 2] ∧ f.content <+: s.received ∧
      f.content.length ≤ ({} : DocumentSettings).maxBytes ∧
      (s.upload.stored = true → f.content = s.received) ∧
      s.upload ≠ .absent ∧ s.upload ≠ .refused := by
  obtain ⟨s, hs, hq⟩ := System.exists_of_runAll (system {} {} 0) System.anyStep
    (fun s => decide (s.upload = .lost) && decide (s.received = [1, 2]) &&
      s.file.any fun f : Document => decide (f.content = [1]))
    [.open, .chunk [1], .keys (.tick 40), .chunk [2], .flush 1, .die] (by decide)
  simp only [Bool.and_eq_true, decide_eq_true_eq] at hq
  obtain ⟨f, hf, hcontent⟩ := (Option.any_eq_true _ _).mp hq.2
  exact ⟨s, f, hq.1.1, of_decide_eq_true hcontent, hq.1.2, leftovers s hs f hf⟩

end Custody

end OcrOrchestrator
