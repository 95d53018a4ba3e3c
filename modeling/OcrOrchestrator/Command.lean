import OcrOrchestrator.Lib.Prog
import OcrOrchestrator.Queue.Results
import OcrOrchestrator.Config

/-!
# Redis and the outside world, one command at a time

`Redis` is the shared store: job and page hashes, the two task streams, one result
stream per job.  `Cmd` lists what a worker coroutine awaits: each Redis command or Lua
script is one command, and so is a call to a model endpoint or to the file system.
Between two commands of one coroutine anything may happen.

Two pipelines are treated differently.  The settling pipeline (`XACK`, `XDEL`) is not a
transaction, and a page can be lost between the two, so they are two commands.  The
expiry sweep only sets expiry times, so its round trip is one command.

Whatever the store and the program do not determine comes from an `Oracle`: the clock,
the body a model answers, how far Redis trims, and whether the call raises.  A call may
raise before or after it took effect.
-/

namespace OcrOrchestrator

open Lib

/-- The shared store. -/
structure Redis where
  jobs : JobId → Option JobHash
  pages : PageKey → Option PageHash
  streams : Lane → TaskStream
  results : JobId → ResultStream

namespace Redis

def empty : Redis :=
  ⟨fun _ => none, fun _ => none, fun _ => TaskStream.empty, fun _ => ResultStream.empty⟩

/-- Replace one stream. -/
def setStream (s : Redis) (lane : Lane) (t : TaskStream) : Redis :=
  { s with streams := Function.update s.streams lane t }

@[simp] theorem setStream_pages (s : Redis) (lane : Lane) (t : TaskStream) :
    (s.setStream lane t).pages = s.pages := rfl
@[simp] theorem setStream_jobs (s : Redis) (lane : Lane) (t : TaskStream) :
    (s.setStream lane t).jobs = s.jobs := rfl
@[simp] theorem setStream_results (s : Redis) (lane : Lane) (t : TaskStream) :
    (s.setStream lane t).results = s.results := rfl

/-- What holds of every stream and of the new one holds of every stream afterwards. -/
theorem streams_setStream {P : TaskStream → Prop} {s : Redis} {lane : Lane} {t : TaskStream}
    (h : ∀ lane, P (s.streams lane)) (ht : P t) (lane' : Lane) :
    P ((s.setStream lane t).streams lane') := by
  by_cases hlane : lane' = lane
  · subst hlane
    simpa only [setStream, Function.update_self] using ht
  · simpa only [setStream, Function.update_of_ne hlane] using h lane'

/-- An entry after one stream was replaced is of the new stream, or an old one. -/
theorem mem_entries_setStream {s : Redis} {lane lane' : Lane} {t : TaskStream} {e : Entry}
    (h : e ∈ ((s.setStream lane t).streams lane').entries) :
    e ∈ (s.streams lane').entries ∨ (lane' = lane ∧ e ∈ t.entries) := by
  by_cases hlane : lane' = lane
  · subst hlane
    simp only [setStream, Function.update_self] at h
    exact .inr ⟨rfl, h⟩
  · simp only [setStream, Function.update_of_ne hlane] at h
    exact .inl h

/-- `XADD` on one lane stores one entry. -/
theorem mem_entries_xadd {s : Redis} {lane lane' : Lane} {now : ℕ} {fields : RawTask} {e : Entry}
    (h : e ∈ ((s.setStream lane ((s.streams lane).xadd now fields).2).streams lane').entries) :
    e ∈ (s.streams lane').entries ∨
      (lane' = lane ∧ e = ⟨(s.streams lane).lastId.next now, fields⟩) := by
  rcases mem_entries_setStream h with hold | ⟨rfl, hmem⟩
  · exact .inl hold
  · exact (TaskStream.mem_xadd_entries.mp hmem).imp_right fun hnew => ⟨rfl, hnew⟩

/-- The page states as a function, `none` for a missing hash. -/
def state? (s : Redis) (key : PageKey) : Option PageState := (s.pages key).map PageHash.state

theorem isSome_state? (s : Redis) (key : PageKey) :
    (s.state? key).isSome = (s.pages key).isSome := by
  simp [state?]

/-- `PEXPIRE` on the pages `0 .. total - 1` of a job; a missing key stays missing. -/
def pexpirePages (s : Redis) (job : JobId) (total deadline : ℕ) : Redis :=
  { s with pages := fun key =>
      if key.job = job ∧ 0 ≤ key.index ∧ key.index < total then
        (s.pages key).map fun p => { p with expiresAt := some deadline }
      else s.pages key }

theorem state?_pexpirePages (s : Redis) (job : JobId) (total deadline : ℕ) :
    (s.pexpirePages job total deadline).state? = s.state? := by
  funext key
  simp only [state?, pexpirePages]
  split
  · simp [Option.map_map, Function.comp_def]
  · rfl

end Redis

/-- What a coroutine can await. -/
inductive Cmd where
  | hgetallPage (key : PageKey)
  | evalTransition (key : PageKey) (target : PageState) (allowed : List PageState)
      (extra : List (PageField × Json))
  | pexpirePages (job : JobId) (total : ℕ)
  | hmgetProgress (job : JobId)
  | publish (job : JobId) (body : EventBody)
  | xaddMain (fields : RawTask)
  | xack (lane : Lane) (id : StreamId)
  | xdel (lane : Lane) (id : StreamId)
  | layout (key : PageKey)
  | vlm (key : PageKey)
  | resolvePage (key : PageKey)
  | deleteDocument (job : JobId)
  | time

/-- What each command answers. -/
abbrev Ret : Cmd → Type
  | .hgetallPage _ => Option PageHash
  | .evalTransition _ _ _ _ => Reply
  | .pexpirePages _ _ => Unit
  | .hmgetProgress _ => ℕ × ℕ
  | .publish _ _ => StreamId × ℕ
  | .xaddMain _ => StreamId
  | .xack _ _ => Unit
  | .xdel _ _ => Unit
  | .layout _ => Json
  | .vlm _ => Json
  | .resolvePage _ => Unit
  | .deleteDocument _ => Unit
  | .time => ℕ

/-- Coroutines of the worker. -/
abbrev Py (α : Type) := Prog Cmd Ret Exn α

/-- Await one command. -/
def await (c : Cmd) : Py (Ret c) := Prog.perform c

/-- Does the command go to the page state store or to the task queue? -/
def Cmd.isStoreOrQueue : Cmd → Bool
  | .hgetallPage _ => true
  | .evalTransition _ _ _ _ => true
  | .pexpirePages _ _ => true
  | .hmgetProgress _ => true
  | .xaddMain _ => true
  | .xack _ _ => true
  | .xdel _ _ => true
  | _ => false

/-- A call that raises: did it take effect first, and what does it raise? -/
structure Fault where
  tookEffect : Bool
  exn : Exn

/-- Everything about one command that neither the program nor the store decides. -/
structure Oracle where
  now : ℕ
  body : Json
  trim : ℕ
  fault : Option Fault

/-- The effect and the answer of a command that does not raise. -/
def Cmd.apply (cfg : Settings) (o : Oracle) : (c : Cmd) → Redis → Ret c × Redis
  | .hgetallPage key, s => (s.pages key, s)
  | .evalTransition key target allowed extra, s =>
      let out := transitionScript target o.now target.terminal (cfg.resultTtlS * 1000) allowed extra
        (s.pages key) (s.jobs key.job)
      (out.1, { s with
        pages := Function.update s.pages key out.2.1
        jobs := Function.update s.jobs key.job out.2.2 })
  | .pexpirePages job total, s => ((), s.pexpirePages job total (o.now + cfg.resultTtlS * 1000))
  | .hmgetProgress job, s =>
      ((((s.jobs job).bind JobHash.doneCount).getD 0,
        ((s.jobs job).bind JobHash.totalPages).getD 0), s)
  | .publish job body, s =>
      let out := (s.results job).publishScript cfg.resultStreamMaxlen o.now o.trim body
      (out.1, { s with results := Function.update s.results job out.2 })
  | .xaddMain fields, s =>
      let out := (s.streams .main).xadd o.now fields
      (out.1, s.setStream .main out.2)
  | .xack lane id, s => ((), s.setStream lane ((s.streams lane).xack id))
  | .xdel lane id, s => ((), s.setStream lane ((s.streams lane).xdel id))
  | .layout _, s => (o.body, s)
  | .vlm _, s => (o.body, s)
  | .resolvePage _, s => ((), s)
  | .deleteDocument _, s => ((), s)
  | .time, s => (o.now, s)

/-- One command, which may raise before or after it took effect. -/
def Cmd.exec (cfg : Settings) (o : Oracle) (c : Cmd) (s : Redis) : Except Exn (Ret c) × Redis :=
  match o.fault with
  | none => (.ok (c.apply cfg o s).1, (c.apply cfg o s).2)
  | some f => (.error f.exn, if f.tookEffect then (c.apply cfg o s).2 else s)

/-- A command leaves the store alone or has its effect. -/
theorem Cmd.exec_state (cfg : Settings) (o : Oracle) (c : Cmd) (s : Redis) :
    (c.exec cfg o s).2 = s ∨ (c.exec cfg o s).2 = (c.apply cfg o s).2 := by
  unfold Cmd.exec
  split
  · exact Or.inr rfl
  · split
    · exact Or.inr rfl
    · exact Or.inl rfl

theorem Cmd.exec_of_fault_none {cfg : Settings} {o : Oracle} (h : o.fault = none) (c : Cmd)
    (s : Redis) : c.exec cfg o s = (.ok (c.apply cfg o s).1, (c.apply cfg o s).2) := by
  simp [Cmd.exec, h]

/-- A command never removes a job hash. -/
theorem Cmd.jobs_isSome_exec {cfg : Settings} {o : Oracle} {c : Cmd} {s : Redis} {job : JobId}
    (h : (s.jobs job).isSome = true) : ((c.exec cfg o s).2.jobs job).isSome = true := by
  have happly : ((c.apply cfg o s).2.jobs job).isSome = true := by
    cases c with
    | evalTransition key target allowed extra =>
      simp only [Cmd.apply]
      by_cases hj : job = key.job
      · subst hj
        rw [Function.update_self]
        cases hp : s.pages key with
        | none => exact h
        | some p =>
          by_cases hin : p.state ∈ allowed
          · obtain ⟨j, hj⟩ := Option.isSome_iff_exists.mp h
            simp only [transitionScript, hin, if_true, hj]
            split
            · rfl
            · dsimp only
              split <;> rfl
          · rw [transitionScript_rejected hin]
            exact h
      · rw [Function.update_of_ne hj]
        exact h
    | _ => exact h
  rcases Cmd.exec_state cfg o c s with hs | hs <;> rw [hs]
  · exact h
  · exact happly

/-- A page that does not exist is not created by a command. -/
theorem Cmd.pages_exec_none {cfg : Settings} {o : Oracle} {c : Cmd} {s : Redis} {key : PageKey}
    (h : s.pages key = none) : (c.exec cfg o s).2.pages key = none := by
  have happly : (c.apply cfg o s).2.pages key = none := by
    cases c with
    | evalTransition k target allowed extra =>
      simp only [Cmd.apply]
      by_cases hk : key = k
      · subst hk
        rw [Function.update_self, h, transitionScript_missing]
      · rw [Function.update_of_ne hk]
        exact h
    | pexpirePages job total =>
      simp only [Cmd.apply, Redis.pexpirePages]
      split <;> simp [h]
    | _ => exact h
  rcases Cmd.exec_state cfg o c s with hs | hs <;> rw [hs]
  · exact h
  · exact happly

/-- A page that exists keeps its state and its fields through every command, except through
an applied transition of that page. -/
theorem Cmd.pages_exec_some (cfg : Settings) (o : Oracle) (c : Cmd) {s : Redis} {key : PageKey}
    {p : PageHash} (h : s.pages key = some p) :
    ∃ p', (c.exec cfg o s).2.pages key = some p' ∧
      ((p'.state = p.state ∧ p'.fields = p.fields) ∨
        ∃ target allowed extra, c = .evalTransition key target allowed extra ∧ p.state ∈ allowed ∧
          p' = p.moved target o.now (cfg.resultTtlS * 1000) extra) := by
  rcases Cmd.exec_state cfg o c s with hs | hs <;> rw [hs]
  · exact ⟨p, h, .inl ⟨rfl, rfl⟩⟩
  · cases c with
    | evalTransition k target allowed extra =>
      simp only [Cmd.apply]
      by_cases hk : key = k
      · subst hk
        rw [Function.update_self, h]
        by_cases hin : p.state ∈ allowed
        · exact ⟨_, (transitionScript_applied hin).2, .inr ⟨target, allowed, extra, rfl, hin, rfl⟩⟩
        · rw [transitionScript_rejected hin]
          exact ⟨p, rfl, .inl ⟨rfl, rfl⟩⟩
      · rw [Function.update_of_ne hk]
        exact ⟨p, h, .inl ⟨rfl, rfl⟩⟩
    | pexpirePages job total =>
      simp only [Cmd.apply, Redis.pexpirePages, h]
      split <;> exact ⟨_, rfl, .inl ⟨rfl, rfl⟩⟩
    | _ => exact ⟨p, h, .inl ⟨rfl, rfl⟩⟩

theorem Cmd.mem_entries_apply {cfg : Settings} {o : Oracle} {c : Cmd} {s : Redis} {lane : Lane}
    {e : Entry} (he : e ∈ ((c.apply cfg o s).2.streams lane).entries) :
    e ∈ (s.streams lane).entries ∨ c = .xaddMain e.fields := by
  cases c with
  | xaddMain fields =>
    rcases Redis.mem_entries_xadd he with hold | ⟨-, rfl⟩
    · exact .inl hold
    · exact .inr rfl
  | xack lane' id =>
    rcases Redis.mem_entries_setStream he with hold | ⟨rfl, hmem⟩
    · exact .inl hold
    · exact .inl hmem
  | xdel lane' id =>
    rcases Redis.mem_entries_setStream he with hold | ⟨rfl, hmem⟩
    · exact .inl hold
    · exact .inl (TaskStream.mem_xdel_entries.mp hmem).1
  | _ => exact .inl he

/-- A command deletes entries, or appends the one it names. -/
theorem Cmd.mem_entries_exec {cfg : Settings} {o : Oracle} {c : Cmd} {s : Redis} {lane : Lane}
    {e : Entry} (he : e ∈ ((c.exec cfg o s).2.streams lane).entries) :
    e ∈ (s.streams lane).entries ∨
      (c = .xaddMain e.fields ∧ (o.fault.any fun fault => !fault.tookEffect) = false) := by
  unfold Cmd.exec at he
  split at he
  next hfault =>
    have happly := Cmd.mem_entries_apply he
    simpa [hfault] using happly
  next fault hfault =>
    by_cases heffect : fault.tookEffect = true
    · rw [if_pos heffect] at he
      have happly := Cmd.mem_entries_apply he
      simpa [hfault, heffect] using happly
    · rw [if_neg heffect] at he
      exact .inl he

end OcrOrchestrator
