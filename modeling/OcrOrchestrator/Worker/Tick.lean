import OcrOrchestrator.Worker.Phase
import OcrOrchestrator.Worker.Step

/-!
# What one step of a phased fleet can do

With every live party in a phase of the protocol, a step of the fleet is one of six
things.  `Tick` lists them with everything later arguments use: the party that acts, the
move it makes, and the effect on the store.

## Main definitions

* `Effect` — what an act does to page states, task streams and result streams.
* `Phased` — every live party follows the protocol from its phase.
* `Tick`, `step_tick` — a step keeps the fleet phased and is one of the six.
* `Tick.party_cases` — where the parties alive after a tick come from.
-/

namespace OcrOrchestrator

open Lib PageState Phase

/-! ## The effect of an act -/

/-- What an act does to the store, seen through page states, task streams and results. -/
def Effect (s s' : Redis) : Act → Prop
  | .look key seen => s' = s ∧ seen = s.state? key
  | .request key target allowed _ ok _ =>
      s'.streams = s.streams ∧ s'.results = s.results ∧
        ((ok = true ∧ (∃ st ∈ allowed, s.state? key = some st) ∧
            s'.state? = Function.update s.state? key (some target)) ∨
          (ok = false ∧ (∀ st ∈ allowed, s.state? key ≠ some st) ∧ s'.state? = s.state?))
  | .publish job body ok =>
      s'.streams = s.streams ∧ s'.state? = s.state? ∧
        ((∃ maxlen now trim, s'.results = Function.update s.results job
            ((s.results job).publishScript maxlen now trim body).2) ∨
          (ok = false ∧ s'.results = s.results))
  | .add fields =>
      s'.results = s.results ∧ s'.state? = s.state? ∧
        ∃ now, s'.streams = Function.update s.streams .main ((s.streams .main).xadd now fields).2
  | .xack entry =>
      s'.results = s.results ∧ s'.state? = s.state? ∧
        s'.streams = Function.update s.streams entry.1 ((s.streams entry.1).xack entry.2)
  | .xdel entry =>
      s'.results = s.results ∧ s'.state? = s.state? ∧
        s'.streams = Function.update s.streams entry.1 ((s.streams entry.1).xdel entry.2)
  | .quiet => s'.streams = s.streams ∧ s'.results = s.results ∧ s'.state? = s.state?
  | .model _ _ => s' = s

/-- A transition changes the state of its page exactly when it is applied. -/
theorem effect_evalTransition (cfg : Settings) (o : Oracle) (s : Redis) (key : PageKey)
    (target : PageState) (allowed : List PageState) (extra : List (PageField × Json)) :
    let out := (Cmd.evalTransition key target allowed extra).apply cfg o s
    Effect s out.2 (.request key target allowed extra out.1.ok out.1.completed) := by
  refine ⟨rfl, rfl, ?_⟩
  have hstate : ((Cmd.evalTransition key target allowed extra).apply cfg o s).2.state? =
      Function.update s.state? key
        ((transitionScript target o.now target.terminal (cfg.resultTtlS * 1000) allowed extra
          (s.pages key) (s.jobs key.job)).2.1.map PageHash.state) := by
    funext k
    by_cases hk : k = key
    · subst hk
      simp [Redis.state?, Cmd.apply]
    · simp [Redis.state?, Cmd.apply, hk]
  rw [hstate]
  cases hp : s.pages key with
  | none =>
    right
    refine ⟨by simp [Cmd.apply, hp, transitionScript_missing, Reply.rejected], ?_, ?_⟩
    · simp [Redis.state?, hp]
    · rw [transitionScript_missing]
      exact Function.update_eq_self_iff.mpr (by simp [Redis.state?, hp])
  | some p =>
    by_cases hin : p.state ∈ allowed
    · left
      refine ⟨?_, ⟨p.state, hin, by simp [Redis.state?, hp]⟩, ?_⟩
      · simp only [Cmd.apply, hp]
        exact (transitionScript_applied hin).1
      · rw [(transitionScript_applied hin).2]
        rfl
    · right
      refine ⟨by simp [Cmd.apply, hp, transitionScript_rejected hin, Reply.rejected], ?_, ?_⟩
      · intro st hst h
        simp only [Redis.state?, hp, Option.map_some, Option.some.injEq] at h
        exact hin (h ▸ hst)
      · rw [transitionScript_rejected hin]
        exact Function.update_eq_self_iff.mpr (by simp [Redis.state?, hp])

/-- The script reports counts only for terminal targets. -/
theorem truthful_evalTransition (cfg : Settings) (o : Oracle) (s : Redis) (key : PageKey)
    (target : PageState) (allowed : List PageState) (extra : List (PageField × Json))
    (h : target.terminal = false) :
    ((Cmd.evalTransition key target allowed extra).apply cfg o s).1.completed = false := by
  simp only [Cmd.apply, h]
  cases hp : s.pages key with
  | none => rfl
  | some p =>
    by_cases hin : p.state ∈ allowed
    · simp [transitionScript, hin, Reply.completed]
    · simp [transitionScript_rejected hin, Reply.rejected, Reply.completed]

section Exec
variable {cfg : Settings} {o : Oracle} {c : Cmd} {s : Redis}

/-- Every answered command has the effect of its act. -/
theorem effect_exec (h : c.isStoreOrQueue = true → o.fault = none) :
    Effect s (c.exec cfg o s).2 (Act.of c (c.exec cfg o s).1) := by
  cases hf : o.fault with
  | none =>
    rw [Cmd.exec_of_fault_none hf]
    cases c with
    | evalTransition key target allowed extra => exact effect_evalTransition ..
    | pexpirePages job total => exact ⟨rfl, rfl, Redis.state?_pexpirePages ..⟩
    | hgetallPage key => exact ⟨rfl, rfl⟩
    | publish job body => exact ⟨rfl, rfl, .inl ⟨_, _, _, rfl⟩⟩
    | xaddMain fields => exact ⟨rfl, rfl, _, rfl⟩
    | layout key => exact rfl
    | vlm key => exact rfl
    | _ => exact ⟨rfl, rfl, rfl⟩
  | some fault =>
    have hexec : c.exec cfg o s =
        (.error fault.exn, if fault.tookEffect then (c.apply cfg o s).2 else s) := by
      simp [Cmd.exec, hf]
    cases c with
    | publish job body =>
      rw [hexec]
      cases fault.tookEffect
      · exact ⟨rfl, rfl, .inr ⟨rfl, rfl⟩⟩
      · exact ⟨rfl, rfl, .inl ⟨_, _, _, rfl⟩⟩
    | layout key =>
      rw [hexec]
      cases fault.tookEffect <;> exact rfl
    | vlm key =>
      rw [hexec]
      cases fault.tookEffect <;> exact rfl
    | resolvePage key =>
      rw [hexec]
      cases fault.tookEffect <;> exact ⟨rfl, rfl, rfl⟩
    | deleteDocument job =>
      rw [hexec]
      cases fault.tookEffect <;> exact ⟨rfl, rfl, rfl⟩
    | time =>
      rw [hexec]
      cases fault.tookEffect <;> exact ⟨rfl, rfl, rfl⟩
    | _ => simp [hf, Cmd.isStoreOrQueue] at h

/-- Every answered command is one the protocol considers. -/
theorem may_exec (b : Brief) (h : c.isStoreOrQueue = true → o.fault = none) :
    (pageProtocol b).may c (c.exec cfg o s).1 := by
  constructor
  · intro hc
    rw [Cmd.exec_of_fault_none (h hc)]
    rfl
  · cases c with
    | evalTransition key target allowed extra =>
      rw [Cmd.exec_of_fault_none (h rfl)]
      exact fun h => truthful_evalTransition _ _ _ _ _ _ _ h
    | _ => trivial

end Exec

/-! ## Phased fleets -/

/-- What the protocol knows about a party. -/
def Party.brief (cfg : Settings) (p : Party) : Brief where
  task := p.task
  role := p.role
  final := p.final
  handoff := cfg.stageHandoff

/-- Every live party follows the protocol from its phase. -/
def Phased (cfg : Settings) (f : Fleet) (φ : ℕ → Phase) : Prop :=
  ∀ t p, f.parties t = some p →
    t < f.next ∧ p.prog.Follows (pageProtocol (p.brief cfg)) NothingOwed (φ t)

/-- Who owes an event has not ended. -/
theorem call_of_telling {b : Brief} {prog : Py Unit} {φ : Phase}
    (h : prog.Follows (pageProtocol b) NothingOwed φ) (hφ : φ.telling = true) :
    ∃ c k, prog = .call c k := by
  cases prog with
  | call c k => exact ⟨c, k, rfl⟩
  | ret a =>
    have hend : φ.telling = false := h
    simp [hφ] at hend
  | raise e =>
    have hend : φ.telling = false := h
    simp [hφ] at hend

/-- What one step of a phased fleet can do. -/
inductive Tick (cfg : Settings) (f : Fleet) (φ : ℕ → Phase) :
    Label → Fleet → (ℕ → Phase) → Prop
  | submit (job : JobId) (totalPages now : ℕ) (hnew : f.redis.jobs job = none) :
      Tick cfg f φ (.initJob job totalPages now)
        { f with redis := initJob cfg now job totalPages f.redis } φ
  | enqueue (key : PageKey) (now : ℕ) (traceId : String)
      (hpage : (f.redis.pages key).isSome = true) (hnew : f.enqueued key = false) :
      Tick cfg f φ (.enqueue key now traceId)
        { f with
          redis := f.redis.setStream (enqueueLane key)
            ((f.redis.streams (enqueueLane key)).xadd now (enqueueFields key now traceId)).2
          enqueued := Function.update f.enqueued key true } φ
  | idle (l : Label) (procs : Consumer → Option ProcStage) (streams : Lane → TaskStream)
      (h : ∀ lane, (f.redis.streams lane).SameEntries (streams lane))
      (howner : ∀ lane id q, (streams lane).owner? id = some q →
        (f.redis.streams lane).owner? id = some q ∨
          f.anyParty (fun p => decide (p.consumer = q.consumer ∧ p.entry = (lane, id))) = true) :
      Tick cfg f φ l { f with procs, redis := { f.redis with streams } } φ
  | take {l : Label} {p : Party} {e : Entry} {stream : TaskStream} (hl : l.Takes p)
      (h : Taken f p e stream) :
      Tick cfg f φ l ({ f with redis := f.redis.setStream p.task.stream stream }.spawn p)
        (Function.update φ f.next look)
  | crash (c : Consumer) :
      Tick cfg f φ (.crash c)
        { f with
          procs := Function.update f.procs c none
          parties := fun t => (f.parties t).filter fun p => decide (p.consumer ≠ c) } φ
  | act {t : ℕ} {o : Oracle} {p : Party} {c : Cmd} {k : Except Exn (Ret c) → Py Unit}
      {φ' : Phase} (hparty : f.parties t = some p) (hprog : p.prog = .call c k)
      (hmove : Move (p.brief cfg) (φ t) (Act.of c (c.exec cfg o f.redis).1) φ')
      (heffect : Effect f.redis (c.exec cfg o f.redis).2
        (Act.of c (c.exec cfg o f.redis).1))
      (hgoes : φ'.telling = true → ∃ c' k', k (c.exec cfg o f.redis).1 = .call c' k') :
      Tick cfg f φ (.run t o)
        (f.resume t p ⟨c, (c.exec cfg o f.redis).1⟩ (k (c.exec cfg o f.redis).1)
          (c.exec cfg o f.redis).2) (Function.update φ t φ')

/-! ## From steps to ticks -/

section Step
variable {cfg : Settings} {f f' : Fleet} {φ : ℕ → Phase}

/-- A party alive after somebody acted was alive before, on the same entry. -/
theorem resume_parties_back (cfg : Settings) {t t' : ℕ} {p q : Party} {e : Event} {prog : Py Unit} {s : Redis}
    (hp : f.parties t = some p) (h : (f.resume t p e prog s).parties t' = some q) :
    ∃ q', f.parties t' = some q' ∧ q.key = q'.key ∧ q.entry = q'.entry ∧
      q.consumer = q'.consumer ∧ q.brief cfg = q'.brief cfg := by
  by_cases ht : t' = t
  · subst ht
    obtain rfl := resume_parties_self h
    exact ⟨p, hp, rfl, rfl, rfl, rfl⟩
  · rw [resume_parties_ne ht] at h
    exact ⟨q, h, rfl, rfl, rfl, rfl⟩

/-- Spawning a party that starts to follow the protocol keeps the fleet phased. -/
theorem Phased.spawn (h : Phased cfg f φ) {p : Party}
    (hp : p.prog.Follows (pageProtocol (p.brief cfg)) NothingOwed look) :
    Phased cfg (f.spawn p) (Function.update φ f.next look) := by
  intro t q hq
  by_cases ht : t = f.next
  · subst ht
    simp only [Fleet.spawn, Function.update_self, Option.some.injEq] at hq
    subst hq
    simp only [Fleet.spawn, Function.update_self]
    exact ⟨Nat.lt_succ_self _, hp⟩
  · simp only [Fleet.spawn, ne_eq, ht, not_false_eq_true, Function.update_of_ne] at hq ⊢
    obtain ⟨hlt, hfol⟩ := h t q hq
    exact ⟨Nat.lt_succ_of_lt hlt, hfol⟩

/-- **A step of a phased fleet** in which store calls succeed is one of the six, and leaves
the fleet phased. -/
theorem step_tick {l : Label} (h : Phased cfg f φ) (hstore : storeCallsSucceed f l = true)
    (hstep : f.step cfg l = some f') :
    ∃ φ', Tick cfg f φ l f' φ' ∧ Phased cfg f' φ' := by
  cases step_spec hstep with
  | submit job totalPages now hnew => exact ⟨φ, .submit job totalPages now hnew, h⟩
  | enqueue key now traceId hpage hnew => exact ⟨φ, .enqueue key now traceId hpage hnew, h⟩
  | idle l procs streams hs howner => exact ⟨φ, .idle l procs streams hs howner, h⟩
  | @take l p e stream hl ht hstarts =>
    refine ⟨_, .take hl ht, ?_⟩
    refine Phased.spawn (f := { f with redis := _ }) h ?_
    rcases hstarts with ⟨hrole, hprog⟩ | ⟨hrole, hprog⟩ <;> rw [hprog]
    · exact follows_handlePage (b := p.brief cfg) cfg hrole rfl
    · exact follows_recover (b := p.brief cfg) cfg hrole
  | crash c =>
    refine ⟨φ, .crash c, ?_⟩
    intro t p hp
    exact h t p (Option.filter_eq_some_iff.mp hp).1
  | @run t o p c k hparty hprog =>
    obtain ⟨hlt, hfollows⟩ := h t p hparty
    have hok : c.isStoreOrQueue = true → o.fault = none := by
      intro hc
      simpa [storeCallsSucceed, hparty, Party.awaited, hprog, hc] using hstore
    rw [hprog] at hfollows
    obtain ⟨φ', hmove, hk⟩ := hfollows _ (may_exec (p.brief cfg) hok)
    refine ⟨_, .act hparty hprog hmove (effect_exec hok) (call_of_telling hk), ?_⟩
    intro t' q hq
    by_cases ht : t' = t
    · subst ht
      obtain rfl := resume_parties_self hq
      rw [Function.update_self]
      exact ⟨hlt, hk⟩
    · rw [resume_parties_ne ht] at hq
      rw [Function.update_of_ne ht]
      exact h t' q hq

/-- Whoever is alive after a tick was there before in the same phase, has just taken an
entry, or is the party that acted. -/
theorem Tick.party_cases {l : Label} {φ' : ℕ → Phase} (h : Tick cfg f φ l f' φ') {t : ℕ}
    {q : Party} (hq : f'.parties t = some q) :
    (f.parties t = some q ∧ φ' t = φ t) ∨ (t = f.next ∧ φ' t = look ∧ q.log = []) ∨
      ∃ p c ans, f.parties t = some p ∧ Move (p.brief cfg) (φ t) (Act.of c ans) (φ' t) ∧
        ∃ prog, q = { p with log := ⟨c, ans⟩ :: p.log, prog } := by
  cases h with
  | submit => exact .inl ⟨hq, rfl⟩
  | enqueue => exact .inl ⟨hq, rfl⟩
  | idle => exact .inl ⟨hq, rfl⟩
  | crash => exact .inl ⟨(Option.filter_eq_some_iff.mp hq).1, rfl⟩
  | take hl htaken =>
    by_cases ht : t = f.next
    · subst ht
      obtain rfl := Option.some.inj (spawn_parties_self.symm.trans hq)
      exact .inr (.inl ⟨rfl, by simp, htaken.log⟩)
    · exact .inl ⟨(spawn_parties_ne ht).symm.trans hq, Function.update_of_ne ht _ _⟩
  | @act t' o p c k φ₁ hparty hprog hmove heffect hgoes =>
    by_cases ht : t = t'
    · subst ht
      refine .inr (.inr ⟨p, c, _, hparty, ?_, _, resume_parties_self hq⟩)
      rw [Function.update_self]
      exact hmove
    · rw [resume_parties_ne ht] at hq
      exact .inl ⟨hq, Function.update_of_ne ht _ _⟩

end Step

end OcrOrchestrator
