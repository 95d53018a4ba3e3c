import OcrOrchestrator.Lib.Prog

/-!
# Programs that follow a protocol

A protocol is an automaton over the commands of a program and their answers: from a
phase it may move to another when a command is answered.  A program follows it from a
phase if, whatever answers it gets, every command it issues is matched by a move.

This is what lets a concurrent argument forget the program text.  The program is walked
through once, alone, to show that it follows the protocol; after that, what several
such programs do to a shared state is an argument about phases.

`may` says which answers have to be considered at all, so that a caller can leave out
failures that the environment of a statement excludes.

## Main definitions

* `Protocol` — phases, moves, and the answers that can occur.
* `Prog.Follows π post p φ` — from phase `φ`, `p` only makes moves of `π`, and ends in
  a phase that satisfies `post`.
* `Protocol.logged P` — the phase is the list of answers so far, and `P` says which
  commands may be issued after which answers.
* `Protocol.honest may P` — the same, when only answers that satisfy `may` occur.
* `Prog.Must may q p` — with answers that satisfy `may`, `p` does not end before it has
  issued a command that satisfies `q`.
* `Prog.Yields may post p` — with answers that satisfy `may`, what `p` returns satisfies
  `post`.
-/

namespace OcrOrchestrator.Lib

/-- An automaton over commands and their answers. -/
structure Protocol (C : Type) (R : C → Type) (E : Type) (Φ : Type) where
  may : (c : C) → Except E (R c) → Prop
  move : Φ → (c : C) → Except E (R c) → Φ → Prop

/-- The phase is the list of answers so far, newest first; `P` says which commands may be
issued after which answers. -/
def Protocol.logged {C : Type} {R : C → Type} {E : Type}
    (P : List ((c : C) × Except E (R c)) → C → Prop) :
    Protocol C R E (List ((c : C) × Except E (R c))) where
  may _ _ := True
  move log c r log' := P log c ∧ log' = ⟨c, r⟩ :: log

/-- The same for answers that satisfy `may`. -/
def Protocol.honest {C : Type} {R : C → Type} {E : Type} (may : (c : C) → Except E (R c) → Prop)
    (P : List ((c : C) × Except E (R c)) → C → Prop) :
    Protocol C R E (List ((c : C) × Except E (R c))) where
  may := may
  move log c r log' := P log c ∧ log' = ⟨c, r⟩ :: log

namespace Prog
variable {C : Type} {R : C → Type} {E α β Φ : Type}

/-- From phase `φ`, every command of the program is matched by a move, and the program
ends in a phase that satisfies `post`. -/
def Follows (π : Protocol C R E Φ) (post : Except E α → Φ → Prop) : Prog C R E α → Φ → Prop
  | ret a, φ => post (.ok a) φ
  | raise e, φ => post (.error e) φ
  | call c k, φ => ∀ r, π.may c r → ∃ φ', π.move φ c r φ' ∧ (k r).Follows π post φ'

variable {π : Protocol C R E Φ} {φ : Φ}

theorem Follows.mono {post post' : Except E α → Φ → Prop} {p : Prog C R E α}
    (h : p.Follows π post φ) (hpost : ∀ r φ', post r φ' → post' r φ') :
    p.Follows π post' φ := by
  induction p generalizing φ with
  | ret a => exact hpost _ _ h
  | raise e => exact hpost _ _ h
  | call c k ih =>
    intro r hr
    obtain ⟨φ', hmove, hk⟩ := h r hr
    exact ⟨φ', hmove, ih r hk⟩

/-- Sequencing: the second program follows from wherever the first one ends. -/
theorem Follows.bind {post : Except E β → Φ → Prop} {p : Prog C R E α}
    {f : α → Prog C R E β} {m : Except E α → Φ → Prop} (h : p.Follows π m φ)
    (hok : ∀ a φ', m (.ok a) φ' → (f a).Follows π post φ')
    (herr : ∀ e φ', m (.error e) φ' → post (.error e) φ') :
    (p >>= f).Follows π post φ := by
  induction p generalizing φ with
  | ret a => exact hok a φ h
  | raise e => exact herr e φ h
  | call c k ih =>
    intro r hr
    obtain ⟨φ', hmove, hk⟩ := h r hr
    exact ⟨φ', hmove, ih r hk⟩

/-- Guarding: the handler follows from wherever the exception was raised. -/
theorem Follows.tryCatch {post : Except E α → Φ → Prop} {p : Prog C R E α}
    {hd : E → Prog C R E α} {m : Except E α → Φ → Prop} (h : p.Follows π m φ)
    (hok : ∀ a φ', m (.ok a) φ' → post (.ok a) φ')
    (herr : ∀ e φ', m (.error e) φ' → (hd e).Follows π post φ') :
    (p.tryCatch hd).Follows π post φ := by
  induction p generalizing φ with
  | ret a => exact hok a φ h
  | raise e => exact herr e φ h
  | call c k ih =>
    intro r hr
    obtain ⟨φ', hmove, hk⟩ := h r hr
    exact ⟨φ', hmove, ih r hk⟩

/-- One command: every answer that can occur is a move to a phase that satisfies
`post`. -/
theorem Follows.perform {c : C} {post : Except E (R c) → Φ → Prop}
    (h : ∀ r, π.may c r → ∃ φ', π.move φ c r φ' ∧ post r φ') :
    (Prog.perform c : Prog C R E (R c)).Follows π post φ := by
  intro r hr
  obtain ⟨φ', hmove, hpost⟩ := h r hr
  refine ⟨φ', hmove, ?_⟩
  cases r with
  | ok a => exact hpost
  | error e => exact hpost

/-- One command, and what follows it. -/
theorem Follows.perform_bind {c : C} {f : R c → Prog C R E α} {post : Except E α → Φ → Prop}
    (hok : ∀ a, π.may c (.ok a) → ∃ φ', π.move φ c (.ok a) φ' ∧ (f a).Follows π post φ')
    (herr : ∀ e, π.may c (.error e) → ∃ φ', π.move φ c (.error e) φ' ∧ post (.error e) φ') :
    (Prog.perform c >>= f).Follows π post φ := by
  intro r hr
  cases r with
  | ok a => exact hok a hr
  | error e => exact herr e hr

section Logged
variable {P : List ((c : C) × Except E (R c)) → C → Prop} {log : List ((c : C) × Except E (R c))}

/-- A program whose commands may all be issued after any answers only adds to the list. -/
theorem All.follows {Q : C → Prop} {p : Prog C R E α} (h : p.All Q)
    (hQ : ∀ log c, Q c → P log c) :
    p.Follows (Protocol.logged P) (fun _ log' => log <:+ log') log := by
  suffices hp : ∀ log', log <:+ log' →
      p.Follows (Protocol.logged P) (fun _ log' => log <:+ log') log' from hp log (List.suffix_refl log)
  induction p with
  | ret a => exact fun _ hlog => hlog
  | raise e => exact fun _ hlog => hlog
  | call c k ih =>
    intro log' hlog r _
    exact ⟨_, ⟨hQ _ _ h.1, rfl⟩, ih r (h.2 r) _ (hlog.trans (List.suffix_cons _ _))⟩

/-- What is left of a program follows from the answers it has had. -/
theorem After.follows {post : Except E α → List ((c : C) × Except E (R c)) → Prop}
    {p q : Prog C R E α} (h : p.After log q) (hp : p.Follows (Protocol.logged P) post []) :
    q.Follows (Protocol.logged P) post log := by
  induction h with
  | start => exact hp
  | answer _ r ih =>
    obtain ⟨_, ⟨-, rfl⟩, hrest⟩ := ih r trivial
    exact hrest

/-- Every command was allowed by the answers before it. -/
theorem After.allowed {post : Except E α → List ((c : C) × Except E (R c)) → Prop}
    {p q : Prog C R E α} {c : C} {r : Except E (R c)} (h : p.After (⟨c, r⟩ :: log) q)
    (hp : p.Follows (Protocol.logged P) post []) : P log c := by
  cases h with
  | answer hcall =>
    obtain ⟨_, ⟨hc, -⟩, -⟩ := hcall.follows hp r trivial
    exact hc

end Logged

section Honest
variable {may : (c : C) → Except E (R c) → Prop}
  {P : List ((c : C) × Except E (R c)) → C → Prop} {log : List ((c : C) × Except E (R c))}

/-- A program whose commands are all of one kind, which may be issued after any answers, adds
entries of that kind. -/
theorem All.follows_honest {Q : C → Prop} {p : Prog C R E α} (h : p.All Q)
    (hQ : ∀ log c, Q c → P log c) :
    p.Follows (Protocol.honest may P)
      (fun _ log' => ∃ new, log' = new ++ log ∧ ∀ e ∈ new, Q e.1 ∧ may e.1 e.2) log := by
  suffices hp : ∀ new, (∀ e ∈ new, Q e.1 ∧ may e.1 e.2) →
      p.Follows (Protocol.honest may P)
        (fun _ log' => ∃ new, log' = new ++ log ∧ ∀ e ∈ new, Q e.1 ∧ may e.1 e.2) (new ++ log) from
    hp [] (by simp)
  induction p with
  | ret a => exact fun new hnew => ⟨new, rfl, hnew⟩
  | raise e => exact fun new hnew => ⟨new, rfl, hnew⟩
  | call c k ih =>
    intro new hnew r hr
    refine ⟨_, ⟨hQ _ _ h.1, rfl⟩, ih r (h.2 r) (⟨c, r⟩ :: new) ?_⟩
    intro e he
    rcases List.mem_cons.mp he with rfl | he
    · exact ⟨h.1, hr⟩
    · exact hnew e he

/-- What is left of a program follows from the answers it has had. -/
theorem After.follows_honest {post : Except E α → List ((c : C) × Except E (R c)) → Prop}
    {p q : Prog C R E α} (h : p.After log q) (hmay : ∀ e ∈ log, may e.1 e.2)
    (hp : p.Follows (Protocol.honest may P) post []) : q.Follows (Protocol.honest may P) post log := by
  induction h with
  | start => exact hp
  | answer _ r ih =>
    obtain ⟨_, ⟨-, rfl⟩, hrest⟩ :=
      ih (fun e he => hmay e (List.mem_cons_of_mem _ he)) r (hmay ⟨_, r⟩ List.mem_cons_self)
    exact hrest

/-- Every command was allowed by the answers before it. -/
theorem After.allowed_honest {post : Except E α → List ((c : C) × Except E (R c)) → Prop}
    {p q : Prog C R E α} (h : p.After log q) (hmay : ∀ e ∈ log, may e.1 e.2)
    (hp : p.Follows (Protocol.honest may P) post []) {newer older : List ((c : C) × Except E (R c))}
    {c : C} {r : Except E (R c)} (hlog : log = newer ++ ⟨c, r⟩ :: older) : P older c := by
  induction h generalizing newer with
  | start => simp at hlog
  | @answer log c' k hcall r' ih =>
    have hmay' : ∀ e ∈ log, may e.1 e.2 := fun e he => hmay e (List.mem_cons_of_mem _ he)
    cases newer with
    | nil =>
      obtain ⟨heq, rfl⟩ := List.cons.inj hlog
      obtain ⟨rfl, -⟩ := Sigma.mk.inj heq
      obtain ⟨_, ⟨hc, -⟩, -⟩ :=
        hcall.follows_honest hmay' hp r' (hmay ⟨_, r'⟩ List.mem_cons_self)
      exact hc
    | cons x newer => exact ih hmay' (List.cons.inj hlog).2

end Honest

/-- As long as the answers satisfy `may`, the program does not end before it has issued a
command that satisfies `q`.  Programs are well founded, so it does issue one. -/
def Must (may : (c : C) → Except E (R c) → Prop) (q : C → Prop) : Prog C R E α → Prop
  | ret _ => False
  | raise _ => False
  | call c k => q c ∨ ∀ r, may c r → (k r).Must may q

section Must
variable {may : (c : C) → Except E (R c) → Prop} {q : C → Prop}

theorem Must.perform {c : C} (h : q c) : (perform c : Prog C R E (R c)).Must may q := .inl h

/-- A program that must issue the command still must when something follows it. -/
theorem Must.bind {p : Prog C R E α} {f : α → Prog C R E β} (h : p.Must may q) :
    (p >>= f).Must may q := by
  induction p with
  | ret a => exact h.elim
  | raise e => exact h.elim
  | call c k ih => exact h.imp_right fun hk r hr => ih r (hk r hr)

/-- A first part that issues one command and then returns something leads to programs that
must issue it, if the command does not raise. -/
theorem Must.perform_bind {c : C} {g : R c → Prog C R E α} {f : α → Prog C R E β}
    (hok : ∀ a, may c (.ok a) → (g a >>= f).Must may q)
    (herr : ∀ e, ¬ may c (.error e)) : ((Prog.perform c >>= g) >>= f).Must may q := by
  refine .inr fun r hr => ?_
  cases r with
  | ok a => exact hok a hr
  | error e => exact absurd hr (herr e)

/-- A guarded command whose answers lead, directly or through the handler, to programs that
must issue it. -/
theorem Must.perform_tryCatch {c : C} {g : R c → Prog C R E α} {hd : E → Prog C R E α}
    {f : α → Prog C R E β}
    (hok : ∀ a, may c (.ok a) → ((g a).tryCatch hd >>= f).Must may q)
    (herr : ∀ e, may c (.error e) → (hd e >>= f).Must may q) :
    ((Prog.perform c >>= g).tryCatch hd >>= f).Must may q := by
  refine .inr fun r hr => ?_
  cases r with
  | ok a => exact hok a hr
  | error e => exact herr e hr

end Must

/-- As long as the answers satisfy `may`, whatever the program returns satisfies `post`. -/
def Yields (may : (c : C) → Except E (R c) → Prop) (post : α → Prop) : Prog C R E α → Prop
  | ret a => post a
  | raise _ => True
  | call c k => ∀ r, may c r → (k r).Yields may post

section Yields
variable {may : (c : C) → Except E (R c) → Prop}

theorem Yields.mono {post post' : α → Prop} {p : Prog C R E α} (h : p.Yields may post)
    (hpost : ∀ a, post a → post' a) : p.Yields may post' := by
  induction p with
  | ret a => exact hpost a h
  | raise e => trivial
  | call c k ih => exact fun r hr => ih r (h r hr)

theorem Yields.bind {post : β → Prop} {p : Prog C R E α} {f : α → Prog C R E β} {m : α → Prop}
    (h : p.Yields may m) (hf : ∀ a, m a → (f a).Yields may post) :
    (p >>= f).Yields may post := by
  induction p with
  | ret a => exact hf a h
  | raise e => trivial
  | call c k ih => exact fun r hr => ih r (h r hr)

theorem Yields.tryCatch {post : α → Prop} {p : Prog C R E α} {hd : E → Prog C R E α}
    (h : p.Yields may post) (hhd : ∀ e, (hd e).Yields may post) :
    (p.tryCatch hd).Yields may post := by
  induction p with
  | ret a => exact h
  | raise e => exact hhd e
  | call c k ih => exact fun r hr => ih r (h r hr)

theorem Yields.perform {c : C} {post : R c → Prop} (h : ∀ a, may c (.ok a) → post a) :
    (perform c : Prog C R E (R c)).Yields may post := by
  intro r hr
  cases r with
  | ok a => exact h a hr
  | error e => trivial

end Yields

end Prog
end OcrOrchestrator.Lib
