import Mathlib.Data.Nat.Notation
import Mathlib.Logic.Basic

/-!
# Programs as trees of atomic commands

A coroutine that talks to a shared store is, from the store's side, a sequence of
atomic commands with arbitrary pauses between them.  `Prog` keeps exactly that: a
program either returns, raises, or issues one command and continues with whatever
the command answered.  An answer is a value or an exception, so a caller's
`try`/`except` is part of the program and not of the store.

Every tree is well founded, so a program of this type always terminates; a service
that loops forever is modelled by starting such programs again and again.

## Main definitions

* `Prog C R E α` — programs over commands `C` with answers `R` and exceptions `E`.
* `Prog.perform`, `Prog.tryCatch`, `Prog.forEach` — one command, exception handling, and a loop
  over a sequence.
* `Prog.eval`, `Prog.Leads` — the run of one program with nobody interfering, and where it
  leads.
* `Prog.All` — every command the program can issue satisfies a predicate.
* `Prog.After` — what is left of a program once some commands were answered.
-/

namespace OcrOrchestrator.Lib

/-- A program over the commands `C`: `R c` is what the command `c` answers, `E` the
exceptions, `α` the result. -/
inductive Prog (C : Type) (R : C → Type) (E : Type) (α : Type) : Type where
  | ret (a : α)
  | raise (e : E)
  | call (c : C) (k : Except E (R c) → Prog C R E α)

namespace Prog
variable {C : Type} {R : C → Type} {E α β S : Type}

/-- Sequencing: an exception of the first program skips the second. -/
def bind : Prog C R E α → (α → Prog C R E β) → Prog C R E β
  | ret a, f => f a
  | raise e, _ => raise e
  | call c k, f => call c fun r => (k r).bind f

/-- `try p except e: h e`.  An exception raised by the handler itself propagates. -/
def tryCatch : Prog C R E α → (E → Prog C R E α) → Prog C R E α
  | ret a, _ => ret a
  | raise e, h => h e
  | call c k, h => call c fun r => (k r).tryCatch h

instance : Monad (Prog C R E) where
  pure := ret
  bind := bind

/-- Issue one command; its exception, if any, is raised here. -/
def perform (c : C) : Prog C R E (R c) :=
  call c fun
    | .ok a => ret a
    | .error e => raise e

/-- `for x in xs: f x`. -/
def forEach : List β → (β → Prog C R E Unit) → Prog C R E Unit
  | [], _ => ret ()
  | x :: xs, f => f x >>= fun _ => forEach xs f

@[simp] theorem pure_eq_ret (a : α) : (pure a : Prog C R E α) = ret a := rfl
@[simp] theorem ret_bind (a : α) (f : α → Prog C R E β) : (ret a >>= f) = f a := rfl
@[simp] theorem raise_bind (e : E) (f : α → Prog C R E β) : (raise e >>= f) = raise e := rfl
@[simp] theorem call_bind (c : C) (k : Except E (R c) → Prog C R E α)
    (f : α → Prog C R E β) : (call c k >>= f) = call c fun r => k r >>= f := rfl

/-- What a program goes on with after its first command. -/
inductive Next : Prog C R E α → Prog C R E α → Prop
  | call (c : C) (k : Except E (R c) → Prog C R E α) (r : Except E (R c)) : Next (k r) (call c k)

/-- A program does not go on for ever. -/
theorem wellFounded_next : WellFounded (Next (C := C) (R := R) (E := E) (α := α)) := by
  refine ⟨fun p => ?_⟩
  induction p with
  | ret a => exact ⟨_, fun q h => by cases h⟩
  | raise e => exact ⟨_, fun q h => by cases h⟩
  | call c k ih =>
    refine ⟨_, fun q h => ?_⟩
    cases h with
    | call _ _ r => exact ih r

/-- A program that goes on, or comes to its end. -/
inductive Behind : Option (Prog C R E α) → Option (Prog C R E α) → Prop
  | next {p q : Prog C R E α} (h : Next p q) : Behind (some p) (some q)
  | finished (p : Prog C R E α) : Behind none (some p)

theorem wellFounded_behind : WellFounded (Behind (C := C) (R := R) (E := E) (α := α)) := by
  have hnone : Acc (Behind (C := C) (R := R) (E := E) (α := α)) none := ⟨_, fun q h => by cases h⟩
  refine ⟨fun p => ?_⟩
  cases p with
  | none => exact hnone
  | some p =>
    induction p using wellFounded_next.induction with
    | h p ih =>
      refine ⟨_, fun q h => ?_⟩
      cases h with
      | next h => exact ih _ h
      | finished _ => exact hnone

/-! ## Running alone -/

/-- Run a program with nobody interfering: `exec` answers each command and moves the
state on. -/
def eval (exec : (c : C) → S → Except E (R c) × S) : Prog C R E α → S → Except E α × S
  | ret a, s => (.ok a, s)
  | raise e, s => (.error e, s)
  | call c k, s => (k (exec c s).1).eval exec (exec c s).2

variable (exec : (c : C) → S → Except E (R c) × S)

@[simp] theorem eval_ret (a : α) (s : S) :
    (ret a : Prog C R E α).eval exec s = (.ok a, s) := rfl
@[simp] theorem eval_raise (e : E) (s : S) :
    (raise e : Prog C R E α).eval exec s = (.error e, s) := rfl

/-- A sequence runs its first part, then, unless that raised, the rest. -/
theorem eval_bind (p : Prog C R E α) (f : α → Prog C R E β) (s : S) :
    (p >>= f).eval exec s =
      match p.eval exec s with
      | (.ok a, s') => (f a).eval exec s'
      | (.error e, s') => (.error e, s') := by
  induction p generalizing s with
  | ret a => rfl
  | raise e => rfl
  | call c k ih => exact ih (exec c s).1 (exec c s).2

/-- A guarded program runs its body and hands an exception, with the state it was
raised in, to the handler. -/
theorem eval_tryCatch (p : Prog C R E α) (h : E → Prog C R E α) (s : S) :
    (p.tryCatch h).eval exec s =
      match p.eval exec s with
      | (.ok a, s') => (.ok a, s')
      | (.error e, s') => (h e).eval exec s' := by
  induction p generalizing s with
  | ret a => rfl
  | raise e => rfl
  | call c k ih => exact ih (exec c s).1 (exec c s).2

/-- One command runs as its execution. -/
theorem eval_perform (c : C) (s : S) :
    (perform c : Prog C R E (R c)).eval exec s = exec c s := by
  change ((fun | .ok a => ret a | .error e => raise e : Except E (R c) → Prog C R E (R c))
    (exec c s).1).eval exec (exec c s).2 = exec c s
  rcases exec c s with ⟨_ | _, s'⟩ <;> rfl

/-- The run ends in a result and a state that satisfy `post`. -/
def Leads (p : Prog C R E α) (s : S) (post : Except E α → S → Prop) : Prop :=
  post (p.eval exec s).1 (p.eval exec s).2

section Leads
variable {exec : (c : C) → S → Except E (R c) × S} {s : S}

theorem Leads.mono {p : Prog C R E α} {post post' : Except E α → S → Prop}
    (h : p.Leads exec s post) (hpost : ∀ r s', post r s' → post' r s') : p.Leads exec s post' :=
  hpost _ _ h

/-- Sequencing: the second program takes over in the state the first one ends in. -/
theorem Leads.bind {p : Prog C R E α} {f : α → Prog C R E β} {m : Except E α → S → Prop}
    {post : Except E β → S → Prop} (h : p.Leads exec s m)
    (hok : ∀ a s', m (.ok a) s' → (f a).Leads exec s' post)
    (herr : ∀ e s', m (.error e) s' → post (.error e) s') : (p >>= f).Leads exec s post := by
  unfold Leads at h ⊢
  rw [eval_bind]
  revert h
  rcases p.eval exec s with ⟨e | a, s'⟩
  · exact herr e s'
  · exact hok a s'

/-- Sequencing after a program that is known to return `a`. -/
theorem Leads.bind_ok {p : Prog C R E α} {a : α} {f : α → Prog C R E β} {Q : S → Prop}
    {post : Except E β → S → Prop} (h : p.Leads exec s fun r s' => r = .ok a ∧ Q s')
    (hf : ∀ s', Q s' → (f a).Leads exec s' post) : (p >>= f).Leads exec s post := by
  refine h.bind ?_ ?_
  · rintro _ s' ⟨hr, hQ⟩
    obtain rfl := Except.ok.inj hr
    exact hf s' hQ
  · rintro e s' ⟨hr, -⟩
    cases hr

/-- Guarding: the handler takes over in the state the exception was raised in. -/
theorem Leads.tryCatch {p : Prog C R E α} {hd : E → Prog C R E α} {m post : Except E α → S → Prop}
    (h : p.Leads exec s m) (hok : ∀ a s', m (.ok a) s' → post (.ok a) s')
    (herr : ∀ e s', m (.error e) s' → (hd e).Leads exec s' post) :
    (p.tryCatch hd).Leads exec s post := by
  unfold Leads at h ⊢
  rw [eval_tryCatch]
  revert h
  rcases p.eval exec s with ⟨e | a, s'⟩
  · exact herr e s'
  · exact hok a s'

theorem Leads.perform {c : C} {post : Except E (R c) → S → Prop}
    (h : post (exec c s).1 (exec c s).2) : (perform c : Prog C R E (R c)).Leads exec s post := by
  unfold Leads
  rw [eval_perform]
  exact h

/-- The rule for a loop that keeps up with a left fold: `P` sees the elements visited so far,
what the fold has come to, and the state.  One iteration ends without an exception and adds
the next element. -/
theorem Leads.forEach {σ : Type} {f : β → Prog C R E Unit} {g : σ → β → σ} {xs : List β} {t : σ}
    (P : List β → σ → S → Prop) (h₀ : P [] t s)
    (hstep : ∀ pre x post t s, xs = pre ++ x :: post → P pre t s →
      (f x).Leads exec s fun r s' => r = .ok () ∧ P (pre ++ [x]) (g t x) s') :
    (forEach xs f).Leads exec s fun r s' => r = .ok () ∧ P xs (xs.foldl g t) s' := by
  have key : ∀ rest pre t s, xs = pre ++ rest → P pre t s →
      (Prog.forEach rest f).Leads exec s fun r s' => r = .ok () ∧ P xs (rest.foldl g t) s' := by
    intro rest
    induction rest with
    | nil =>
      intro pre t s hxs h
      obtain rfl : xs = pre := by simpa using hxs
      exact ⟨rfl, h⟩
    | cons x rest ih =>
      intro pre t s hxs h
      exact (hstep pre x rest t s hxs h).bind_ok fun s' h' =>
        ih (pre ++ [x]) (g t x) s' (by simpa using hxs) h'
  exact key xs [] t s rfl h₀

/-- The same for `for k in range(1, m + 1)`: `P` sees the number of iterations done. -/
theorem Leads.forRange {σ : Type} {f : ℕ → Prog C R E Unit} {g : σ → ℕ → σ} {m : ℕ} {t : σ}
    (P : ℕ → σ → S → Prop) (h₀ : P 0 t s)
    (hstep : ∀ k t s, k < m → P k t s →
      (f (k + 1)).Leads exec s fun r s' => r = .ok () ∧ P (k + 1) (g t (k + 1)) s') :
    (Prog.forEach (List.range' 1 m) f).Leads exec s fun r s' =>
      r = .ok () ∧ P m ((List.range' 1 m).foldl g t) s' := by
  have hiter : ∀ pre x post t s, List.range' 1 m = pre ++ x :: post → P pre.length t s →
      (f x).Leads exec s fun r s' => r = .ok () ∧ P (pre ++ [x]).length (g t x) s' := by
    intro pre x post t s hxs h
    have hlen : pre.length < m := by
      have := congrArg List.length hxs
      simp at this
      omega
    obtain rfl : x = pre.length + 1 := by
      have := congrArg (·[pre.length]?) hxs
      simp [hlen] at this
      omega
    simpa using hstep pre.length t s hlen h
  simpa using Leads.forEach (fun pre => P pre.length) h₀ hiter

end Leads

/-! ## The commands a program can issue -/

/-- Every command on every path of the program, whatever the answers, satisfies `P`. -/
def All (P : C → Prop) : Prog C R E α → Prop
  | ret _ => True
  | raise _ => True
  | call c k => P c ∧ ∀ r, (k r).All P

variable {P : C → Prop}

theorem All.mono {Q : C → Prop} {p : Prog C R E α} (h : p.All P) (hPQ : ∀ c, P c → Q c) :
    p.All Q := by
  induction p with
  | ret a => trivial
  | raise e => trivial
  | call c k ih => exact ⟨hPQ c h.1, fun r => ih r (h.2 r)⟩

theorem all_bind {p : Prog C R E α} {f : α → Prog C R E β}
    (hp : p.All P) (hf : ∀ a, (f a).All P) : (p >>= f).All P := by
  induction p with
  | ret a => exact hf a
  | raise e => trivial
  | call c k ih => exact ⟨hp.1, fun r => ih r (hp.2 r)⟩

theorem all_tryCatch {p : Prog C R E α} {h : E → Prog C R E α}
    (hp : p.All P) (hh : ∀ e, (h e).All P) : (p.tryCatch h).All P := by
  induction p with
  | ret a => trivial
  | raise e => exact hh e
  | call c k ih => exact ⟨hp.1, fun r => ih r (hp.2 r)⟩

theorem all_perform {c : C} (hc : P c) : (perform c : Prog C R E (R c)).All P := by
  refine ⟨hc, ?_⟩
  rintro (_ | _) <;> trivial

theorem All.and {Q : C → Prop} {p : Prog C R E α} (hP : p.All P) (hQ : p.All Q) :
    p.All fun c => P c ∧ Q c := by
  induction p with
  | ret a => trivial
  | raise e => trivial
  | call c k ih => exact ⟨⟨hP.1, hQ.1⟩, fun r => ih r (hP.2 r) (hQ.2 r)⟩

/-! ## What is left of a program -/

/-- Once the commands of `log` were answered, newest first, `q` is left of `p`. -/
inductive After (p : Prog C R E α) : List ((c : C) × Except E (R c)) → Prog C R E α → Prop
  | start : After p [] p
  | answer {log : List ((c : C) × Except E (R c))} {c : C} {k : Except E (R c) → Prog C R E α}
      (h : After p log (call c k)) (r : Except E (R c)) : After p (⟨c, r⟩ :: log) (k r)

/-- What holds of every command holds of those still to come, and held of those answered. -/
theorem After.all {p q : Prog C R E α} {log : List ((c : C) × Except E (R c))}
    (h : p.After log q) (hp : p.All P) : q.All P ∧ ∀ e ∈ log, P e.1 := by
  induction h with
  | start => exact ⟨hp, by simp⟩
  | answer _ r ih =>
    refine ⟨ih.1.2 r, ?_⟩
    simpa using ⟨ih.1.1, ih.2⟩

end Prog
end OcrOrchestrator.Lib
