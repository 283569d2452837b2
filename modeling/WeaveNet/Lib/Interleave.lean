import Mathlib

/-!
# Programs that call a shared service, interleaved

A program that calls an outside service is a tree (`Prog`, the free monad of the calls): it
returns, or it makes a call `c` and continues with the answer, whose type `R c` depends on the
call. Programs written in `do` notation over `Prog` keep their local state in the continuations.

Several programs run against one service (`Sys`). A schedule names, step by step, the program
whose pending call the service answers next (`Sys.step`); each answer is atomic, so every
interleaving of the programs' calls is the run of some schedule (`Sys.run`).

What the service keeps, or how it relates its states, over every answer, it keeps over every run:
`run_inv` and `run_rel` are the rules that the models of services use.
-/

namespace WeaveNet.Lib

/-- A program that calls a service with calls `C`, the call `c` being answered by an `R c`. -/
inductive Prog (C : Type) (R : C → Type) (α : Type) where
  | pure (a : α)
  | call (c : C) (k : R c → Prog C R α)

namespace Prog

variable {C : Type} {R : C → Type} {α β : Type}

/-- Run `x`, then `f` on its result. -/
def bind : Prog C R α → (α → Prog C R β) → Prog C R β
  | pure a, f => f a
  | call c k, f => call c fun r => bind (k r) f

instance : Monad (Prog C R) where
  pure := pure
  bind := bind

/-- Make the call `c` and return its answer. -/
def request (c : C) : Prog C R (R c) := call c pure

@[simp] theorem pure_bind' (a : α) (f : α → Prog C R β) : (pure a : Prog C R α) >>= f = f a := rfl

@[simp] theorem call_bind (c : C) (k : R c → Prog C R α) (f : α → Prog C R β) :
    (call c k : Prog C R α) >>= f = call c fun r => k r >>= f := rfl

@[simp] theorem request_bind (c : C) (f : R c → Prog C R β) : request c >>= f = call c f := rfl

/-- The result of a program that has returned. -/
def result : Prog C R α → Option α
  | pure a => some a
  | call _ _ => none

end Prog

/-- Programs running against one service. -/
structure Sys (σ : Type) (C : Type) (R : C → Type) (α : Type) where
  service : σ
  threads : List (Prog C R α)

namespace Sys

variable {σ C : Type} {R : C → Type} {α : Type} (answer : σ → (c : C) → R c × σ)

/-- The service answers the pending call of program `i`, which goes on with the answer; a
schedule that names a program that has returned, or none, does nothing. -/
def step (s : Sys σ C R α) (i : Nat) : Sys σ C R α :=
  match s.threads[i]? with
  | some (.call c k) =>
    let (r, service) := answer s.service c
    ⟨service, s.threads.set i (k r)⟩
  | _ => s

/-- The run of a schedule. -/
def run (s : Sys σ C R α) (sched : List Nat) : Sys σ C R α :=
  sched.foldl (step answer) s

@[simp] theorem run_nil (s : Sys σ C R α) : s.run answer [] = s := rfl

@[simp] theorem run_cons (s : Sys σ C R α) (i : Nat) (sched : List Nat) :
    s.run answer (i :: sched) = (s.step answer i).run answer sched := rfl

/-- A step either leaves the service as it was, or is one answer to one call. -/
theorem step_service (s : Sys σ C R α) (i : Nat) :
    (s.step answer i).service = s.service ∨ ∃ c, (s.step answer i).service = (answer s.service c).2 := by
  unfold step
  split
  · exact .inr ⟨_, rfl⟩
  · exact .inl rfl

@[simp] theorem length_threads_step (s : Sys σ C R α) (i : Nat) :
    (s.step answer i).threads.length = s.threads.length := by
  unfold step
  split <;> simp

section Invariant

variable (P : σ → Prop)

/-- An invariant of the service that every answer keeps holds after every run. -/
theorem run_inv (hstep : ∀ v c, P v → P (answer v c).2) :
    ∀ (sched : List Nat) (s : Sys σ C R α), P s.service → P (s.run answer sched).service := by
  intro sched
  induction sched with
  | nil => exact fun _ h => h
  | cons i sched ih =>
    intro s hs
    apply ih
    rcases step_service answer s i with h | ⟨c, h⟩
    · rwa [h]
    · rw [h]
      exact hstep _ c hs

end Invariant

section Relation

variable (Rel : σ → σ → Prop) [IsPreorder σ Rel]

/-- A preorder that relates the service before and after every answer relates it before and
after every run: what the service only adds to, it has added to over a run. -/
theorem run_rel (hstep : ∀ v c, Rel v (answer v c).2) :
    ∀ (sched : List Nat) (s : Sys σ C R α), Rel s.service (s.run answer sched).service := by
  intro sched
  induction sched with
  | nil => exact fun s => refl_of Rel s.service
  | cons i sched ih =>
    intro s
    refine trans_of Rel ?_ (ih (s.step answer i))
    rcases step_service answer s i with h | ⟨c, h⟩
    · rw [h]
      exact refl_of Rel s.service
    · rw [h]
      exact hstep _ c

end Relation

end Sys

end WeaveNet.Lib
