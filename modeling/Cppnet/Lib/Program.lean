import Mathlib.Tactic.Common

/-!
# Programs that wait for replies

A *program* either is done, with a result, or asks for an operation and goes on with the reply to it. Nothing else
is to be seen of it: `Program.shows` is what it asks for, or its result.

Programs are put one behind the other by `Program.bind`. Many of them, side by side, are a machine that is given
replies, each to one of the programs, and shows after each what that program asks for next (`Program.step`).
-/

namespace Lib

variable {α ρ β γ δ : Type}

/-- A program that asks for operations in `α`, with replies in `ρ`. -/
inductive Program (α ρ β : Type)
  | done (b : β)
  | ask (a : α) (next : ρ → Program α ρ β)

namespace Program

/-- A program, and what is to be done with its result. -/
def bind : Program α ρ β → (β → Program α ρ γ) → Program α ρ γ
  | done b, f => f b
  | ask a next, f => ask a fun r => (next r).bind f

/-- What is to be seen of a program: the operation that it asks for, or its result. -/
def shows : Program α ρ β → α ⊕ β
  | done b => .inr b
  | ask a _ => .inl a

/-- It goes on with a reply, if it asks for one. -/
def reply (r : ρ) : Program α ρ β → Option (Program α ρ β)
  | done _ => none
  | ask _ next => some (next r)

theorem bind_assoc (p : Program α ρ β) (f : β → Program α ρ γ) (g : γ → Program α ρ δ) :
    (p.bind f).bind g = p.bind fun b => (f b).bind g := by
  induction p with
  | done b => rfl
  | ask a next ih => exact congrArg (ask a) (funext ih)

/-- What is done to programs that run side by side: one more is started, or one of them gets a reply. -/
inductive Action (κ π ρ : Type)
  | start (p : π)
  | reply (i : κ) (r : ρ)

/-- The same actions, with other names for the programs. -/
def Action.map {κ π π' : Type} (f : π → π') : Action κ π ρ → Action κ π' ρ
  | start p => start (f p)
  | reply i r => reply i r

/-- One step, and what is shown by the program that was started or got a reply. -/
def step (ps : List (Program α ρ β)) : Action ℕ (Program α ρ β) ρ → Option ((α ⊕ β) × List (Program α ρ β))
  | .start p => some (p.shows, ps ++ [p])
  | .reply i r => (ps[i]?.bind (reply r)).map fun p => (p.shows, ps.set i p)

end Program

end Lib
