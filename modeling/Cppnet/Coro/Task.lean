import Cppnet.Lib.Loop
import Cppnet.Lib.Program
import Mathlib.Logic.Function.Basic

/-!
# Tasks

`coro/task.hpp`: a `task` is the handle of a coroutine that does nothing until it is awaited or resumed. Who awaits
it is its *continuation*: it is resumed where the task ends, and finds the result in the promise. In between, control
goes from frame to frame, without anything in it that would return.

The code of a coroutine is its `Body`, from one point of suspension to the next. What it awaits is a call of another
coroutine, or an operation of the event loop: then control is back with who resumed, and the handle that is in the
operation is resumed when that has completed. An access to a frame that is not there (any more) is undefined, as is
destroying it again, or resuming a coroutine that is not suspended (`none`).
-/

namespace Cppnet.Coro.Tasks

open Lib

variable {ν ε α ρ : Type}

/-! ## Promises -/

/-- What is thrown: by the code of a coroutine, or by `result`, that the value was never set. -/
inductive Thrown (ε : Type)
  | user (e : ε)
  | neverSet
  deriving DecidableEq

/-- What comes of awaiting a task. -/
abbrev Outcome (ν ε : Type) := Except (Thrown ε) ν

/-- `promise<T>` with what is stored in its variant, and `promise<void>`. -/
inductive Promise (ν ε : Type)
  | value (stored : Option (Outcome ν ε))
  | void (exception : Option (Thrown ε))
  deriving DecidableEq

namespace Promise

/-- The constructor. -/
def new (isVoid : Bool) : Promise ν ε := if isVoid then .void none else .value none

/-- `return_value` and `return_void`. -/
def returnValue (v : ν) : Promise ν ε → Promise ν ε
  | value _ => value (some (.ok v))
  | void exception => void exception

/-- `unhandled_exception`. -/
def unhandledException (e : Thrown ε) : Promise ν ε → Promise ν ε
  | value _ => value (some (.error e))
  | void _ => void (some e)

variable [Inhabited ν]

/-- `result`. The default value stands for what `void` gives. -/
def result : Promise ν ε → Outcome ν ε
  | value (some outcome) => outcome
  | value none => .error .neverSet
  | void (some e) => .error e
  | void none => .ok default

/-- What is seen of the end of a coroutine by who awaits it. -/
def seen (isVoid : Bool) : Outcome ν ε → Outcome ν ε
  | .ok v => .ok (if isVoid then default else v)
  | .error e => .error e

theorem result_returnValue (isVoid : Bool) (v : ν) :
    ((new isVoid : Promise ν ε).returnValue v).result = seen isVoid (.ok v) := by
  cases isVoid <;> rfl

theorem result_unhandledException (isVoid : Bool) (e : Thrown ε) :
    ((new isVoid : Promise ν ε).unhandledException e).result = seen isVoid (.error e) := by
  cases isVoid <;> rfl

end Promise

/-! ## Frames -/

/-- The code of a coroutine. `co_await` of a call of another one, which may be of type `void`, goes on with the result
    of that or catches what it throws; `co_await` of an operation goes on with the reply. -/
inductive Body (ν ε α ρ : Type)
  | ret (v : ν)
  | throw (e : Thrown ε)
  | await (isVoid : Bool) (child : Body ν ε α ρ) (next : Outcome ν ε → Body ν ε α ρ)
  | suspend (op : α) (next : ρ → Body ν ε α ρ)

/-- Where a coroutine is: at its start, in `co_await` of a task or of an operation, running, or at its end. -/
inductive Point (ν ε α ρ : Type)
  | start (b : Body ν ε α ρ)
  | awaiting (child : ℕ) (next : Outcome ν ε → Body ν ε α ρ)
  | suspended (op : α) (next : ρ → Body ν ε α ρ)
  | running
  | done

/-- The frame of a coroutine. -/
structure Frame (ν ε α ρ : Type) where
  promise : Promise ν ε
  continuation : Option ℕ := none
  point : Point ν ε α ρ

/-- The coroutines of a program. A handle is the position of a frame, which is empty when the frame was destroyed. One
    of them may be running, with the code that is still to come; `tasks` are those that the scheduler was given. -/
structure Coroutines (ν ε α ρ : Type) where
  frames : List (Option (Frame ν ε α ρ)) := []
  running : Option (ℕ × Body ν ε α ρ) := none
  tasks : List ℕ := []

namespace Coroutines

section Frames

variable (s : Coroutines ν ε α ρ)

/-- What a handle is of. -/
def frame (h : ℕ) : Option (Frame ν ε α ρ) := s.frames[h]?.join

/-- The call of a coroutine: a new frame, and its handle. -/
def create (isVoid : Bool) (b : Body ν ε α ρ) : ℕ × Coroutines ν ε α ρ :=
  (s.frames.length, { s with frames := s.frames ++ [some { promise := .new isVoid, point := .start b }] })

/-- `destroy`, `n` frames deep: the task that a frame awaits is in that frame, and destroyed with it. -/
def destroyFrom : ℕ → ℕ → List (Option (Frame ν ε α ρ)) → Option (List (Option (Frame ν ε α ρ)))
  | 0, _, _ => none
  | n + 1, h, frames =>
    match frames[h]?.join with
    -- a frame that is gone is not destroyed again
    | none => none
    | some ⟨_, _, .awaiting child _⟩ => destroyFrom n child (frames.set h none)
    | some _ => some (frames.set h none)

/-- `destroy`. -/
def destroy (h : ℕ) : Option (Coroutines ν ε α ρ) := do
  let frames ← destroyFrom s.frames.length h s.frames
  some { s with frames }

/-- The coroutine runs. -/
def goOn (h : ℕ) (b : Body ν ε α ρ) : Option (Coroutines ν ε α ρ) := do
  let f ← s.frame h
  some { s with frames := s.frames.set h (some { f with point := .running }), running := some (h, b) }

/-- `await_ready`. -/
def awaitReady (child : ℕ) : Bool :=
  match s.frame child with
  | some ⟨_, _, .done⟩ => true
  | _ => false

/-- The handle that `h` awaits, through up to `n` tasks: it is the one in an operation. -/
def leaf : ℕ → ℕ → ℕ
  | 0, h => h
  | n + 1, h =>
    match s.frame h with
    | some ⟨_, _, .awaiting child _⟩ => leaf n child
    | _ => h

end Frames

section Model

variable [Inhabited ν] (s : Coroutines ν ε α ρ)

/-- `await_resume` of a task, which is destroyed at the end of the expression that it was made in. -/
def awaitResume (h child : ℕ) (next : Outcome ν ε → Body ν ε α ρ) : Option (Coroutines ν ε α ρ) := do
  let f ← s.frame child
  let s ← s.destroy child
  s.goOn h (next f.promise.result)

/-- Resuming a coroutine. If an operation has completed, there is a reply. -/
def resume (h : ℕ) (reply : Option ρ) : Option (Coroutines ν ε α ρ) := do
  let f ← s.frame h
  match f.point, reply with
  | .start b, none => s.goOn h b
  | .awaiting child next, none => s.awaitResume h child next
  | .suspended _ next, some r => s.goOn h (next r)
  | _, _ => none

/-- `await_suspend` of a task, and the resumption of the handle that it returns. -/
def awaitSuspend (h child : ℕ) (next : Outcome ν ε → Body ν ε α ρ) : Option (Coroutines ν ε α ρ) := do
  let f ← s.frame h
  let g ← s.frame child
  let frames := s.frames.set h (some { f with point := .awaiting child next })
  resume { s with frames := frames.set child (some { g with continuation := some h }) } child none

/-- The end of a coroutine, with what it leaves in its promise: `await_suspend` at the final suspension, and the
    resumption of the handle that it returns. -/
def finish (h : ℕ) (store : Promise ν ε → Promise ν ε) : Option (Coroutines ν ε α ρ) := do
  let f ← s.frame h
  let s := { s with frames := s.frames.set h (some { f with promise := store f.promise, point := .done }) }
  match f.continuation with
  | some c => s.resume c none
  | none => some { s with running := none }

/-- The next thing that the coroutine does that is running. If there is none, control is back. -/
def turn : Option (Turn (Coroutines ν ε α ρ) (Coroutines ν ε α ρ)) :=
  match s.running with
  | none => some (.done s)
  | some (h, .ret v) => (s.finish h (.returnValue v)).map .next
  | some (h, .throw e) => (s.finish h (.unhandledException e)).map .next
  | some (h, .await isVoid child next) =>
    let (c, s) := s.create isVoid child
    if s.awaitReady c then (s.awaitResume h c next).map .next else (s.awaitSuspend h c next).map .next
  | some (h, .suspend op next) => do
    let f ← s.frame h
    some (.next { s with frames := s.frames.set h (some { f with point := .suspended op next }), running := none })

/-- What is to be seen of a task: its result, or the operation it is in. -/
def shows (h : ℕ) : Option (α ⊕ Outcome ν ε) := do
  let f ← s.frame h
  match f.point with
  | .done => some (.inr f.promise.result)
  | _ =>
    let g ← s.frame (s.leaf s.frames.length h)
    match g.point with
    | .suspended op _ => some (.inl op)
    | _ => none

end Model

/-- What is done from the outside: a task is given to the scheduler, which has it resumed; or the operation has
    completed that a task is in, and the handle is resumed that is in it. Then the coroutines run until control is
    back. -/
inductive Step [Inhabited ν] (s : Coroutines ν ε α ρ) :
    Program.Action ℕ (Bool × Body ν ε α ρ) ρ → α ⊕ Outcome ν ε → Coroutines ν ε α ρ → Prop
  | start {isVoid : Bool} {b : Body ν ε α ρ} {h : ℕ} {s₁ s₂ s' : Coroutines ν ε α ρ} {x : α ⊕ Outcome ν ε} :
      s.create isVoid b = (h, s₁) → resume { s₁ with tasks := s₁.tasks ++ [h] } h none = some s₂ →
      Loop.Returns turn s₂ s' → s'.shows h = some x → Step s (.start (isVoid, b)) x s'
  | reply {i h : ℕ} {r : ρ} {s₂ s' : Coroutines ν ε α ρ} {x : α ⊕ Outcome ν ε} :
      s.tasks[i]? = some h → s.resume (s.leaf s.frames.length h) (some r) = some s₂ →
      Loop.Returns turn s₂ s' → s'.shows h = some x → Step s (.reply i r) x s'

/-- Steps, one after the other, and what is shown after each. -/
inductive Steps [Inhabited ν] : Coroutines ν ε α ρ → List (Program.Action ℕ (Bool × Body ν ε α ρ) ρ) →
    List (α ⊕ Outcome ν ε) → Coroutines ν ε α ρ → Prop
  | nil (s : Coroutines ν ε α ρ) : Steps s [] [] s
  | cons {s s₁ s' : Coroutines ν ε α ρ} {a : Program.Action ℕ (Bool × Body ν ε α ρ) ρ}
      {as : List (Program.Action ℕ (Bool × Body ν ε α ρ) ρ)} {x : α ⊕ Outcome ν ε} {xs : List (α ⊕ Outcome ν ε)} :
      s.Step a x s₁ → Steps s₁ as xs s' → Steps s (a :: as) (x :: xs) s'

end Coroutines

end Cppnet.Coro.Tasks
