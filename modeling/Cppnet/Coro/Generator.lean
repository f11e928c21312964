import Cppnet.Lib.Loop

/-!
# `generator`

`coro/generator.hpp`: a coroutine that yields values, and the two ways to take them from it. `while (gen) gen()`
resumes the coroutine in `fill`, which throws again what the coroutine has thrown; a range-based `for` resumes it
by an iterator, which only asks whether it is done.

* `consume_eq_rangeFor_iff`: both give the values of every coroutine, and they agree if and only if it does
  not throw: the exception does not reach the `for` loop.
-/

namespace Cppnet.Coro

open Lib

variable {α ε : Type*}

/-- What a coroutine does: it yields the values, and then returns, or throws. -/
structure Body (α ε : Type*) where
  values : List α
  throws : Option ε := none

/-- `promise_type::value`. -/
inductive PromiseValue (α ε : Type*)
  | monostate
  | value (a : α)
  | exception (e : ε)

/-- What reaches the consumer: the exception of the coroutine, or that of `std::get`. -/
inductive Thrown (ε : Type*)
  | exception (e : ε)
  | badVariantAccess
  deriving DecidableEq

/-- A suspended coroutine: what is left of its body, whether it is done, and its promise. -/
structure Coroutine (α ε : Type*) where
  rest : Body α ε
  done : Bool := false
  value : PromiseValue α ε := .monostate

namespace Coroutine

variable (c : Coroutine α ε)

/-- `resume`, which is undefined for a coroutine that is done. -/
def resume : Option (Coroutine α ε) :=
  if c.done then none
  else
    match c.rest with
    | ⟨a :: values, throws⟩ => some { c with rest := ⟨values, throws⟩, value := .value a }
    | ⟨[], none⟩ => some { c with done := true }
    -- `unhandled_exception`
    | ⟨[], some e⟩ => some { c with done := true, value := .exception e }

/-- `std::get<T>` of the value of the promise. -/
def get : Except (Thrown ε) α :=
  match c.value with
  | .value a => .ok a
  | _ => .error .badVariantAccess

end Coroutine

/-- `generator`. -/
structure Generator (α ε : Type*) where
  handle : Coroutine α ε
  full : Bool := false

namespace Generator

variable (g : Generator α ε)

/-- `fill`. -/
def fill : Option (Except (Thrown ε) (Generator α ε)) :=
  if g.full then some (.ok g)
  else
    g.handle.resume.map fun handle =>
      match handle.value with
      | .exception e => .error (.exception e)
      | _ => .ok { handle, full := true }

/-- `operator bool`. -/
def operatorBool : Option (Except (Thrown ε) (Bool × Generator α ε)) :=
  g.fill.map fun filled => filled.map fun g => (!g.handle.done, g)

/-- `operator()`. -/
def operatorCall : Option (Except (Thrown ε) (α × Generator α ε)) :=
  g.fill.map fun filled => filled.bind fun g => g.handle.get.map fun a => (a, { g with full := false })

end Generator

/-! ## The loops -/

/-- What a consumer gets: the values, and what is thrown. -/
abbrev Consumed (α ε : Type*) := List α × Option (Thrown ε)

/-- One turn of `while (gen) gen()`. -/
def whileTurn : Generator α ε × List α → Option (Turn (Generator α ε × List α) (Consumed α ε))
  | (g, out) =>
    match g.operatorBool with
    | none => none
    | some (.error e) => some (.done (out, some e))
    | some (.ok (false, _)) => some (.done (out, none))
    | some (.ok (true, g)) =>
      match g.operatorCall with
      | none => none
      | some (.error e) => some (.done (out, some e))
      | some (.ok (a, g)) => some (.next (g, out ++ [a]))

/-- One turn of a range-based `for`: the test against the sentinel, `operator*` and `operator++` of the iterator. -/
def forTurn : Coroutine α ε × List α → Option (Turn (Coroutine α ε × List α) (Consumed α ε))
  | (it, out) =>
    if it.done then some (.done (out, none))
    else
      match it.get with
      | .error e => some (.done (out, some e))
      | .ok a => it.resume.map fun it => .next (it, out ++ [a])

/-- `while (gen) gen()`, for a generator with the given body. -/
def consume (body : Body α ε) : Option (Consumed α ε) :=
  Loop.run whileTurn (body.values.length + 1) ({ handle := { rest := body } }, [])

/-- A range-based `for` over it, which starts with `begin`. -/
def rangeFor (body : Body α ε) : Option (Consumed α ε) :=
  (Coroutine.resume { rest := body }).bind fun it => Loop.run forTurn (body.values.length + 1) (it, [])

/-- The value of the promise is not an exception. -/
def PromiseValue.NoException : PromiseValue α ε → Prop
  | .exception _ => False
  | _ => True

section Runs

variable {throws : Option ε}

/-- A value is yielded: it is the next one that is consumed. -/
theorem whileTurn_cons (a : α) (values : List α) (v : PromiseValue α ε) (out : List α) :
    whileTurn ({ handle := { rest := ⟨a :: values, throws⟩, value := v } }, out) =
      some (.next ({ handle := { rest := ⟨values, throws⟩, value := .value a } }, out ++ [a])) := rfl

theorem whileTurn_nil {v : PromiseValue α ε} (hv : v.NoException) (out : List α) :
    whileTurn ({ handle := { rest := ⟨[], throws⟩, value := v } }, out) =
      some (.done (out, throws.map .exception)) := by
  rcases throws with _ | e
  · cases v with
    | exception => cases hv
    | _ => rfl
  · rfl

/-- From a suspended coroutine on, `while (gen) gen()` takes all values, and throws what it throws. -/
theorem run_whileTurn (values : List α) {v : PromiseValue α ε} (hv : v.NoException) (out : List α) :
    Loop.run whileTurn (values.length + 1) ({ handle := { rest := ⟨values, throws⟩, value := v } }, out) =
      some (out ++ values, throws.map .exception) := by
  induction values generalizing v out with
  | nil => rw [Loop.run_succ_done (whileTurn_nil hv out), List.append_nil]
  | cons a values ih =>
    rw [Loop.run_succ_next (whileTurn_cons a values v out), List.length_cons, ih (v := .value a) trivial,
      List.append_assoc]
    rfl

/-- From a resumed coroutine on, the `for` loop takes all values, and whatever it throws, nothing is thrown. -/
theorem run_forTurn (values : List α) (v : PromiseValue α ε) (out : List α) :
    ∃ it, Coroutine.resume { rest := ⟨values, throws⟩, value := v } = some it ∧
      Loop.run forTurn (values.length + 1) (it, out) = some (out ++ values, none) := by
  induction values generalizing v out with
  | nil =>
    rw [List.append_nil]
    rcases throws with _ | e
    · exact ⟨_, rfl, rfl⟩
    · exact ⟨_, rfl, rfl⟩
  | cons a values ih =>
    obtain ⟨it, hresume, hrun⟩ := ih (.value a) (out ++ [a])
    refine ⟨_, rfl, ?_⟩
    have hturn : forTurn ({ rest := ⟨values, throws⟩, value := .value a }, out) =
        some (.next (it, out ++ [a])) := by
      change (Coroutine.resume { rest := ⟨values, throws⟩, value := .value a }).map _ = _
      rw [hresume]
      rfl
    rw [List.length_cons, Loop.run_succ_next hturn, hrun, List.append_assoc]
    rfl

end Runs

/-- `while (gen) gen()` gives the values of every body, and its exception, if it throws one; a range-based `for`
    gives the values only. So the two agree if and only if the body does not throw. -/
theorem consume_eq_rangeFor_iff (body : Body α ε) :
    consume body = some (body.values, body.throws.map .exception) ∧
      rangeFor body = some (body.values, none) ∧
      (consume body = rangeFor body ↔ body.throws = none) := by
  obtain ⟨values, throws⟩ := body
  have hconsume : consume ⟨values, throws⟩ = some (values, throws.map .exception) :=
    run_whileTurn values (v := .monostate) trivial []
  have hrange : rangeFor ⟨values, throws⟩ = some (values, none) := by
    obtain ⟨it, hresume, hrun⟩ := @run_forTurn α ε throws values .monostate []
    rw [rangeFor, hresume]
    exact hrun
  refine ⟨hconsume, hrange, ?_⟩
  rw [hconsume, hrange]
  simp

/-- A body that yields one value, and throws. -/
theorem consume_ne_rangeFor :
    consume (⟨[7], some 1⟩ : Body ℕ ℕ) = some ([7], some (.exception 1)) ∧
      rangeFor (⟨[7], some 1⟩ : Body ℕ ℕ) = some ([7], none) := by
  decide

end Cppnet.Coro
