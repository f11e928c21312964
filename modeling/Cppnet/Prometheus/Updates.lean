import Cppnet.Bytes
import Cppnet.Lib.Machine
import Cppnet.Prometheus.Metric
import Mathlib.Algebra.BigOperators.Group.List.Basic
import Mathlib.Tactic.Abel

/-!
# Updates of a metric at the same time

An update loads the value of its metric, and stores another one, in two atomic accesses. What other updates have
stored between them is lost.

* `observe_alone`: the accesses of a call of `observe`, with no other ones between them, are `Histogram.observe`;
* `updates_kept_iff`: the value is always that at the start and the amounts of the updates that were stored, if and
  only if each of them finds, when it stores its value, the one that it has loaded. Then, when all have returned, it
  is the value at the start and all amounts.
-/

namespace Cppnet.Prometheus

open Lib

/-! ## Calls and their accesses -/

/-- Where a call is: at its start, between the load and the store, or after the store, with the accesses that are
    still to come. -/
inductive Stage (α : Type*)
  | begun
  | loaded (current : α)
  | stored (rest : List Access)
  deriving DecidableEq

/-- What was loaded, if the store comes next, is the value `v`. -/
def Stage.Finds {α : Type*} (v : α) : Stage α → Prop
  | .loaded current => current = v
  | _ => True

instance {α : Type*} [DecidableEq α] (v : α) (stage : Stage α) : Decidable (stage.Finds v) :=
  match stage with
  | .loaded current => inferInstanceAs (Decidable (current = v))
  | .begun | .stored _ => .isTrue trivial

/-- A call that was made. -/
structure Caller (α : Type*) where
  call : Call α
  stage : Stage α := .begun
  deriving DecidableEq

/-- A metric, and the calls that were made. -/
structure Shared (α : Type*) where
  metric : Metric α
  callers : List (Caller α) := []
  deriving DecidableEq

/-- A new call, or the next access of one. -/
inductive Action (α : Type*)
  | call (c : Call α)
  | turn (i : ℕ)
  deriving DecidableEq

namespace Shared

section Model

variable {α : Type*} [Add α] [Sub α] [LT α] [DecidableLT α]

/-- The next access of a call. -/
def turn (s : Shared α) (i : ℕ) : Option (Shared α) := do
  let caller ← s.callers[i]?
  let goOn (stage : Stage α) (metric : Metric α) : Shared α := ⟨metric, s.callers.set i { caller with stage }⟩
  match caller.stage with
  | .begun => some (goOn (.loaded s.metric.value) s.metric)
  | .loaded current =>
    some (goOn (.stored (caller.call.accesses s.metric)) (s.metric.store (caller.call.newValue current)))
  | .stored (a :: rest) => some (goOn (.stored rest) (a.apply s.metric))
  | .stored [] => none

/-- One step. -/
def step (s : Shared α) : Action α → Option (Unit × Shared α)
  | .call c => if c.suits s.metric then some ((), { s with callers := s.callers ++ [⟨c, .begun⟩] }) else none
  | .turn i => (s.turn i).map fun s => ((), s)

end Model

/-- All calls have returned. -/
def Returned {α : Type*} (s : Shared α) : Prop := ∀ caller ∈ s.callers, caller.stage = .stored []

/-- A call that stores its value finds the value that it has loaded. -/
def Current {α : Type*} (s : Shared α) : Action α → Prop
  | .call _ => True
  | .turn i => ∀ caller ∈ s.callers[i]?, caller.stage.Finds s.metric.value

instance {α : Type*} [DecidableEq α] (s : Shared α) (a : Action α) : Decidable (s.Current a) :=
  match a with
  | .call _ => .isTrue trivial
  | .turn i => inferInstanceAs (Decidable (∀ caller ∈ s.callers[i]?, caller.stage.Finds s.metric.value))

end Shared

/-! ## One call without others -/

section Alone

variable {α : Type*} [Add α] [Sub α] [LT α] [DecidableLT α]

/-- The accesses that are still to come are made one by one. -/
theorem exec_turns (callers : List (Caller α)) (c : Call α) (rest : List Access) (m : Metric α) :
    exec Shared.step ⟨m, callers ++ [⟨c, .stored rest⟩]⟩ (List.replicate rest.length (.turn callers.length)) =
      some (List.replicate rest.length (),
        ⟨rest.foldl (fun m a => a.apply m) m, callers ++ [⟨c, .stored []⟩]⟩) := by
  induction rest generalizing m with
  | nil => rfl
  | cons a rest ih =>
    rw [List.length_cons, List.replicate_succ, List.replicate_succ]
    refine exec_cons_eq_some.2 ⟨(), ⟨a.apply m, callers ++ [⟨c, .stored rest⟩]⟩, _, ?_, ih (a.apply m), rfl⟩
    simp [Shared.step, Shared.turn]

omit [Add α] [Sub α] [LT α] [DecidableLT α] in
theorem foldl_bucket (h : Histogram α) (is : List ℕ) :
    (is.map Access.bucket).foldl (fun m a => a.apply m) (Metric.histogram h) =
      .histogram { h with bucketValues := is.foldl (fun values i => values.modify i (· + 1)) h.bucketValues } := by
  induction is generalizing h with
  | nil => rfl
  | cons i is ih => exact ih _

/-- A call of `observe`, with the accesses of no other one between its own, is `Histogram.observe`. -/
theorem observe_alone (h : Histogram α) (callers : List (Caller α)) (v : α) :
    ∃ n, exec Shared.step ⟨.histogram h, callers⟩ (.call (.observe v) :: List.replicate n (.turn callers.length)) =
      some (List.replicate (n + 1) (), ⟨.histogram (h.observe v), callers ++ [⟨.observe v, .stored []⟩]⟩) := by
  let accesses : List Access := .count :: (Histogram.observedBuckets h.buckets v).map .bucket
  have hturns := exec_turns callers (.observe v) accesses (.histogram { h with sum := h.sum + v })
  rw [List.foldl_cons, Access.apply, foldl_bucket] at hturns
  refine ⟨accesses.length + 2, exec_cons_eq_some.2
    ⟨(), ⟨.histogram h, callers ++ [⟨.observe v, .begun⟩]⟩, List.replicate (accesses.length + 2) (), rfl, ?_, rfl⟩⟩
  refine exec_cons_eq_some.2 ⟨(), ⟨.histogram h, callers ++ [⟨.observe v, .loaded h.sum⟩]⟩,
    List.replicate (accesses.length + 1) (), ?_, ?_, rfl⟩
  · simp [Shared.step, Shared.turn, Metric.value]
  refine exec_cons_eq_some.2 ⟨(), _, _, ?_, hturns, rfl⟩
  simp [Shared.step, Shared.turn, Call.newValue, Call.accesses, Metric.store, accesses]

end Alone

/-- What an update adds. -/
def Call.amount {α : Type*} [Neg α] : Call α → α
  | increment v _ => v
  | decrement v _ => -v
  | observe v => v

section Steps

variable {α : Type*} [AddCommGroup α] [LT α] [DecidableLT α] {s s' : Shared α}

/-- What the call has added so far. -/
def Caller.added (caller : Caller α) : α :=
  match caller.stage with
  | .stored _ => caller.call.amount
  | _ => 0

/-- The value is that at the start, and what the calls have added. -/
def Shared.Kept (start : α) (s : Shared α) : Prop :=
  s.metric.value = start + (s.callers.map Caller.added).sum

omit [LT α] [DecidableLT α] in
theorem Call.newValue_eq (current : α) (c : Call α) : c.newValue current = current + c.amount := by
  cases c with
  | increment v _ => rfl
  | decrement v _ => exact sub_eq_add_neg current v
  | observe v => rfl

omit [LT α] [DecidableLT α] in
/-- One of the calls goes on. -/
theorem sum_added_set {callers : List (Caller α)} {i : ℕ} {caller : Caller α} (hi : callers[i]? = some caller)
    (caller' : Caller α) : ((callers.set i caller').map Caller.added).sum + caller.added =
      (callers.map Caller.added).sum + caller'.added := by
  obtain ⟨hlt, rfl⟩ := List.getElem?_eq_some_iff.1 hi
  rw [List.map_set, List.sum_set', dif_pos (by rwa [List.length_map]), List.getElem_map]
  abel

/-- What a step does. -/
theorem Shared.step_cases {a : Action α} {o : Unit} (h : s.step a = some (o, s')) :
    (∃ c, a = .call c ∧ s' = { s with callers := s.callers ++ [⟨c, .begun⟩] }) ∨
    ∃ i caller, a = .turn i ∧ s.callers[i]? = some caller ∧
      (caller.stage = .begun ∧
          s' = ⟨s.metric, s.callers.set i { caller with stage := .loaded s.metric.value }⟩ ∨
        (∃ current, caller.stage = .loaded current ∧ s' = ⟨s.metric.store (caller.call.newValue current),
          s.callers.set i { caller with stage := .stored (caller.call.accesses s.metric) }⟩) ∨
        ∃ a rest, caller.stage = .stored (a :: rest) ∧
          s' = ⟨a.apply s.metric, s.callers.set i { caller with stage := .stored rest }⟩) := by
  cases a with
  | call c =>
    rw [step] at h
    split_ifs at h
    cases h
    exact .inl ⟨c, rfl, rfl⟩
  | turn i =>
    obtain ⟨s₁, hturn, heq⟩ := Option.map_eq_some_iff.1 h
    cases heq
    obtain ⟨caller, hi, hturn⟩ := Option.bind_eq_some_iff.1 hturn
    refine .inr ⟨i, caller, rfl, hi, ?_⟩
    split at hturn
    · next hstage =>
      cases hturn
      exact .inl ⟨hstage, rfl⟩
    · next current hstage =>
      cases hturn
      exact .inr (.inl ⟨current, hstage, rfl⟩)
    · next a rest hstage =>
      cases hturn
      exact .inr (.inr ⟨a, rest, hstage, rfl⟩)
    · cases hturn

/-- The value stays that at the start and what the calls have added, unless one of them stores a value and does not
    find the one that it has loaded. -/
theorem Shared.Kept.step_iff {start : α} (hs : s.Kept start) {a : Action α} {o : Unit} (h : s.step a = some (o, s')) :
    s'.Kept start ↔ s.Current a := by
  have hvalue : s.metric.value = start + (s.callers.map Caller.added).sum := hs
  rcases step_cases h with ⟨c, rfl, rfl⟩ | ⟨i, caller, rfl, hi, hstep⟩
  · refine iff_of_true ?_ trivial
    rw [Kept, List.map_append, List.sum_append, hvalue]
    simp [Caller.added]
  have hset := fun stage => sum_added_set hi { caller with stage }
  have hcurrent : s.Current (.turn i) ↔ caller.stage.Finds s.metric.value := by
    rw [Current, hi]
    simp
  rw [hcurrent]
  rcases hstep with ⟨hstage, rfl⟩ | ⟨current, hstage, rfl⟩ | ⟨a, rest, hstage, rfl⟩
  · have hsum := hset (.loaded s.metric.value)
    rw [Caller.added, hstage, Caller.added, add_left_inj] at hsum
    rw [hstage]
    exact iff_of_true (hvalue.trans (by rw [hsum])) trivial
  · have hsum := hset (.stored (caller.call.accesses s.metric))
    rw [Caller.added, hstage, Caller.added, add_zero] at hsum
    rw [hstage, Stage.Finds, Kept, Metric.value_store, Call.newValue_eq, hsum, ← add_assoc, ← hvalue, add_left_inj]
  · have hsum := hset (.stored rest)
    rw [Caller.added, hstage, Caller.added, add_left_inj] at hsum
    rw [hstage]
    refine iff_of_true ?_ trivial
    rw [Kept, Access.value_apply, hsum, hvalue]

omit [LT α] [DecidableLT α] in
/-- When all calls have returned, they have added all amounts. -/
theorem Shared.Returned.sum_added (hs : s.Returned) :
    (s.callers.map Caller.added).sum = (s.callers.map fun caller => caller.call.amount).sum := by
  refine congrArg List.sum (List.map_congr_left fun caller hcaller => ?_)
  rw [Caller.added, hs caller hcaller]

/-- In every run, the value is always that at the start and the amounts that were stored, if and only if every store
    finds the value that was loaded. Then nothing is missing when all calls have returned. -/
theorem updates_kept_iff (m : Metric α) {as : List (Action α)} {os : List Unit}
    (h : exec Shared.step ⟨m, []⟩ as = some (os, s')) :
    (Throughout Shared.step (Shared.Kept m.value) ⟨m, []⟩ as ↔ Along Shared.step Shared.Current ⟨m, []⟩ as) ∧
      (Along Shared.step Shared.Current ⟨m, []⟩ as → s'.Returned →
        s'.metric.value = m.value + (s'.callers.map fun caller => caller.call.amount).sum) := by
  have hstart : Shared.Kept m.value ⟨m, []⟩ := by simp [Shared.Kept]
  refine ⟨throughout_iff_along_of_exec (Shared.Kept m.value) (fun _ hs => hs)
    (fun s a o s' hs hcurrent hstep => (hs.step_iff hstep).2 hcurrent)
    (fun s a o s' hs hcurrent hstep hs' => hcurrent ((hs.step_iff hstep).1 hs')) hstart h, fun halong hreturned => ?_⟩
  have hkept : s'.Kept m.value := halong.invariant (Shared.Kept m.value)
    (fun s a o s' hs hcurrent hstep => (hs.step_iff hstep).2 hcurrent) hstart h
  rw [← hreturned.sum_added]
  exact hkept

end Steps

/-- One call after the other. -/
theorem updates_kept_iff_two : ∃ os s',
    exec Shared.step ⟨.counter ⟨⟨sv "test", [], [], 0⟩, (5 : ℤ)⟩, []⟩ [.call (.increment 1 7), .call (.increment 2 8),
      .turn 0, .turn 0, .turn 1, .turn 1, .turn 0, .turn 1] = some (os, s') ∧ s'.metric.value = 5 + 3 := by
  have hrun : exec Shared.step ⟨.counter ⟨⟨sv "test", [], [], 0⟩, (5 : ℤ)⟩, []⟩ [.call (.increment 1 7),
      .call (.increment 2 8), .turn 0, .turn 0, .turn 1, .turn 1, .turn 0, .turn 1] =
        some (List.replicate 8 (), ⟨.counter ⟨⟨sv "test", [], [], 8⟩, 8⟩,
          [⟨.increment 1 7, .stored []⟩, ⟨.increment 2 8, .stored []⟩]⟩) := rfl
  refine ⟨_, _, hrun, (updates_kept_iff _ hrun).2 ?_ ?_⟩
  · decide
  · simp [Shared.Returned]

/-- Two calls load the value before one of them stores another: the amount of the first one is lost, be it of a
    counter, of a gauge, or of a histogram. -/
theorem updates_lost :
    (∃ os s', exec Shared.step ⟨.counter ⟨⟨sv "test", [], [], 0⟩, (0 : ℤ)⟩, []⟩ [.call (.increment 1 7),
      .call (.increment 1 8), .turn 0, .turn 1, .turn 0, .turn 1, .turn 0, .turn 1] = some (os, s') ∧
      s'.Returned ∧ s'.metric.value = 1) ∧
    (∃ os s', exec Shared.step ⟨.gauge ⟨⟨sv "test", [], [], 0⟩, (0 : ℤ)⟩, []⟩ [.call (.increment 1 7),
      .call (.decrement 1 8), .turn 0, .turn 1, .turn 0, .turn 1, .turn 0, .turn 1] = some (os, s') ∧
      s'.Returned ∧ s'.metric.value = -1) ∧
    ∃ os s', exec Shared.step ⟨.histogram ⟨⟨sv "test", [], [], 0⟩, [10], [0], 0, (0 : ℤ)⟩, []⟩ [.call (.observe 1),
      .call (.observe 1), .turn 0, .turn 1, .turn 0, .turn 1, .turn 0, .turn 0, .turn 1, .turn 1] = some (os, s') ∧
      s'.Returned ∧ s'.metric.value = 1 := by
  refine ⟨⟨_, _, rfl, ?_, rfl⟩, ⟨_, _, rfl, ?_, rfl⟩, ⟨_, _, rfl, ?_, rfl⟩⟩ <;> unfold Shared.Returned <;> decide

end Cppnet.Prometheus
