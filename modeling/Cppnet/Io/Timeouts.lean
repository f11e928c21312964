import Cppnet.Io.Completion

/-!
# The timeouts of `epoll_loop`

`dispatch` pops operations as long as the one at the top of `timeout_list` is over. The operations are compared by
the times of their timeouts, and a `std::priority_queue` has a greatest element at the top: the one whose timeout is
the last of all.

* `dispatchTimeouts_exact_iff`: the operations that are over are found, and only these, if all are over or none is.
  As long as one is not over, none is found.
* `Scheduler.InLoop.reaches`: the loop is that of the scheduler, whose other steps may come between its turns.
-/

namespace Cppnet.Io

open Lib

/-- A call of `queue`: the coroutine that waits, its timeout in milliseconds, and the time of the call. -/
structure QueueCall where
  handle : ℕ
  timeout : ℕ
  clock : ℕ

section Model

variable {Q : Type*} [MaxQueue Q TimeoutOperation.timeoutAt]

/-- What `queue` does with `timeout_list`. -/
def queueTimeout (timeoutList : Q) (call : QueueCall) : Q :=
  if call.timeout > 0 then MaxQueue.push timeoutList ⟨call.handle, call.timeout * 1000000 + call.clock⟩
  else timeoutList

/-- `timeout_list`, after some calls of `queue`. -/
def pending (calls : List QueueCall) : Q := calls.foldl queueTimeout MaxQueue.empty

/-- One turn of the loop of `dispatch`, with the events so far. -/
def timeoutTurn (now : ℕ) (done : ℕ → Bool) (s : List (ℕ × Result) × Q) :
    Option (Turn (List (ℕ × Result) × Q) (List (ℕ × Result) × Q)) :=
  match MaxQueue.top s.2 with
  | none => some (.done s)
  | some op =>
    if op.timeoutAt ≤ now then
      let timeoutList := MaxQueue.pop s.2
      if done op.handle then some (.next (s.1, timeoutList))
      else some (.next (s.1 ++ [(op.handle, timedOut)], timeoutList))
    else some (.done s)

/-- The loop of `dispatch`: its events, and what is left of `timeout_list`. -/
def dispatchTimeouts (now : ℕ) (done : ℕ → Bool) (timeoutList : Q) : Option (List (ℕ × Result) × Q) :=
  Loop.run (timeoutTurn now done) ((MaxQueue.elems timeoutList).card + 1) ([], timeoutList)

end Model

/-! ## The purpose of the loop -/

/-- The event of an operation that is over, unless it is done. -/
def timeoutEvents (done : ℕ → Bool) (op : TimeoutOperation) : List (ℕ × Result) :=
  if done op.handle then [] else [(op.handle, timedOut)]

/-- There is an event for each operation that is over and not done, and those that are not over are left. -/
def Expired (now : ℕ) (done : ℕ → Bool) (ops : Multiset TimeoutOperation) (events : List (ℕ × Result))
    (left : Multiset TimeoutOperation) : Prop :=
  (events : Multiset (ℕ × Result)) =
      (ops.filter fun op => op.timeoutAt ≤ now ∧ done op.handle = false).map (fun op => (op.handle, timedOut)) ∧
    left = ops.filter fun op => now < op.timeoutAt

section Loop

variable {Q : Type*} [MaxQueue Q TimeoutOperation.timeoutAt] {now : ℕ} {done : ℕ → Bool}

theorem timeoutTurn_eq (s : List (ℕ × Result) × Q) : timeoutTurn now done s =
    MaxQueue.popTurn (fun op => decide (op.timeoutAt ≤ now)) (timeoutEvents done) s := by
  rw [timeoutTurn, MaxQueue.popTurn]
  cases MaxQueue.top s.2 with
  | none => rfl
  | some op =>
    simp only [decide_eq_true_eq, timeoutEvents]
    split_ifs <;> simp

theorem rest_timeoutEvents (q : Q) : MaxQueue.rest (timeoutEvents done) q =
    ((MaxQueue.elems q).filter fun op => done op.handle = false).map fun op => (op.handle, timedOut) := by
  rw [MaxQueue.rest]
  induction MaxQueue.elems q using Multiset.induction_on with
  | empty => rfl
  | cons op ops ih =>
    rw [Multiset.cons_bind, ih, Multiset.filter_cons, Multiset.map_add, timeoutEvents]
    cases done op.handle <;> simp

/-- The loop ends. If all operations are over, it pops them all; and otherwise, none. -/
theorem dispatchTimeouts_cases (now : ℕ) (done : ℕ → Bool) (q : Q) :
    ∃ events q', dispatchTimeouts now done q = some (events, q') ∧
      ((∀ op ∈ MaxQueue.elems q, op.timeoutAt ≤ now) ∧
          (events : Multiset (ℕ × Result)) = MaxQueue.rest (timeoutEvents done) q ∧ MaxQueue.elems q' = 0 ∨
        (∃ op ∈ MaxQueue.elems q, now < op.timeoutAt) ∧ events = [] ∧ q' = q) := by
  have h := MaxQueue.popWhile_le now (timeoutEvents done) q
  rwa [MaxQueue.popWhile, ← funext timeoutTurn_eq] at h

/-- The operations that are over are found, and only these, if and only if all of those that were queued are over,
    or none is. -/
theorem dispatchTimeouts_exact_iff (calls : List QueueCall) (now : ℕ) (done : ℕ → Bool) :
    ∃ events left, dispatchTimeouts now done (pending calls : Q) = some (events, left) ∧
      (Expired now done (MaxQueue.elems (pending calls : Q)) events (MaxQueue.elems left) ↔
        (∀ op ∈ MaxQueue.elems (pending calls : Q), now < op.timeoutAt) ∨
          ∀ op ∈ MaxQueue.elems (pending calls : Q), op.timeoutAt ≤ now) := by
  obtain ⟨events, left, hrun, hcases⟩ := dispatchTimeouts_cases now done (pending calls : Q)
  refine ⟨events, left, hrun, ?_⟩
  rcases hcases with ⟨hall, hevents, hleft⟩ | ⟨⟨op, hop, hlt⟩, rfl, rfl⟩
  · refine iff_of_true ⟨?_, ?_⟩ (.inr hall)
    · rw [hevents, rest_timeoutEvents]
      refine congrArg _ (Multiset.filter_congr fun op hop => ?_)
      simp [hall op hop]
    · rw [hleft]
      exact (Multiset.filter_eq_nil.2 fun op hop => not_lt.2 (hall op hop)).symm
  · constructor
    · -- Nothing was popped, so nothing may be over.
      exact fun h => .inl (Multiset.filter_eq_self.1 h.2.symm)
    · rintro (hnone | hall)
      · refine ⟨?_, (Multiset.filter_eq_self.2 hnone).symm⟩
        have hfilter := Multiset.filter_eq_nil.2 fun op hop (h : op.timeoutAt ≤ now ∧ done op.handle = false) =>
          absurd h.1 (not_le.2 (hnone op hop))
        rw [hfilter]
        rfl
      · exact absurd (hall op hop) (not_le.2 hlt)

end Loop

/-! ## The loop of the scheduler -/

namespace Scheduler

/-- `queue` changes `timeout_list` in this way, whenever it does not throw. -/
theorem queue_timeoutList {s s' : Scheduler} {fd timeout : ℕ} (h : s.queue fd timeout = some s') :
    s'.timeoutList = queueTimeout s.timeoutList ⟨s.next, timeout, s.clock⟩ := by
  rw [queue] at h
  dsimp only at h
  rw [queueTimeout]
  split_ifs at h ⊢ with htimeout hlock htop
  · obtain ⟨s₁, hs₁, rfl⟩ := Option.map_eq_some_iff.1 h
    obtain ⟨timer, rfl⟩ := updateTimer_cases hs₁
    rfl
  · cases h
    rfl
  · cases h
    rfl

/-- Where `dispatch` is, in its loop over the timeouts: it gave these events to the pool. -/
structure InLoop (now : ℕ) (done : ℕ → Bool) (handed : List ℕ)
    (x : List (ℕ × Result) × PriorityQueue TimeoutOperation.timeoutAt) (s : Scheduler) : Prop where
  events : s.events = []
  dispatchTimeouts : s.dispatchTimeouts = true
  now : s.now = some now
  done : s.done = done
  timeoutList : s.timeoutList = x.2
  handed : s.handed = handed ++ x.1.map Prod.fst

variable {now : ℕ} {done : ℕ → Bool} {handed : List ℕ}
  {x x' : List (ℕ × Result) × PriorityQueue TimeoutOperation.timeoutAt}

/-- A turn of the loop is a step of `dispatch`. -/
theorem InLoop.turn {s : Scheduler} (h : InLoop now done handed x s)
    (hturn : timeoutTurn now done x = some (.next x')) : ∃ s', s.dispatch = some s' ∧ InLoop now done handed x' s' := by
  obtain ⟨out, q⟩ := x
  obtain ⟨hevents, hflag, hnow, rfl, rfl, hhanded⟩ := h
  rw [timeoutTurn] at hturn
  rw [dispatch, hevents]
  simp only [hflag, hnow, if_true]
  split at hturn
  · cases hturn
  · next op htop =>
    have htop' : s.timeoutList.top = some op := htop
    split_ifs at hturn with hover hdone
    · cases hturn
      rw [htop']
      simp only [hover, hdone, if_true]
      exact ⟨_, rfl, rfl, rfl, rfl, rfl, rfl, hhanded⟩
    · cases hturn
      rw [htop']
      simp only [hover, if_true]
      rw [if_neg hdone]
      refine ⟨_, rfl, rfl, rfl, rfl, rfl, rfl, ?_⟩
      rw [List.map_append, ← List.append_assoc, ← hhanded]
      rfl
    · cases hturn

/-- The events of the loop are given to the pool, by as many steps of `dispatch`, if no other step comes between
    them. -/
theorem InLoop.reaches {s : Scheduler} (h : InLoop now done handed x s)
    (hloop : Loop.Reaches (timeoutTurn now done) x x') :
    ∃ n os s', exec step s (List.replicate n .dispatch) = some (os, s') ∧ InLoop now done handed x' s' := by
  induction hloop generalizing s with
  | refl => exact ⟨0, [], s, rfl, h⟩
  | next hturn _ ih =>
    obtain ⟨s₁, hdispatch, hs₁⟩ := h.turn hturn
    obtain ⟨n, os, s', hexec, hs'⟩ := ih hs₁
    refine ⟨n + 1, none :: os, s', ?_, hs'⟩
    rw [List.replicate_succ]
    exact exec_cons_eq_some.2 ⟨none, s₁, os, by rw [step, hdispatch]; rfl, hexec, rfl⟩

end Scheduler

/-- One operation is over, and the other one is not: neither is found. -/
theorem dispatchTimeouts_not_exact :
    ∃ left, dispatchTimeouts 2000000 (fun _ => false)
        (pending [⟨0, 1, 0⟩, ⟨1, 10, 0⟩] : PriorityQueue TimeoutOperation.timeoutAt) = some ([], left) ∧
      left.entries = [⟨1, 10000000⟩, ⟨0, 1000000⟩] ∧
      ¬Expired 2000000 (fun _ => false) (MaxQueue.elems
        (pending [⟨0, 1, 0⟩, ⟨1, 10, 0⟩] : PriorityQueue TimeoutOperation.timeoutAt)) [] (MaxQueue.elems left) := by
  refine ⟨_, rfl, rfl, fun h => ?_⟩
  have hcard := congrArg Multiset.card h.1
  revert hcard
  decide

end Cppnet.Io
