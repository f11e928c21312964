import Cppnet.Io.Basic
import Cppnet.Lib.Machine
import Mathlib.Data.List.Nodup
import Mathlib.Order.Nat

/-!
# `kqueue_loop`

`io/kqueue_loop.cpp`, the event loop where there is kqueue: an operation asks the kernel for up to three events, to be
able to read, to be able to write and a timeout, each with the coroutine that waits. Whichever comes first resumes it,
and nothing takes back the others. Of the events that come later, `translate_kevent` skips those whose coroutine is
done; but a coroutine that is done is soon destroyed, and then it may not be asked.

The steps are those of `Cppnet.Io.EpollLoop`: coroutines that queue operations, `run` from one yield of `dispatch` to
the next, the workers, and besides these the owner of a coroutine, who destroys it when it is done, and descriptors
that are closed. When the kernel finds an event is left open, for timeouts too. The event of `shutdown` is left out.

* `faultless_iff`: by operations of given kinds nothing undefined is ever done, if each asks for one event; and only
  then.
* `completable_iff`: in every run, each operation is done, or may still be completed, as long as no step takes away its
  last event; and not any longer.
-/

namespace Cppnet.Io

open Lib

/-- `poll_op`. -/
inductive PollOp
  | read
  | write
  | readWrite
  deriving DecidableEq

namespace PollOp

/-- Its underlying value. -/
def value : PollOp → ℕ
  | read => 1
  | write => 2
  | readWrite => 1 ||| 2

/-- `is_readable`. -/
def isReadable (op : PollOp) : Bool := op.value &&& read.value = read.value

/-- `is_writable`. -/
def isWritable (op : PollOp) : Bool := op.value &&& write.value = write.value

end PollOp

namespace Kqueue

/-- `EVFILT_READ`, `EVFILT_WRITE` and `EVFILT_TIMER`. -/
inductive EventFilter
  | read
  | write
  | timer
  deriving DecidableEq

/-- What the kernel knows an event by. -/
structure Key where
  ident : ℕ
  filter : EventFilter
  deriving DecidableEq

/-- What the kernel says of an event that it found: `EV_ERROR`, `EV_EOF`, and the fields `fflags` and `data`. -/
structure Found where
  error : Bool := false
  eof : Bool := false
  fflags : ℕ := 0
  data : ℕ := 0
  deriving DecidableEq

/-- `struct kevent`, in the array of `dispatch`. -/
structure Kevent where
  filter : EventFilter
  found : Found
  udata : ℕ
  deriving DecidableEq

/-- The result that `translate_kevent` gives for an event. -/
def Kevent.result (ev : Kevent) : Result :=
  if ev.found.error then ⟨0, some (.system ev.found.data)⟩
  else
    { count := ev.found.data
      err :=
        match ev.filter with
        | .timer => some .timedOut
        | .read | .write =>
          if ev.found.eof then some (if ev.found.fflags ≠ 0 then .system ev.found.fflags else .closed) else none }

/-- What there is of a coroutine. -/
inductive Frame
  | waiting
  | done
  | gone
  deriving DecidableEq

/-- What is to be seen of a step: an operation is over, or what is done is undefined. -/
inductive Outcome
  | quiet
  | returned (res : Result)
  | undefined
  deriving DecidableEq

end Kqueue

open Kqueue

/-- `kqueue_loop`, with the events the kernel looks for, the workers, and the coroutines that wait for operations. -/
structure KqueueLoop where
  /-- The coroutine in the event, if the kernel looks for it. -/
  knotes : Key → Option ℕ := fun _ => none
  timeoutId : ℕ := 1
  /-- The events that a call of `dispatch` has not looked at yet. -/
  events : List Kevent := []
  /-- The coroutines to be resumed. -/
  pool : List ℕ := []
  /-- The number of the next coroutine. -/
  next : ℕ := 0
  frame : ℕ → Frame := fun _ => .gone
  result : ℕ → Result := fun _ => ⟨0, none⟩

namespace KqueueLoop

variable (s : KqueueLoop)

/-- The kernel looks for these events with a new coroutine, or not any more. -/
def assign (keys : List Key) (handle : Option ℕ) : Key → Option ℕ :=
  fun key => if key ∈ keys then handle else s.knotes key

/-- The events for which an operation asks. -/
def newEvents (fd : ℕ) (op : PollOp) (timeout : ℤ) : List Key :=
  (if op.isReadable then [⟨fd, .read⟩] else []) ++ (if op.isWritable then [⟨fd, .write⟩] else []) ++
    if timeout > 0 then [⟨s.timeoutId, .timer⟩] else []

/-- `queue`, of an operation with a new coroutine. The kernel takes the first of the events up to one that it refuses,
    if any, and then the error is logged. -/
def queue (fd : ℕ) (op : PollOp) (timeout : ℤ) (taken : ℕ) : Option KqueueLoop :=
  if taken ≤ (s.newEvents fd op timeout).length then
    some { s with
      knotes := s.assign ((s.newEvents fd op timeout).take taken) s.next
      timeoutId := if timeout > 0 then s.timeoutId + 1 else s.timeoutId
      next := s.next + 1
      frame := fun h => if h = s.next then .waiting else s.frame h }
  else none

/-- A descriptor is closed. -/
def close (fd : ℕ) : KqueueLoop := { s with knotes := s.assign [⟨fd, .read⟩, ⟨fd, .write⟩] none }

/-- The event in the array. -/
def kevent (key : Key) (found : Found) : Option Kevent :=
  (s.knotes key).map fun handle => ⟨key.filter, found, handle⟩

/-- A new call of `dispatch`, and what `kevent` returns: at most sixteen events. They are one-shot. -/
def wait (ready : List (Key × Found)) : Option KqueueLoop :=
  if s.events = [] ∧ 0 < ready.length ∧ ready.length ≤ 16 ∧ (ready.map Prod.fst).Nodup ∧
      ∀ r ∈ ready, (s.knotes r.1).isSome then
    some { s with
      events := ready.filterMap fun (key, found) => s.kevent key found
      knotes := s.assign (ready.map Prod.fst) none }
  else none

/-- `dispatch`, up to the next event that it looks at, and what `run` does with it. -/
def dispatch : Option (Outcome × KqueueLoop) :=
  match s.events with
  | [] => none
  | ev :: events =>
    match s.frame ev.udata with
    | .gone => some (.undefined, s)
    | .done => some (.quiet, { s with events })
    | .waiting => some (.quiet, { s with
        events
        result := fun h => if h = ev.udata then ev.result else s.result h
        pool := s.pool ++ [ev.udata] })

/-- A worker resumes a coroutine, which does `await_resume` and is then done. -/
def resume (handle : ℕ) : Option (Outcome × KqueueLoop) :=
  if handle ∈ s.pool then
    if s.frame handle = .waiting then
      some (.returned (s.result handle), { s with
        pool := s.pool.erase handle
        frame := fun h => if h = handle then .done else s.frame h })
    else some (.undefined, s)
  else none

/-- A coroutine that is done is destroyed. -/
def destroy (handle : ℕ) : Option KqueueLoop :=
  if s.frame handle = .done then some { s with frame := fun h => if h = handle then .gone else s.frame h }
  else none

/-- The steps. -/
inductive Action
  | queue (fd : ℕ) (op : PollOp) (timeout : ℤ) (taken : ℕ)
  | close (fd : ℕ)
  | wait (ready : List (Key × Found))
  | dispatch
  | resume (handle : ℕ)
  | destroy (handle : ℕ)

/-- One step, and what is to be seen of it. -/
def step : Action → Option (Outcome × KqueueLoop)
  | .queue fd op timeout taken => (s.queue fd op timeout taken).map fun s => (.quiet, s)
  | .close fd => some (.quiet, s.close fd)
  | .wait ready => (s.wait ready).map fun s => (.quiet, s)
  | .dispatch => s.dispatch
  | .resume handle => s.resume handle
  | .destroy handle => (s.destroy handle).map fun s => (.quiet, s)

/-- The coroutines of the events that `dispatch` has not looked at yet. -/
def announced (s : KqueueLoop) : List ℕ := s.events.map Kevent.udata

/-- The kernel looks for an event with the coroutine, or it was found, or the coroutine is in the pool. -/
def Awaited (s : KqueueLoop) (h : ℕ) : Prop :=
  (∃ key, s.knotes key = some h) ∨ h ∈ s.announced ∨ h ∈ s.pool

/-! ## What the steps do -/

section Cases

variable {s s' : KqueueLoop} {h : ℕ} {o : Outcome}

theorem queue_cases {fd : ℕ} {op : PollOp} {timeout : ℤ} {taken : ℕ}
    (hqueue : s.queue fd op timeout taken = some s') :
    taken ≤ (s.newEvents fd op timeout).length ∧ ∃ timeoutId, s' = { s with
      knotes := s.assign ((s.newEvents fd op timeout).take taken) s.next
      timeoutId
      next := s.next + 1
      frame := fun h => if h = s.next then .waiting else s.frame h } := by
  rw [queue] at hqueue
  split_ifs at hqueue with htaken
  all_goals
    cases hqueue
    exact ⟨htaken, _, rfl⟩

theorem wait_cases {ready : List (Key × Found)} (hwait : s.wait ready = some s') :
    s.events = [] ∧ (ready.map Prod.fst).Nodup ∧ s' = { s with
      events := ready.filterMap fun (key, found) => s.kevent key found
      knotes := s.assign (ready.map Prod.fst) none } := by
  rw [wait] at hwait
  split_ifs at hwait with hready
  cases hwait
  exact ⟨hready.1, hready.2.2.2.1, rfl⟩

theorem dispatch_cases (hdispatch : s.dispatch = some (o, s')) :
    ∃ ev events, s.events = ev :: events ∧
      ((s.frame ev.udata = .gone ∧ o = .undefined ∧ s' = s) ∨
        (s.frame ev.udata = .done ∧ o = .quiet ∧ s' = { s with events }) ∨
        (s.frame ev.udata = .waiting ∧ o = .quiet ∧ s' = { s with
          events
          result := fun h => if h = ev.udata then ev.result else s.result h
          pool := s.pool ++ [ev.udata] })) := by
  rw [dispatch] at hdispatch
  split at hdispatch
  · cases hdispatch
  · next ev events hevents =>
    refine ⟨ev, events, hevents, ?_⟩
    split at hdispatch
    · next hframe =>
      cases hdispatch
      exact .inl ⟨hframe, rfl, rfl⟩
    · next hframe =>
      cases hdispatch
      exact .inr (.inl ⟨hframe, rfl, rfl⟩)
    · next hframe =>
      cases hdispatch
      exact .inr (.inr ⟨hframe, rfl, rfl⟩)

theorem resume_cases {handle : ℕ} (hresume : s.resume handle = some (o, s')) :
    handle ∈ s.pool ∧
      ((s.frame handle ≠ .waiting ∧ o = .undefined ∧ s' = s) ∨
        (s.frame handle = .waiting ∧ o = .returned (s.result handle) ∧ s' = { s with
          pool := s.pool.erase handle
          frame := fun h => if h = handle then .done else s.frame h })) := by
  rw [resume] at hresume
  split_ifs at hresume with hpool hframe
  · cases hresume
    exact ⟨hpool, .inr ⟨hframe, rfl, rfl⟩⟩
  · cases hresume
    exact ⟨hpool, .inl ⟨hframe, rfl, rfl⟩⟩

theorem destroy_cases {handle : ℕ} (hdestroy : s.destroy handle = some s') :
    s.frame handle = .done ∧ s' = { s with frame := fun h => if h = handle then .gone else s.frame h } := by
  rw [destroy] at hdestroy
  split_ifs at hdestroy with hframe
  cases hdestroy
  exact ⟨hframe, rfl⟩

theorem step_cases {a : Action} (hstep : s.step a = some (o, s')) :
    (∃ fd op timeout taken, a = .queue fd op timeout taken ∧ s.queue fd op timeout taken = some s' ∧ o = .quiet) ∨
    (∃ fd, a = .close fd ∧ s' = s.close fd ∧ o = .quiet) ∨
    (∃ ready, a = .wait ready ∧ s.wait ready = some s' ∧ o = .quiet) ∨
    (a = .dispatch ∧ s.dispatch = some (o, s')) ∨
    (∃ handle, a = .resume handle ∧ s.resume handle = some (o, s')) ∨
    (∃ handle, a = .destroy handle ∧ s.destroy handle = some s' ∧ o = .quiet) := by
  cases a with
  | queue fd op timeout taken =>
    obtain ⟨s₁, hs₁, heq⟩ := Option.map_eq_some_iff.1 hstep
    cases heq
    exact .inl ⟨fd, op, timeout, taken, rfl, hs₁, rfl⟩
  | close fd =>
    cases hstep
    exact .inr (.inl ⟨fd, rfl, rfl, rfl⟩)
  | wait ready =>
    obtain ⟨s₁, hs₁, heq⟩ := Option.map_eq_some_iff.1 hstep
    cases heq
    exact .inr (.inr (.inl ⟨ready, rfl, hs₁, rfl⟩))
  | dispatch => exact .inr (.inr (.inr (.inl ⟨rfl, hstep⟩)))
  | resume handle => exact .inr (.inr (.inr (.inr (.inl ⟨handle, rfl, hstep⟩))))
  | destroy handle =>
    obtain ⟨s₁, hs₁, heq⟩ := Option.map_eq_some_iff.1 hstep
    cases heq
    exact .inr (.inr (.inr (.inr (.inr ⟨handle, rfl, hs₁, rfl⟩))))

theorem assign_eq_some {keys : List Key} {handle : Option ℕ} {key : Key} :
    s.assign keys handle key = some h ↔ (key ∈ keys ∧ handle = some h) ∨ (key ∉ keys ∧ s.knotes key = some h) := by
  rw [assign]
  split_ifs with hkey
  · simp [hkey]
  · simp [hkey]

/-- The coroutines of the events that the kernel found. -/
theorem announced_kevent (ready : List (Key × Found)) :
    (ready.filterMap fun (key, found) => s.kevent key found).map Kevent.udata =
      (ready.map Prod.fst).filterMap s.knotes := by
  rw [List.map_filterMap, List.filterMap_map]
  refine List.filterMap_congr fun r _ => ?_
  obtain ⟨key, found⟩ := r
  change ((s.knotes key).map fun handle => Kevent.mk key.filter found handle).map Kevent.udata = s.knotes key
  rw [Option.map_map]
  exact Option.map_id'

theorem mem_announced_kevent {ready : List (Key × Found)} :
    h ∈ (ready.filterMap fun (key, found) => s.kevent key found).map Kevent.udata ↔
      ∃ key ∈ ready.map Prod.fst, s.knotes key = some h := by
  rw [announced_kevent, List.mem_filterMap]

theorem announced_cons {ev : Kevent} {events : List Kevent} (hevents : s.events = ev :: events) :
    s.announced = ev.udata :: events.map Kevent.udata := by
  rw [announced, hevents, List.map_cons]

end Cases

/-! ## Operations that are forgotten -/

section Forgotten

variable {s s' : KqueueLoop} {h : ℕ} {o : Outcome} {a : Action}

/-- The coroutine waits, and there is nothing for which it may be resumed. -/
def Forgotten (s : KqueueLoop) (h : ℕ) : Prop := h < s.next ∧ s.frame h = .waiting ∧ ¬s.Awaited h

/-- All operations that were queued are done, or may still be completed. -/
def NoneForgotten (s : KqueueLoop) : Prop := ∀ h, ¬s.Forgotten h

/-- Each coroutine in one of these events waits for another one, too, or is about to be resumed. -/
def Spared (s : KqueueLoop) (keys : List Key) : Prop :=
  ∀ key ∈ keys, ∀ h, s.knotes key = some h → s.frame h = .waiting →
    (∃ key', key' ∉ keys ∧ s.knotes key' = some h) ∨ h ∈ s.announced ∨ h ∈ s.pool

/-- A step does not take away the last event of an operation, and if it queues one, the kernel takes one of its
    events. -/
def Spares (s : KqueueLoop) : Action → Prop
  | .queue fd op timeout taken => 0 < taken ∧ s.Spared ((s.newEvents fd op timeout).take taken)
  | .close fd => s.Spared [⟨fd, .read⟩, ⟨fd, .write⟩]
  | _ => True

/-- No coroutine is awaited before it is there. -/
def Placed (s : KqueueLoop) : Prop := ∀ h, s.Awaited h → h < s.next

theorem placed_new : Placed {} := by
  rintro h (⟨key, hkey⟩ | hmem | hmem)
  · cases hkey
  · cases hmem
  · cases hmem

/-- What is awaited after a step was awaited before, or is new. -/
theorem awaited_of_step (hstep : s.step a = some (o, s')) (hawaited : s'.Awaited h) :
    s.Awaited h ∨ (h = s.next ∧ h < s'.next) := by
  rcases step_cases hstep with ⟨fd, op, timeout, taken, -, hqueue, -⟩ | ⟨fd, -, rfl, -⟩ | ⟨ready, -, hwait, -⟩ |
    ⟨-, hdispatch⟩ | ⟨handle, -, hresume⟩ | ⟨handle, -, hdestroy, -⟩
  · obtain ⟨-, timeoutId, rfl⟩ := queue_cases hqueue
    rcases hawaited with ⟨key, hkey⟩ | hmem
    · rcases assign_eq_some.1 hkey with ⟨-, heq⟩ | ⟨-, hkey⟩
      · cases heq
        exact .inr ⟨rfl, Nat.lt_succ_self _⟩
      · exact .inl (.inl ⟨key, hkey⟩)
    · exact .inl (.inr hmem)
  · refine .inl (hawaited.imp_left fun ⟨key, hkey⟩ => ?_)
    rcases assign_eq_some.1 hkey with ⟨-, heq⟩ | ⟨-, hkey⟩
    · cases heq
    · exact ⟨key, hkey⟩
  · obtain ⟨-, -, rfl⟩ := wait_cases hwait
    left
    rcases hawaited with ⟨key, hkey⟩ | hmem | hpool
    · rcases assign_eq_some.1 hkey with ⟨-, heq⟩ | ⟨-, hkey⟩
      · cases heq
      · exact .inl ⟨key, hkey⟩
    · obtain ⟨key, -, hkey⟩ := mem_announced_kevent.1 hmem
      exact .inl ⟨key, hkey⟩
    · exact .inr (.inr hpool)
  · left
    obtain ⟨ev, events, hevents, ⟨-, -, rfl⟩ | ⟨-, -, rfl⟩ | ⟨-, -, rfl⟩⟩ := dispatch_cases hdispatch
    · exact hawaited
    · rw [Awaited, announced_cons hevents]
      exact hawaited.imp_right (Or.imp_left (List.mem_cons_of_mem _))
    · rw [Awaited, announced_cons hevents]
      rcases hawaited with hkey | hmem | hpool
      · exact .inl hkey
      · exact .inr (.inl (List.mem_cons_of_mem _ hmem))
      · rcases List.mem_append.1 hpool with hpool | hpool
        · exact .inr (.inr hpool)
        · exact .inr (.inl (List.mem_cons.2 (.inl (List.mem_singleton.1 hpool))))
  · left
    obtain ⟨-, ⟨-, -, rfl⟩ | ⟨-, -, rfl⟩⟩ := resume_cases hresume
    · exact hawaited
    · exact hawaited.imp_right (Or.imp_right List.mem_of_mem_erase)
  · obtain ⟨-, rfl⟩ := destroy_cases hdestroy
    exact .inl hawaited

/-- Coroutines are new where an operation is queued. -/
theorem next_step (hstep : s.step a = some (o, s')) :
    s'.next = s.next ∨ ∃ fd op timeout taken, a = .queue fd op timeout taken ∧ s'.next = s.next + 1 ∧
      s.queue fd op timeout taken = some s' := by
  rcases step_cases hstep with ⟨fd, op, timeout, taken, rfl, hqueue, -⟩ | ⟨fd, -, rfl, -⟩ | ⟨ready, -, hwait, -⟩ |
    ⟨-, hdispatch⟩ | ⟨handle, -, hresume⟩ | ⟨handle, -, hdestroy, -⟩
  · refine .inr ⟨fd, op, timeout, taken, rfl, ?_, hqueue⟩
    obtain ⟨-, timeoutId, rfl⟩ := queue_cases hqueue
    rfl
  · exact .inl rfl
  · obtain ⟨-, -, rfl⟩ := wait_cases hwait
    exact .inl rfl
  · obtain ⟨ev, events, -, ⟨-, -, rfl⟩ | ⟨-, -, rfl⟩ | ⟨-, -, rfl⟩⟩ := dispatch_cases hdispatch
    all_goals exact .inl rfl
  · obtain ⟨-, ⟨-, -, rfl⟩ | ⟨-, -, rfl⟩⟩ := resume_cases hresume
    all_goals exact .inl rfl
  · obtain ⟨-, rfl⟩ := destroy_cases hdestroy
    exact .inl rfl

theorem next_le (hstep : s.step a = some (o, s')) : s.next ≤ s'.next := by
  rcases next_step hstep with heq | ⟨fd, op, timeout, taken, -, heq, -⟩
  · exact heq.ge
  · rw [heq]
    exact Nat.le_succ _

theorem Placed.step (hs : s.Placed) (hstep : s.step a = some (o, s')) : s'.Placed := by
  intro h hawaited
  rcases awaited_of_step hstep hawaited with hawaited | ⟨-, hlt⟩
  · exact (hs h hawaited).trans_le (next_le hstep)
  · exact hlt

/-- What becomes of a coroutine that is there. -/
theorem frame_step (hstep : s.step a = some (o, s')) (hlt : h < s.next) :
    s'.frame h = s.frame h ∨ (h ∈ s.pool ∧ s'.frame h = .done) ∨ (s.frame h = .done ∧ s'.frame h = .gone) := by
  rcases step_cases hstep with ⟨fd, op, timeout, taken, -, hqueue, -⟩ | ⟨fd, -, rfl, -⟩ | ⟨ready, -, hwait, -⟩ |
    ⟨-, hdispatch⟩ | ⟨handle, -, hresume⟩ | ⟨handle, -, hdestroy, -⟩
  · obtain ⟨-, timeoutId, rfl⟩ := queue_cases hqueue
    exact .inl (if_neg hlt.ne)
  · exact .inl rfl
  · obtain ⟨-, -, rfl⟩ := wait_cases hwait
    exact .inl rfl
  · obtain ⟨ev, events, -, ⟨-, -, rfl⟩ | ⟨-, -, rfl⟩ | ⟨-, -, rfl⟩⟩ := dispatch_cases hdispatch
    all_goals exact .inl rfl
  · obtain ⟨hpool, ⟨-, -, rfl⟩ | ⟨-, -, rfl⟩⟩ := resume_cases hresume
    · exact .inl rfl
    · by_cases heq : h = handle
      · exact .inr (.inl ⟨heq ▸ hpool, if_pos heq⟩)
      · exact .inl (if_neg heq)
  · obtain ⟨hdone, rfl⟩ := destroy_cases hdestroy
    by_cases heq : h = handle
    · exact .inr (.inr ⟨heq ▸ hdone, if_pos heq⟩)
    · exact .inl (if_neg heq)

/-- What is forgotten stays forgotten. -/
theorem Forgotten.step (hs : s.Forgotten h) (hstep : s.step a = some (o, s')) : s'.Forgotten h := by
  obtain ⟨hlt, hwaiting, hnot⟩ := hs
  refine ⟨hlt.trans_le (next_le hstep), ?_, fun hawaited => ?_⟩
  · rcases frame_step hstep hlt with heq | ⟨hpool, -⟩ | ⟨hdone, -⟩
    · exact heq.trans hwaiting
    · exact absurd (.inr (.inr hpool)) hnot
    · cases hwaiting.symm.trans hdone
  · rcases awaited_of_step hstep hawaited with hawaited | ⟨rfl, -⟩
    · exact hnot hawaited
    · exact lt_irrefl _ hlt

/-- What is awaited stays so, where it is spared by the events that are taken away. -/
theorem awaited_assign {keys : List Key} (hspared : s.Spared keys) (hwaiting : s.frame h = .waiting)
    (hawaited : s.Awaited h) (handle : Option ℕ) :
    (∃ key, s.assign keys handle key = some h) ∨ h ∈ s.announced ∨ h ∈ s.pool := by
  rcases hawaited with ⟨key, hkey⟩ | hmem
  · by_cases hkeys : key ∈ keys
    · refine (hspared key hkeys h hkey hwaiting).imp_left fun ⟨key', hnot, hkey'⟩ => ?_
      exact ⟨key', assign_eq_some.2 (.inr ⟨hnot, hkey'⟩)⟩
    · exact .inl ⟨key, assign_eq_some.2 (.inr ⟨hkeys, hkey⟩)⟩
  · exact .inr hmem

theorem awaited_step (hspares : s.Spares a) (hstep : s.step a = some (o, s')) (hwaiting : s.frame h = .waiting)
    (hwaiting' : s'.frame h = .waiting) (hawaited : s.Awaited h) : s'.Awaited h := by
  rcases step_cases hstep with ⟨fd, op, timeout, taken, rfl, hqueue, -⟩ | ⟨fd, rfl, rfl, -⟩ |
    ⟨ready, rfl, hwait, -⟩ | ⟨rfl, hdispatch⟩ | ⟨handle, rfl, hresume⟩ | ⟨handle, rfl, hdestroy, -⟩
  · obtain ⟨-, timeoutId, rfl⟩ := queue_cases hqueue
    exact awaited_assign hspares.2 hwaiting hawaited _
  · exact awaited_assign hspares hwaiting hawaited _
  · obtain ⟨hevents, -, rfl⟩ := wait_cases hwait
    rcases hawaited with ⟨key, hkey⟩ | hmem | hpool
    · by_cases hready : key ∈ ready.map Prod.fst
      · exact .inr (.inl (mem_announced_kevent.2 ⟨key, hready, hkey⟩))
      · exact .inl ⟨key, assign_eq_some.2 (.inr ⟨hready, hkey⟩)⟩
    · rw [announced, hevents] at hmem
      cases hmem
    · exact .inr (.inr hpool)
  · obtain ⟨ev, events, hevents, ⟨-, -, rfl⟩ | ⟨hdone, -, rfl⟩ | ⟨-, -, rfl⟩⟩ := dispatch_cases hdispatch
    · exact hawaited
    · rw [Awaited, announced_cons hevents, List.mem_cons] at hawaited
      refine hawaited.imp_right (Or.imp_left fun hmem => hmem.resolve_left ?_)
      rintro rfl
      cases hwaiting.symm.trans hdone
    · rw [Awaited, announced_cons hevents, List.mem_cons] at hawaited
      rcases hawaited with hkey | (rfl | hmem) | hpool
      · exact .inl hkey
      · exact .inr (.inr (List.mem_append_right _ (List.mem_singleton.2 rfl)))
      · exact .inr (.inl hmem)
      · exact .inr (.inr (List.mem_append_left _ hpool))
  · obtain ⟨-, ⟨-, -, rfl⟩ | ⟨-, -, rfl⟩⟩ := resume_cases hresume
    · exact hawaited
    · have hne : h ≠ handle := by
        rintro rfl
        cases (if_pos rfl).symm.trans hwaiting'
      exact hawaited.imp_right (Or.imp_right (List.mem_erase_of_ne hne).2)
  · obtain ⟨-, rfl⟩ := destroy_cases hdestroy
    exact hawaited

theorem NoneForgotten.step (hs : s.NoneForgotten) (hspares : s.Spares a) (hstep : s.step a = some (o, s')) :
    s'.NoneForgotten := by
  rintro h ⟨hlt, hwaiting, hnot⟩
  by_cases hold : h < s.next
  · have hwaiting₀ : s.frame h = .waiting := by
      rcases frame_step hstep hold with heq | ⟨-, hdone⟩ | ⟨-, hgone⟩
      · exact heq.symm.trans hwaiting
      · cases hwaiting.symm.trans hdone
      · cases hwaiting.symm.trans hgone
    refine hs h ⟨hold, hwaiting₀, fun hawaited => hnot ?_⟩
    exact awaited_step hspares hstep hwaiting₀ hwaiting hawaited
  · obtain heq | ⟨fd, op, timeout, taken, rfl, heq, hqueue⟩ := next_step hstep
    · exact hold (heq ▸ hlt)
    · rw [heq] at hlt
      obtain rfl : h = s.next := le_antisymm (Nat.lt_succ_iff.1 hlt) (not_lt.1 hold)
      obtain ⟨htaken, timeoutId, rfl⟩ := queue_cases hqueue
      -- The kernel looks for the first of its events.
      have hlen : 0 < ((s.newEvents fd op timeout).take taken).length := by
        rw [List.length_take]
        exact lt_min hspares.1 (hspares.1.trans_le htaken)
      obtain ⟨key, hkey⟩ := List.exists_mem_of_length_pos hlen
      exact hnot (.inl ⟨key, assign_eq_some.2 (.inl ⟨hkey, rfl⟩)⟩)

/-- The last event of an operation was taken away. -/
theorem Placed.forgotten_of_not_spared (hs : s.Placed) {keys : List Key} {handle : Option ℕ}
    (hspared : ¬s.Spared keys) (hhandle : ∀ h ∈ handle, s.next ≤ h) :
    ∃ h < s.next, s.frame h = .waiting ∧
      ¬((∃ key, s.assign keys handle key = some h) ∨ h ∈ s.announced ∨ h ∈ s.pool) := by
  simp only [Spared, not_forall] at hspared
  obtain ⟨key, hkeys, h, hkey, hwaiting, hnot⟩ := hspared
  have hlt := hs h (.inl ⟨key, hkey⟩)
  refine ⟨h, hlt, hwaiting, fun hawaited => hnot (hawaited.imp_left fun ⟨key', hkey'⟩ => ?_)⟩
  rcases assign_eq_some.1 hkey' with ⟨-, heq⟩ | hkey'
  · exact absurd (hhandle h heq) (not_le.2 hlt)
  · exact ⟨key', hkey'⟩

theorem Placed.not_noneForgotten (hs : s.Placed) (hspares : ¬s.Spares a) (hstep : s.step a = some (o, s')) :
    ¬s'.NoneForgotten := by
  intro hnone
  rcases step_cases hstep with ⟨fd, op, timeout, taken, rfl, hqueue, -⟩ | ⟨fd, rfl, rfl, -⟩ |
    ⟨ready, rfl, hwait, -⟩ | ⟨rfl, hdispatch⟩ | ⟨handle, rfl, hresume⟩ | ⟨handle, rfl, hdestroy, -⟩
  · obtain ⟨-, timeoutId, rfl⟩ := queue_cases hqueue
    rcases Nat.eq_zero_or_pos taken with rfl | htaken
    · -- None of its events was taken.
      refine hnone s.next ⟨Nat.lt_succ_self _, if_pos rfl, fun hawaited => ?_⟩
      refine lt_irrefl _ (hs s.next (hawaited.imp_left fun ⟨key, hkey⟩ => ⟨key, ?_⟩))
      have hkey : s.assign [] s.next key = some s.next := hkey
      rcases assign_eq_some.1 hkey with ⟨hmem, -⟩ | ⟨-, hkey⟩
      · cases hmem
      · exact hkey
    · obtain ⟨h, hlt, hwaiting, hnot⟩ := hs.forgotten_of_not_spared (fun hspared => hspares ⟨htaken, hspared⟩)
        (by simp : ∀ h ∈ some s.next, s.next ≤ h)
      exact hnone h ⟨Nat.lt_succ_of_lt hlt, (if_neg hlt.ne).trans hwaiting, hnot⟩
  · obtain ⟨h, hlt, hwaiting, hnot⟩ := hs.forgotten_of_not_spared hspares
      (by simp : ∀ h ∈ (none : Option ℕ), s.next ≤ h)
    exact hnone h ⟨hlt, hwaiting, hnot⟩
  · exact hspares trivial
  · exact hspares trivial
  · exact hspares trivial
  · exact hspares trivial

/-- In every run, each operation that was queued is done, or may still be completed, as long as no step takes away its
    last event, and not any longer; whatever comes after that, one that is forgotten is not resumed. -/
theorem completable_iff {as : List Action} {os : List Outcome} (hexec : exec step {} as = some (os, s)) :
    (s.NoneForgotten ↔ Along step Spares {} as) ∧
      ∀ h, s.Forgotten h → ∀ as' os' s', exec step s as' = some (os', s') → s'.Forgotten h := by
  refine ⟨?_, fun h hs as' os' s' hexec' => exec_invariant (Forgotten · h) (fun _ _ _ _ hs hstep => hs.step hstep) hs
    hexec'⟩
  exact exec_iff_along (fun s => s.Placed ∧ s.NoneForgotten) (P := NoneForgotten) (fun _ hs => hs.2)
    (fun _ _ _ _ hs hspares hstep => ⟨hs.1.step hstep, hs.2.step hspares hstep⟩)
    (fun _ _ _ _ hs hspares hstep => hs.1.not_noneForgotten hspares hstep)
    (fun _ _ _ _ hstep hnone h hs => hnone h (hs.step hstep))
    ⟨placed_new, fun h hs => by cases hs.1⟩ hexec

/-- A coroutine that reads is never resumed, if its descriptor is closed in the meantime. -/
theorem completable_iff_closed : ∃ os s, exec step {} [.queue 7 .read 0 1, .close 7] = some (os, s) ∧
    ∀ as' os' s', exec step s as' = some (os', s') → s'.Forgotten 0 := by
  refine ⟨_, _, rfl, fun as' os' s' h => ?_⟩
  refine (@completable_iff _ [.queue 7 .read 0 1, .close 7] _ rfl).2 0 ⟨by decide, rfl, ?_⟩ as' os' s' h
  rintro (⟨key, hkey⟩ | hmem | hpool)
  · rcases assign_eq_some.1 hkey with ⟨-, heq⟩ | ⟨hclosed, hkey⟩
    · cases heq
    · rcases assign_eq_some.1 hkey with ⟨hmem, -⟩ | ⟨-, hkey⟩
      · obtain rfl := List.mem_singleton.1 hmem
        exact hclosed List.mem_cons_self
      · cases hkey
  · cases hmem
  · cases hpool

end Forgotten

/-! ## Operations that are resumed while they wait -/

section Faultless

variable {s s' : KqueueLoop} {o : Outcome} {a : Action}

/-- The operations that are queued are of these kinds. -/
def Action.Within (K : PollOp → ℤ → Prop) : Action → Prop
  | .queue _ op timeout _ => K op timeout
  | _ => True

/-- Each coroutine is in one event at most, or once in the pool, and it waits. -/
structure Single (s : KqueueLoop) : Prop where
  knotes : ∀ key h, s.knotes key = some h → s.frame h = .waiting ∧ h ∉ s.announced ++ s.pool ∧
    ∀ key', s.knotes key' = some h → key' = key
  found : (s.announced ++ s.pool).Nodup
  waiting : ∀ h ∈ s.announced ++ s.pool, s.frame h = .waiting

theorem single_new : Single {} where
  knotes := by simp
  found := List.nodup_nil
  waiting := by simp [announced]

/-- An operation that asks for one event. -/
theorem length_newEvents_iff (s : KqueueLoop) (fd : ℕ) {op : PollOp} {timeout : ℤ} :
    (s.newEvents fd op timeout).length ≤ 1 ↔ op ≠ .readWrite ∧ timeout ≤ 0 := by
  rw [newEvents]
  by_cases htimeout : timeout > 0
  · rw [if_pos htimeout]
    refine iff_of_false ?_ fun h => absurd htimeout (Int.not_lt.2 h.2)
    cases op <;> simp [PollOp.isReadable, PollOp.isWritable, PollOp.value]
  · rw [if_neg htimeout]
    have hle := Int.not_lt.1 htimeout
    cases op <;> simp [hle, PollOp.isReadable, PollOp.isWritable, PollOp.value]

/-- The events that an operation asks for are different. -/
theorem nodup_newEvents (fd : ℕ) (op : PollOp) (timeout : ℤ) : (s.newEvents fd op timeout).Nodup := by
  rw [newEvents]
  split_ifs <;> simp

theorem Placed.not_awaited (hs : s.Placed) : ¬s.Awaited s.next := fun h => lt_irrefl _ (hs _ h)

/-- The operation that is queued is in one event, and nowhere else. -/
theorem Single.queue (h : s.Single) (hs : s.Placed) {keys : List Key} {timeoutId : ℕ}
    (hkeys : ∀ key ∈ keys, ∀ key' ∈ keys, key' = key) :
    Single { s with
      knotes := s.assign keys s.next
      timeoutId
      next := s.next + 1
      frame := fun h => if h = s.next then .waiting else s.frame h } where
  knotes := fun key handle hkey => by
    rcases assign_eq_some.1 hkey with ⟨hmem, heq⟩ | ⟨hmem, hkey⟩
    · cases heq
      refine ⟨if_pos rfl, fun hmem' => hs.not_awaited (.inr (List.mem_append.1 hmem')), fun key' hkey' => ?_⟩
      rcases assign_eq_some.1 hkey' with ⟨hmem', -⟩ | ⟨-, hkey'⟩
      · exact hkeys key hmem key' hmem'
      · exact absurd (.inl ⟨key', hkey'⟩) hs.not_awaited
    · obtain ⟨hwaiting, hnot, hunique⟩ := h.knotes key handle hkey
      have hne := (hs handle (.inl ⟨key, hkey⟩)).ne
      refine ⟨(if_neg hne).trans hwaiting, hnot, fun key' hkey' => ?_⟩
      rcases assign_eq_some.1 hkey' with ⟨-, heq⟩ | ⟨-, hkey'⟩
      · exact absurd (Option.some.inj heq).symm hne
      · exact hunique key' hkey'
  found := h.found
  waiting := fun handle hmem =>
    (if_neg (hs handle (.inr (List.mem_append.1 hmem))).ne).trans (h.waiting handle hmem)

theorem Single.close (h : s.Single) (fd : ℕ) : (s.close fd).Single where
  knotes := fun key handle hkey => by
    rcases assign_eq_some.1 hkey with ⟨-, heq⟩ | ⟨-, hkey⟩
    · cases heq
    · obtain ⟨hwaiting, hnot, hunique⟩ := h.knotes key handle hkey
      refine ⟨hwaiting, hnot, fun key' hkey' => ?_⟩
      rcases assign_eq_some.1 hkey' with ⟨-, heq⟩ | ⟨-, hkey'⟩
      · cases heq
      · exact hunique key' hkey'
  found := h.found
  waiting := h.waiting

theorem Single.wait (h : s.Single) {ready : List (Key × Found)} (hwait : s.wait ready = some s') : s'.Single := by
  obtain ⟨hevents, hready, rfl⟩ := wait_cases hwait
  have hpool : ∀ handle ∈ s.pool, handle ∈ s.announced ++ s.pool := fun _ => List.mem_append_right _
  refine ⟨fun key handle hkey => ?_, ?_, fun handle hmem => ?_⟩
  · rcases assign_eq_some.1 hkey with ⟨-, heq⟩ | ⟨hnotReady, hkey⟩
    · cases heq
    · obtain ⟨hwaiting, hnot, hunique⟩ := h.knotes key handle hkey
      refine ⟨hwaiting, fun hmem => ?_, fun key' hkey' => ?_⟩
      · rcases List.mem_append.1 hmem with hmem | hmem
        · obtain ⟨key', hkey', hfound⟩ := mem_announced_kevent.1 hmem
          exact hnotReady (hunique key' hfound ▸ hkey')
        · exact hnot (hpool handle hmem)
      · rcases assign_eq_some.1 hkey' with ⟨-, heq⟩ | ⟨-, hkey'⟩
        · cases heq
        · exact hunique key' hkey'
  · refine List.Nodup.append ?_ h.found.of_append_right ?_
    · rw [announced, announced_kevent]
      exact hready.filterMap fun key key' handle hkey hkey' => (h.knotes key' handle hkey').2.2 key hkey
    · intro handle hmem hmem'
      obtain ⟨key, -, hkey⟩ := mem_announced_kevent.1 hmem
      exact (h.knotes key handle hkey).2.1 (hpool handle hmem')
  · rcases List.mem_append.1 hmem with hmem | hmem
    · obtain ⟨key, -, hkey⟩ := mem_announced_kevent.1 hmem
      exact (h.knotes key handle hkey).1
    · exact h.waiting handle (hpool handle hmem)

theorem Single.dispatch (h : s.Single) (hdispatch : s.dispatch = some (o, s')) : o ≠ .undefined ∧ s'.Single := by
  obtain ⟨ev, events, hevents, hcases⟩ := dispatch_cases hdispatch
  have hmem : ev.udata ∈ s.announced ++ s.pool := by
    rw [announced_cons hevents]
    exact List.mem_cons_self
  have hwaiting := h.waiting _ hmem
  obtain ⟨hgone, -⟩ | ⟨hdone, -⟩ | ⟨-, rfl, rfl⟩ := hcases
  · cases hwaiting.symm.trans hgone
  · cases hwaiting.symm.trans hdone
  · -- The coroutine of the event goes to the end of the pool.
    have hperm : (events.map Kevent.udata ++ (s.pool ++ [ev.udata])).Perm (s.announced ++ s.pool) := by
      rw [announced_cons hevents, ← List.append_assoc]
      exact List.perm_append_singleton _ _
    refine ⟨Outcome.noConfusion, fun key handle hkey => ?_, hperm.nodup_iff.2 h.found, fun handle hmem => ?_⟩
    · obtain ⟨hwaiting, hnot, hunique⟩ := h.knotes key handle hkey
      exact ⟨hwaiting, fun hmem => hnot (hperm.mem_iff.1 hmem), hunique⟩
    · exact h.waiting handle (hperm.mem_iff.1 hmem)

theorem Single.resume (h : s.Single) {handle : ℕ} (hresume : s.resume handle = some (o, s')) :
    o ≠ .undefined ∧ s'.Single := by
  obtain ⟨hpool, ⟨hnot, -⟩ | ⟨-, rfl, rfl⟩⟩ := resume_cases hresume
  · exact absurd (h.waiting handle (List.mem_append_right _ hpool)) hnot
  · have herase : ∀ h' ∈ s.announced ++ s.pool.erase handle, h' ∈ s.announced ++ s.pool ∧ h' ≠ handle := by
      intro h' hmem
      rcases List.mem_append.1 hmem with hannounced | herased
      · refine ⟨List.mem_append_left _ hannounced, ?_⟩
        rintro rfl
        exact List.disjoint_of_nodup_append h.found hannounced hpool
      · have hmem' := h.found.of_append_right.mem_erase_iff.1 herased
        exact ⟨List.mem_append_right _ hmem'.2, hmem'.1⟩
    refine ⟨Outcome.noConfusion, fun key h' hkey => ?_, ?_, fun h' hmem => ?_⟩
    · obtain ⟨hwaiting, hnot, hunique⟩ := h.knotes key h' hkey
      have hne : h' ≠ handle := by
        rintro rfl
        exact hnot (List.mem_append_right _ hpool)
      exact ⟨(if_neg hne).trans hwaiting, fun hmem => hnot (herase h' hmem).1, hunique⟩
    · exact h.found.sublist (List.Sublist.append_left List.erase_sublist _)
    · exact (if_neg (herase h' hmem).2).trans (h.waiting h' (herase h' hmem).1)

theorem Single.destroy (h : s.Single) {handle : ℕ} (hdestroy : s.destroy handle = some s') : s'.Single := by
  obtain ⟨hdone, rfl⟩ := destroy_cases hdestroy
  have hne : ∀ h', s.frame h' = .waiting → h' ≠ handle := by
    rintro h' hwaiting rfl
    cases hwaiting.symm.trans hdone
  refine ⟨fun key h' hkey => ?_, h.found, fun h' hmem => ?_⟩
  · obtain ⟨hwaiting, hnot, hunique⟩ := h.knotes key h' hkey
    exact ⟨(if_neg (hne h' hwaiting)).trans hwaiting, hnot, hunique⟩
  · have hwaiting := h.waiting h' hmem
    exact (if_neg (hne h' hwaiting)).trans hwaiting

/-- Operations that ask for one event each are resumed once, while they wait. -/
theorem Single.step (h : s.Single) (hs : s.Placed) (hkind : a.Within fun op timeout => op ≠ .readWrite ∧ timeout ≤ 0)
    (hstep : s.step a = some (o, s')) : o ≠ .undefined ∧ s'.Single := by
  have hquiet : o = .quiet → o ≠ .undefined := by
    rintro rfl heq
    cases heq
  rcases step_cases hstep with ⟨fd, op, timeout, taken, rfl, hqueue, ho⟩ | ⟨fd, -, rfl, ho⟩ | ⟨ready, -, hwait, ho⟩ |
    ⟨-, hdispatch⟩ | ⟨handle, -, hresume⟩ | ⟨handle, -, hdestroy, ho⟩
  · obtain ⟨-, timeoutId, rfl⟩ := queue_cases hqueue
    refine ⟨hquiet ho, h.queue hs fun key hkey key' hkey' => ?_⟩
    have hlen := (s.length_newEvents_iff fd).2 hkind
    obtain ⟨i, hi, rfl⟩ := List.getElem_of_mem (List.mem_of_mem_take hkey)
    obtain ⟨j, hj, rfl⟩ := List.getElem_of_mem (List.mem_of_mem_take hkey')
    obtain rfl : j = i := by omega
    rfl
  · exact ⟨hquiet ho, h.close fd⟩
  · exact ⟨hquiet ho, h.wait hwait⟩
  · exact h.dispatch hdispatch
  · exact h.resume hresume
  · exact ⟨hquiet ho, h.destroy hdestroy⟩

/-- An operation that asks for two events: both are found, and at the second one its coroutine is gone. -/
theorem exists_undefined {op : PollOp} {timeout : ℤ} (hkind : ¬(op ≠ .readWrite ∧ timeout ≤ 0)) :
    ∃ key key' os s, exec step {} [.queue 0 op timeout 2, .wait [(key, {}), (key', {})], .dispatch, .resume 0,
      .destroy 0, .dispatch] = some (os, s) ∧ .undefined ∈ os := by
  have hlen := not_le.1 (mt (length_newEvents_iff {} 0).1 hkind)
  have hnodup := nodup_newEvents (s := {}) 0 op timeout
  obtain ⟨key, key', rest, hkeys⟩ : ∃ key key' rest, newEvents {} 0 op timeout = key :: key' :: rest := by
    match h : newEvents {} 0 op timeout with
    | [] => simp [h] at hlen
    | [key] => simp [h] at hlen
    | key :: key' :: rest => exact ⟨key, key', rest, rfl⟩
  rw [hkeys] at hnodup
  have hne : key ≠ key' := by
    rintro rfl
    simp at hnodup
  refine ⟨key, key', ?_⟩
  simp [exec, step, queue, hkeys, wait, assign, hne, kevent, dispatch, resume, destroy]

/-- By operations of given kinds, nothing undefined is ever done, in whatever order it all happens, if they ask for one
    event each, and only then. -/
theorem faultless_iff {K : PollOp → ℤ → Prop} :
    (∀ as os s, (∀ a ∈ as, a.Within K) → exec step {} as = some (os, s) → .undefined ∉ os) ↔
      ∀ op timeout, K op timeout → op ≠ .readWrite ∧ timeout ≤ 0 := by
  constructor
  · intro hall op timeout hK
    by_contra hkind
    obtain ⟨key, key', os, s, hexec, hmem⟩ := exists_undefined hkind
    refine hall _ os s ?_ hexec hmem
    simp [Action.Within, hK]
  · intro hkind as os s has hexec hmem
    have hwithin : Along step (fun _ a => a.Within fun op timeout => op ≠ .readWrite ∧ timeout ≤ 0) {} as := by
      refine along_of_forall (fun a ha => ?_) _
      cases a with
      | queue fd op timeout taken => exact hkind op timeout (has _ ha)
      | _ => trivial
    exact hwithin.outputs (fun s => s.Placed ∧ s.Single) (Q := (· ≠ .undefined))
      (fun _ _ _ _ hs hC hstep => have h := hs.2.step hs.1 hC hstep; ⟨h.1, hs.1.step hstep, h.2⟩)
      ⟨placed_new, single_new⟩ hexec _ hmem rfl

end Faultless

end KqueueLoop

end Cppnet.Io
