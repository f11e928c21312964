import Cppnet.Io.Basic
import Cppnet.Lib.Machine
import Cppnet.Lib.PriorityQueue

/-!
# `epoll_loop` and `scheduler`

`io/epoll_loop.cpp` and `io/scheduler.cpp`: operations on descriptors, each waited for by a coroutine, which
is resumed by a pool of workers when the descriptor is ready, or at a timeout.

The steps are those of the threads that share the loop: a coroutine that queues an operation, `run`, which
calls `dispatch` and gives what it yields to the pool, from one yield to the next, and the workers. Coroutines
are known by number. An operation that does not have to wait is never queued.

The constructor stores the descriptor of the timer in its event, and `dispatch` compares what is stored with the
address of that descriptor. So an event of the timer is not taken for one, but for one with a coroutine, which is none
and is given to `run`; `timerKnown` is then false. It is true of a loop that knows the events of its timer.

Times are in nanoseconds. A step that is not possible gives `none`, and so does one that resumes a coroutine that is
done, or what is no coroutine. What `dispatch` throws is stored in its generator, and nothing comes of it.
-/

namespace Cppnet.Io

open Lib

/-- `timeout_operation`. -/
structure TimeoutOperation where
  handle : ℕ
  timeoutAt : ℕ
  deriving DecidableEq

/-- The flags of an event besides those asked for: an error, with `errno`, and the ends of a connection. -/
structure Flags where
  err : Option ℕ := none
  rdhup : Bool := false
  hup : Bool := false
  deriving DecidableEq

/-- The result that `dispatch` gives for an event. -/
def Flags.result (flags : Flags) : Result where
  count := 0
  err :=
    match flags.err with
    | some errno => some (.system errno)
    | none => if flags.rdhup then some .closed else if flags.hup then some .closed else none

/-- The result that `dispatch` gives for a timeout. -/
def timedOut : Result := ⟨0, some .timedOut⟩

/-- What `epoll_wait` finds ready: the timer, or a descriptor. -/
inductive Ready
  | timer
  | descriptor (fd : ℕ) (flags : Flags)
  deriving DecidableEq

/-- The descriptor, or none for the timer. -/
def Ready.source : Ready → Option ℕ
  | timer => none
  | descriptor fd _ => some fd

/-- An event in the array of `dispatch`: one of the timer, or with a coroutine. -/
inductive Event
  | timer
  | op (handle : ℕ) (flags : Flags)
  deriving DecidableEq

/-- The coroutine of an event. -/
def Event.handle? : Event → Option ℕ
  | timer => none
  | op handle _ => some handle

/-- `scheduler`, with its loop, its workers, and the coroutines that wait for operations. -/
structure Scheduler where
  /-- The coroutine in the event of a descriptor that is waited for. -/
  armed : ℕ → Option ℕ := fun _ => none
  /-- When the timer fires, or fired. -/
  timer : Option ℕ := none
  /-- Whether `dispatch` takes an event of the timer for one. -/
  timerKnown : Bool := true
  timeoutList : PriorityQueue TimeoutOperation.timeoutAt := .empty
  /-- The events that a call of `dispatch` has not looked at yet. -/
  events : List Event := []
  dispatchTimeouts : Bool := false
  /-- The `now` of the loop over the timeouts, while it has the lock. -/
  now : Option ℕ := none
  /-- The coroutines to be resumed. -/
  pool : List ℕ := []
  /-- All that were ever given to the pool. -/
  handed : List ℕ := []
  /-- The number of the next coroutine. -/
  next : ℕ := 0
  fd : ℕ → ℕ := fun _ => 0
  result : ℕ → Result := fun _ => ⟨0, none⟩
  done : ℕ → Bool := fun _ => false
  clock : ℕ := 0

namespace Scheduler

variable (s : Scheduler)

/-- `update_timer`, which throws for a time before now; for none at all, the timer is disarmed. -/
def updateTimer (ms : ℤ) : Option Scheduler :=
  if ms < 0 then none
  else some { s with timer := if ms = 0 then none else some (s.clock + ms.toNat * 1000000) }

/-- `queue`, of an operation with a new coroutine. With a timeout, it needs the lock. -/
def queue (fd timeout : ℕ) : Option Scheduler :=
  let handle := s.next
  let s := { s with
    armed := fun fd' => if fd' = fd then some handle else s.armed fd'
    fd := fun h => if h = handle then fd else s.fd h
    next := handle + 1 }
  if timeout > 0 then
    -- The lock is taken while `dispatch` is in its loop over the timeouts.
    if s.now.isSome then none
    else
      let timeoutAt := timeout * 1000000 + s.clock
      -- On top is the latest timeout, not the next one.
      (if s.timeoutList.top.all (fun op => op.timeoutAt > timeoutAt) then s.updateTimer timeout
        else some s).map fun s => { s with timeoutList := s.timeoutList.push ⟨handle, timeoutAt⟩ }
  else some s

/-- `epoll_wait` can find this ready. -/
def possible : Ready → Bool
  | .timer => s.timer.any fun t => t ≤ s.clock
  | .descriptor fd _ => (s.armed fd).isSome

/-- Its event. -/
def event : Ready → Option Event
  | .timer => some .timer
  | .descriptor fd flags => (s.armed fd).map fun handle => .op handle flags

/-- A new call of `dispatch`, and what `epoll_wait` returns: at most sixteen events, of different descriptors.
    They are one-shot: a descriptor is then not waited for any more. -/
def wait (ready : List Ready) : Option Scheduler :=
  if (s.events = [] ∧ s.dispatchTimeouts = false) ∧ 0 < ready.length ∧ ready.length ≤ 16 ∧
      (ready.map Ready.source).Nodup ∧ ∀ r ∈ ready, s.possible r then
    some { s with
      events := ready.filterMap s.event
      armed := fun fd => if some fd ∈ ready.map Ready.source then none else s.armed fd }
  else none

/-- What `run` does with an event that `dispatch` yields. -/
def hand (handle : ℕ) (res : Result) : Scheduler :=
  { s with
    result := fun h => if h = handle then res else s.result h
    pool := s.pool ++ [handle]
    handed := s.handed ++ [handle] }

/-- `dispatch`, up to the next event that it looks at, or to the next turn of its loop over the timeouts. -/
def dispatch : Option Scheduler :=
  match s.events with
  | .timer :: events => if s.timerKnown then some { s with events, dispatchTimeouts := true } else none
  | .op handle flags :: events => some (hand { s with events } handle flags.result)
  | [] =>
    if s.dispatchTimeouts then
      match s.now with
      | none => some { s with now := some s.clock }
      | some now =>
        match s.timeoutList.top with
        | none => some { s with dispatchTimeouts := false, now := none }
        | some op =>
          if op.timeoutAt ≤ now then
            let s := { s with timeoutList := s.timeoutList.pop }
            -- It may be in the pool, and then it is not done yet.
            if s.done op.handle then some s else some (s.hand op.handle timedOut)
          else
            -- By now it may be over, though it was not at `now`. Then this throws, and the timer stays as it is.
            let s := (s.updateTimer (((op.timeoutAt : ℤ) - s.clock).tdiv 1000000)).getD s
            some { s with dispatchTimeouts := false, now := none }
    else none

/-- `disable_events`. -/
def disableEvents (fd : ℕ) : Scheduler :=
  { s with armed := fun fd' => if fd' = fd then none else s.armed fd' }

/-- `await_resume`, while some bytes are there to be read, or waiting to be sent. -/
def awaitResume (handle available : ℕ) : Result × Scheduler :=
  ({ s.result handle with count := if available > 0 then available else (s.result handle).count },
    if (s.result handle).err = some .timedOut then s.disableEvents (s.fd handle) else s)

/-- A worker resumes a coroutine, which does `await_resume` and is then done. -/
def resume (handle available : ℕ) : Option (Result × Scheduler) :=
  if handle ∈ s.pool ∧ s.done handle = false then
    let (res, s) := s.awaitResume handle available
    some (res, { s with
      pool := s.pool.erase handle
      done := fun h => if h = handle then true else s.done h })
  else none

/-- The steps. -/
inductive Action
  | tick (ns : ℕ)
  | queue (fd timeout : ℕ)
  | wait (ready : List Ready)
  | dispatch
  | resume (handle available : ℕ)

/-- One step, with the result of an operation that is done. -/
def step : Action → Option (Option Result × Scheduler)
  | .tick ns => some (none, { s with clock := s.clock + ns })
  | .queue fd timeout => (s.queue fd timeout).map fun s => (none, s)
  | .wait ready => (s.wait ready).map fun s => (none, s)
  | .dispatch => s.dispatch.map fun s => (none, s)
  | .resume handle available => (s.resume handle available).map fun (res, s) => (some res, s)

end Scheduler

end Cppnet.Io
