import Cppnet.Lib.Machine
import Mathlib.Algebra.BigOperators.Group.List.Basic
import Mathlib.Algebra.GroupWithZero.Nat
import Mathlib.Algebra.Ring.Int.Defs
import Mathlib.Data.Int.Basic
import Mathlib.Data.List.Nodup
import Mathlib.Data.List.ReduceOption

/-!
# `thread_pool`

`coro/thread_pool.hpp`: workers that resume the handles of a queue, in two loops, one for as long as the pool
is running, and one for what is left in the queue then.

A *step* is what a thread does at once: one access to `num_jobs` or `running`, or one critical section of
`wait_mutex`. The workers, the calls of other threads and those of the jobs that are being executed take
their steps in any order (`ThreadPool.step`); a worker that waits is woken up at any time, be it by a
notification or not. The pushes are numbered, and what is to be said about them is recorded with them.

* `Inv.step`: in every order, the counter counts what is queued, executed and about to be pushed, less
  what `resume` of a range has pushed and not counted yet; no push is popped twice.
-/

namespace Cppnet.Coro

open Lib

/-- A handle in the queue, with the number of its push. Was it pushed while the pool was running, by which
    worker's job, and by a `resume`? -/
structure Job (η : Type*) where
  id : ℕ
  handle : η
  early : Bool
  pusher : Option ℕ
  resumed : Bool
  deriving DecidableEq

/-- The two loops of `worker`. -/
inductive WorkLoop
  | first
  | second
  deriving DecidableEq

/-- Where a worker is: at the condition of a loop, in front of the mutex, executing a job, in front of counting
    it down, or behind the loops. -/
inductive Phase (η : Type*)
  | test (l : WorkLoop)
  | lock (l : WorkLoop)
  | run (l : WorkLoop) (job : Job η)
  | done (l : WorkLoop)
  | exited
  deriving DecidableEq

/-- Where a call is. Those of `schedule`, and of `resume` of a handle or a range, are about to start; then
    the handle is about to be pushed, or the pushes to be counted. -/
inductive Call (η : Type*)
  | schedule (handle : Option η) (resumed : Bool)
  | resume (handle : Option η)
  | resumeRange (handles : List (Option η))
  | push (handle : η) (resumed : Bool)
  | add (ids : List ℕ)
  deriving DecidableEq

/-- `thread_pool`, with its workers and the calls in progress, each by the job of a worker or by another thread;
    the pushes that were popped, and those that a `resume` has reported as accepted. The counter is an integer,
    which is below zero where the one of the pool wraps around. -/
structure ThreadPool (η : Type*) where
  running : Bool := true
  numJobs : ℤ := 0
  jobs : List (Job η) := []
  workers : List (Phase η)
  calls : List (Option ℕ × Call η) := []
  popped : List ℕ := []
  accepted : List ℕ := []
  next : ℕ := 0
  deriving DecidableEq

variable {η : Type*}

namespace Phase

/-- Executing a job, or not having counted it down. -/
def Busy : Phase η → Bool
  | .run _ _ => true
  | .done _ => true
  | _ => false

/-- Executing a job. -/
def Running : Phase η → Bool
  | .run _ _ => true
  | _ => false

/-- Behind the loops. -/
def Exited : Phase η → Bool
  | .exited => true
  | _ => false

/-- Behind the first loop. -/
def Late : Phase η → Bool
  | .test l => l = .second
  | .lock l => l = .second
  | .run l _ => l = .second
  | .done l => l = .second
  | .exited => true

end Phase

namespace Call

/-- A call that is made. -/
def Starts : Call η → Bool
  | .schedule _ resumed => !resumed
  | .resume _ => true
  | .resumeRange _ => true
  | _ => false

/-- The handles that the next step of a call pushes. -/
def pushed : Call η → List η
  | .push handle _ => [handle]
  | .resumeRange handles => handles.reduceOption
  | _ => []

/-- They are pushed by a `resume`. -/
def resumes : Call η → Bool
  | .push _ resumed => resumed
  | .resumeRange _ => true
  | _ => false

/-- What a call has counted and not pushed, or pushed and not counted. -/
def weight : Call η → ℤ
  | .push _ _ => 1
  | .add ids => -ids.length
  | _ => 0

end Call

namespace ThreadPool

variable (s : ThreadPool η)

/-- The constructor. -/
def init (concurrency : ℕ) : ThreadPool η where
  workers := List.replicate (if concurrency = 0 then 4 else concurrency) (.test .first)

/-- Handles, with the numbers of their pushes. -/
def newJobs (pusher : Option ℕ) (resumed : Bool) (handles : List η) : List (Job η) :=
  (handles.zipIdx s.next).map fun h => ⟨h.2, h.1, s.running, pusher, resumed⟩

/-- Handles are pushed, under the mutex. -/
def emplaceBack (pusher : Option ℕ) (resumed : Bool) (handles : List η) : ThreadPool η :=
  { s with jobs := s.jobs ++ s.newJobs pusher resumed handles, next := s.next + handles.length }

/-- The next step of a call, and what is left of it. -/
def callStep (pusher : Option ℕ) : Call η → ThreadPool η × Option (Call η)
  | .schedule none _ => (s, none)
  | .schedule (some handle) resumed => ({ s with numJobs := s.numJobs + 1 }, some (.push handle resumed))
  | .resume none => (s, none)
  | .resume (some handle) => (s, if s.running then some (.schedule (some handle) true) else none)
  -- The return of a `resume` reads and writes nothing any more: its report is part of the push.
  | .push handle resumed =>
    ({ s.emplaceBack pusher resumed [handle] with
        accepted := if resumed then s.next :: s.accepted else s.accepted }, none)
  -- `resume` of a range does not look at `running`, and counts behind the push.
  | .resumeRange handles =>
    (s.emplaceBack pusher true handles.reduceOption,
      some (.add (List.range' s.next handles.reduceOption.length)))
  | .add ids => ({ s with numJobs := s.numJobs + ids.length, accepted := ids ++ s.accepted }, none)

/-- The front of the queue is popped, if there is one. -/
def popFront (l : WorkLoop) (empty : Phase η) : ThreadPool η × Phase η :=
  match s.jobs with
  | [] => (s, empty)
  | job :: jobs => ({ s with jobs, popped := job.id :: s.popped }, .run l job)

/-- The next step of a worker. -/
def workerStep : Phase η → ThreadPool η × Phase η
  | .test .first => (s, if s.running then .lock .first else .test .second)
  -- waits, if there is nothing to do
  | .lock .first => s.popFront .first (if s.running then .lock .first else .test .first)
  -- `> 0` is `≠ 0` for the unsigned counter
  | .test .second => (s, if s.numJobs ≠ 0 then .lock .second else .exited)
  | .lock .second => s.popFront .second .exited
  | .run l _ => (s, .done l)
  | .done l => ({ s with numJobs := s.numJobs - 1 }, .test l)
  | .exited => (s, .exited)

/-- The steps that there may be next: of `shutdown`, of a thread or the job of a worker that makes a call, of a call
    that is made, or of a worker. -/
inductive Action (η : Type*)
  | shutdown
  | call (pusher : Option ℕ) (c : Call η)
  | goOn (i : ℕ)
  | work (w : ℕ)

/-- A job makes its calls one after the other, while it is executed. -/
def MayCall : Option ℕ → Prop
  | none => True
  | some w => (s.workers[w]?.any Phase.Running) ∧ ∀ c ∈ s.calls, c.1 ≠ some w

instance : (pusher : Option ℕ) → Decidable (s.MayCall pusher)
  | none => .isTrue trivial
  | some _ => inferInstanceAs (Decidable (_ ∧ _))

/-- The job of a worker is over when its calls have returned. -/
def MayWork (w : ℕ) (phase : Phase η) : Prop :=
  phase.Exited = false ∧ (phase.Running → ∀ c ∈ s.calls, c.1 ≠ some w)

instance (w : ℕ) (phase : Phase η) : Decidable (s.MayWork w phase) :=
  inferInstanceAs (Decidable (_ ∧ _))

/-- The call at the index `i` is replaced by what is left of it. -/
def setCall (i : ℕ) (pusher : Option ℕ) (rest : Option (Call η)) : ThreadPool η :=
  { s with calls := s.calls.take i ++ ((rest.map (pusher, ·)).toList ++ s.calls.drop (i + 1)) }

/-- One step of one thread. -/
def step : Action η → Option (Unit × ThreadPool η)
  | .shutdown => some ((), { s with running := false })
  | .call pusher c =>
    if c.Starts ∧ s.MayCall pusher then some ((), { s with calls := s.calls ++ [(pusher, c)] }) else none
  | .goOn i =>
    match s.calls[i]? with
    | none => none
    | some (pusher, c) => some ((), (s.callStep pusher c).1.setCall i pusher (s.callStep pusher c).2)
  | .work w =>
    match s.workers[w]? with
    | none => none
    | some phase =>
      if s.MayWork w phase then
        some ((), { (s.workerStep phase).1 with workers := s.workers.set w (s.workerStep phase).2 })
      else none

/-! ## Invariants -/

/-- What holds in every order of steps. -/
structure Inv (s : ThreadPool η) : Prop where
  count : s.numJobs = s.jobs.length + s.workers.countP Phase.Busy + (s.calls.map (·.2.weight)).sum
  nodup : (s.jobs.map Job.id ++ s.popped).Nodup
  lt_next : ∀ id ∈ s.jobs.map Job.id ++ s.popped, id < s.next
  late : ∀ p ∈ s.workers, p.Late → s.running = false
  callers : ∀ c ∈ s.calls, ∀ w, c.1 = some w → s.workers[w]?.any Phase.Running

theorem inv_init (concurrency : ℕ) : Inv (init concurrency : ThreadPool η) where
  count := by
    have hbusy : (List.replicate (if concurrency = 0 then 4 else concurrency)
        (.test .first : Phase η)).countP Phase.Busy = 0 := by
      rw [List.countP_eq_zero]
      intro p hp
      rw [List.eq_of_mem_replicate hp]
      exact Bool.false_ne_true
    simp [init, hbusy]
  nodup := List.nodup_nil
  lt_next := by simp [init]
  late p hp hlate := by
    rw [List.eq_of_mem_replicate hp] at hlate
    cases hlate
  callers := by simp [init]

section Steps

variable {s} {pusher : Option ℕ} {c : Call η} {i w : ℕ} {phase : Phase η}

/-! ### Calls -/

theorem take_append_cons_drop {α : Type*} {l : List α} {x : α} (h : l[i]? = some x) :
    l = l.take i ++ x :: l.drop (i + 1) := by
  obtain ⟨hlt, rfl⟩ := List.getElem?_eq_some_iff.1 h
  rw [List.getElem_cons_drop, List.take_append_drop]

theorem sum_setCall (h : s.calls[i]? = some (pusher, c)) (rest : Option (Call η)) :
    ((s.setCall i pusher rest).calls.map (·.2.weight)).sum =
      (s.calls.map (·.2.weight)).sum - c.weight + rest.elim 0 Call.weight := by
  conv_rhs => rw [take_append_cons_drop h]
  rcases rest with _ | rest
  · simp only [setCall, Option.map_none, Option.toList_none, List.nil_append, List.map_append, List.sum_append,
      List.map_cons, List.sum_cons, Option.elim_none]
    omega
  · simp only [setCall, Option.map_some, Option.toList_some, List.map_append, List.sum_append, List.map_cons,
      List.map_nil, List.sum_cons, List.sum_nil, Option.elim_some]
    omega

theorem mem_setCall {rest : Option (Call η)} {x : Option ℕ × Call η}
    (hx : x ∈ (s.setCall i pusher rest).calls) : x ∈ s.calls ∨ ∃ c' ∈ rest, x = (pusher, c') := by
  rw [setCall, List.mem_append, List.mem_append] at hx
  rcases hx with hx | hx | hx
  · exact .inl (List.mem_of_mem_take hx)
  · obtain ⟨c', hc', rfl⟩ := Option.map_eq_some_iff.1 (Option.mem_toList.1 hx)
    exact .inr ⟨c', hc', rfl⟩
  · exact .inl (List.mem_of_mem_drop hx)

/-- What a step of a call leaves as it is. -/
theorem callStep_frame (s : ThreadPool η) (pusher : Option ℕ) (c : Call η) :
    (s.callStep pusher c).1.running = s.running ∧ (s.callStep pusher c).1.workers = s.workers ∧
      (s.callStep pusher c).1.calls = s.calls ∧ (s.callStep pusher c).1.popped = s.popped := by
  rcases c with (_ | _) | (_ | _) | _ | _ | _ <;> exact ⟨rfl, rfl, rfl, rfl⟩

theorem length_newJobs (s : ThreadPool η) (pusher : Option ℕ) (resumed : Bool) (handles : List η) :
    (s.newJobs pusher resumed handles).length = handles.length := by
  rw [newJobs, List.length_map, List.length_zipIdx]

theorem map_id_newJobs (s : ThreadPool η) (pusher : Option ℕ) (resumed : Bool) (handles : List η) :
    (s.newJobs pusher resumed handles).map Job.id = List.range' s.next handles.length := by
  rw [newJobs, List.map_map]
  exact List.zipIdx_map_snd s.next handles

theorem mem_newJobs {resumed : Bool} {handles : List η} {job : Job η}
    (h : job ∈ s.newJobs pusher resumed handles) :
    job.early = s.running ∧ job.pusher = pusher ∧ job.resumed = resumed := by
  obtain ⟨x, -, rfl⟩ := List.mem_map.1 h
  exact ⟨rfl, rfl, rfl⟩

/-- What a step of a call pushes, and what it counts. -/
theorem callStep_jobs (s : ThreadPool η) (pusher : Option ℕ) (c : Call η) :
    (s.callStep pusher c).1.jobs = s.jobs ++ s.newJobs pusher c.resumes c.pushed ∧
      (s.callStep pusher c).1.next = s.next + c.pushed.length ∧
      (s.callStep pusher c).1.numJobs =
        s.numJobs + c.pushed.length + (s.callStep pusher c).2.elim 0 Call.weight - c.weight := by
  have hnil : ∀ resumed, s.jobs = s.jobs ++ s.newJobs pusher resumed [] := by simp [newJobs]
  rcases c with (_ | handle) | (_ | handle) | handles | ⟨handle, resumed⟩ | ids
  · exact ⟨hnil _, rfl, by simp [callStep, Call.weight, Call.pushed]⟩
  · exact ⟨hnil _, rfl, by simp [callStep, Call.weight, Call.pushed]⟩
  · exact ⟨hnil _, rfl, by simp [callStep, Call.weight, Call.pushed]⟩
  · refine ⟨hnil _, rfl, ?_⟩
    rw [callStep]
    dsimp only
    split_ifs <;> simp [Call.weight, Call.pushed]
  · exact ⟨rfl, rfl, by simp [callStep, emplaceBack, Call.weight, Call.pushed]⟩
  · exact ⟨rfl, rfl, by simp [callStep, emplaceBack, Call.weight, Call.pushed]⟩
  · exact ⟨hnil _, rfl, by simp [callStep, Call.weight, Call.pushed]⟩

theorem Inv.callStep (h : Inv s) (hc : s.calls[i]? = some (pusher, c)) :
    Inv ((s.callStep pusher c).1.setCall i pusher (s.callStep pusher c).2) := by
  obtain ⟨hrunning, hworkers, hcalls, hpopped⟩ := callStep_frame s pusher c
  obtain ⟨hjobs, hnext, hnum⟩ := callStep_jobs s pusher c
  generalize s.callStep pusher c = result at *
  obtain ⟨t, rest⟩ := result
  dsimp only at *
  have hids : ((t.setCall i pusher rest).jobs.map Job.id ++ (t.setCall i pusher rest).popped).Perm
      (List.range' s.next c.pushed.length ++ (s.jobs.map Job.id ++ s.popped)) := by
    change (t.jobs.map Job.id ++ t.popped).Perm _
    rw [hjobs, hpopped, List.map_append, map_id_newJobs, ← List.append_assoc]
    exact List.perm_append_comm.append_right _
  refine ⟨?_, ?_, ?_, ?_, ?_⟩
  · rw [sum_setCall (hcalls ▸ hc)]
    change t.numJobs = t.jobs.length + t.workers.countP Phase.Busy + _
    rw [hnum, hjobs, hworkers, hcalls, h.count, List.length_append, length_newJobs]
    omega
  · rw [hids.nodup_iff, List.nodup_append]
    refine ⟨List.nodup_range', h.nodup, fun a ha b hb hab => ?_⟩
    have hle := (List.mem_range'_1.1 ha).1
    have hlt := h.lt_next b hb
    omega
  · intro id hid
    change id < t.next
    rw [hnext]
    rcases List.mem_append.1 (hids.mem_iff.1 hid) with hid | hid
    · exact (List.mem_range'_1.1 hid).2
    · exact Nat.lt_add_right _ (h.lt_next id hid)
  · change ∀ p ∈ t.workers, p.Late → t.running = false
    rw [hworkers, hrunning]
    exact h.late
  · change ∀ x ∈ (t.setCall i pusher rest).calls, ∀ w, x.1 = some w → t.workers[w]?.any Phase.Running
    rw [hworkers]
    intro x hx w hw
    rcases mem_setCall hx with hx | ⟨c', -, rfl⟩
    · exact h.callers x (hcalls ▸ hx) w hw
    · exact h.callers _ (List.mem_of_getElem? hc) w hw

/-! ### Workers -/

/-- A step of a worker moves it, or pops a job, or counts one down. It exits where there is nothing left to do, or
    where the counter says so. -/
theorem workerStep_cases (hphase : phase.Exited = false) :
    (∃ phase', s.workerStep phase = (s, phase') ∧ phase'.Busy = phase.Busy ∧
      (phase'.Late → phase.Late ∨ s.running = false) ∧
      (phase'.Exited → s.jobs = [] ∨ phase = .test .second ∧ s.numJobs = 0)) ∨
    (∃ l job jobs, phase = .lock l ∧ s.jobs = job :: jobs ∧
      s.workerStep phase = ({ s with jobs, popped := job.id :: s.popped }, .run l job)) ∨
    ∃ l, phase = .done l ∧ s.workerStep phase = ({ s with numJobs := s.numJobs - 1 }, .test l) := by
  rcases phase with (_ | _) | (_ | _) | ⟨l, job⟩ | l | _
  · refine .inl ⟨_, rfl, ?_⟩
    rcases hrunning : s.running <;> simp [Phase.Busy, Phase.Late, Phase.Exited]
  · refine .inl ⟨_, rfl, ?_⟩
    by_cases hnum : s.numJobs = 0 <;> simp [hnum, Phase.Busy, Phase.Late, Phase.Exited]
  · rcases hjobs : s.jobs with _ | ⟨job, jobs⟩
    · refine .inl ⟨if s.running then .lock .first else .test .first, ?_, ?_⟩
      · rw [workerStep, popFront, hjobs]
      · rcases s.running <;> simp [Phase.Busy, Phase.Late, Phase.Exited]
    · refine .inr (.inl ⟨.first, job, jobs, rfl, rfl, ?_⟩)
      rw [workerStep, popFront, hjobs]
  · rcases hjobs : s.jobs with _ | ⟨job, jobs⟩
    · refine .inl ⟨.exited, ?_, by simp [Phase.Busy, Phase.Late]⟩
      rw [workerStep, popFront, hjobs]
    · refine .inr (.inl ⟨.second, job, jobs, rfl, rfl, ?_⟩)
      rw [workerStep, popFront, hjobs]
  · exact .inl ⟨.done l, rfl, rfl, .inl, by simp [Phase.Exited]⟩
  · exact .inr (.inr ⟨l, rfl, rfl⟩)
  · cases hphase

theorem countP_set_add {α : Type*} {P : α → Bool} {l : List α} {x : α} (h : l[i]? = some x) (a : α) :
    (l.set i a).countP P + (if P x then 1 else 0) = l.countP P + if P a then 1 else 0 := by
  obtain ⟨hlt, -⟩ := List.getElem?_eq_some_iff.1 h
  conv_rhs => rw [take_append_cons_drop h]
  rw [List.set_eq_take_append_cons_drop, if_pos hlt, List.countP_append, List.countP_append, List.countP_cons,
    List.countP_cons]
  omega

/-- No calls are made by the job of a worker that moves on. -/
theorem Inv.caller_ne (h : Inv s) (hw : s.workers[w]? = some phase) (hmay : s.MayWork w phase) :
    ∀ x ∈ s.calls, x.1 ≠ some w := by
  intro x hx hxw
  have hrunning := h.callers x hx w hxw
  rw [hw] at hrunning
  exact hmay.2 hrunning x hx hxw

/-- The effect of a step of a worker on the counter, and on what is counted. -/
theorem workerStep_count (hphase : phase.Exited = false) :
    (s.workerStep phase).1.numJobs - (s.workerStep phase).1.jobs.length -
        (if (s.workerStep phase).2.Busy then 1 else 0) =
      s.numJobs - s.jobs.length - if phase.Busy then 1 else 0 := by
  rcases workerStep_cases (s := s) hphase with ⟨phase', heq, hbusy, -⟩ | ⟨l, job, jobs, rfl, hjobs, heq⟩ |
    ⟨l, rfl, heq⟩
  · rw [heq, hbusy]
  · rw [heq, hjobs]
    simp [Phase.Busy]
    omega
  · rw [heq]
    simp [Phase.Busy]
    omega

/-- What a step of a worker leaves as it is. -/
theorem workerStep_frame (hphase : phase.Exited = false) :
    (s.workerStep phase).1.running = s.running ∧ (s.workerStep phase).1.calls = s.calls ∧
      (s.workerStep phase).1.next = s.next ∧ (s.workerStep phase).1.accepted = s.accepted ∧
      ((s.workerStep phase).1.jobs.map Job.id ++ (s.workerStep phase).1.popped).Perm
        (s.jobs.map Job.id ++ s.popped) ∧
      ((s.workerStep phase).2.Late → phase.Late ∨ s.running = false) := by
  rcases workerStep_cases (s := s) hphase with ⟨phase', heq, -, hlate, -⟩ | ⟨l, job, jobs, rfl, hjobs, heq⟩ |
    ⟨l, rfl, heq⟩
  · rw [heq]
    exact ⟨rfl, rfl, rfl, rfl, .refl _, hlate⟩
  · rw [heq, hjobs]
    exact ⟨rfl, rfl, rfl, rfl, List.perm_middle, .inl⟩
  · rw [heq]
    exact ⟨rfl, rfl, rfl, rfl, .refl _, .inl⟩

theorem Inv.workerStep (h : Inv s) (hw : s.workers[w]? = some phase) (hmay : s.MayWork w phase) :
    Inv { (s.workerStep phase).1 with workers := s.workers.set w (s.workerStep phase).2 } := by
  have hne := h.caller_ne hw hmay
  have hcount := workerStep_count (s := s) hmay.1
  obtain ⟨hrunning, hcalls, hnext, -, hids, hlate⟩ := workerStep_frame (s := s) hmay.1
  have hbusy := countP_set_add (P := Phase.Busy) hw (s.workerStep phase).2
  refine ⟨?_, hids.nodup_iff.2 h.nodup, ?_, ?_, ?_⟩
  · dsimp only
    rw [hcalls]
    have := h.count
    split_ifs at hcount hbusy <;> omega
  · intro id hid
    dsimp only at hid ⊢
    rw [hnext]
    exact h.lt_next id (hids.mem_iff.1 hid)
  · intro p hp hplate
    dsimp only at hp ⊢
    rw [hrunning]
    rcases List.mem_or_eq_of_mem_set hp with hp | rfl
    · exact h.late p hp hplate
    · exact (hlate hplate).elim (h.late phase (List.mem_of_getElem? hw)) id
  · intro x hx w' hw'
    dsimp only at hx ⊢
    rw [hcalls] at hx
    have hww' : w ≠ w' := fun heq => hne x hx (heq ▸ hw')
    rw [List.getElem?_set_ne hww']
    exact h.callers x hx w' hw'

end Steps

/-- What a step is. -/
theorem step_cases {s s' : ThreadPool η} {a : Action η} {o : Unit} (h : s.step a = some (o, s')) :
    (a = .shutdown ∧ s' = { s with running := false }) ∨
    (∃ pusher c, a = .call pusher c ∧ c.Starts ∧ s.MayCall pusher ∧
      s' = { s with calls := s.calls ++ [(pusher, c)] }) ∨
    (∃ i pusher c, a = .goOn i ∧ s.calls[i]? = some (pusher, c) ∧
      s' = (s.callStep pusher c).1.setCall i pusher (s.callStep pusher c).2) ∨
    ∃ w phase, a = .work w ∧ s.workers[w]? = some phase ∧ s.MayWork w phase ∧
      s' = { (s.workerStep phase).1 with workers := s.workers.set w (s.workerStep phase).2 } := by
  cases a with
  | shutdown =>
    cases h
    exact .inl ⟨rfl, rfl⟩
  | call pusher c =>
    rw [step] at h
    split_ifs at h with hc
    cases h
    exact .inr (.inl ⟨pusher, c, rfl, hc.1, hc.2, rfl⟩)
  | goOn i =>
    rw [step] at h
    rcases hcall : s.calls[i]? with _ | ⟨pusher, c⟩
    · rw [hcall] at h
      cases h
    · rw [hcall] at h
      cases h
      exact .inr (.inr (.inl ⟨i, pusher, c, rfl, hcall, rfl⟩))
  | work w =>
    rw [step] at h
    rcases hw : s.workers[w]? with _ | phase
    · rw [hw] at h
      cases h
    · rw [hw] at h
      dsimp only at h
      split_ifs at h with hmay
      cases h
      exact .inr (.inr (.inr ⟨w, phase, rfl, hw, hmay, rfl⟩))

/-- Every step preserves the invariants. -/
theorem Inv.step {s s' : ThreadPool η} {a : Action η} {o : Unit} (h : Inv s) (hstep : s.step a = some (o, s')) :
    Inv s' := by
  rcases step_cases hstep with ⟨rfl, rfl⟩ | ⟨pusher, c, rfl, hstarts, hmay, rfl⟩ |
    ⟨i, pusher, c, rfl, hcall, rfl⟩ | ⟨w, phase, rfl, hw, hmay, rfl⟩
  · exact { h with late := fun _ _ _ => rfl }
  · have hweight : c.weight = 0 := by
      cases c with
      | push => cases hstarts
      | add => cases hstarts
      | _ => rfl
    refine { h with count := ?_, callers := ?_ }
    · dsimp only
      rw [h.count, List.map_append, List.sum_append, List.map_singleton, List.sum_singleton, hweight, add_zero]
    · intro x hx w hw
      rcases List.mem_append.1 hx with hx | hx
      · exact h.callers x hx w hw
      · rw [List.mem_singleton.1 hx] at hw
        obtain rfl : pusher = some w := hw
        exact hmay.1
  · exact h.callStep hcall
  · exact h.workerStep hw hmay

end ThreadPool

end Cppnet.Coro
