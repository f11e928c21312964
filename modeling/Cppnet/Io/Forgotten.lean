import Cppnet.Io.Completion

/-!
# Operations that are forgotten

A descriptor is waited for by one coroutine: where an operation is queued on it, or one that has timed out is resumed,
that of another operation is lost. What there is left for that one is its timeout, if it has one, and the loop knows
the events of its timer. As the code is, the loop does not, and there is nothing left.

* `forgotten_iff`: in every run, each operation is done, or may still be completed, as long as no coroutine is lost for
  which there is nothing else; and not any longer. What is forgotten is never resumed.
-/

namespace Cppnet.Io.Scheduler

open Lib

variable {s s' : Scheduler} {h : ℕ}

/-- The coroutine is in the pool, or there is a timeout for it, in a loop that knows the events of its timer. -/
def Kept (s : Scheduler) (h : ℕ) : Prop :=
  h ∈ s.pool ∨ s.timerKnown = true ∧ ∃ op ∈ s.timeoutList.entries, op.handle = h

/-- The coroutine is in the pool, or there is something for which it may be given to the pool. -/
def Awaited (s : Scheduler) (h : ℕ) : Prop := (∃ fd, s.armed fd = some h) ∨ h ∈ s.announced ∨ s.Kept h

/-- All operations that were queued are done, or may still be completed. -/
def NoneForgotten (s : Scheduler) : Prop := ∀ h < s.next, s.done h = true ∨ s.Awaited h

/-- At a step, no coroutine is overwritten in the event of a descriptor for which there is nothing else. -/
def Spares (s : Scheduler) : Action → Prop
  | .queue fd _ => ∀ h ∈ s.armed fd, s.Kept h
  | .resume handle _ =>
    (s.result handle).err = some .timedOut → ∀ h ∈ s.armed (s.fd handle), h ≠ handle → s.Kept h
  | _ => True

/-- Where the coroutines are. That of a descriptor that is waited for is not done; it may have timed out. -/
structure Placed (s : Scheduler) : Prop where
  loop : s.dispatchTimeouts = true → s.timerKnown = true
  armed : ∀ fd h, s.armed fd = some h → s.fd h = fd ∧ h < s.next ∧ h ∉ s.announced ∧ s.done h = false ∧
    (h ∈ s.pool → (s.result h).err = some .timedOut)
  announced : ∀ h ∈ s.announced, h < s.next
  pool : ∀ h ∈ s.pool, h < s.next
  timeouts : ∀ op ∈ s.timeoutList.entries, op.handle < s.next
  done : ∀ h, s.done h = true → h < s.next

theorem placed_new (timerKnown : Bool) : Placed { timerKnown } where
  loop := by simp
  armed := by simp
  announced := by simp [announced]
  pool := by simp
  timeouts := by simp [PriorityQueue.empty]
  done := by simp

theorem Placed.kept (hs : s.Placed) (hkept : s.Kept h) : h < s.next := by
  rcases hkept with hpool | ⟨-, op, hop, rfl⟩
  · exact hs.pool h hpool
  · exact hs.timeouts op hop

/-! ## What the steps leave -/

theorem queue_timeouts {fd timeout : ℕ} (hqueue : s.queue fd timeout = some s') :
    ∀ op ∈ s.timeoutList.entries, op ∈ s'.timeoutList.entries := by
  rw [queue] at hqueue
  dsimp only at hqueue
  intro op hop
  split_ifs at hqueue with htimeout hlock htop
  · obtain ⟨s₁, hs₁, rfl⟩ := Option.map_eq_some_iff.1 hqueue
    obtain ⟨timer, rfl⟩ := updateTimer_cases hs₁
    exact PriorityQueue.mem_push.2 (.inr hop)
  · cases hqueue
    exact PriorityQueue.mem_push.2 (.inr hop)
  · cases hqueue
    exact hop

/-- Whether it is in the pool or has a timeout is not changed by queueing other operations. -/
theorem queue_kept {fd timeout : ℕ} (hqueue : s.queue fd timeout = some s') (hne : h ≠ s.next) :
    s'.Kept h ↔ s.Kept h := by
  have hstay := queue_timeouts hqueue
  obtain ⟨timer, timeoutList, htimeouts, rfl⟩ := queue_cases hqueue
  refine or_congr_right (and_congr_right fun _ => ⟨?_, ?_⟩)
  · rintro ⟨op, hop, rfl⟩
    exact ⟨op, (htimeouts op hop).resolve_left hne, rfl⟩
  · rintro ⟨op, hop, rfl⟩
    exact ⟨op, hstay op hop, rfl⟩

/-- A coroutine is resumed; at a timeout, its descriptor is not waited for any more. -/
theorem resume_eq {handle available : ℕ} {res : Result} (hresume : s.resume handle available = some (res, s')) :
    handle ∈ s.pool ∧ s' = { s with
      armed := fun fd => if (s.result handle).err = some .timedOut ∧ fd = s.fd handle then none else s.armed fd
      pool := s.pool.erase handle
      done := fun h => if h = handle then true else s.done h } := by
  rw [resume] at hresume
  split_ifs at hresume with hpool
  cases hresume
  refine ⟨hpool.1, ?_⟩
  by_cases htimedOut : (s.result handle).err = some .timedOut
  · simp [htimedOut, disableEvents]
  · simp [htimedOut]

theorem mem_pop_or_top {q : PriorityQueue TimeoutOperation.timeoutAt} {op op' : TimeoutOperation}
    (hop : op ∈ q.entries) (htop : q.top = some op') : op = op' ∨ op ∈ q.pop.entries := by
  obtain ⟨rest, hrest⟩ := List.head?_eq_some_iff.1 htop
  rw [hrest] at hop
  refine (List.mem_cons.1 hop).imp_right fun hmem => ?_
  have htail : q.pop.entries = rest := congrArg List.tail hrest
  rwa [htail]

theorem announced_timer {events : List Event} (hevents : s.events = .timer :: events) :
    announced { s with events, dispatchTimeouts := true } = s.announced := by
  rw [announced, announced, hevents]
  rfl

theorem announced_op {handle : ℕ} {flags : Flags} {events : List Event}
    (hevents : s.events = .op handle flags :: events) : s.announced = handle :: events.filterMap Event.handle? := by
  rw [announced, hevents]
  rfl

/-- Another coroutine is given to the pool. -/
theorem kept_hand {handle : ℕ} {res : Result} : (s.hand handle res).Kept h ↔ h = handle ∨ s.Kept h := by
  change (h ∈ s.pool ++ [handle] ∨ _) ↔ _
  rw [List.mem_append, List.mem_singleton, or_right_comm, or_comm]
  exact Iff.rfl

/-! ## What is forgotten stays forgotten -/

/-- In its loop over the timeouts, `dispatch` knows the events of the timer. -/
theorem loop_of_dispatch (hloop : s.dispatchTimeouts = true → s.timerKnown = true) (hevents : s.events = [])
    (hdispatch : s.dispatch = some s') : s.timerKnown = true := by
  rw [dispatch, hevents] at hdispatch
  dsimp only at hdispatch
  split_ifs at hdispatch with hflag
  exact hloop hflag

theorem timerKnown_of_dispatch {events : List Event} (hevents : s.events = .timer :: events)
    (hdispatch : s.dispatch = some s') : s.timerKnown = true := by
  rw [dispatch, hevents] at hdispatch
  dsimp only at hdispatch
  split_ifs at hdispatch with hknown
  exact hknown

theorem awaited_of_step (hloop : s.dispatchTimeouts = true → s.timerKnown = true) {a : Action} {o : Option Result}
    (hstep : s.step a = some (o, s')) (hlt : h < s.next) (hawaited : s'.Awaited h) : s.Awaited h := by
  rcases step_cases hstep with ⟨ns, -, rfl⟩ | ⟨fd, timeout, -, hqueue⟩ | ⟨ready, -, hwait⟩ |
    ⟨-, hdispatch⟩ | ⟨handle, available, res, -, hresume⟩
  · exact hawaited
  · have hkept := queue_kept hqueue hlt.ne
    obtain ⟨timer, timeoutList, -, rfl⟩ := queue_cases hqueue
    rcases hawaited with ⟨fd', harmed⟩ | hannounced | hkept'
    · dsimp only at harmed
      split_ifs at harmed with hfd
      · cases harmed
        exact absurd hlt (lt_irrefl _)
      · exact .inl ⟨fd', harmed⟩
    · exact .inr (.inl hannounced)
    · exact .inr (.inr (hkept.1 hkept'))
  · obtain ⟨-, -, rfl⟩ := wait_cases hwait
    rcases hawaited with ⟨fd', harmed⟩ | hannounced | hkept
    · dsimp only at harmed
      split_ifs at harmed
      exact .inl ⟨fd', harmed⟩
    · obtain ⟨fd, -, harmed⟩ := mem_announced_event.1 hannounced
      exact .inl ⟨fd, harmed⟩
    · exact .inr (.inr hkept)
  · rcases dispatch_cases hdispatch with ⟨events, hevents, rfl⟩ | ⟨handle, flags, events, hevents, rfl⟩ |
      ⟨-, -, timer, flag, now, rfl⟩ | ⟨hevents, now, op, -, htop, -, -, rfl⟩ |
      ⟨hevents, now, op, -, htop, -, -, rfl⟩
    · rwa [Awaited, announced_timer hevents] at hawaited
    · rw [Awaited, announced_op hevents, List.mem_cons]
      rcases hawaited with harmed | hmem | hkept
      · exact .inl harmed
      · exact .inr (.inl (.inr hmem))
      · exact .inr ((kept_hand.1 hkept).imp .inl id)
    · exact hawaited
    · rcases hawaited with harmed | hmem | hpool | ⟨hknown, op', hop', rfl⟩
      · exact .inl harmed
      · exact .inr (.inl hmem)
      · exact .inr (.inr (.inl hpool))
      · exact .inr (.inr (.inr ⟨hknown, op', PriorityQueue.mem_of_mem_pop hop', rfl⟩))
    · rcases hawaited with harmed | hmem | hkept
      · exact .inl harmed
      · exact .inr (.inl hmem)
      · refine .inr (.inr ?_)
        rcases kept_hand.1 hkept with rfl | hpool | ⟨hknown, op', hop', rfl⟩
        · exact .inr ⟨loop_of_dispatch hloop hevents hdispatch, op, PriorityQueue.mem_of_top htop, rfl⟩
        · exact .inl hpool
        · exact .inr ⟨hknown, op', PriorityQueue.mem_of_mem_pop hop', rfl⟩
  · obtain ⟨-, rfl⟩ := resume_eq hresume
    rcases hawaited with ⟨fd, harmed⟩ | hmem | hpool | htimeout
    · dsimp only at harmed
      split_ifs at harmed
      exact .inl ⟨fd, harmed⟩
    · exact .inr (.inl hmem)
    · exact .inr (.inr (.inl (List.mem_of_mem_erase hpool)))
    · exact .inr (.inr (.inr htimeout))

theorem le_next_of_step {a : Action} {o : Option Result} (hstep : s.step a = some (o, s')) : s.next ≤ s'.next := by
  rcases step_cases hstep with ⟨ns, -, rfl⟩ | ⟨fd, timeout, -, hqueue⟩ | ⟨ready, -, hwait⟩ |
    ⟨-, hdispatch⟩ | ⟨handle, available, res, -, hresume⟩
  · exact le_rfl
  · obtain ⟨timer, timeoutList, -, rfl⟩ := queue_cases hqueue
    exact Nat.le_succ _
  · obtain ⟨-, -, rfl⟩ := wait_cases hwait
    exact le_rfl
  · rcases dispatch_cases hdispatch with ⟨events, hevents, rfl⟩ | ⟨handle, flags, events, hevents, rfl⟩ |
      ⟨-, -, timer, flag, now, rfl⟩ | ⟨-, now, op, -, -, -, -, rfl⟩ | ⟨-, now, op, -, -, -, -, rfl⟩
    all_goals exact le_rfl
  · obtain ⟨-, rfl⟩ := resume_eq hresume
    exact le_rfl

/-- Only what is in the pool is done next. -/
theorem done_of_step {a : Action} {o : Option Result} (hstep : s.step a = some (o, s')) (hdone : s'.done h = true) :
    s.done h = true ∨ h ∈ s.pool := by
  rcases step_cases hstep with ⟨ns, -, rfl⟩ | ⟨fd, timeout, -, hqueue⟩ | ⟨ready, -, hwait⟩ |
    ⟨-, hdispatch⟩ | ⟨handle, available, res, -, hresume⟩
  · exact .inl hdone
  · obtain ⟨timer, timeoutList, -, rfl⟩ := queue_cases hqueue
    exact .inl hdone
  · obtain ⟨-, -, rfl⟩ := wait_cases hwait
    exact .inl hdone
  · rcases dispatch_cases hdispatch with ⟨events, hevents, rfl⟩ | ⟨handle, flags, events, hevents, rfl⟩ |
      ⟨-, -, timer, flag, now, rfl⟩ | ⟨-, now, op, -, -, -, -, rfl⟩ | ⟨-, now, op, -, -, -, -, rfl⟩
    all_goals exact .inl hdone
  · obtain ⟨hpool, rfl⟩ := resume_eq hresume
    dsimp only at hdone
    split_ifs at hdone with heq
    · exact .inr (heq ▸ hpool)
    · exact .inl hdone

/-- An operation that was queued, is not done, and cannot be completed. -/
structure Forgotten (s : Scheduler) (h : ℕ) : Prop where
  lt : h < s.next
  done : s.done h = false
  awaited : ¬s.Awaited h

theorem Forgotten.step (hs : s.Forgotten h) (hloop : s.dispatchTimeouts = true → s.timerKnown = true) {a : Action}
    {o : Option Result} (hstep : s.step a = some (o, s')) : s'.Forgotten h where
  lt := hs.lt.trans_le (le_next_of_step hstep)
  done := by
    rw [← Bool.not_eq_true]
    intro hdone
    rcases done_of_step hstep hdone with hdone | hpool
    · rw [hs.done] at hdone
      cases hdone
    · exact hs.awaited (.inr (.inr (.inl hpool)))
  awaited hawaited := hs.awaited (awaited_of_step hloop hstep hs.lt hawaited)

theorem noneForgotten_iff : s.NoneForgotten ↔ ∀ h, ¬s.Forgotten h := by
  refine forall_congr' fun h => ?_
  constructor
  · rintro hs ⟨hlt, hdone, hawaited⟩
    rcases hs hlt with hdone' | hawaited'
    · rw [hdone] at hdone'
      cases hdone'
    · exact hawaited hawaited'
  · intro hs hlt
    by_contra hnot
    rw [not_or, Bool.not_eq_true] at hnot
    exact hs ⟨hlt, hnot.1, hnot.2⟩

/-! ## What the steps keep -/

theorem Placed.queue (hs : s.Placed) {fd timeout : ℕ} (hqueue : s.queue fd timeout = some s') : s'.Placed := by
  have hnew : s.next ∉ s.announced ∧ s.next ∉ s.pool ∧ s.done s.next ≠ true :=
    ⟨fun hmem => lt_irrefl _ (hs.announced _ hmem), fun hpool => lt_irrefl _ (hs.pool _ hpool),
      fun hdone => lt_irrefl _ (hs.done _ hdone)⟩
  obtain ⟨timer, timeoutList, htimeouts, rfl⟩ := queue_cases hqueue
  refine ⟨hs.loop, fun fd' h' harmed => ?_, fun h' hmem => Nat.lt_succ_of_lt (hs.announced h' hmem),
    fun h' hpool => Nat.lt_succ_of_lt (hs.pool h' hpool), fun op hop => ?_,
    fun h' hdone => Nat.lt_succ_of_lt (hs.done h' hdone)⟩
  · dsimp only at harmed ⊢
    split_ifs at harmed with hfd
    · cases harmed
      rw [if_pos rfl, hfd]
      exact ⟨rfl, Nat.lt_succ_self _, hnew.1, Bool.not_eq_true _ ▸ hnew.2.2,
        fun hpool => absurd hpool hnew.2.1⟩
    · obtain ⟨hfd', hlt, hrest⟩ := hs.armed fd' h' harmed
      rw [if_neg hlt.ne]
      exact ⟨hfd', Nat.lt_succ_of_lt hlt, hrest⟩
  · rcases htimeouts op hop with heq | hop
    · exact heq ▸ Nat.lt_succ_self _
    · exact Nat.lt_succ_of_lt (hs.timeouts op hop)

theorem Placed.wait (hs : s.Placed) {ready : List Ready} (hwait : s.wait ready = some s') : s'.Placed := by
  obtain ⟨-, -, rfl⟩ := wait_cases hwait
  refine ⟨hs.loop, fun fd h harmed => ?_, fun h hmem => ?_, hs.pool, hs.timeouts, hs.done⟩
  · dsimp only at harmed
    split_ifs at harmed with hfd
    obtain ⟨hfd', hlt, -, hrest⟩ := hs.armed fd h harmed
    refine ⟨hfd', hlt, fun hmem => hfd ?_, hrest⟩
    obtain ⟨fd₁, hfd₁, harmed₁⟩ := mem_announced_event.1 hmem
    rwa [← (hs.armed fd₁ h harmed₁).1, hfd'] at hfd₁
  · obtain ⟨fd, -, harmed⟩ := mem_announced_event.1 hmem
    exact (hs.armed fd h harmed).2.1

/-- A coroutine that is waited for is given to the pool for a timeout only. -/
theorem Placed.hand (hs : s.Placed) {handle : ℕ} {res : Result} {events : List Event}
    {timeoutList : PriorityQueue TimeoutOperation.timeoutAt} (hlt : handle < s.next)
    (hevents : events.filterMap Event.handle? ⊆ s.announced)
    (harmed : ∀ fd, s.armed fd = some handle → res.err = some .timedOut)
    (htimeouts : ∀ op ∈ timeoutList.entries, op ∈ s.timeoutList.entries) :
    (hand { s with events, timeoutList } handle res).Placed := by
  refine ⟨hs.loop, fun fd h hfd => ?_, fun h hmem => hs.announced h (hevents hmem), fun h hpool => ?_,
    fun op hop => hs.timeouts op (htimeouts op hop), hs.done⟩
  · obtain ⟨hfd', hlt', hannounced, hdone, hpool⟩ := hs.armed fd h hfd
    refine ⟨hfd', hlt', fun hmem => hannounced (hevents hmem), hdone, fun hmem => ?_⟩
    change (if h = handle then res else s.result h).err = _
    split_ifs with heq
    · exact harmed fd (heq ▸ hfd)
    · refine hpool ((List.mem_append.1 (show h ∈ s.pool ++ [handle] from hmem)).resolve_right fun hmem => heq ?_)
      exact List.mem_singleton.1 hmem
  · rcases List.mem_append.1 hpool with hpool | hpool
    · exact hs.pool h hpool
    · exact List.mem_singleton.1 hpool ▸ hlt

theorem Placed.dispatch (hs : s.Placed) (hdispatch : s.dispatch = some s') : s'.Placed := by
  rcases dispatch_cases hdispatch with ⟨events, hevents, rfl⟩ | ⟨handle, flags, events, hevents, rfl⟩ |
    ⟨hevents, -, timer, flag, now, rfl⟩ | ⟨-, now, op, -, htop, -, -, rfl⟩ | ⟨-, now, op, -, htop, -, -, rfl⟩
  · have hannounced := announced_timer hevents
    exact ⟨fun _ => timerKnown_of_dispatch (s := s) hevents hdispatch, by rw [hannounced]; exact hs.armed,
      by rw [hannounced]; exact hs.announced, hs.pool, hs.timeouts, hs.done⟩
  · have hannounced := announced_op hevents
    have hmem : handle ∈ s.announced := hannounced ▸ List.mem_cons_self
    refine hs.hand (hs.announced handle hmem) ?_ (fun fd harmed => absurd hmem (hs.armed fd handle harmed).2.2.1)
      fun op hop => hop
    rw [hannounced]
    exact List.subset_cons_self _ _
  · exact ⟨fun _ => loop_of_dispatch (s := s) hs.loop hevents hdispatch, hs.armed, hs.announced, hs.pool, hs.timeouts,
      hs.done⟩
  · exact ⟨hs.loop, hs.armed, hs.announced, hs.pool,
      fun op' hop' => hs.timeouts op' (PriorityQueue.mem_of_mem_pop hop'), hs.done⟩
  · refine hs.hand (hs.timeouts op (PriorityQueue.mem_of_top htop)) ?_ (fun _ _ => rfl)
      fun op' hop' => PriorityQueue.mem_of_mem_pop hop'
    exact fun _ hmem => hmem

theorem Placed.resume (hs : s.Placed) {handle available : ℕ} {res : Result}
    (hresume : s.resume handle available = some (res, s')) : s'.Placed := by
  obtain ⟨hpool, rfl⟩ := resume_eq hresume
  refine ⟨hs.loop, fun fd h harmed => ?_, hs.announced, fun h hmem => hs.pool h (List.mem_of_mem_erase hmem),
    hs.timeouts, fun h hdone => ?_⟩
  · dsimp only at harmed ⊢
    split_ifs at harmed with htimedOut
    obtain ⟨hfd, hlt, hannounced, hdone, hresult⟩ := hs.armed fd h harmed
    have hne : h ≠ handle := by
      -- Given to the pool while it is waited for, it has timed out.
      rintro rfl
      exact htimedOut ⟨hresult hpool, hfd.symm⟩
    rw [if_neg hne]
    exact ⟨hfd, hlt, hannounced, hdone, fun hmem => hresult (List.mem_of_mem_erase hmem)⟩
  · dsimp only at hdone
    split_ifs at hdone with heq
    · exact heq ▸ hs.pool handle hpool
    · exact hs.done h hdone

theorem Placed.step (hs : s.Placed) {a : Action} {o : Option Result} (hstep : s.step a = some (o, s')) : s'.Placed := by
  rcases step_cases hstep with ⟨ns, rfl, rfl⟩ | ⟨fd, timeout, rfl, hqueue⟩ | ⟨ready, rfl, hwait⟩ |
    ⟨rfl, hdispatch⟩ | ⟨handle, available, res, rfl, hresume⟩
  · exact ⟨hs.loop, hs.armed, hs.announced, hs.pool, hs.timeouts, hs.done⟩
  · exact hs.queue hqueue
  · exact hs.wait hwait
  · exact hs.dispatch hdispatch
  · exact hs.resume hresume

/-! ## What the steps forget -/

theorem NoneForgotten.queue (hnone : s.NoneForgotten) {fd timeout : ℕ}
    (hspares : s.Spares (.queue fd timeout)) (hqueue : s.queue fd timeout = some s') : s'.NoneForgotten := by
  have hkept : ∀ h ≠ s.next, s'.Kept h ↔ s.Kept h := fun h hne => queue_kept hqueue hne
  obtain ⟨timer, timeoutList, -, rfl⟩ := queue_cases hqueue
  intro h hlt
  rcases Nat.lt_succ_iff_lt_or_eq.1 hlt with hlt | rfl
  · rcases hnone h hlt with hdone | ⟨fd', harmed⟩ | hmem | hk
    · exact .inl hdone
    · by_cases hfd : fd' = fd
      · exact .inr (.inr (.inr ((hkept h hlt.ne).2 (hspares h (hfd ▸ harmed)))))
      · exact .inr (.inl ⟨fd', (if_neg hfd).trans harmed⟩)
    · exact .inr (.inr (.inl hmem))
    · exact .inr (.inr (.inr ((hkept h hlt.ne).2 hk)))
  · exact .inr (.inl ⟨fd, if_pos rfl⟩)

theorem NoneForgotten.wait (hnone : s.NoneForgotten) {ready : List Ready} (hwait : s.wait ready = some s') :
    s'.NoneForgotten := by
  obtain ⟨hevents, -, rfl⟩ := wait_cases hwait
  intro h hlt
  rcases hnone h hlt with hdone | ⟨fd, harmed⟩ | hmem | hkept
  · exact .inl hdone
  · by_cases hfd : some fd ∈ ready.map Ready.source
    · exact .inr (.inr (.inl (mem_announced_event.2 ⟨fd, hfd, harmed⟩)))
    · exact .inr (.inl ⟨fd, (if_neg hfd).trans harmed⟩)
  · rw [announced, hevents] at hmem
    cases hmem
  · exact .inr (.inr (.inr hkept))

theorem NoneForgotten.dispatch (hnone : s.NoneForgotten) (hdispatch : s.dispatch = some s') : s'.NoneForgotten := by
  rcases dispatch_cases hdispatch with ⟨events, hevents, rfl⟩ | ⟨handle, flags, events, hevents, rfl⟩ |
    ⟨-, -, timer, flag, now, rfl⟩ | ⟨-, now, op, -, htop, -, hdone', rfl⟩ | ⟨-, now, op, -, htop, -, -, rfl⟩
  · intro h hlt
    rw [Awaited, announced_timer hevents]
    exact hnone h hlt
  · intro h hlt
    have hh := hnone h hlt
    rw [Awaited, announced_op hevents, List.mem_cons] at hh
    rcases hh with hdone | harmed | (rfl | hmem) | hkept
    · exact .inl hdone
    · exact .inr (.inl harmed)
    · exact .inr (.inr (.inr (kept_hand.2 (.inl rfl))))
    · exact .inr (.inr (.inl hmem))
    · exact .inr (.inr (.inr (kept_hand.2 (.inr hkept))))
  · exact hnone
  · intro h hlt
    rcases hnone h hlt with hdone | harmed | hmem | hpool | ⟨hknown, op', hop', rfl⟩
    · exact .inl hdone
    · exact .inr (.inl harmed)
    · exact .inr (.inr (.inl hmem))
    · exact .inr (.inr (.inr (.inl hpool)))
    · rcases mem_pop_or_top hop' htop with rfl | hop'
      · exact .inl hdone'
      · exact .inr (.inr (.inr (.inr ⟨hknown, op', hop', rfl⟩)))
  · intro h hlt
    rcases hnone h hlt with hdone | harmed | hmem | hpool | ⟨hknown, op', hop', rfl⟩
    · exact .inl hdone
    · exact .inr (.inl harmed)
    · exact .inr (.inr (.inl hmem))
    · exact .inr (.inr (.inr (kept_hand.2 (.inr (.inl hpool)))))
    · refine .inr (.inr (.inr (kept_hand.2 ?_)))
      exact (mem_pop_or_top hop' htop).imp (congrArg _) fun hop' => .inr ⟨hknown, op', hop', rfl⟩

theorem NoneForgotten.resume (hnone : s.NoneForgotten) {handle available : ℕ}
    (hspares : s.Spares (.resume handle available)) {res : Result}
    (hresume : s.resume handle available = some (res, s')) : s'.NoneForgotten := by
  obtain ⟨-, rfl⟩ := resume_eq hresume
  intro h hlt
  by_cases heq : h = handle
  · exact .inl (if_pos heq)
  have hkept : ∀ {armed pool done}, s.Kept h → pool = s.pool.erase handle →
      Kept { s with armed, pool, done } h := by
    rintro armed pool done hk rfl
    exact hk.imp_left (List.mem_erase_of_ne heq).2
  rcases hnone h hlt with hdone | ⟨fd, harmed⟩ | hmem | hk
  · exact .inl ((if_neg heq).trans hdone)
  · by_cases htimedOut : (s.result handle).err = some .timedOut ∧ fd = s.fd handle
    · exact .inr (.inr (.inr (hkept (hspares htimedOut.1 h (htimedOut.2 ▸ harmed) heq) rfl)))
    · exact .inr (.inl ⟨fd, (if_neg htimedOut).trans harmed⟩)
  · exact .inr (.inr (.inl hmem))
  · exact .inr (.inr (.inr (hkept hk rfl)))

theorem NoneForgotten.step (hnone : s.NoneForgotten) {a : Action} {o : Option Result}
    (hspares : s.Spares a) (hstep : s.step a = some (o, s')) : s'.NoneForgotten := by
  rcases step_cases hstep with ⟨ns, rfl, rfl⟩ | ⟨fd, timeout, rfl, hqueue⟩ | ⟨ready, rfl, hwait⟩ |
    ⟨rfl, hdispatch⟩ | ⟨handle, available, res, rfl, hresume⟩
  · exact hnone
  · exact hnone.queue hspares hqueue
  · exact hnone.wait hwait
  · exact hnone.dispatch hdispatch
  · exact hnone.resume hspares hresume

/-- Who is overwritten, and has nothing else, is forgotten. -/
theorem Placed.not_noneForgotten (hs : s.Placed) {a : Action} {o : Option Result} (hspares : ¬s.Spares a)
    (hstep : s.step a = some (o, s')) : ¬s'.NoneForgotten := by
  rw [noneForgotten_iff, not_forall_not]
  rcases step_cases hstep with ⟨ns, rfl, -⟩ | ⟨fd, timeout, rfl, hqueue⟩ | ⟨ready, rfl, -⟩ |
    ⟨rfl, -⟩ | ⟨handle, available, res, rfl, hresume⟩
  · exact absurd trivial hspares
  · simp only [Spares, not_forall] at hspares
    obtain ⟨h, harmed, hkept⟩ := hspares
    obtain ⟨hfd, hlt, hannounced, hdone, -⟩ := hs.armed fd h harmed
    have hkept' := mt (queue_kept hqueue hlt.ne).1 hkept
    obtain ⟨timer, timeoutList, -, rfl⟩ := queue_cases hqueue
    refine ⟨h, Nat.lt_succ_of_lt hlt, hdone, ?_⟩
    rintro (⟨fd', harmed'⟩ | hmem | hk)
    · dsimp only at harmed'
      split_ifs at harmed' with hfd'
      · exact hlt.ne (Option.some.inj harmed').symm
      · exact hfd' ((hs.armed fd' h harmed').1.symm.trans hfd)
    · exact hannounced hmem
    · exact hkept' hk
  · exact absurd trivial hspares
  · exact absurd trivial hspares
  · simp only [Spares, not_forall] at hspares
    obtain ⟨htimedOut, h, harmed, hne, hkept⟩ := hspares
    obtain ⟨hfd, hlt, hannounced, hdone, -⟩ := hs.armed _ h harmed
    obtain ⟨-, rfl⟩ := resume_eq hresume
    refine ⟨h, hlt, (if_neg hne).trans hdone, ?_⟩
    rintro (⟨fd', harmed'⟩ | hmem | hk)
    · dsimp only at harmed'
      split_ifs at harmed' with hfd'
      exact hfd' ⟨htimedOut, (hs.armed fd' h harmed').1.symm.trans hfd⟩
    · exact hannounced hmem
    · exact hkept (hk.imp_left List.mem_of_mem_erase)

/-- In every run, each operation that was queued is done, or may still be completed, as long as no coroutine is
    overwritten for which there is nothing else, and not any longer; whatever comes after that, one that is forgotten
    is not resumed. A timeout is something else only in a loop that knows the events of its timer. -/
theorem forgotten_iff {timerKnown : Bool} {as : List Action} {os : List (Option Result)}
    (hexec : exec step { timerKnown } as = some (os, s)) :
    (s.NoneForgotten ↔ Along step Spares { timerKnown } as) ∧
      ∀ h, s.Forgotten h → ∀ as' os' s', exec step s as' = some (os', s') → s'.Forgotten h := by
  have hplaced : s.Placed := exec_invariant Placed (fun _ _ _ _ hs hstep => hs.step hstep) (placed_new timerKnown) hexec
  refine ⟨?_, fun h hs as' os' s' hexec' => ?_⟩
  · exact exec_iff_along_of_invariant Placed NoneForgotten (P := NoneForgotten) (fun _ _ _ _ hs hstep => hs.step hstep)
      (fun _ hs => hs) (fun _ _ _ _ hs hspares hstep => hs.step hspares hstep)
      (fun _ _ _ _ hs _ hspares hstep => hs.not_noneForgotten hspares hstep)
      (fun _ _ _ _ hs hstep hnone =>
        noneForgotten_iff.2 fun h hforgotten => noneForgotten_iff.1 hnone h (hforgotten.step hs.loop hstep))
      (placed_new timerKnown) (fun h hlt => by cases hlt) hexec
  · exact (exec_invariant (fun s => s.Placed ∧ s.Forgotten h)
      (fun _ _ _ _ hs hstep => ⟨hs.1.step hstep, hs.2.step hs.1.loop hstep⟩) ⟨hplaced, hs⟩ hexec').2

/-- A coroutine that reads is never resumed, if another one writes to the same descriptor in the meantime: its timeout
    does not help it, as the code is. -/
theorem forgotten_iff_two : ∃ os s, exec step { timerKnown := false } [.queue 7 5, .queue 7 0] = some (os, s) ∧
    ∀ as' os' s', exec step s as' = some (os', s') → s'.Forgotten 0 := by
  refine ⟨_, _, rfl, fun as' os' s' h => ?_⟩
  refine (@forgotten_iff _ false [.queue 7 5, .queue 7 0] _ rfl).2 0 ⟨by decide, rfl, ?_⟩ as' os' s' h
  rintro (⟨fd, harmed⟩ | hmem | hpool | ⟨hknown, -⟩)
  · dsimp only at harmed
    split_ifs at harmed
    cases harmed
  · cases hmem
  · cases hpool
  · cases hknown

end Cppnet.Io.Scheduler
